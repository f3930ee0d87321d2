import Cilly.Proofs.LoopExits
import Cilly.Proofs.ScopeDiscipline

/-!
# What a run leaves of its program

The scopes of a program come first in the store of a machine that runs it, and a run starts with all of them open. So a
variable that is stored too far out replaces a name of the program, and calls look parameters up among these names.

It does not come to that as long as at least those scopes are open that the text promises (`owned`), and they are new
ones (`Fresh`). A `break` starts the program over with scopes left open, and a call takes its arguments from
whatever is on the stack; neither makes the open scopes fewer. What does is a `continue` in a function whose loop is outside of the
function: it leads to where the blocks around that loop should be open. Of programs without such a `continue`, whatever becomes of a
run, the program is what it was (`run_keeps_program`).
-/

namespace Cilly

open Acting Node Layout List
open MachineM hiding outcome

variable {pc : Int} {γ : Type}

/-! ## Scopes that the text promises -/

/-- How many scopes a function has opened: one for its parameters, and one for each block. -/
def owned : List Mark → Nat
  | [] => 0
  | .function :: _ => 1
  | .block :: outer => owned outer + 1
  | .loose :: outer | .loop .. :: outer => owned outer

theorem Setting.Within.owned {set : Setting} (h : Within ⟨[], [], none⟩ set) : set.scopes.length = owned set.shape := by
  induction h with
  | refl => rfl
  | loose _ ih | inLoop _ _ _ ih => exact ih
  | inBlock _ _ _ ih => exact congrArg (· + 1) ih
  | inFunction => rfl

section

variable {shape inner outer : List Mark} {y : Spot} {start stop : Nat}

theorem Enters.owned (h : Enters shape y) : owned y.shape = owned shape := by
  rcases h with h | ⟨stop, h⟩
  · rw [h]
  · rw [h]
    rfl

theorem After.owned (h : After shape y) : owned y.shape = owned shape := by
  rcases h with h | ⟨-, h⟩
  · rw [h]
    rfl
  · exact h.owned

theorem Onward.owned (h : Onward shape y) : owned y.shape = owned shape := by
  cases h with
  | enters h => exact h.owned
  | again h =>
    rw [h]
    rfl
  | after h => exact h.owned
  | afterLoose h => exact h.owned
  | afterLoop h => exact h.owned

@[simp] theorem isSome_ownLoop?_block : (ownLoop? (.block :: shape)).isSome = (ownLoop? shape).isSome := by
  rw [ownLoop?, Option.isSome_map]

/-- A loop of the same function has no more scopes around it than what is inside of it. -/
theorem owned_le_of_ownLoop? (hinner : ∀ start stop, .loop start stop ∉ inner)
    (hown : (ownLoop? (inner ++ .loop start stop :: outer)).isSome = true) :
    owned (.loop start stop :: outer) ≤ owned (inner ++ .loop start stop :: outer) := by
  induction inner with
  | nil => exact Nat.le_refl _
  | cons mark inner ih =>
    have hrest : ∀ start stop, .loop start stop ∉ inner := fun start stop hmem => hinner start stop (mem_cons_of_mem _ hmem)
    cases mark with
    | function => cases hown
    | loop start' stop' => exact absurd (mem_cons_self ..) (hinner start' stop')
    | loose => exact ih hrest hown
    | block =>
      rw [cons_append, isSome_ownLoop?_block] at hown
      exact Nat.le_succ_of_le (ih hrest hown)

end

/-! ## Where a `continue` leads -/

/-- Every `continue` among instructions is known, with whether its loop is in its own function. -/
def Recorded (spots : List Spot) (exits : List Exit) : Prop :=
  ∀ x ∈ spots, ∀ target, x.instr = .continueLoop target → .continues (ownLoop? x.shape).isSome ∈ exits

namespace Recorded

variable {spots more : List Spot} {exits exits' : List Exit} {x : Spot}

theorem append (h : Recorded spots exits) (h' : Recorded more exits') : Recorded (spots ++ more) (exits ++ exits') := by
  intro x hx target hinstr
  rcases mem_append.mp hx with hx | hx
  · exact mem_append_left _ (h x hx target hinstr)
  · exact mem_append_right _ (h' x hx target hinstr)

theorem idle (h : ∀ x ∈ spots, Tallied.Idle x.instr) : Recorded spots exits := by
  intro x hx target hinstr
  have hidle := (h x hx).2
  rw [hinstr] at hidle
  cases hidle

theorem behind (h : Recorded spots exits) (hmore : ∀ x ∈ more, Tallied.Idle x.instr) : Recorded (more ++ spots) exits :=
  append (idle hmore : Recorded more []) h

theorem before (h : Recorded spots exits) (hmore : ∀ x ∈ more, Tallied.Idle x.instr) : Recorded (spots ++ more) exits := by
  have hall := h.append (idle hmore : Recorded more [])
  rwa [append_nil] at hall

theorem cons (h : Recorded spots exits) (hx : Tallied.Idle x.instr) : Recorded (x :: spots) exits :=
  h.behind (forall_mem_singleton.mpr hx)

end Recorded

namespace Layout

variable (prims : List String)

theorem block_recorded {body : List Node} {exits : List Exit} {shape : List Mark} {s : Point}
    (h : Recorded (statements prims (.block :: shape) s.inBlock body) exits) :
    Recorded (statement prims shape s (.block body)) exits := by
  rw [statement]
  have hidle : Tallied.Idle (⟨(nextAll prims s.inBlock body).here, .leave, .block :: shape⟩ : Spot).instr := ⟨rfl, rfl⟩
  have hleave := h.before (forall_mem_singleton.mpr hidle)
  intro x hx target hinstr
  rcases mem_cons.mp hx with rfl | hx
  · cases hinstr
  · exact hleave x hx target hinstr

mutual

theorem statement_recorded : ∀ {n : Node}, IsStat n → ∀ (shape : List Mark) (s : Point),
    Recorded (statement prims shape s n) (exits (ownLoop? shape).isSome n)
  | _, .exprStat he, shape, s => by
    rw [statement]
    exact .idle (forall_mem_append.mpr
      ⟨expression_idle prims _ shape he _, forall_mem_singleton.mpr ⟨rfl, rfl⟩⟩)
  | _, .print hargs, shape, s => by
    rw [statement]
    exact .idle (forall_mem_append.mpr
      ⟨printed_idle prims _ shape hargs _, forall_mem_singleton.mpr ⟨rfl, rfl⟩⟩)
  | _, .ifThen hcond hyes, shape, s => by
    rw [statement, exits]
    exact ((statement_recorded hyes shape _).cons ⟨rfl, rfl⟩).behind (expression_idle prims _ shape hcond _)
  | _, .ifElse hcond hyes hno, shape, s => by
    rw [statement, exits]
    exact (((statement_recorded hyes shape _).append ((statement_recorded hno shape _).cons ⟨rfl, rfl⟩)).cons
      ⟨rfl, rfl⟩).behind (expression_idle prims _ shape hcond _)
  | _, .loop hcond hbody, shape, s => by
    rw [statement, exits]
    exact (((statement_recorded hbody (.loop _ _ :: shape) _).before (forall_mem_singleton.mpr ⟨rfl, rfl⟩)).cons
      ⟨rfl, rfl⟩).behind (expression_idle prims _ _ hcond _)
  | _, .breakLoop, shape, s => by
    rw [statement]
    intro x hx target hinstr
    split at hx <;> (rw [mem_singleton.mp hx] at hinstr; cases hinstr)
  | _, .continueLoop, shape, s => by
    rw [statement, exits]
    split
    · intro x hx target hinstr
      rw [mem_singleton.mp hx]
      exact mem_singleton_self _
    · exact .idle (forall_mem_singleton.mpr ⟨rfl, rfl⟩)
  | _, .block hbody, shape, s => by
    rw [exits]
    have hinside := statements_recorded hbody (.block :: shape) s.inBlock
    rw [isSome_ownLoop?_block] at hinside
    exact block_recorded prims hinside
  | _, @IsStat.function x xs body hbody, shape, s => by
    have hinside := statements_recorded hbody (.block :: .function :: shape) (s.inFunction x xs).inBlock
    rw [isSome_ownLoop?_block] at hinside
    rw [statement_function, exits, exits]
    exact ((block_recorded prims hinside).before (forall_mem_cons.mpr ⟨⟨rfl, rfl⟩, forall_mem_cons.mpr
      ⟨⟨rfl, rfl⟩, forall_mem_singleton.mpr (storing_idle s.toNames x)⟩⟩)).cons ⟨rfl, rfl⟩
  | _, .define x hvalue hne, shape, s => by
    rw [statement_variable _ hne]
    exact .idle (forall_mem_append.mpr
      ⟨expression_idle prims _ shape hvalue _, forall_mem_singleton.mpr (storing_idle s.toNames x)⟩)
  | _, .assign x hvalue, shape, s => by
    rw [statement]
    exact .idle (forall_mem_append.mpr ⟨expression_idle prims _ shape hvalue _,
      forall_mem_singleton.mpr (assigning_idle prims s.toNames x)⟩)
  | _, .return, shape, s => by
    rw [statement]
    split <;> exact .idle (forall_mem_singleton.mpr ⟨rfl, rfl⟩)
  | _, .returnValue hvalue, shape, s => by
    rw [statement]
    refine .idle (forall_mem_append.mpr
      ⟨expression_idle prims _ shape hvalue _, forall_mem_singleton.mpr ?_⟩)
    dsimp only
    split <;> exact ⟨rfl, rfl⟩

theorem statements_recorded : ∀ {ns : List Node}, AreStats ns → ∀ (shape : List Mark) (s : Point),
    Recorded (statements prims shape s ns) (exitsAll (ownLoop? shape).isSome ns)
  | _, .nil, shape, s => by simp [Recorded, statements]
  | _, .cons hn hns, shape, s => by
    rw [statements, exitsAll]
    exact (statement_recorded hn shape s).append (statements_recorded hns shape _)

end

theorem program_recorded {body : List Node} (hbody : AreStats body) :
    Recorded (program prims body) (exitsAll false body) :=
  block_recorded prims (statements_recorded prims hbody [.block] (origin body).inBlock)

end Layout

/-! ## Steps and the scopes of the program -/

/-- The innermost scopes, so many at least, are not of the program. -/
def Fresh (p : Program) (count : Nat) (chain : List Nat) : Prop :=
  ∀ d < count, ∃ id, chain[d]? = some id ∧ p.scopes.size ≤ id

namespace Fresh

variable {p : Program} {count : Nat} {chain : List Nat} {id : Nat}

theorem mono {fewer : Nat} (h : Fresh p count chain) (hle : fewer ≤ count) : Fresh p fewer chain :=
  fun d hd => h d (Nat.lt_of_lt_of_le hd hle)

theorem push (h : Fresh p count chain) (hid : p.scopes.size ≤ id) : Fresh p (count + 1) (id :: chain) := by
  intro d hd
  cases d with
  | zero => exact ⟨id, rfl, hid⟩
  | succ d => exact h d (Nat.lt_of_succ_lt_succ hd)

theorem pop (h : Fresh p (count + 1) (id :: chain)) : Fresh p count chain :=
  fun d hd => h (d + 1) (Nat.succ_lt_succ hd)

end Fresh

theorem Extends.modify {α : Type} {xs ys : Array α} (h : Extends xs ys) {k : Nat} (hk : xs.size ≤ k) (f : α → α) :
    Extends xs (ys.modify k f) := by
  intro i x hx
  have hi : i < xs.size := (Array.getElem?_eq_some_iff.mp hx).1
  rw [Array.getElem?_modify, if_neg (by omega)]
  exact h i x hx

/-- An action after which something still holds, whether it succeeds or not. -/
def Maintains {α : Type} (P : Machine → Prop) (x : MachineM α) : Prop := ∀ m, P m → P (outcome x m).2

namespace Maintains

variable {α β : Type} {P : Machine → Prop} {x : MachineM α} {f : α → MachineM β}

theorem of_bind {m : Machine} (hx : P (outcome x m).2) (hf : ∀ a, Maintains P (f a)) : P (outcome (x >>= f) m).2 := by
  rw [outcome_bind]
  cases h : outcome x m with
  | mk r m' =>
    rw [h] at hx
    cases r with
    | error e => exact hx
    | ok a => exact hf a m' hx

theorem bind (hx : Maintains P x) (hf : ∀ a, Maintains P (f a)) : Maintains P (x >>= f) :=
  fun m hm => of_bind (hx m hm) hf

end Maintains

/-- The machine runs the program, and its scopes are in the store as they were. -/
structure Intact (p : Program) (m : Machine) : Prop where
  program : m.program = p
  names : Extends p.scopes m.store

/-- What `Intact` is about. -/
def Machine.material (m : Machine) : Program × Array (Array Datum) := (m.program, m.store)

section

variable {α : Type} {p : Program} {m : Machine}

theorem apart_material : Apart Machine.material := ⟨fun _ _ => rfl, fun _ _ => rfl, fun _ _ => rfl⟩

theorem maintains_of_keeps {x : MachineM α} (h : Keeps Machine.material x) : Maintains (Intact p) x := by
  intro m hm
  obtain ⟨hprogram, hstore⟩ := Prod.mk.inj (h m)
  exact ⟨hprogram.trans hm.program, hstore ▸ hm.names⟩

theorem maintains_of_still {x : MachineM α} (h : Still x) : Maintains (Intact p) x := maintains_of_keeps (.of_still h)

theorem maintains_perform {op : Opcode} (hop : op ≠ .storeVar) (pc : Int) : Maintains (Intact p) (perform op pc) := by
  have hlenient : Lenient fun m m' => Intact p m → Intact p m' :=
    { refl := fun _ h => h
      trans := fun h h' hm => h' (h hm)
      stack := fun _ _ hm => ⟨hm.program, hm.names⟩
      printed := fun _ _ hm => ⟨hm.program, hm.names⟩
      log := fun _ _ hm => ⟨hm.program, hm.names⟩ }
  have hacts : Acts (fun m m' => Intact p m → Intact p m') (fun _ => True) _ (perform op pc) :=
    .perform (fun h => absurd h hop) (fun _ _ _ hm => ⟨hm.program, hm.names.trans (.push _ _)⟩)
      (fun _ _ _ hm => ⟨hm.program, hm.names⟩) (fun _ _ => trivial) pc
  exact fun m => (hacts m).1

/-- A variable is stored in a scope that is not of the program. -/
theorem intact_storeVar {depth id : Nat} (hintact : Intact p m)
    (hword : itemAt m.program.code (pc + 1) = .ok (depth : Int)) (hid : m.chain[depth]? = some id)
    (hfresh : p.scopes.size ≤ id) : Intact p (outcome (storeVar pc) m).2 := by
  unfold storeVar
  rw [bind_ok (outcome_word hword), bind_ok (outcome_scopeAt hid)]
  have hmodify : ∀ f : Array Datum → Array Datum,
      Maintains (Intact p) (modify fun m => { m with store := m.store.modify id f } : MachineM PUnit) :=
    fun f _ hm => ⟨hm.program, hm.names.modify hfresh f⟩
  refine Maintains.bind (maintains_of_still (.word _)) (fun i => ?_) m hintact
  refine (hmodify _).bind fun _ => (maintains_of_keeps (.pop apart_material)).bind fun v =>
    (maintains_of_still .get).bind fun m => ?_
  split
  · exact (hmodify _).bind fun _ => maintains_of_still (.pure _)
  · exact (maintains_of_still (.throw _)).bind fun _ => maintains_of_still (.pure _)

theorem Keeps.eq {V : Machine → γ} {x : MachineM α} {r : Except MachineError α} {m' : Machine} (h : Keeps V x)
    (hx : outcome x m = (r, m')) : V m' = V m := by
  have hsame := h m
  rwa [hx] at hsame

theorem chain_of_callRoutine {next : Int} {m' : Machine} (h : outcome (callRoutine pc) m = (.ok next, m')) :
    m'.chain = m.store.size :: m.chain := by
  let V : Machine → Array (Array Datum) × List Nat := fun m => (m.store, m.chain)
  have hV : Apart V := ⟨fun _ _ => rfl, fun _ _ => rfl, fun _ _ => rfl⟩
  unfold callRoutine at h
  obtain ⟨id, m₁, hword, h⟩ := bind_eq_ok.mp h
  have h₁ : V m₁ = V m := (Keeps.of_still (.word _)).eq hword
  rw [bind_ok (outcome_get m₁)] at h
  dsimp only at h
  split at h
  · obtain ⟨_, _, hrefuse, -⟩ := bind_eq_ok.mp h
    exact ((Quiet.refuse (P := fun _ => False) _ _).ok hrefuse).2.elim
  · obtain ⟨routine, m₂, hroutine, h⟩ := bind_eq_ok.mp h
    have h₂ : V m₂ = V m₁ := (Keeps.of_still (.ofFault _)).eq hroutine
    obtain ⟨size, m₃, hsize, h⟩ := bind_eq_ok.mp h
    have h₃ : V m₃ = V m₂ := (Keeps.of_still (.ofFault _)).eq hsize
    obtain ⟨cells, m₄, hcells, h⟩ := bind_eq_ok.mp h
    have h₄ : V m₄ = V m₃ := (Keeps.takeArguments hV _ _).eq hcells
    -- what remains opens the scope
    have hchain : m'.chain = m₄.store.size :: m₄.chain := by
      cases hentry : routine.entry with
      | none =>
        rw [hentry] at h
        cases h
      | some entry =>
        rw [hentry] at h
        cases h
        rfl
    obtain ⟨hstore, hsame⟩ := Prod.mk.inj (h₄.trans (h₃.trans (h₂.trans h₁)))
    rw [hchain, hstore, hsame]

end

/-! ## Runs -/

/-- A program in which every `continue` is in a loop of its own function, and no primitive is used as a variable. -/
structure Tame (primitives : List String) (body : List Node) (p : Program) : Prop where
  stats : AreStats body
  laid : p.LaidOut primitives body
  own : .continues false ∉ exitsAll false body
  proper : ∀ x ∈ usesAll body, ∀ s ∈ primitives, (Datum.text s).eq x = false

namespace Tame

variable {prims : List String} {body : List Node} {p : Program} {x : Spot}

theorem accessed (h : Tame prims body p) (hx : x ∈ program prims body) {depth index : Int}
    (hinstr : x.instr = .load depth index ∨ x.instr = .store depth index) : ∃ d : Nat, depth = d ∧ d < owned x.shape := by
  rw [← program_toSpot prims h.stats] at hx
  obtain ⟨x, hscene, rfl⟩ := mem_map.mp hx
  have hfits := program_fits prims h.stats x hscene
  replace hfits : ∃ y, x.subject = .variable y ∧ (x.view.Has depth index y ∨ y ∈ usesAll body ∧
      ((∃ z, z.eq y = true ∧ x.view.Has depth index z) ∨ Provides prims depth index y)) := by
    rcases hinstr with hinstr | hinstr <;> rwa [Scene.Fits, hinstr] at hfits
  have hscopes : ∀ {y : Datum}, x.view.Has depth index y → ∃ d : Nat, depth = d ∧ d < owned x.shape := by
    rintro y ⟨d, i, o, hdepth, -, ho, -⟩
    obtain ⟨inner, hwithin, hof⟩ :=
      statementScenes_inside prims (.block h.stats) ⟨[], [], none⟩ (origin body) x hscene
    refine ⟨d, hdepth, ?_⟩
    rw [hof.shape, ← hwithin.owned, ← hof.scopes]
    exact (List.getElem?_eq_some_iff.mp ho).1
  obtain ⟨y, -, hhas | ⟨hused, ⟨z, -, hhas⟩ | ⟨s, hs, heq, -⟩⟩⟩ := hfits
  · exact hscopes hhas
  · exact hscopes hhas
  · rw [h.proper y hused s hs] at heq
    cases heq

/-- A `break` is in the block of the program at least. -/
theorem owned_of_break (h : Tame prims body p) (hx : x ∈ program prims body) (hinstr : x.instr = .breakLoop) :
    1 ≤ owned x.shape := by
  have hdeep : ∀ {set inner : Setting}, set.Within inner → 1 ≤ owned set.shape → 1 ≤ owned inner.shape := by
    intro set inner hwithin hset
    induction hwithin with
    | refl => exact hset
    | loose _ ih | inLoop _ _ _ ih => exact ih
    | inBlock => exact Nat.le_add_left ..
    | inFunction => exact Nat.le_refl _
  rw [← program_toSpot prims h.stats] at hx
  obtain ⟨x, hscene, rfl⟩ := mem_map.mp hx
  rw [scenes, statementScenes] at hscene
  rcases mem_cons.mp hscene with rfl | hscene
  · cases hinstr
  · rcases mem_append.mp hscene with hscene | hscene
    · obtain ⟨inner, hwithin, hof⟩ := statementsScenes_inside prims h.stats _ _ x hscene
      rw [hof.shape]
      exact hdeep hwithin (Nat.le_refl _)
    · rw [mem_singleton.mp hscene] at hinstr
      cases hinstr

end Tame

namespace Machine

/-- At least the scopes that the text promises are open, here and where calls come back, and they are not of the program. -/
structure Sheltered (primitives : List String) (body : List Node) (p : Program) (m : Machine) :
    Prop extends Standing primitives body p m where
  names : Extends p.scopes m.store
  away : m.pc = -1 → Fresh p 1 m.chain
  scopes : ∀ y ∈ extent primitives body, m.pc = y.address → Fresh p (owned y.shape) m.chain
  pending : ∀ f ∈ m.frames, ∀ y ∈ extent primitives body, f.back = y.address → Fresh p (owned y.shape) f.chain

section

variable {prims : List String} {body : List Node} {p : Program} {m m' : Machine} {w : Int}

theorem fresh_at (hbody : AreStats body) {chain : List Nat} {y : Spot} (hy : y ∈ extent prims body)
    (hpc : pc = y.address) (h : Fresh p (owned y.shape) chain) :
    ∀ y ∈ extent prims body, pc = y.address → Fresh p (owned y.shape) chain := by
  intro z hz hpc'
  have haddress : y.address = z.address := Int.ofNat.inj (hpc.symm.trans hpc')
  rwa [← (extent_ordered prims hbody).unique hy hz haddress]

theorem fresh_at_start (hbody : AreStats body) {chain : List Nat} :
    ∀ y ∈ extent prims body, (0 : Int) = y.address → Fresh p (owned y.shape) chain := by
  obtain ⟨y, hy, haddress, hshape⟩ := (program_linked prims hbody).first
  refine fresh_at hbody hy (by rw [haddress]; rfl) ?_
  rw [hshape]
  intro d hd
  cases hd

theorem Sheltered.start (hbody : AreStats body) (signals : List Signal) :
    Sheltered prims body p (Machine.start p signals) where
  toStanding := .start hbody signals
  names := .refl _
  away hpc := by cases hpc
  scopes := fresh_at_start hbody
  pending f hf := by cases hf

namespace Sheltered

theorem intact (h : Sheltered prims body p m) : Intact p m := ⟨h.program, h.names⟩

/-- Where a word is stored that is not the one for leaving a scope, an instruction of the layout stands. -/
theorem instr_of_fetch (h : Sheltered prims body p m) (htame : Tame prims body p)
    (hfetch : itemAt m.program.code m.pc = .ok Opcode.storeVar.word) :
    ∃ x ∈ Layout.program prims body, m.pc = x.address ∧ x.instr.In m.program x.address := by
  rcases h.here with hpc | ⟨x, hx, hpc⟩
  · rw [hpc, h.program, itemAt_neg_one htame.laid.back?] at hfetch
    cases hfetch
  · rcases mem_append.mp hx with hx | hx
    · refine ⟨x, hx, hpc, ?_⟩
      rw [h.program]
      exact htame.laid.follows x hx
    -- there is no word at the end
    · have hend : m.pc = m.program.code.size := by
        rw [hpc, mem_singleton.mp hx, h.program, htame.laid.size]
      exact absurd hend (Int.ne_of_lt (lt_size_of_itemAt hfetch))

/-- Whatever an instruction comes to, the program is what it was. -/
theorem intact_perform (h : Sheltered prims body p m) (htame : Tame prims body p) {op : Opcode}
    (hfetch : itemAt m.program.code m.pc = .ok op.word) : Intact p (outcome (perform op m.pc) m.counted).2 := by
  have hcounted : Intact p m.counted := ⟨h.program, h.names⟩
  by_cases hop : op = .storeVar
  · subst hop
    obtain ⟨x, hx, hpc, hin⟩ := h.instr_of_fetch htame hfetch
    obtain ⟨depth, index, hinstr⟩ := hin.eq_of_op.2.1 (hin.op_eq (hpc ▸ hfetch))
    obtain ⟨d, rfl, hlt⟩ := htame.accessed hx (Or.inr hinstr)
    obtain ⟨id, hid, hfresh⟩ := h.scopes x (mem_append_left _ hx) hpc d hlt
    rw [hinstr] at hin
    refine intact_storeVar hcounted ?_ hid hfresh
    rw [hpc]
    exact hin.second
  · exact maintains_perform hop m.pc m.counted hcounted

theorem intact_next (h : Sheltered prims body p m) (htame : Tame prims body p) : Intact p m.next.2 := by
  have hcounted : Intact p m.counted := ⟨h.program, h.names⟩
  unfold Machine.next step
  rw [bind_ok (outcome_get m)]
  cases hfetch : itemAt m.program.code m.pc with
  | error f =>
    rw [bind_error (outcome_word_error hfetch)]
    exact h.intact
  | ok word =>
    rw [bind_ok (outcome_word hfetch), bind_ok (outcome_countStep (Nat.lt_succ_self _))]
    cases hop : Opcode.ofWord? word with
    | none => exact maintains_of_still (.refuse _ _) m.counted hcounted
    | some op =>
      rw [← Opcode.word_of_ofWord? hop] at hfetch
      refine Maintains.of_bind (h.intact_perform htame hfetch) fun next => ?_
      exact Maintains.bind (fun _ hm => ⟨hm.program, hm.names⟩) fun _ => maintains_of_still (.pure _)

theorem next (h : Sheltered prims body p m) (htame : Tame prims body p) (hnext : m.next = (.ok w, m')) :
    Sheltered prims body p m' := by
  have hbody := htame.stats
  have hstanding := h.toStanding.next hbody htame.laid hnext
  have hintact := h.intact_next htame
  rw [hnext] at hintact
  have hfresh : p.scopes.size ≤ m.store.size := h.names.size_le
  rcases h.next_cases hbody htame.laid hnext with ⟨-, hpc, -, -, hframes⟩ | ⟨x, hx, hpc, htransit⟩
  · refine ⟨hstanding, hintact.names, fun haway => ?_, ?_, hframes ▸ h.pending⟩
    · rw [hpc] at haway
      cases haway
    · rw [hpc]
      exact fresh_at_start hbody
  · have hhere : Fresh p (owned x.shape) m.chain := h.scopes x (mem_append_left _ hx) hpc
    have hin : x.instr.In m.program x.address := by
      rw [h.program]
      exact htame.laid.follows x hx
    -- an instruction of the layout has a natural address
    have hstays : ∀ {y : Spot}, m'.pc = y.address → m'.pc = -1 → Fresh p 1 m'.chain := by
      intro y hpc' haway
      rw [hpc'] at haway
      cases haway
    cases htransit with
    | onward hy hpc' honward hsame =>
      refine ⟨hstanding, hintact.names, hstays hpc', fresh_at hbody hy hpc' ?_, hsame.frames ▸ h.pending⟩
      rw [hsame.chain, honward.owned]
      exact hhere
    | again hinstr hy hpc' hshape hinner hyshape hsame =>
      refine ⟨hstanding, hintact.names, hstays hpc', fresh_at hbody hy hpc' ?_, hsame.frames ▸ h.pending⟩
      have hown : (ownLoop? x.shape).isSome = true := by
        cases hloop : (ownLoop? x.shape).isSome with
        | true => rfl
        | false =>
          have hexit := Layout.program_recorded prims hbody x hx _ hinstr
          rw [hloop] at hexit
          exact absurd hexit htame.own
      rw [hsame.chain, hyshape]
      rw [hshape] at hown hhere
      exact hhere.mono (owned_le_of_ownLoop? hinner hown)
    | away hinstr hpc' hsame =>
      refine ⟨hstanding, hintact.names, fun _ => ?_, fun y _ hy => ?_, hsame.frames ▸ h.pending⟩
      · rw [hsame.chain]
        exact hhere.mono (htame.owned_of_break hx hinstr)
      · rw [hpc'] at hy
        cases hy
    | enter hinstr hy hpc' henters _ _ hframes =>
      refine ⟨hstanding, hintact.names, hstays hpc', fresh_at hbody hy hpc' ?_, hframes ▸ h.pending⟩
      rw [hinstr, h.program] at hin
      have hshows := (Snapshot.steps_enter (c := m.snapshot x.address) hin).shows (shows_snapshot h.program hpc) hnext
      rw [hshows.chain, henters.owned]
      exact hhere.push hfresh
    | leave hy hpc' hshape hafter _ hchain hframes =>
      refine ⟨hstanding, hintact.names, hstays hpc', fresh_at hbody hy hpc' ?_, hframes ▸ h.pending⟩
      rw [hshape, hchain] at hhere
      rw [hafter.owned]
      exact hhere.pop
    | @call y id scope hinstr hpc' hy hyshape _ _ hframes =>
      rw [hinstr] at hin
      have hword : itemAt m.program.code m.pc = .ok Opcode.call.word := by rw [hpc]; exact hin.first
      obtain ⟨pc, n, hperform, rfl⟩ := performed hword hnext
      have hchain : Fresh p 1 n.chain := by
        rw [chain_of_callRoutine hperform]
        have hnone : Fresh p 0 m.chain := fun d hd => by cases hd
        exact hnone.push hfresh
      refine ⟨hstanding, hintact.names, fun _ => hchain, ?_, ?_⟩
      · rcases hpc' with haway | ⟨entry, hentry, hpc', outer, hshape⟩
        · intro y _ hy
          rw [haway] at hy
          cases hy
        · refine fresh_at hbody hentry hpc' ?_
          rw [hshape]
          exact hchain
      · rw [hframes]
        refine forall_mem_cons.mpr ⟨fresh_at hbody hy rfl ?_, h.pending⟩
        rw [hyshape]
        exact hhere
    | @back frame _ _ hframes hpc' hchain =>
      have hpending := h.pending
      rw [hframes] at hpending
      obtain ⟨hframe, hrest⟩ := forall_mem_cons.mp hpending
      obtain ⟨y, hy, hback⟩ := h.frames frame (by rw [hframes]; exact mem_cons_self ..)
      refine ⟨hstanding, hintact.names, hstays (hpc'.trans hback), ?_, hrest⟩
      rw [hpc', hchain]
      exact hframe

theorem intact_step (h : Sheltered prims body p m) (htame : Tame prims body p) (budget : Nat) :
    Intact p (outcome (step budget) m).2 ∧
      ∀ w m', outcome (step budget) m = (.ok w, m') → Sheltered prims body p m' := by
  by_cases hlt : m.steps < budget
  · rw [outcome_step_eq_next hlt]
    exact ⟨h.intact_next htame, fun w m' hnext => h.next htame hnext⟩
  · obtain ⟨e, he, -⟩ := outcome_step_of_le (Nat.le_of_not_lt hlt)
    rw [he]
    refine ⟨h.intact, fun w m' hstep => ?_⟩
    cases hstep

theorem intact_steps (htame : Tame prims body p) (budget : Nat) : ∀ (fuel : Nat) {m : Machine},
    Sheltered prims body p m → Intact p (outcome (MachineM.steps budget fuel) m).2
  | 0, m, h => by
    by_cases hhalted : (m.program.code.size : Int) ≤ m.pc
    · rw [outcome_steps_halted hhalted]
      exact h.intact
    · rw [outcome_steps_zero hhalted]
      exact Maintains.of_bind (h.intact_step htame budget).1 fun _ => maintains_of_still (.pure _)
  | fuel + 1, m, h => by
    by_cases hhalted : (m.program.code.size : Int) ≤ m.pc
    · rw [outcome_steps_halted hhalted]
      exact h.intact
    · obtain ⟨hintact, hrest⟩ := h.intact_step htame budget
      rw [outcome_steps_succ hhalted, outcome_bind, outcome_discard]
      cases hstep : outcome (step budget) m with
      | mk r m' =>
        rw [hstep] at hintact
        cases r with
        | error e => exact hintact
        | ok w => exact intact_steps htame budget fuel (hrest w m' hstep)

end Sheltered

end

/-- The program as a machine has it now. -/
def artefacts (m : Machine) : Program := { m.program with scopes := m.names }

theorem artefacts_of_intact {p : Program} {m : Machine} (h : Intact p m) : m.artefacts = p := by
  unfold artefacts names
  rw [h.program, Snapshot.take_of_extends h.names]

/-- **A run leaves its program as it was.** Take a program that was parsed and compiled, in which every `continue` is in a loop of its own
function and no primitive is read or assigned as a variable. After any number of steps, and after one that fails, the
program is the one that was compiled, names included, and so it is after a whole run, however that ends. So another
run of what is left of the program comes to the same. -/
theorem run_keeps_program {tokens : List Token} {body : List Node} {primitives : List String} {p : Program}
    (hparse : Node.parse tokens = .ok (.program body)) (hp : Program.ofNode primitives (.program body) = .ok p)
    (hproper : ∀ x ∈ usesAll body, ∀ s ∈ primitives, (Datum.text s).eq x = false)
    (hown : .continues false ∉ exitsAll false body) (signals : List Signal) :
    (∀ n m, Runs n (start p signals) m → m.artefacts = p ∧ m.next.2.artefacts = p) ∧
      ∀ budget, ((start p signals).run budget).2.artefacts = p ∧ ∀ signals' budget',
        (start ((start p signals).run budget).2.artefacts signals').run budget' = (start p signals').run budget' := by
  have hbody := (Node.areStats_of_parse hparse).1
  have htame : Tame primitives body p := ⟨hbody, Program.laidOut hbody hp, hown, hproper⟩
  have hstart : Sheltered primitives body p (start p signals) := .start hbody signals
  have hwhole : ∀ budget, ((start p signals).run budget).2.artefacts = p := by
    intro budget
    refine artefacts_of_intact (Maintains.of_bind (Sheltered.intact_steps htame budget budget hstart) fun _ => ?_)
    exact (maintains_of_keeps (.leftovers apart_material)).bind fun _ => (maintains_of_still .get).bind fun m =>
      maintains_of_keeps (.printText apart_material _)
  refine ⟨fun n m hruns => ?_, fun budget => ⟨hwhole budget, fun signals' budget' => by rw [hwhole budget]⟩⟩
  have hm : Sheltered primitives body p m := hruns.invariant (fun h hnext => h.next htame hnext) hstart
  exact ⟨artefacts_of_intact hm.intact, artefacts_of_intact (hm.intact_next htame)⟩

/-- `var f = fun(x) { while (x) continue; }; while (f()) break;`, which fails at the call. -/
theorem program_kept_by_failing_call :
    ∃ (tokens : List Token) (body : List Node) (p : Program), Node.parse tokens = .ok (.program body) ∧
      Program.ofNode ["beep"] (.program body) = .ok p ∧ exitsAll false body = [.continues true, .breaks] ∧
      ((start p []).run 50).1 = .error (.fault .emptyPop) ∧ ((start p []).run 50).2.artefacts = p := by
  let body : List Node :=
    [.define (.text "f") (.function [.text "x"] (.block [.loop (.name (.text "x")) .continueLoop])),
      .loop (.call (.name (.text "f")) []) .breakLoop]
  let p : Program :=
    { code := #[13, 1, 9, 17, 13, 0, 5, 1, 0, 11, 15, 9, 6, 9, 6, 14, 16, 1, 0, 6, 0, 0, 15, 0, 11, 30, 9, -1, 9, 22, 14]
      consts := #[.number (.int 0)]
      scopes := #[#[], #[.text "f"], #[.text "x"], #[]]
      routines := #[⟨.text "f", [.text "x"], some 4⟩] }
  have htext : Node.ofText "var f = fun(x) \x7b while (x) continue; \x7d; while (f()) break;" = .ok (.program body) := by cbv
  have hp : Program.ofNode ["beep"] (.program body) = .ok p := by cbv
  have hexits : exitsAll false body = [.continues true, .breaks] := by decide +kernel
  obtain ⟨tokens, _, hparse, hbody, -⟩ := Node.parse_of_text htext
  cases hbody
  obtain ⟨-, hrun⟩ := run_keeps_program hparse hp (by decide +kernel) (by rw [hexits]; decide) []
  exact ⟨tokens, body, p, hparse, hp, hexits, by decide +kernel, (hrun 50).1⟩

end Machine

end Cilly
