import Cilly.Proofs.History
import Mathlib

/-!
# Scopes

A machine that runs compiled code has as many scopes open as the text says: those of its function that are open where it
stands, on top of those that were open when the function was entered (`blocks`). A variable is found in the scope that was opened
for the block or the parameters that declare it, and a call gets a scope with its arguments (`scope_discipline`).

This holds of programs without `break` and `continue` whose functions have different names, if every call passes as many
arguments as are taken and no primitive is used as a variable.
-/

namespace Cilly

open Node Layout

variable {id : Nat} {p : Program}

/-! ## Blocks around an instruction -/

/-- How many blocks of its function a place is in. -/
def blocks : List Mark → Nat
  | [] | .function :: _ => 0
  | .block :: outer => blocks outer + 1
  | _ :: outer => blocks outer

namespace Setting

/-- What lies around a part of a statement. -/
inductive Within (set : Setting) : Setting → Prop
  | refl : Within set set
  | loose {inner : Setting} : Within set inner → Within set inner.loose
  | inLoop {inner : Setting} (start stop : Nat) : Within set inner → Within set (inner.inLoop start stop)
  | inBlock {inner : Setting} (inside : Nat) (names : List Datum) : Within set inner → Within set (inner.inBlock inside names)
  | inFunction {inner : Setting} (entry : Nat) (params : List Datum) :
      Within set inner → Within set (inner.inFunction entry params)

theorem Within.trans {set inner inmost : Setting} (h : Within set inner) (h' : Within inner inmost) : Within set inmost := by
  induction h' with
  | refl => exact h
  | loose _ ih => exact ih.loose
  | inLoop start stop _ ih => exact ih.inLoop start stop
  | inBlock inside names _ ih => exact ih.inBlock inside names
  | inFunction entry params _ ih => exact ih.inFunction entry params

/-- A function has a scope for its parameters and one for each block. -/
theorem Within.nested {set : Setting} (h : Within ⟨[], [], none⟩ set) :
    set.scopes.length = blocks set.shape + if set.home.isSome then 1 else 0 := by
  induction h with
  | refl => rfl
  | loose _ ih | inLoop _ _ _ ih => exact ih
  | @inBlock inner _ _ _ ih =>
    show inner.scopes.length + 1 = blocks inner.shape + 1 + _
    rw [ih, Nat.add_right_comm]
    rfl
  | inFunction => rfl

end Setting

/-- A scene that lies in a part of what lies in a setting. -/
def Scene.Inside (set : Setting) (x : Scene) : Prop := ∃ inner, set.Within inner ∧ x.Of inner

section

variable {set around : Setting} {x : Scene} {scenes : List Scene}

theorem Scene.Of.inside (h : x.Of around) (hwithin : set.Within around) : x.Inside set := ⟨around, hwithin, h⟩

theorem Scene.Inside.outward (hwithin : set.Within around) (h : ∀ x ∈ scenes, x.Inside around) :
    ∀ x ∈ scenes, x.Inside set := by
  intro x hx
  obtain ⟨inner, hinner, hof⟩ := h x hx
  exact ⟨inner, hwithin.trans hinner, hof⟩

theorem Scene.Inside.all_of (hwithin : set.Within around) (h : ∀ x ∈ scenes, x.Of around) : ∀ x ∈ scenes, x.Inside set :=
  fun x hx => (h x hx).inside hwithin

end

namespace Layout

variable (prims : List String)

open Scene.Inside in
mutual

theorem statementScenes_inside : ∀ {n : Node}, IsStat n → ∀ (set : Setting) (s : Point),
    ∀ x ∈ statementScenes prims set s n, x.Inside set
  | _, .exprStat he, set, s => all_of .refl (straight_strand prims (.exprStat he) set s).of
  | _, .print hargs, set, s => all_of .refl (straight_strand prims (.print hargs) set s).of
  | _, .ifThen hcond hyes, set, s => by
    rw [statementScenes]
    exact List.forall_mem_append.mpr ⟨all_of .refl ((expression_strand prims set _ hcond _ _).of),
      List.forall_mem_cons.mpr ⟨(set.scene_of ..).inside .refl, statementScenes_inside hyes set _⟩⟩
  | _, .ifElse hcond hyes hno, set, s => by
    rw [statementScenes]
    exact List.forall_mem_append.mpr ⟨all_of .refl ((expression_strand prims set _ hcond _ _).of),
      List.forall_mem_cons.mpr ⟨(set.scene_of ..).inside .refl, List.forall_mem_append.mpr
        ⟨statementScenes_inside hyes set _, List.forall_mem_cons.mpr ⟨(set.loose.scene_of ..).inside (.loose .refl),
          statementScenes_inside hno set _⟩⟩⟩⟩
  | _, .loop hcond hbody, set, s => by
    rw [statementScenes]
    exact List.forall_mem_append.mpr
      ⟨all_of (.inLoop _ _ .refl) ((expression_strand prims (set.inLoop _ _) _ hcond _ _).of),
        List.forall_mem_cons.mpr ⟨((set.inLoop _ _).scene_of ..).inside (.inLoop _ _ .refl), List.forall_mem_append.mpr
          ⟨outward (.inLoop _ _ .refl) (statementScenes_inside hbody (set.inLoop _ _) _),
            List.forall_mem_singleton.mpr
              (((set.inLoop _ _).loose.scene_of ..).inside (.loose (.inLoop _ _ .refl)))⟩⟩⟩
  | _, .breakLoop, set, s => by
    rw [statementScenes]
    split <;> exact List.forall_mem_singleton.mpr ((set.scene_of ..).inside .refl)
  | _, .continueLoop, set, s => by
    rw [statementScenes]
    split <;> exact List.forall_mem_singleton.mpr ((set.scene_of ..).inside .refl)
  | _, .block hbody, set, s => by
    rw [statementScenes]
    exact List.forall_mem_cons.mpr ⟨(set.scene_of ..).inside .refl, List.forall_mem_append.mpr
      ⟨outward (.inBlock _ _ .refl) (statementsScenes_inside hbody _ _),
        List.forall_mem_singleton.mpr (((set.inBlock _ _).scene_of ..).inside (.inBlock _ _ .refl))⟩⟩
  | _, @IsStat.function x xs body hbody, set, s => by
    have hwithin : set.Within (set.inFunction (s.here + 2) xs) := .inFunction _ _ .refl
    rw [statementScenes_function, statementScenes]
    exact List.forall_mem_cons.mpr ⟨(set.scene_of ..).inside .refl, List.forall_mem_append.mpr
      ⟨List.forall_mem_cons.mpr ⟨((set.inFunction _ _).scene_of ..).inside hwithin, List.forall_mem_append.mpr
        ⟨outward (.inBlock _ _ hwithin) (statementsScenes_inside hbody _ _),
          List.forall_mem_singleton.mpr ((((set.inFunction _ _).inBlock _ _).scene_of ..).inside (.inBlock _ _ hwithin))⟩⟩,
        List.forall_mem_cons.mpr ⟨((set.inFunction _ _).loose.scene_of ..).inside (.loose hwithin),
          List.forall_mem_cons.mpr ⟨(set.scene_of ..).inside .refl,
            List.forall_mem_singleton.mpr ((set.scene_of ..).inside .refl)⟩⟩⟩⟩
  | _, .define x hvalue hne, set, s => all_of .refl (straight_strand prims (.define x hvalue hne) set s).of
  | _, .assign x hvalue, set, s => all_of .refl (straight_strand prims (.assign x hvalue) set s).of
  | _, .return, set, s => by
    rw [statementScenes]
    exact List.forall_mem_singleton.mpr ((set.scene_of ..).inside .refl)
  | _, .returnValue hvalue, set, s => by
    rw [statementScenes]
    exact List.forall_mem_append.mpr ⟨all_of .refl ((expression_strand prims set _ hvalue _ _).of),
      List.forall_mem_singleton.mpr ((set.scene_of ..).inside .refl)⟩

theorem statementsScenes_inside : ∀ {ns : List Node}, AreStats ns → ∀ (set : Setting) (s : Point),
    ∀ x ∈ statementsScenes prims set s ns, x.Inside set
  | _, .nil, set, s => by simp [statementsScenes]
  | _, .cons hn hns, set, s => by
    rw [statementsScenes]
    exact List.forall_mem_append.mpr ⟨statementScenes_inside hn set s, statementsScenes_inside hns set _⟩

end

/-- The scopes that a function has open at an instruction: one for its parameters and one for each block. -/
theorem stage_nested {body : List Node} (h : AreStats body) {x : Scene} (hx : x ∈ stage prims body) :
    x.view.scopes.length = blocks x.shape + if x.view.home.isSome then 1 else 0 := by
  rcases List.mem_append.mp hx with hx | hx
  · obtain ⟨inner, hwithin, hof⟩ := statementScenes_inside prims (.block h) ⟨[], [], none⟩ (origin body) x hx
    rw [hof.scopes, hof.shape, hof.home]
    exact hwithin.nested
  · rw [List.mem_singleton.mp hx]
    rfl

end Layout

/-! ## Programs -/

/-- The instruction at an address is the one whose word stands there. -/
theorem Instr.In.op_eq {address : Nat} {instr : Instr} {op : Opcode} (h : instr.In p address)
    (hword : itemAt p.code address = .ok op.word) : instr.op = op := by
  obtain ⟨operands, -, hholds, -⟩ := h.words
  have heq : op.word = instr.op.word := Except.ok.inj (hword.symm.trans hholds.first)
  have hsame := congrArg Opcode.ofWord? heq
  rw [Opcode.ofWord?_word, Opcode.ofWord?_word] at hsame
  exact (Option.some.inj hsame).symm

theorem Instr.In.eq_of_op {address : Nat} {instr : Instr} (h : instr.In p address) :
    (instr.op = .loadVar → ∃ depth index, instr = .load depth index) ∧
      (instr.op = .storeVar → ∃ depth index, instr = .store depth index) ∧
      (instr.op = .call → ∃ id, instr = .call id) := by
  cases instr with
  | plain op | branch op =>
    obtain ⟨hplain, -⟩ := h
    refine ⟨fun hop => ?_, fun hop => ?_, fun hop => ?_⟩ <;>
    · cases hop
      cases hplain
  | _ => simp [Instr.op]

/-- A program without `break` and `continue` whose functions have different names, in which every call passes as many
arguments as are taken and no primitive is used as a variable. -/
structure Regular (primitives : List String) (body : List Node) (p : Program) : Prop where
  stats : AreStats body
  laid : p.LaidOut primitives body
  texts : HasTexts body
  exits : exitsAll false body = []
  distinct : ((functionsAll body).map (·.name)).Nodup
  passes : ∀ x ∈ scenes primitives body, x.passes p.routines = true
  proper : ∀ x ∈ usesAll body, ∀ s ∈ primitives, x ≠ .text s

namespace Regular

variable {prims : List String} {body : List Node} {p : Program} {x : Scene}

theorem orderly (h : Regular prims body p) : Orderly (exitsAll false body) := by
  rw [h.exits]
  exact List.forall_mem_nil _

theorem not_continue (h : Regular prims body p) (hx : x ∈ scenes prims body) (target : Nat) :
    x.instr ≠ .continueLoop target := by
  intro hinstr
  have hspot : x.toSpot ∈ program prims body := by
    rw [← program_toSpot prims h.stats]
    exact List.mem_map_of_mem hx
  have hexit : false ∈ (program prims body).filterMap (·.instr.exit?) :=
    List.mem_filterMap.mpr ⟨x.toSpot, hspot, by rw [hinstr]; rfl⟩
  rw [(h.laid.tallied h.stats).exits, h.exits] at hexit
  cases hexit

theorem has (h : Regular prims body p) (hx : x ∈ scenes prims body) {depth index : Int}
    (hinstr : x.instr = .load depth index ∨ x.instr = .store depth index) :
    ∃ y, x.subject = .variable y ∧ x.view.Has depth index y := by
  obtain ⟨y, hsubject, hhas | ⟨hused, name, hname, heq, -⟩⟩ := found_of_access h.stats h.texts hx hinstr
  · exact ⟨y, hsubject, hhas⟩
  · exact absurd (Datum.text_eq_iff.mp heq) (h.proper _ hused name hname)

theorem call_of (h : Regular prims body p) (hx : x ∈ Layout.scenes prims body)
    (hinstr : x.instr = .call id) : ∃ c start y args below r, x.subject = .call c start (.name y) args ∧
      x.view.ends = Layout.ends prims c start args ++ below ∧ p.routines[id]? = some r ∧
      r.params.length = args.length ∧ ∃ site ∈ Layout.definitions prims body, r.entry = some (site.entry : Int) ∧
        r.params = site.function.params := by
  have hfits := Layout.program_fits prims h.stats x hx
  rw [Scene.Fits, hinstr] at hfits
  obtain ⟨c, start, y, args, hsubject, -, below, hends⟩ := hfits
  obtain ⟨r, hr, site, hsite, hentry, hnames⟩ := Machine.called_site h.stats h.laid hx hinstr
  have hpasses := h.passes x hx
  have hcount : (p.routines[id]?.all fun r => r.params.length == x.subject.count) = true := by
    rw [Scene.passes, hinstr] at hpasses
    exact hpasses
  rw [hr, hsubject] at hcount
  exact ⟨c, start, y, args, below, r, hsubject, hends, hr, eq_of_beq hcount, site, hsite, hentry,
    h.laid.params_of_site h.stats h.texts h.distinct hr hsite hnames⟩

end Regular

/-! ## Steps -/

namespace Machine

/-- The scope so many scopes out is the one that the machine has opened for the block or the parameters that declare a name,
in the call that it is in, and it has a cell for the name. -/
structure Slot (p : Program) (o : Open) (depth index id : Nat) (x : Datum) (cells : Array Datum) (m : Machine) : Prop where
  declared : o.names[index]? = some x
  scope : m.chain[depth]? = some id
  found : m.store[id]? = some cells
  size : cells.size = o.names.length
  opened : ∃ m₀ m₁ : Machine, Opens p o m₀ m₁ ∧ m₀.store.size = id ∧ m₁.chain = m.chain.drop depth ∧
    m₁.frames = m.frames ∧ Since m₁ m

theorem Slot.lt {o : Open} {depth index : Nat} {x : Datum} {cells : Array Datum} {m : Machine}
    (h : Slot p o depth index id x cells m) : index < cells.size := by
  rw [h.size]
  exact (List.getElem?_eq_some_iff.mp h.declared).1

/-- What the function has at hand has come about in this call, on top of what it has found. -/
def Settled (p : Program) (m₀ : Machine) (view : View) (bases : List Machine) (m : Machine) : Prop :=
  Extends p.scopes m.store ∧ Backed p view (bases.headD m₀) m.stack.items m.chain m.frames m

/-- What the caller had at hand had come about when the call had taken its arguments, and the result is to come on top. -/
def Awaiting (p : Program) (m₀ : Machine) (view : View) (f : Frame) (b : Machine) (bases : List Machine) : Prop :=
  ∃ (e : Nat) (below : List Nat), view.ends = e :: below ∧ f.back = e ∧ b.frames = f :: (bases.headD m₀).frames ∧
    Backed p { view with ends := below } (bases.headD m₀) b.stack.items f.chain (bases.headD m₀).frames b

section

variable {prims : List String} {body : List Node} {p : Program} {m₀ m m' : Machine} {bases : List Machine} {x y : Scene}
  {w : Int}

theorem Settled.slot (h : Settled p m₀ x.view bases m) (hregular : Regular prims body p)
    (hx : x ∈ scenes prims body) {depth index : Int}
    (hinstr : x.instr = .load depth index ∨ x.instr = .store depth index) :
    ∃ (y : Datum) (d i : Nat) (o : Open) (id : Nat) (cells : Array Datum), x.subject = .variable y ∧ depth = d ∧
      index = i ∧ x.view.scopes[d]? = some o ∧ Slot p o d i id y cells m := by
  obtain ⟨y, hsubject, d, i, o, hdepth, hindex, ho, hname⟩ := hregular.has hx hinstr
  obtain ⟨m₁, m₂, hopens, -, hchain, hframes, hsince⟩ := h.2.scopes ho
  obtain ⟨cells₂, hcells₂, hsize₂⟩ := hopens.cells
  obtain ⟨cells, hcells, hsize⟩ := hsince.over.sized _ _ hcells₂
  have hscope : m.chain[d]? = some m₁.store.size := by
    have hhead : (m.chain.drop d)[0]? = some m₁.store.size := by
      rw [← hchain, hopens.chain]
      rfl
    rwa [List.getElem?_drop] at hhead
  exact ⟨y, d, i, o, _, cells, hsubject, hdepth, hindex, ho, hname, hscope, hcells, hsize.trans hsize₂, m₁, m₂, hopens, rfl,
    hchain, hframes, hsince⟩

theorem Settled.top (h : Settled p m₀ x.view bases m) (hends : x.view.ends ≠ []) :
    ∃ v rest, m.stack.items = v :: rest := by
  cases hitems : m.stack.items with
  | cons v rest => exact ⟨v, rest, rfl⟩
  | nil =>
    have hdepth := h.2.depth
    have hpos := List.length_pos_iff.mpr hends
    rw [hitems, List.length_nil] at hdepth
    omega

/-- Scopes are kept by every instruction that opens none and changes none. -/
theorem store_next (hin : x.instr.In m.program x.address) (hpc : m.pc = x.address) (hnext : m.next = (.ok w, m'))
    (hop : x.instr.op ≠ .storeVar ∧ x.instr.op ≠ .enterScope ∧ x.instr.op ≠ .call) : m'.store = m.store := by
  obtain ⟨op, n, pc, hfetch, hperform, rfl⟩ := next_eq_ok hnext
  rw [hpc] at hfetch
  rw [hin.op_eq hfetch] at hop
  have hkeeps := Keeps.perform (V := (·.store)) ⟨fun _ _ => rfl, fun _ _ => rfl, fun _ _ => rfl⟩ (fun _ _ _ => rfl)
    hop m.pc m.counted
  rw [hperform] at hkeeps
  exact hkeeps

/-- A step that only goes on keeps the scopes, and those of the program as they are. -/
theorem Settled.kept (h : Settled p m₀ x.view bases m) (hregular : Regular prims body p)
    (hx : x ∈ scenes prims body) (hprogram : m.program = p) (hpc : m.pc = x.address)
    (hnext : m.next = (.ok w, m')) (hquiet : x.instr.isQuiet = true) : Sized m m' ∧ Extends p.scopes m'.store := by
  have hin := in_of_mem_scenes hregular.stats hregular.laid hx
  by_cases hstore : ∃ depth index, x.instr = .store depth index
  · obtain ⟨depth, index, hinstr⟩ := hstore
    obtain ⟨_, d, i, o, id, cells, -, rfl, rfl, -, hslot⟩ := h.slot hregular hx (Or.inr hinstr)
    have henough := ((program_staged prims hregular.stats hregular.orderly).sound x hx).enough
    rw [Scene.takes, hinstr] at henough
    obtain ⟨v, rest, hitems⟩ := h.top (List.length_pos_iff.mp henough)
    rw [hinstr] at hin
    have hshows := (Snapshot.steps_store (c := m.snapshot x.address) hin hslot.scope hslot.found hslot.lt hitems).shows
      (shows_snapshot hprogram hpc) hnext
    have hsame : m'.store = m.store.setIfInBounds id (cells.setIfInBounds i v) := hshows.store
    obtain ⟨m₁, m₂, hopens, rfl, -⟩ := hslot.opened
    exact ⟨.of_set hslot.found hsame, by rw [hsame]; exact h.1.setIfInBounds hopens.fresh _⟩
  · have hsame : m'.store = m.store := by
      refine store_next (x := x) (by rw [hprogram]; exact hin) hpc hnext ?_
      cases hinstr : x.instr with
      | store depth index => exact absurd ⟨depth, index, hinstr⟩ hstore
      | plain op | branch op =>
        rw [hinstr] at hin
        cases op with
        | storeVar | enterScope | call => cases hin.1
        | _ => simp [Instr.op]
      | const | load | primitive => simp [Instr.op]
      | _ =>
        rw [hinstr] at hquiet
        cases hquiet
    exact ⟨.of_eq hsame, by rw [hsame]; exact h.1⟩

/-- A call takes its arguments from the stack into a scope of their own. -/
theorem Settled.steps_call (h : Settled p m₀ x.view bases m) (hregular : Regular prims body p)
    (hx : x ∈ scenes prims body) {entry : Nat} {r : Routine} (hinstr : x.instr = .call id)
    (hr : p.routines[id]? = some r) (hentry : r.entry = some (entry : Int)) (hcount : r.params.length ≤ x.view.ends.length) :
    Snapshot.Steps p (m.snapshot x.address)
      { m.snapshot x.address with
        pc := entry, stack := m.stack.items.drop r.params.length, chain := m.store.size :: m.chain,
        frames := ⟨x.address + 2, m.chain⟩ :: m.frames,
        store := m.store.push (m.stack.items.take r.params.length).toArray } := by
  have hin := in_of_mem_scenes hregular.stats hregular.laid hx
  rw [hinstr] at hin
  have hlength : (m.stack.items.take r.params.length).length = r.params.length := by
    rw [List.length_take, h.2.depth]
    omega
  refine Snapshot.steps_call (c := m.snapshot x.address) hin hr hentry hlength.symm ?_ h.1 (List.take_append_drop ..).symm
  rw [hlength]
  exact hregular.laid.frameSize hregular.stats hregular.texts hr

theorem Backed.floor {view : View} {base : Machine} {items : List Datum} {chain : List Nat} {frames : List Frame}
    (h : Backed p view base items chain frames m) : items.drop view.ends.length = base.stack.items := by
  have hdrop := List.suffix_iff_eq_drop.mp h.below
  rw [h.depth, Nat.add_sub_cancel_left] at hdrop
  exact hdrop.symm

end

section

variable {prims : List String} {body : List Node} {p : Program} {m₀ m m' : Machine} {bases : List Machine} {x y : Scene}
  {w : Int}

theorem Settled.onward (h : Settled p m₀ x.view bases m) (hregular : Regular prims body p)
    (hx : x ∈ scenes prims body) (hy : y ∈ stage prims body) (hprogram : m.program = p)
    (hpc : m.pc = x.address) (hpc' : m'.pc = y.address) (hnext : m.next = (.ok w, m')) (honward : Onward x y m m') :
    Settled p m₀ y.view bases m' := by
  have hin := in_of_mem_scenes hregular.stats hregular.laid hx
  have henough := ((program_staged prims hregular.stats hregular.orderly).sound x hx).enough
  obtain ⟨-, results, hlength, hitems⟩ := items_of_next hregular.stats hregular.laid hprogram hx hpc hnext
  rw [taken_eq_takes hregular.stats hregular.laid hx (hregular.passes x hx)] at hitems
  have hidle : x.pushed = 0 → x.takes = 0 → m'.stack.items = m.stack.items := by
    intro hpushed htakes
    rw [hpushed] at hlength
    rw [hitems, List.length_eq_zero_iff.mp hlength, htakes]
    rfl
  cases honward with
  | plain hquiet hview hsame =>
    obtain ⟨hsized, hextends⟩ := h.kept hregular hx hprogram hpc hnext hquiet
    have hkept := (h.2.drop henough).step hnext (by rw [hitems]; exact List.suffix_append ..)
      (by simp [hsame.chain]) (by simp [hsame.frames]) hsized
    refine ⟨hextends, ?_⟩
    rw [Scene.pushed_of_isQuiet hquiet] at hlength
    rw [hview, Scene.after, hsame.chain, hsame.frames, hitems]
    by_cases hgives : x.gives = true
    · rw [if_pos hgives] at hlength ⊢
      obtain ⟨v, rfl⟩ := List.length_eq_one_iff.mp hlength
      exact hkept.push hpc' hitems hsame.chain hsame.frames
    · rw [if_neg hgives] at hlength ⊢
      rw [List.length_eq_zero_iff.mp hlength]
      exact hkept
  | jump hinstr hview hsame =>
    have hstore : m'.store = m.store :=
      store_next (x := x) (by rw [hprogram]; exact hin) hpc hnext (by rw [hinstr]; simp [Instr.op])
    have hitems := hidle (by simp [Scene.pushed, Scene.gives, hinstr]) (by simp [Scene.takes, hinstr])
    refine ⟨by rw [hstore]; exact h.1, ?_⟩
    rw [hsame.chain, hsame.frames, hitems]
    rcases hview with hview | ⟨last, below, hends, hview⟩
    · rw [hview]
      exact h.2.step hnext (by simp [hitems]) (by simp [hsame.chain])
        (by simp [hsame.frames]) (.of_eq hstore)
    -- the operand on top is now the one whose code ends here
    · obtain ⟨v, rest, htop⟩ := h.top (by rw [hends]; simp)
      have hdrop := h.2.drop (t := 1) (by rw [hends]; simp)
      rw [htop, hends] at hdrop
      rw [htop] at hitems ⊢
      rw [hview]
      exact (hdrop.step hnext (by rw [hitems]; exact List.suffix_cons ..) (by simp [hsame.chain])
        (by simp [hsame.frames]) (.of_eq hstore)).push hpc' hitems hsame.chain hsame.frames
  | again hinstr => exact absurd hinstr (hregular.not_continue hx _)
  | @enter names id hinstr hends hview _ hchain hframes =>
    rw [hinstr] at hin
    have hshows := (Snapshot.steps_enter (c := m.snapshot x.address) hin).shows (shows_snapshot hprogram hpc) hnext
    have hstore : m'.store = m.store.push (Array.replicate names.length .nothing) := hshows.store
    have hopens : Opens p ⟨y.address, names⟩ m m' :=
      { step := ⟨w, hnext⟩
        pc := hpc'
        chain := hshows.chain
        cells := ⟨_, by rw [hstore, Array.getElem?_push_size], by simp⟩
        fresh := h.1.size_le }
    refine ⟨by rw [hstore]; exact h.1.trans (.push _ _), ?_⟩
    have hitems : m'.stack.items = m.stack.items := hshows.stack
    have hkept := h.2.step hnext (by simp [hitems]) (by rw [hchain]; exact List.suffix_cons ..)
      (by simp [hframes]) (.of_push hstore)
    rw [hview, hitems, hframes]
    exact hkept.enter hends hopens rfl hitems hframes
  | @leave top outer id hinstr hends hscopes hview _ hchain hframes =>
    have hstore : m'.store = m.store :=
      store_next (x := x) (by rw [hprogram]; exact hin) hpc hnext (by rw [hinstr]; simp [Instr.op])
    have hitems := hidle (by simp [Scene.pushed, Scene.gives, hinstr]) (by simp [Scene.takes, hinstr])
    have hown : (if x.view.home.isSome then 1 else 0) ≤ outer.length := by
      have hnested := stage_nested prims hregular.stats hy
      rw [hview] at hnested
      dsimp only at hnested
      omega
    refine ⟨by rw [hstore]; exact h.1, ?_⟩
    rw [hview, hitems, hframes]
    exact (h.2.leave hends hscopes hchain hown).step hnext (by simp [hitems]) (List.suffix_refl _)
      (by simp [hframes]) (.of_eq hstore)

/-- A call: what is called has its parameters at hand, and the caller waits for a result. -/
theorem Settled.call (h : Settled p m₀ x.view bases m) (hregular : Regular prims body p)
    (hx : x ∈ Layout.scenes prims body) {site : DefinitionSite} {id : Nat} {r : Routine}
    (hsite : site ∈ Layout.definitions prims body) (hnames : site.Names r) (hprogram : m.program = p)
    (hpc : m.pc = x.address) (hpc' : m'.pc = site.entry) (hnext : m.next = (.ok w, m')) (hcalls : Calls x y id r m m') :
    Settled p m₀ site.view (m' :: bases) m' ∧ Awaiting p m₀ y.view ⟨y.address, m.chain⟩ m' bases := by
  have henough := ((Layout.program_staged prims hregular.stats hregular.orderly).sound x hx).enough
  have hr : p.routines[id]? = some r := hprogram ▸ hcalls.routine
  have hparams := hregular.laid.params_of_site hregular.stats hregular.texts hregular.distinct hr hsite hnames
  obtain ⟨c, start, z, args, below, r', hsubject, hends, hr', hcount, -⟩ := hregular.call_of hx hcalls.instr
  cases hr.symm.trans hr'
  have htakes : x.takes = r.params.length := by
    rw [Scene.takes, hcalls.instr, hcount, hsubject]
    rfl
  have hshows := (h.steps_call hregular hx hcalls.instr hr (hpc' ▸ hcalls.entry) (htakes ▸ henough)).shows
    (shows_snapshot hprogram hpc) hnext
  have hstore : m'.store = m.store.push (m.stack.items.take r.params.length).toArray := hshows.store
  have hchain : m'.chain = m.store.size :: m.chain := hshows.chain
  have hitems : m'.stack.items = m.stack.items.drop x.takes := by
    rw [htakes]
    exact hshows.stack
  refine ⟨⟨by rw [hstore]; exact h.1.trans (.push _ _), ?_⟩, y.address, x.view.ends.drop x.takes, ?_, rfl, ?_, ?_⟩
  · have hopens : Opens p ⟨site.entry, site.function.params⟩ m m' :=
      { step := ⟨w, hnext⟩
        pc := hpc'
        chain := hchain
        cells := by
          refine ⟨_, by rw [hstore, Array.getElem?_push_size], ?_⟩
          show _ = site.function.params.length
          rw [List.size_toArray, List.length_take, h.2.depth, ← hparams]
          omega
        fresh := h.1.size_le }
    refine
      { operands := fun {k e} hk => by simp [DefinitionSite.view] at hk
        scopes := fun {d o} hd => ?_
        below := List.suffix_refl _
        outer := List.suffix_refl _
        frames := rfl
        depth := rfl
        nesting := rfl
        since := .refl }
    cases d with
    | zero =>
      cases hd
      exact ⟨m, m', hopens, rfl, rfl, rfl, .refl⟩
    | succ d => simp [DefinitionSite.view] at hd
  · have hgives : x.gives = true := by rw [Scene.gives, hcalls.instr]
    rw [hcalls.view, Scene.after, if_pos hgives]
    rfl
  · rw [hcalls.frames, h.2.frames]
  · have hkept := (h.2.drop henough).step hnext (by simp [hitems])
      (by rw [hchain]; exact List.suffix_cons ..) (by rw [hcalls.frames]; exact List.suffix_cons ..) (.of_push hstore)
    rw [hcalls.view, hitems, ← h.2.frames]
    exact hkept

/-- A return: the result comes on top of what the caller had at hand. -/
theorem Settled.back {b : Machine} {f : Frame} (h : Settled p m₀ x.view (b :: bases) m)
    (hregular : Regular prims body p) (hx : x ∈ scenes prims body) (hprogram : m.program = p)
    (hpc : m.pc = x.address) (hnext : m.next = (.ok w, m')) (hreturns : Returns x f m m')
    (hawaiting : Awaiting p m₀ y.view f b bases) : Settled p m₀ y.view bases m' := by
  obtain ⟨e, below, hends, hback, hframes, hcaller⟩ := hawaiting
  have hin := in_of_mem_scenes hregular.stats hregular.laid hx
  obtain ⟨-, results, hlength, hitems⟩ := items_of_next hregular.stats hregular.laid hprogram hx hpc hnext
  rw [taken_eq_takes hregular.stats hregular.laid hx (hregular.passes x hx)] at hitems
  obtain ⟨v, rfl⟩ := List.length_eq_one_iff.mp (hlength.trans hreturns.pushed)
  have hitems : m'.stack.items = v :: b.stack.items := by
    rw [← hreturns.ends, h.2.floor] at hitems
    exact hitems
  have hstore : m'.store = m.store := by
    refine store_next (x := x) (by rw [hprogram]; exact hin) hpc hnext ?_
    rcases hreturns.instr with hinstr | hinstr
    · simp [hinstr, Instr.op]
    · simp [hinstr, Instr.op]
  have hframes' : m'.frames = (bases.headD m₀).frames := by
    have hsame : m.frames = b.frames := h.2.frames
    rw [hreturns.frames, hframes] at hsame
    exact (List.cons.inj hsame).2
  have hkept := (hcaller.advance fun hsince _ _ _ => hsince.trans h.2.since).step hnext
    (by rw [hitems]; exact List.suffix_cons ..) (by simp [hreturns.chain])
    (by simp [hframes']) (.of_eq hstore)
  refine ⟨by rw [hstore]; exact h.1, ?_⟩
  have hpush := hkept.push (hreturns.pc.trans hback) hitems hreturns.chain hframes'
  dsimp only at hpush
  rw [← hends] at hpush
  rw [hitems, hreturns.chain, hframes']
  exact hpush

end

/-- **What is at hand has come about.** -/
theorem settled_invariant {prims : List String} {body : List Node}
    (hregular : Regular prims body p) (signals : List Signal) :
    Invariant prims body p signals (Settled p (Machine.start p signals)) (Awaiting p (Machine.start p signals)) where
  start := by
    refine ⟨.refl _, ?_⟩
    exact
      { operands := fun {k e} hk => by simp at hk
        scopes := fun {d o} hd => by simp at hd
        below := List.suffix_refl _
        outer := List.suffix_refl _
        frames := rfl
        depth := rfl
        nesting := rfl
        since := .refl }
  step hx hy hprogram hpc hpc' hnext honward h := h.onward hregular hx hy hprogram hpc hpc' hnext honward
  call hx hsite hnames hprogram hpc hpc' hnext hcalls h := h.call hregular hx hsite hnames hprogram hpc hpc' hnext hcalls
  back hx hprogram hpc hnext hreturns h hawaiting := h.back hregular hx hprogram hpc hnext hreturns hawaiting

/-! ## Runs -/

/-- The instruction reads a variable from where it is declared. -/
def LoadsVariable (p : Program) (x : Scene) (m : Machine) : Prop :=
  ∃ (y : Datum) (d i : Nat) (o : Open) (id : Nat) (cells : Array Datum) (v : Datum) (w : Int) (m' : Machine),
    itemAt p.code (m.pc + 1) = .ok (d : Int) ∧ itemAt p.code (m.pc + 2) = .ok (i : Int) ∧ x.subject = .variable y ∧
    x.view.scopes[d]? = some o ∧ Slot p o d i id y cells m ∧ cells[i]? = some v ∧ m.next = (.ok w, m') ∧
    m'.stack.items = v :: m.stack.items ∧ m'.store = m.store

/-- The instruction writes a variable to where it is declared, and no scope gets longer. -/
def StoresVariable (p : Program) (x : Scene) (m : Machine) : Prop :=
  ∃ (y : Datum) (d i : Nat) (o : Open) (id : Nat) (cells : Array Datum) (v : Datum) (w : Int) (m' : Machine),
    itemAt p.code (m.pc + 1) = .ok (d : Int) ∧ itemAt p.code (m.pc + 2) = .ok (i : Int) ∧ x.subject = .variable y ∧
    x.view.scopes[d]? = some o ∧ Slot p o d i id y cells m ∧ m.next = (.ok w, m') ∧
    m.stack.items = v :: m'.stack.items ∧ m'.store = m.store.setIfInBounds id (cells.setIfInBounds i v) ∧
    m'.store.map Array.size = m.store.map Array.size

/-- The call finds the parameters, and opens a scope that has for each of them the value which the code of its argument has
left. -/
def PassesArguments (primitives : List String) (p : Program) (x : Scene) (m : Machine) : Prop :=
  ∃ (c : Names) (start : Nat) (y : Datum) (args : List Node) (id : Nat) (r : Routine) (frame : Array Datum) (w : Int)
    (m' : Machine), itemAt p.code (m.pc + 1) = .ok (id : Int) ∧ x.subject = .call c start (.name y) args ∧
    p.routines[id]? = some r ∧ MachineM.frameSize r.params m.names.toList = .ok r.params.length ∧
    m.next = (.ok w, m') ∧ r.entry = some m'.pc ∧ m'.chain = m.store.size :: m.chain ∧
    m'.store = m.store.push frame ∧ frame.size = r.params.length ∧ args.length = r.params.length ∧
    ∀ (i e : Nat), (ends primitives c start args)[i]? = some e → ∃ (v : Datum) (before : Machine),
      frame[i]? = some v ∧ before.pc = e ∧ before.stack.items = v :: m.stack.items.drop (i + 1) ∧
      before.chain = m.chain ∧ before.frames = m.frames ∧ Since before m

/-- A machine in the middle of a run, where it stands and the machine as it was when its function was entered. -/
structure Disciplined (primitives : List String) (p : Program) (base : Machine) (x : Scene) (m : Machine) : Prop where
  /-- The open scopes are those of the blocks around the instruction, on top of those that were open. -/
  nesting : m.chain.length = base.chain.length + blocks x.shape
  loads : itemAt p.code m.pc = .ok Opcode.loadVar.word → LoadsVariable p x m
  stores : itemAt p.code m.pc = .ok Opcode.storeVar.word → StoresVariable p x m
  calls : itemAt p.code m.pc = .ok Opcode.call.word → PassesArguments primitives p x m

section

variable {prims : List String} {body : List Node} {p : Program} {m₀ m : Machine} {bases : List Machine} {x : Scene}
  {depth index : Int}

theorem Settled.loads (h : Settled p m₀ x.view bases m) (hregular : Regular prims body p)
    (hx : x ∈ scenes prims body) (hprogram : m.program = p) (hpc : m.pc = x.address)
    (hinstr : x.instr = .load depth index) : LoadsVariable p x m := by
  have hin := in_of_mem_scenes hregular.stats hregular.laid hx
  obtain ⟨y, d, i, o, id, cells, hsubject, rfl, rfl, ho, hslot⟩ := h.slot hregular hx (Or.inl hinstr)
  rw [hinstr] at hin
  have hlt := hslot.lt
  have hv : cells[i]? = some cells[i] := Array.getElem?_eq_getElem hlt
  obtain ⟨w, m', hnext, hshows⟩ := Snapshot.steps_load (c := m.snapshot x.address) hin hslot.scope hslot.found hv m
    (shows_snapshot hprogram hpc)
  refine ⟨y, d, i, o, id, cells, _, w, m', ?_, ?_, hsubject, ho, hslot, hv, hnext, hshows.stack, hshows.store⟩
  · rw [hpc]
    exact hin.second
  · rw [hpc]
    exact hin.third

theorem Settled.stores (h : Settled p m₀ x.view bases m) (hregular : Regular prims body p)
    (hx : x ∈ scenes prims body) (hprogram : m.program = p) (hpc : m.pc = x.address)
    (hinstr : x.instr = .store depth index) : StoresVariable p x m := by
  have hin := in_of_mem_scenes hregular.stats hregular.laid hx
  have henough := ((program_staged prims hregular.stats hregular.orderly).sound x hx).enough
  rw [Scene.takes, hinstr] at henough
  obtain ⟨v, rest, hitems⟩ := h.top (List.length_pos_iff.mp henough)
  obtain ⟨y, d, i, o, id, cells, hsubject, rfl, rfl, ho, hslot⟩ := h.slot hregular hx (Or.inr hinstr)
  rw [hinstr] at hin
  obtain ⟨w, m', hnext, hshows⟩ := Snapshot.steps_store (c := m.snapshot x.address) hin hslot.scope hslot.found hslot.lt
    hitems m (shows_snapshot hprogram hpc)
  have hstore : m'.store = m.store.setIfInBounds id (cells.setIfInBounds i v) := hshows.store
  refine ⟨y, d, i, o, id, cells, v, w, m', ?_, ?_, hsubject, ho, hslot, hnext, ?_, hstore, ?_⟩
  · rw [hpc]
    exact hin.second
  · rw [hpc]
    exact hin.third
  · rw [hitems, show m'.stack.items = rest from hshows.stack]
  · rw [hstore, Array.map_setIfInBounds, Array.size_setIfInBounds]
    refine Snapshot.setIfInBounds_of_getElem? ?_
    rw [Array.getElem?_map, hslot.found]
    rfl

theorem Settled.passes (h : Settled p m₀ x.view bases m) (hregular : Regular prims body p)
    (hx : x ∈ Layout.scenes prims body) (hprogram : m.program = p) (hpc : m.pc = x.address)
    (hinstr : x.instr = .call id) : PassesArguments prims p x m := by
  have hin := in_of_mem_scenes hregular.stats hregular.laid hx
  rw [hinstr] at hin
  obtain ⟨c, start, y, args, below, r, hsubject, hends, hr, hcount, site, -, hentry, -⟩ := hregular.call_of hx hinstr
  have hall : (Layout.ends prims c start args).length = args.length := Layout.length_ends ..
  have henough : r.params.length ≤ x.view.ends.length := by
    rw [hends, List.length_append]
    omega
  have hsteps := h.steps_call hregular hx hinstr hr hentry henough
  obtain ⟨w, m', hnext, hshows⟩ := hsteps m (shows_snapshot hprogram hpc)
  have hnames : m.names = p.scopes := by
    rw [Machine.names, hprogram]
    exact Snapshot.take_of_extends h.1
  have hdepth := h.2.depth
  refine ⟨c, start, y, args, id, r, (m.stack.items.take r.params.length).toArray, w, m', ?_, hsubject, hr, ?_, hnext, ?_,
    hshows.chain, hshows.store, ?_, hcount.symm, fun i e he => ?_⟩
  · rw [hpc]
    exact hin.second
  · rw [hnames]
    exact hregular.laid.frameSize hregular.stats hregular.texts hr
  · rw [hentry]
    exact congrArg some hshows.pc.symm
  · rw [List.size_toArray, List.length_take]
    omega
  · have hi := (List.getElem?_eq_some_iff.mp he).1
    have hlt : i < m.stack.items.length := by omega
    obtain ⟨before, hbefore, hitems, hchain, hframes, hsince⟩ := h.2.operands (k := i) (e := e) (by
      rw [hends, List.getElem?_append_left hi]
      exact he)
    refine ⟨m.stack.items[i], before, ?_, hbefore, ?_, hchain, hframes, hsince⟩
    · rw [List.getElem?_toArray, List.getElem?_take, if_pos (by omega), List.getElem?_eq_getElem hlt]
    · rw [hitems, List.drop_eq_getElem_cons hlt]

theorem instr_at (hregular : Regular prims body p) (hx : x ∈ stage prims body) {op : Opcode}
    (hword : itemAt p.code x.address = .ok op.word) :
    x ∈ scenes prims body ∧ x.instr.op = op ∧ x.instr.In p x.address := by
  rcases List.mem_append.mp hx with hscene | hend
  · have hin := in_of_mem_scenes hregular.stats hregular.laid hscene
    exact ⟨hscene, hin.op_eq hword, hin⟩
  · have hlt := lt_size_of_itemAt hword
    rw [List.mem_singleton.mp hend, hregular.laid.size] at hlt
    exact absurd hlt (Int.lt_irrefl _)

theorem Settled.disciplined (h : Settled p m₀ x.view bases m) (hregular : Regular prims body p)
    (hx : x ∈ stage prims body) (hprogram : m.program = p) (hpc : m.pc = x.address) :
    Disciplined prims p (bases.headD m₀) x m := by
  refine ⟨?_, fun hword => ?_, fun hword => ?_, fun hword => ?_⟩
  · have hnested := stage_nested prims hregular.stats hx
    have hnesting := h.2.nesting
    omega
  · rw [hpc] at hword
    obtain ⟨hscene, hop, hin⟩ := instr_at hregular hx hword
    obtain ⟨depth, index, hinstr⟩ := hin.eq_of_op.1 hop
    exact h.loads hregular hscene hprogram hpc hinstr
  · rw [hpc] at hword
    obtain ⟨hscene, hop, hin⟩ := instr_at hregular hx hword
    obtain ⟨depth, index, hinstr⟩ := hin.eq_of_op.2.1 hop
    exact h.stores hregular hscene hprogram hpc hinstr
  · rw [hpc] at hword
    obtain ⟨hscene, hop, hin⟩ := instr_at hregular hx hword
    obtain ⟨id, hinstr⟩ := hin.eq_of_op.2.2 hop
    exact h.passes hregular hscene hprogram hpc hinstr

end

/-- **Scope discipline.** Take a program that was read and compiled, without `break` and `continue`, in which no two functions have
one name, as many arguments are passed as are taken, and no primitive is read or assigned as a variable. All along a run,
the scopes of the blocks around the instruction are open, on top of those that were open when the function was entered. A variable
is found in the scope that was opened for the block or the parameters that declare it, which has a cell for it; reading
and writing it succeeds and leaves every scope as long as it was. A call finds the parameters and opens a scope with one cell for
each, which has the value of the argument in that place. -/
theorem scope_discipline {text : String} {body : List Node} {primitives : List String} {p : Program}
    (hread : Node.ofText text = .ok (.program body)) (hp : Program.ofNode primitives (.program body) = .ok p)
    (hexits : exitsAll false body = []) (hdistinct : ((functionsAll body).map (·.name)).Nodup)
    (hpasses : ∀ x ∈ Layout.scenes primitives body, x.passes p.routines = true)
    (hproper : ∀ x ∈ usesAll body, ∀ s ∈ primitives, x ≠ .text s) (signals : List Signal) {n : Nat} {m : Machine}
    (hruns : Runs n (Machine.start p signals) m) :
    ∃ bases, Reaches (Machine.start p signals) bases m ∧ bases.length = m.frames.length ∧
      ∃ x ∈ Layout.stage primitives body, m.pc = x.address ∧
        Disciplined primitives p (bases.headD (Machine.start p signals)) x m := by
  obtain ⟨_, heq, hbody⟩ := Node.areStats_of_text hread
  cases heq
  have hregular : Regular primitives body p :=
    ⟨hbody, Program.laidOut hbody hp, hasTexts_of_text hread, hexits, hdistinct, hpasses, hproper⟩
  obtain ⟨bases, hreaches⟩ := hruns.reaches hregular.stats hregular.laid hregular.orderly
  obtain ⟨⟨hprogram, x, hx, hpc, hsettled⟩, hpending⟩ :=
    (settled_invariant hregular signals).all hregular.stats hregular.laid hregular.orderly hreaches
  exact ⟨bases, hreaches, hpending.length, x, hx, hpc, hsettled.disciplined hregular hx hprogram hpc⟩

/-- `var f = fun(x, y) { var z = x; { print(z + y); } }; f(1, 2);` at the call, and inside the function and both of
its blocks, where the parameter `y` is read. -/
theorem scopes_at_call_and_in_blocks :
    ∃ (p : Program) (base m m' : Machine) (x x' : Scene), m.pc = 35 ∧ PassesArguments [] p x m ∧ m'.pc = 17 ∧
      m'.frames.length = 1 ∧ m'.chain.length = base.chain.length + 2 ∧ LoadsVariable p x' m' := by
  let text : String := "var f = fun(x, y) \x7b var z = x; \x7b print(z + y); \x7d \x7d; f(1, 2);"
  let body : List Node :=
    [.define (.text "f") (.function [.text "x", .text "y"]
        (.block [.define (.text "z") (.name (.text "x")),
          .block [.print [.binary (.text "+") (.name (.text "z")) (.name (.text "y"))]]])),
      .exprStat (.call (.name (.text "f")) [.literal .num [.int 1], .literal .num [.int 2]])]
  let p : Program :=
    { code := #[13, 1, 9, 26, 13, 1, 5, 1, 0, 6, 0, 0, 13, 0, 5, 1, 0, 5, 2, 1, 111, 7, 8, 14, 14, 16, 1, 0, 6, 0, 0, 1, 1,
        1, 2, 15, 0, 12, 14]
      consts := #[.number (.int 0), .number (.int 2), .number (.int 1)]
      scopes := #[#[], #[.text "f"], #[.text "x", .text "y"], #[.text "z"], #[]]
      routines := #[⟨.text "f", [.text "x", .text "y"], some 4⟩] }
  have hread : Node.ofText text = .ok (.program body) := by cbv
  have hp : Program.ofNode [] (.program body) = .ok p := by cbv
  have hall : ∀ {n : Nat} {m : Machine}, Runs n (Machine.start p []) m → _ :=
    scope_discipline hread hp (by decide +kernel) (by simp [body, functionsAll, functions]) (by decide +kernel) (by simp) []
  have hcall : (((Machine.start p []).after? 6).map (·.pc)) = some 35 := by decide +kernel
  have hload : (((Machine.start p []).after? 12).map fun m => (m.pc, m.frames.length)) = some (17, 1) := by decide +kernel
  obtain ⟨m, hm, hpc⟩ := Option.map_eq_some_iff.mp hcall
  obtain ⟨m', hm', hview⟩ := Option.map_eq_some_iff.mp hload
  obtain ⟨hpc', hframes⟩ := Prod.mk.inj hview
  obtain ⟨_, -, -, x, -, -, hdisciplined⟩ := hall (after?_eq_some_iff.mp hm)
  obtain ⟨bases, -, -, x', hx', haddress, hdisciplined'⟩ := hall (after?_eq_some_iff.mp hm')
  have hblocks : ∀ y ∈ Layout.stage [] body, y.address = 17 → blocks y.shape = 2 := by decide +kernel
  have hnesting := hdisciplined'.nesting
  rw [hblocks x' hx' (by omega)] at hnesting
  exact ⟨p, _, m, m', x, x', hpc, hdisciplined.calls (by rw [hpc]; rfl), hpc', hframes, hnesting,
    hdisciplined'.loads (by rw [hpc']; rfl)⟩

end Machine

end Cilly
