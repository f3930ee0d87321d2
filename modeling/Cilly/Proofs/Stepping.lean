import Cilly.Proofs.Acting
import Cilly.Proofs.Layout

/-!
# Steps of the machine

What a step comes to, seen from outside: the word at the current address is fetched, the step is counted,
and the instruction is performed. The budget only decides whether there is a step at all, so `Machine.next`
leaves it out.

For control it does not matter what an instruction does to the stack, to variables and to the output.
`Moves` says where a step leads and what it does to the open scopes and to the pending calls.
-/

namespace Cilly

open Acting
open MachineM hiding outcome

variable {address budget : Nat} {α : Type}

/-! ## Fetching -/

theorem itemAt_of_getElem? {xs : Array α} {i : Nat} {x : α} (h : xs[i]? = some x) :
    itemAt xs (i : Int) = .ok x := by
  have hlt : i < xs.size := (Array.getElem?_eq_some_iff.mp h).1
  simp only [itemAt, CompileM.position?_of_lt hlt, Option.bind_some, h]

theorem itemAt_neg_one {xs : Array α} {x : α} (h : xs.back? = some x) :
    itemAt xs (-1) = .ok x := by
  rw [Array.back?_eq_getElem?] at h
  have hlt : xs.size - 1 < xs.size := (Array.getElem?_eq_some_iff.mp h).1
  have hpos : Datum.position? xs.size (-1) = some (xs.size - 1) := by
    simp only [Datum.position?]
    rw [if_pos (by omega), if_pos (by omega)]
    congr 1
    omega
  simp only [itemAt, hpos, Option.bind_some, h]

theorem itemAt_reverse {xs : List α} {depth : Nat} {x : α} (h : xs[depth]? = some x) :
    itemAt xs.reverse.toArray (-(depth : Int) - 1) = .ok x := by
  have hlt : depth < xs.length := (List.getElem?_eq_some_iff.mp h).1
  have hback : xs.reverse.toArray[xs.length - 1 - depth]? = some x := by
    rw [List.getElem?_toArray, List.getElem?_reverse (by omega), ← h]
    congr 1
    omega
  have hpos : Datum.position? xs.reverse.toArray.size (-(depth : Int) - 1) = some (xs.length - 1 - depth) := by
    simp only [Datum.position?, List.size_toArray, List.length_reverse]
    rw [if_pos (by omega), if_pos (by omega)]
    congr 1
    omega
  simp only [itemAt, hpos, Option.bind_some, hback]

theorem lt_size_of_itemAt {xs : Array α} {i : Int} {x : α} (h : itemAt xs i = .ok x) : i < xs.size := by
  cases hpos : Datum.position? xs.size i with
  | none => simp [itemAt, hpos] at h
  | some k =>
    simp only [Datum.position?, Option.ite_none_right_eq_some] at hpos
    split at hpos <;> omega

namespace Program.Holds

variable {p : Program} {address : Nat} {w w' w'' : Int} {words : List Int}

theorem first (h : p.Holds address (w :: words)) : itemAt p.code (address : Int) = .ok w :=
  itemAt_of_getElem? (h 0 w rfl)

theorem second (h : p.Holds address (w :: w' :: words)) : itemAt p.code ((address : Int) + 1) = .ok w' :=
  itemAt_of_getElem? (h 1 w' rfl)

theorem third (h : p.Holds address (w :: w' :: w'' :: words)) :
    itemAt p.code ((address : Int) + 2) = .ok w'' :=
  itemAt_of_getElem? (h 2 w'' rfl)

end Program.Holds

namespace Machine

/-- A step has been counted. -/
def counted (m : Machine) : Machine := { m with steps := m.steps + 1 }

/-- What a step comes to if the budget allows for it. -/
def next (m : Machine) : Except MachineError Int × Machine := outcome (step (m.steps + 1)) m

end Machine

namespace MachineM

variable {m m' : Machine} {op : Opcode}

theorem outcome_ofFault (r : Except Fault α) :
    Acting.outcome (ofFault r) m = (r.mapError .fault, m) := by
  cases r <;> rfl

theorem outcome_word {address w : Int} (h : itemAt m.program.code address = .ok w) :
    Acting.outcome (word address) m = (.ok w, m) := by
  unfold word
  rw [bind_ok (outcome_get m), h]
  rfl

theorem outcome_word_error {address : Int} {f : Fault} (h : itemAt m.program.code address = .error f) :
    Acting.outcome (word address) m = (.error (.fault f), m) := by
  unfold word
  rw [bind_ok (outcome_get m), h]
  rfl

theorem outcome_countStep (h : m.steps < budget) :
    Acting.outcome (countStep budget) m = (.ok (), m.counted) := by
  unfold countStep
  rw [bind_ok (outcome_get m), if_neg (by omega)]
  rfl

theorem outcome_countStep_limit (h : budget ≤ m.steps) :
    Acting.outcome (countStep budget) m = (.error .stepLimit, m) := by
  unfold countStep
  rw [bind_ok (outcome_get m), if_pos h]
  rfl

theorem outcome_step (hfetch : itemAt m.program.code m.pc = .ok op.word)
    (h : m.steps < budget) :
    Acting.outcome (step budget) m =
      match Acting.outcome (perform op m.pc) m.counted with
      | (.ok next, m') => (.ok op.word, { m' with pc := next })
      | (.error e, m') => (.error e, m') := by
  unfold step
  rw [bind_ok (outcome_get m), bind_ok (outcome_word hfetch), bind_ok (outcome_countStep h),
    Opcode.ofWord?_word]
  dsimp only
  rw [outcome_bind]
  cases Acting.outcome (perform op m.pc) m.counted with
  | mk r m' => cases r <;> rfl

theorem outcome_step_eq_next (h : m.steps < budget) : Acting.outcome (step budget) m = m.next := by
  unfold Machine.next step
  rw [bind_ok (outcome_get m), bind_ok (outcome_get m)]
  cases hfetch : itemAt m.program.code m.pc with
  | error f =>
    rw [bind_error (outcome_word_error hfetch), bind_error (outcome_word_error hfetch)]
  | ok w =>
    rw [bind_ok (outcome_word hfetch), bind_ok (outcome_word hfetch), bind_ok (outcome_countStep h),
      bind_ok (outcome_countStep (Nat.lt_succ_self _))]

end MachineM

theorem Machine.next_eq {m : Machine} {op : Opcode} (hfetch : itemAt m.program.code m.pc = .ok op.word) :
    m.next =
      match outcome (perform op m.pc) m.counted with
      | (.ok next, m') => (.ok op.word, { m' with pc := next })
      | (.error e, m') => (.error e, m') :=
  outcome_step hfetch (Nat.lt_succ_self _)

/-! ## Control -/

/-- The same program with the same scopes open and the same calls pending. -/
structure Machine.SameControl (m m' : Machine) : Prop where
  program : m'.program = m.program
  chain : m'.chain = m.chain
  frames : m'.frames = m.frames

namespace Machine.SameControl

variable {m m' m'' : Machine}

theorem refl (m : Machine) : SameControl m m := ⟨rfl, rfl, rfl⟩

theorem trans (h : SameControl m m') (h' : SameControl m' m'') : SameControl m m'' :=
  ⟨h'.program.trans h.program, h'.chain.trans h.chain, h'.frames.trans h.frames⟩

end Machine.SameControl

open Machine (SameControl)

/-! ## What actions may do -/

/-- All that an action does to the machine is within a relation. Its result has a property, and so has its error. -/
def Acts {α : Type} (R : Machine → Machine → Prop) (E : MachineError → Prop) (P : α → Prop) (x : MachineM α) : Prop :=
  ∀ m, R m (outcome x m).2 ∧ (∀ a, (outcome x m).1 = .ok a → P a) ∧ ∀ e, (outcome x m).1 = .error e → E e

/-- Doing nothing is within a relation, and so is what is done in two steps. -/
class Bearing (R : Machine → Machine → Prop) : Prop where
  refl : ∀ m, R m m
  trans : ∀ {m m' m''}, R m m' → R m' m'' → R m m''

/-- So is all that can be done to the stack, to what is printed and to the log. -/
class Lenient (R : Machine → Machine → Prop) : Prop extends Bearing R where
  stack : ∀ m stack, R m { m with stack := stack }
  printed : ∀ m printed, R m { m with printed := printed }
  log : ∀ m log, R m { m with log := log }

/-- Every fault is among the errors. -/
class Faulty (E : MachineError → Prop) : Prop where
  fault : ∀ f, E (.fault f)

/-- All errors are, but perhaps for missing signals. -/
class Admits (E : MachineError → Prop) : Prop extends Faulty E where
  refused : ∀ {e}, (∀ x, e ≠ .unknownSignal x) → E e

instance : Admits fun _ => True where
  fault _ := trivial
  refused _ := trivial

instance : Lenient SameControl where
  refl := .refl
  trans := .trans
  stack _ _ := ⟨rfl, rfl, rfl⟩
  printed _ _ := ⟨rfl, rfl, rfl⟩
  log _ _ := ⟨rfl, rfl, rfl⟩

namespace Acts

variable {α β : Type} {R : Machine → Machine → Prop} {E : MachineError → Prop} {P : α → Prop} {Q : β → Prop}
  {x : MachineM α} {f : α → MachineM β}

theorem update {g : Machine → Machine} (h : ∀ m, R m (g m)) : Acts R E (fun _ => True) (modify g : MachineM PUnit) :=
  fun m => ⟨h m, fun _ _ => trivial, fun _ he => by cases he⟩

theorem any (h : Acts R E P x) : Acts R E (fun _ => True) x := fun m => ⟨(h m).1, fun _ _ => trivial, (h m).2.2⟩

section

variable [Bearing R]

theorem bind (hx : Acts R E P x) (hf : ∀ a, P a → Acts R E Q (f a)) : Acts R E Q (x >>= f) := by
  intro m
  rw [outcome_bind]
  obtain ⟨hR, hP, hE⟩ := hx m
  cases h : outcome x m with
  | mk r m' =>
    rw [h] at hR hP hE
    cases r with
    | error e => exact ⟨hR, nofun, fun _ he => hE _ (by cases he; rfl)⟩
    | ok a =>
      obtain ⟨hR', hrest⟩ := hf a (hP a rfl) m'
      exact ⟨Bearing.trans hR hR', hrest⟩

theorem seq (hx : Acts R E (fun _ => True) x) (hf : ∀ a, Acts R E Q (f a)) : Acts R E Q (x >>= f) :=
  hx.bind fun a _ => hf a

theorem pure {a : α} (h : P a) : Acts R E P (Pure.pure a) :=
  fun m => ⟨Bearing.refl m, fun _ hb => by cases hb; exact h, fun _ he => by cases he⟩

theorem throw {e : MachineError} (h : E e) : Acts R E P (MonadExcept.throw e) :=
  fun m => ⟨Bearing.refl m, fun _ he => (by cases he), fun _ he => by cases he; exact h⟩

theorem get : Acts R E (fun _ => True) (MonadState.get : MachineM Machine) :=
  fun m => ⟨Bearing.refl m, fun _ _ => trivial, fun _ he => by cases he⟩

variable [Faulty E]

theorem ofFault (r : Except Fault α) : Acts R E (fun _ => True) (ofFault r) := by
  cases r with
  | ok a => exact pure trivial
  | error f => exact throw (Faulty.fault f)

theorem refuse {e : Int → MachineError} {i : Int} (h : E (e i)) : Acts R E P (refuse e i) :=
  (show Acts R E _ (discard _) from (ofFault _).seq fun _ => pure trivial).seq fun _ => throw h

theorem word (address : Int) : Acts R E (fun _ => True) (word address) := get.seq fun _ => ofFault _

theorem signalFor (h : ∀ x, E (.unknownSignal x)) (x : Datum) : Acts R E (fun _ => True) (signalFor x) := by
  unfold MachineM.signalFor
  split
  case' isTrue => refine seq (throw (Faulty.fault _)) fun _ => ?_
  all_goals
    refine get.seq fun m => ?_
    split
    · exact pure trivial
    · exact (ofFault _).seq fun _ => throw (h _)

end

theorem scopeAt [Bearing R] [Admits E] (depth : Int) : Acts R E (fun _ => True) (scopeAt depth) := by
  refine get.seq fun m => ?_
  dsimp only
  split
  · exact refuse (Admits.refused (by simp))
  · exact ofFault _

section

variable [Lenient R]

theorem pushed (v : Datum) {next : Int} {P : Int → Prop} (h : P next) : Acts R E P (do push v; return next) :=
  seq (update fun m => Lenient.stack m _) fun _ => pure h

theorem printText (s : String) : Acts R E (fun _ => True) (printText s) := update fun m => Lenient.printed m _

variable [Faulty E]

theorem pop : Acts R E (fun _ => True) pop := by
  have hpop : Acts R E (fun _ => True) (modifyGet fun m : Machine => (m.stack.pop.1, { m with stack := m.stack.pop.2 }) :
      MachineM (Option Datum)) := fun m => ⟨Lenient.stack m _, fun _ _ => trivial, fun _ he => by cases he⟩
  refine hpop.seq fun popped => ?_
  cases popped with
  | none => exact throw (Faulty.fault _)
  | some v => exact pure trivial

theorem popPayload : Acts R E (fun _ => True) popPayload := pop.seq fun _ => ofFault _

theorem takeArguments (size : Nat) : ∀ count, Acts R E (fun _ => True) (takeArguments size count)
  | 0 => pure trivial
  | count + 1 => by
    refine (takeArguments size count).seq fun cells => pop.seq fun v => ?_
    split
    · exact pure trivial
    · exact throw (Faulty.fault _)

theorem popArguments : ∀ n, Acts R E (fun _ => True) (popArguments n)
  | 0 => pure trivial
  | n + 1 => popPayload.seq fun _ => (popArguments n).seq fun _ => pure trivial

theorem drain : ∀ depth, Acts R E (fun _ => True) (drain depth)
  | 0 => pure trivial
  | depth + 1 => popPayload.seq fun _ => (ofFault _).seq fun _ => (printText _).seq fun _ => drain depth

/-- What is printed behind the last step can only fail with a fault. -/
theorem leftovers : Acts R E (fun _ => True) leftovers := by
  refine get.seq fun m => ?_
  dsimp only
  split
  · exact pure trivial
  · exact (printText _).seq fun _ => (drain _).seq fun _ => printText _

theorem loadConst (pc : Int) : Acts R E (· = pc + 2) (loadConst pc) :=
  (word _).seq fun _ => get.seq fun _ => (ofFault _).seq fun v => pushed v rfl

theorem jumpOn (expected : Datum) (pc : Int) : Acts R E (fun _ => True) (jumpOn expected pc) :=
  (word _).seq fun _ => pop.seq fun _ => pure trivial

theorem callSignal (h : ∀ x, E (.unknownSignal x)) (pc : Int) : Acts R E (· = pc + 2) (callSignal pc) :=
  (word _).seq fun _ => get.seq fun _ => (ofFault _).seq fun _ => (ofFault _).seq fun _ => (signalFor h _).seq fun _ =>
    (popArguments _).seq fun _ => (ofFault _).seq fun _ => seq (update fun m => Lenient.log m _) fun _ => pushed _ rfl

end

section

variable [Lenient R] [Admits E]

theorem loadVar (pc : Int) : Acts R E (· = pc + 3) (loadVar pc) := by
  refine (word _).seq fun depth => (scopeAt depth).seq fun id => get.seq fun m => (word _).seq fun i => ?_
  dsimp only
  split
  case' isTrue => refine seq (refuse (Admits.refused (by simp))) fun _ => ?_
  all_goals exact (ofFault _).seq fun v => pushed v rfl

theorem storeVar (h : ∀ m store, R m { m with store := store }) (pc : Int) : Acts R E (· = pc + 3) (storeVar pc) := by
  refine (word _).seq fun depth => (scopeAt depth).seq fun id => (word _).seq fun i => seq (update fun m => h m _) fun _ =>
    pop.seq fun v => get.seq fun m => ?_
  split
  · exact seq (update fun m => h m _) fun _ => pure rfl
  · exact seq (throw (Faulty.fault _)) fun _ => pure rfl

theorem leaveScope (h : ∀ m chain, R m { m with chain := chain }) (pc : Int) :
    Acts R E (fun _ => True) (leaveScope pc) := by
  refine get.seq fun m => ?_
  split
  · exact seq (throw (Faulty.fault _)) fun _ => pure trivial
  · exact seq (update fun m => h m _) fun _ => pure trivial

theorem callRoutine (h : ∀ m cells, R m { m with store := m.store.push cells, chain := m.store.size :: m.chain })
    (h' : ∀ m frames, R m { m with frames := frames }) (pc : Int) : Acts R E (fun _ => True) (callRoutine pc) := by
  refine (word _).seq fun id => get.seq fun m => ?_
  dsimp only
  split
  case' isTrue => refine seq (refuse (Admits.refused (by simp))) fun _ => ?_
  all_goals
    refine (ofFault _).seq fun routine => (ofFault _).seq fun size => (takeArguments _ _).seq fun cells =>
      seq (update fun m => h' m _) fun _ => seq (update fun m => h m _) fun _ => ?_
    split
    · exact pure trivial
    · exact throw (Faulty.fault _)

theorem goBack (h : ∀ m frames chain, R m { m with frames := frames, chain := chain }) (v : Datum) :
    Acts R E (fun _ => True) (goBack v) := by
  refine get.seq fun m => ?_
  split
  · exact throw (Admits.refused (by simp))
  · exact seq (update fun m => h m _ _) fun _ => pushed v trivial

theorem returnValue (h : ∀ m frames chain, R m { m with frames := frames, chain := chain }) (pc : Int) :
    Acts R E (fun _ => True) (returnValue pc) := by
  refine get.seq fun m => ?_
  split
  case' isTrue => refine seq (throw (Admits.refused (by simp))) fun _ => ?_
  all_goals exact pop.seq fun v => goBack h v

theorem plain {op : Opcode} (h : op.isPlain = true) (pc : Int) : Acts R E (· = pc + 1) (perform op pc) := by
  cases op with
  | loadNull | loadTrue | loadFalse => exact pushed _ rfl
  | printItem => exact popPayload.seq fun _ => (ofFault _).seq fun _ => (printText _).seq fun _ => pure rfl
  | printNewline => exact (printText _).seq fun _ => pure rfl
  | pop => exact (show Acts R E _ (discard _) from pop.seq fun _ => pure trivial).seq fun _ => pure rfl
  | unary op =>
    refine popPayload.seq fun v => (word _).seq fun w => ?_
    split
    · exact (ofFault _).seq fun v => pushed v rfl
    · exact seq (refuse (Admits.refused (by simp))) fun _ => pure rfl
  | binary op =>
    refine popPayload.seq fun v => popPayload.seq fun _ => (word _).seq fun w => ?_
    split
    · exact (ofFault _).seq fun v => pushed v rfl
    · exact seq (refuse (Admits.refused (by simp))) fun _ => pure rfl
  | loadConst | loadVar | storeVar | jump | jumpTrue | jumpFalse | enterScope | leaveScope | call
    | «return» | returnValue | callPrimitive => cases h

/-- What an instruction may do, if its relation allows for what is done to scopes and calls. -/
theorem perform {op : Opcode} (hstore : op = .storeVar → ∀ m store, R m { m with store := store })
    (hopen : op = .enterScope ∨ op = .call →
      ∀ m cells, R m { m with store := m.store.push cells, chain := m.store.size :: m.chain })
    (hback : ∀ m frames chain, R m { m with frames := frames, chain := chain })
    (hsignal : op = .callPrimitive → ∀ x, E (.unknownSignal x)) (pc : Int) :
    Acts R E (fun _ => True) (perform op pc) := by
  cases op with
  | loadConst => exact (loadConst pc).any
  | loadVar => exact (loadVar pc).any
  | storeVar => exact (storeVar (hstore rfl) pc).any
  | jump => exact word _
  | jumpTrue | jumpFalse => exact jumpOn _ pc
  | enterScope => exact (word _).seq fun _ => seq (update fun m => hopen (.inl rfl) m _) fun _ => pure trivial
  | leaveScope => exact leaveScope (fun m chain => hback m m.frames chain) pc
  | call => exact callRoutine (hopen (.inr rfl)) (fun m frames => hback m frames m.chain) pc
  | «return» => exact goBack hback _
  | returnValue => exact returnValue hback pc
  | callPrimitive => exact (callSignal (hsignal rfl) pc).any
  | _ => exact (plain rfl pc).any

end

end Acts

/-- An action that leaves control alone, and whose result has a property. -/
def Quiet {α : Type} (x : MachineM α) (P : α → Prop) : Prop :=
  ∀ m, SameControl m (outcome x m).2 ∧ ∀ a, (outcome x m).1 = .ok a → P a

namespace Quiet

variable {α : Type} {P : α → Prop} {x : MachineM α}

theorem of_acts (h : Acts SameControl (fun _ => True) P x) : Quiet x P := fun m => ⟨(h m).1, (h m).2.1⟩

theorem ok {m m' : Machine} {a : α} (h : Quiet x P) (hx : outcome x m = (.ok a, m')) :
    SameControl m m' ∧ P a := by
  have := h m
  rw [hx] at this
  exact ⟨this.1, this.2 a rfl⟩

theorem ofFault (r : Except Fault α) : Quiet (ofFault r) fun _ => True := of_acts (.ofFault r)

theorem refuse (e : Int → MachineError) (i : Int) : Quiet (refuse e i : MachineM α) P := of_acts (.refuse trivial)

theorem pop : Quiet pop fun _ => True := of_acts .pop

theorem word (address : Int) : Quiet (word address) fun _ => True := of_acts (.word address)

end Quiet

/-- Where an instruction at an address leads, and what it does to the open scopes and the pending calls. -/
def Instr.Moves (address : Nat) (m m' : Machine) : Instr → Prop
  | .const _ | .primitive _ => m'.pc = address + 2 ∧ SameControl m m'
  | .load .. | .store .. => m'.pc = address + 3 ∧ SameControl m m'
  | .plain _ => m'.pc = address + 1 ∧ SameControl m m'
  | .jump target | .continueLoop target => m'.pc = target ∧ SameControl m m'
  | .branch _ target => (m'.pc = target ∨ m'.pc = address + 2) ∧ SameControl m m'
  | .breakLoop => m'.pc = -1 ∧ SameControl m m'
  | .enter _ =>
    m'.pc = address + 2 ∧ m'.program = m.program ∧ (∃ id, m'.chain = id :: m.chain) ∧ m'.frames = m.frames
  | .leave =>
    m'.pc = address + 1 ∧ m'.program = m.program ∧ (∃ id, m.chain = id :: m'.chain) ∧ m'.frames = m.frames
  | .call id =>
    (∃ r, m.program.routines[id]? = some r ∧ r.entry = some m'.pc) ∧ m'.program = m.program ∧
      (∃ id, m'.chain = id :: m.chain) ∧ m'.frames = ⟨address + 2, m.chain⟩ :: m.frames
  | .return | .returnValue =>
    m'.program = m.program ∧ ∃ frame, m.frames = frame :: m'.frames ∧ m'.pc = frame.back ∧ m'.chain = frame.chain
  | .refused => False

namespace Machine

variable {m m' : Machine} {w : Int} {op : Opcode}

theorem performed (hfetch : itemAt m.program.code m.pc = .ok op.word) (h : m.next = (.ok w, m')) :
    ∃ pc n, outcome (perform op m.pc) m.counted = (.ok pc, n) ∧ m' = { n with pc := pc } := by
  rw [next_eq hfetch] at h
  cases hperform : outcome (perform op m.pc) m.counted with
  | mk r n =>
    rw [hperform] at h
    cases r with
    | error e => cases h
    | ok next =>
      cases h
      exact ⟨next, n, rfl, rfl⟩

theorem quiet_step {P : Int → Prop} (hfetch : itemAt m.program.code m.pc = .ok op.word)
    (h : m.next = (.ok w, m')) (hacts : Acts SameControl (fun _ => True) P (perform op m.pc)) :
    P m'.pc ∧ SameControl m m' := by
  obtain ⟨pc, n, hperform, rfl⟩ := performed hfetch h
  obtain ⟨hsame, hP⟩ := (Quiet.of_acts hacts).ok hperform
  exact ⟨hP, hsame.program, hsame.chain, hsame.frames⟩

theorem moves_jump {target : Int} (hholds : m.program.Holds address [Opcode.jump.word, target])
    (hpc : m.pc = address) (h : m.next = (.ok w, m')) : m'.pc = target ∧ SameControl m m' := by
  have hfetch : itemAt m.program.code m.pc = .ok Opcode.jump.word := by rw [hpc]; exact hholds.first
  obtain ⟨pc, n, hperform, rfl⟩ := performed hfetch h
  have hword : itemAt m.counted.program.code (m.pc + 1) = .ok target := by rw [hpc]; exact hholds.second
  rw [show perform .jump m.pc = word (m.pc + 1) from rfl,
    outcome_word hword] at hperform
  cases hperform
  exact ⟨rfl, rfl, rfl, rfl⟩

theorem moves_branch {target : Int} (hop : op.isBranch = true)
    (hholds : m.program.Holds address [op.word, target]) (hpc : m.pc = address) (h : m.next = (.ok w, m')) :
    (m'.pc = target ∨ m'.pc = address + 2) ∧ SameControl m m' := by
  have hfetch : itemAt m.program.code m.pc = .ok op.word := by rw [hpc]; exact hholds.first
  have hword : itemAt m.counted.program.code (m.pc + 1) = .ok target := by rw [hpc]; exact hholds.second
  have hjump : ∃ expected, perform op m.pc = jumpOn expected m.pc := by
    cases op with
    | jumpTrue => exact ⟨.yes, rfl⟩
    | jumpFalse => exact ⟨.no, rfl⟩
    | _ => cases hop
  obtain ⟨expected, hjump⟩ := hjump
  obtain ⟨pc, n, hperform, rfl⟩ := performed hfetch h
  rw [hjump, jumpOn, bind_ok (outcome_word hword)] at hperform
  have hquiet : Quiet (do
      let v ← pop
      return if v.eq expected then target else m.pc + 2) fun r => r = target ∨ r = address + 2 := by
    refine .of_acts (Acts.pop.seq fun v => .pure ?_)
    split
    · exact Or.inl rfl
    · exact Or.inr (by rw [hpc])
  obtain ⟨hsame, hP⟩ := hquiet.ok hperform
  exact ⟨hP, hsame.program, hsame.chain, hsame.frames⟩

theorem moves_enter {count : Nat} (hholds : m.program.Holds address [Opcode.enterScope.word, (count : Int)])
    (hpc : m.pc = address) (h : m.next = (.ok w, m')) : (Instr.enter count).Moves address m m' := by
  have hfetch : itemAt m.program.code m.pc = .ok Opcode.enterScope.word := by rw [hpc]; exact hholds.first
  have hword : itemAt m.counted.program.code (m.pc + 1) = .ok (count : Int) := by rw [hpc]; exact hholds.second
  obtain ⟨pc, n, hperform, rfl⟩ := performed hfetch h
  rw [show perform .enterScope m.pc = enterScope m.pc from rfl, enterScope,
    bind_ok (outcome_word hword)] at hperform
  cases hperform
  exact ⟨by rw [hpc], rfl, ⟨_, rfl⟩, rfl⟩

theorem moves_leave (hfetch : itemAt m.program.code m.pc = .ok Opcode.leaveScope.word)
    (h : m.next = (.ok w, m')) : m'.pc = m.pc + 1 ∧ m'.program = m.program ∧
      (∃ id, m.chain = id :: m'.chain) ∧ m'.frames = m.frames := by
  obtain ⟨pc, n, hperform, rfl⟩ := performed hfetch h
  rw [show perform .leaveScope m.pc = leaveScope m.pc from rfl, leaveScope,
    bind_ok (outcome_get _)] at hperform
  cases hchain : m.chain with
  | nil =>
    rw [show m.counted.chain = m.chain from rfl, hchain] at hperform
    cases hperform
  | cons id outer =>
    rw [show m.counted.chain = m.chain from rfl, hchain] at hperform
    cases hperform
    exact ⟨rfl, rfl, ⟨id, rfl⟩, rfl⟩

theorem moves_call {id : Nat} (hholds : m.program.Holds address [Opcode.call.word, (id : Int)])
    (hpc : m.pc = address) (h : m.next = (.ok w, m')) : (Instr.call id).Moves address m m' := by
  have hfetch : itemAt m.program.code m.pc = .ok Opcode.call.word := by rw [hpc]; exact hholds.first
  have hword : itemAt m.counted.program.code (m.pc + 1) = .ok (id : Int) := by rw [hpc]; exact hholds.second
  obtain ⟨pc, n, hperform, rfl⟩ := performed hfetch h
  rw [show perform .call m.pc = callRoutine m.pc from rfl, callRoutine,
    bind_ok (outcome_word hword), bind_ok (outcome_get _)] at hperform
  by_cases hid : id < m.program.routines.size
  · have hroutine : m.program.routines[id]? = some m.program.routines[id] := Array.getElem?_eq_getElem hid
    rw [if_neg (by show ¬ (m.program.routines.size : Int) ≤ id; omega),
      show itemAt m.counted.program.routines (id : Int) = _ from itemAt_of_getElem? hroutine] at hperform
    generalize m.program.routines[id] = r at hroutine hperform
    obtain ⟨_, _, hr, hperform⟩ := bind_eq_ok.mp hperform
    cases hr
    obtain ⟨size, _, hsize, hperform⟩ := bind_eq_ok.mp hperform
    obtain ⟨hsame, -⟩ := (Quiet.ofFault _).ok hsize
    obtain ⟨cells, n', hcells, hperform⟩ := bind_eq_ok.mp hperform
    obtain ⟨hsame', -⟩ := (Quiet.of_acts (.takeArguments _ _)).ok hcells
    have hall := hsame.trans hsame'
    cases hentry : r.entry with
    | none =>
      rw [hentry] at hperform
      cases hperform
    | some entry =>
      rw [hentry] at hperform
      cases hperform
      exact ⟨⟨r, hroutine, hentry⟩, hall.program, ⟨_, congrArg _ hall.chain⟩, by
        show (⟨m.pc + 2, n'.chain⟩ :: n'.frames : List Frame) = _
        rw [hall.chain, hall.frames, hpc]
        rfl⟩
  · rw [if_pos (by show (m.program.routines.size : Int) ≤ id; omega)] at hperform
    obtain ⟨_, _, hrefuse, -⟩ := bind_eq_ok.mp hperform
    exact ((Quiet.refuse (P := fun _ => False) _ _).ok hrefuse).2.elim

theorem moves_goBack {v : Datum} {pc : Int} {n : Machine}
    (h : outcome (goBack v) m = (.ok pc, n)) :
    n.program = m.program ∧ ∃ frame, m.frames = frame :: n.frames ∧ pc = frame.back ∧ n.chain = frame.chain := by
  rw [goBack, bind_ok (outcome_get _)] at h
  cases hframes : m.frames with
  | nil =>
    rw [hframes] at h
    cases h
  | cons frame outer =>
    rw [hframes] at h
    cases h
    exact ⟨rfl, frame, rfl, rfl, rfl⟩

theorem moves_returnValue (hfetch : itemAt m.program.code m.pc = .ok Opcode.returnValue.word)
    (h : m.next = (.ok w, m')) : Instr.returnValue.Moves 0 m m' := by
  obtain ⟨pc, n, hperform, rfl⟩ := performed hfetch h
  rw [show perform .returnValue m.pc = returnValue m.pc from rfl, returnValue,
    bind_ok (outcome_get _)] at hperform
  cases hframes : m.frames.isEmpty with
  | true =>
    rw [show m.counted.frames = m.frames from rfl, hframes] at hperform
    cases hperform
  | false =>
    rw [show m.counted.frames = m.frames from rfl, hframes] at hperform
    obtain ⟨v, n', hpop, hback⟩ := bind_eq_ok.mp hperform
    obtain ⟨hsame, -⟩ := Quiet.pop.ok hpop
    obtain ⟨hprogram, frame, hframe, hpc, hchain⟩ := moves_goBack hback
    exact ⟨hprogram.trans hsame.program, frame, by rw [← hframe, hsame.frames]; rfl, hpc, hchain⟩

/-- **Where a step leads.** -/
theorem moves {instr : Instr} (hinstr : instr.In m.program address) (hpc : m.pc = address)
    (h : m.next = (.ok w, m')) : instr.Moves address m m' := by
  have hfetch : ∀ {op : Opcode} {words : List Int}, m.program.Holds address (op.word :: words) →
      itemAt m.program.code m.pc = .ok op.word := fun hholds => by rw [hpc]; exact hholds.first
  cases instr with
  | const c =>
    obtain ⟨i, hholds, -⟩ := hinstr
    simpa [Instr.Moves, hpc] using quiet_step (hfetch hholds) h (.loadConst m.pc)
  | plain op => simpa [Instr.Moves, hpc] using quiet_step (hfetch hinstr.2) h (.plain hinstr.1 m.pc)
  | load depth index => simpa [Instr.Moves, hpc] using quiet_step (hfetch hinstr) h (.loadVar m.pc)
  | store depth index => simpa [Instr.Moves, hpc] using quiet_step (hfetch hinstr) h (.storeVar (fun _ _ => ⟨rfl, rfl, rfl⟩) m.pc)
  | jump target => exact moves_jump hinstr hpc h
  | branch op target => exact moves_branch hinstr.1 hinstr.2 hpc h
  | breakLoop => exact moves_jump hinstr hpc h
  | continueLoop target => exact moves_jump hinstr hpc h
  | enter count => exact moves_enter hinstr hpc h
  | leave => simpa [Instr.Moves, hpc] using moves_leave (hfetch hinstr) h
  | call id => exact moves_call hinstr hpc h
  | primitive x =>
    obtain ⟨i, hholds, -⟩ := hinstr
    simpa [Instr.Moves, hpc] using quiet_step (hfetch hholds) h (.callSignal (fun _ => trivial) m.pc)
  | «return» =>
    obtain ⟨pc, n, hperform, rfl⟩ := performed (hfetch hinstr) h
    obtain ⟨hprogram, frame, hframe, hback, hchain⟩ := moves_goBack hperform
    exact ⟨hprogram, frame, hframe, hback, hchain⟩
  | returnValue => exact moves_returnValue (hfetch hinstr) h
  | refused => exact hinstr

end Machine

end Cilly
