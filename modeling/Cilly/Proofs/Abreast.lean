import Cilly.Proofs.Artefacts

/-!
# Machines abreast

Two machines that run different programs can do the same all the time: their programs may call variables by other names, or have the
same instructions in other places. Then what they share is everything but the program, its names and the addresses (`Machine.Abreast`).

Actions are `Coupled` if they do the same with machines that are related. Instructions that mean the same in both
programs (`Twin`) are coupled, so one step leads from machines abreast to machines abreast, or fails on both for the same reason (`next_abreast`).
-/

namespace Cilly

open Acting List
open MachineM hiding outcome

variable {a a' i : Int} {depth id : Nat} {m m' : Machine} {op : Opcode}

/-! ## Actions on two machines -/

/-- Both succeed with related results, or both fail for the same reason, and the machines are still related. -/
inductive Tied {α β : Type} (R : Machine → Machine → Prop) (Q : α → β → Prop) :
    Except MachineError α × Machine → Except MachineError β × Machine → Prop
  | ok {a : α} {b : β} {m m' : Machine} (hresult : Q a b) (hafter : R m m') : Tied R Q (.ok a, m) (.ok b, m')
  | error (e : MachineError) {m m' : Machine} (hafter : R m m') : Tied R Q (.error e, m) (.error e, m')

theorem Tied.mono {α β : Type} {R : Machine → Machine → Prop} {Q Q' : α → β → Prop} {out : Except MachineError α × Machine}
    {out' : Except MachineError β × Machine} (h : Tied R Q out out') (hQ : ∀ a b, Q a b → Q' a b) : Tied R Q' out out' := by
  cases h with
  | ok hresult hafter => exact .ok (hQ _ _ hresult) hafter
  | error e hafter => exact .error e hafter

/-- Actions that do the same with machines that are related. -/
def Coupled {α β : Type} (R : Machine → Machine → Prop) (Q : α → β → Prop) (x : MachineM α) (y : MachineM β) : Prop :=
  ∀ m m', R m m' → Tied R Q (outcome x m) (outcome y m')

namespace Coupled

variable {α β γ δ : Type} {R : Machine → Machine → Prop} {Q : α → β → Prop} {Q' : γ → δ → Prop}
  {x : MachineM α} {y : MachineM β} {f : α → MachineM γ} {g : β → MachineM δ}

theorem of_bind (hx : Tied R Q (outcome x m) (outcome y m'))
    (hf : ∀ a b, Q a b → Coupled R Q' (f a) (g b)) : Tied R Q' (outcome (x >>= f) m) (outcome (y >>= g) m') := by
  rw [outcome_bind, outcome_bind]
  cases hout : outcome x m with
  | mk r n =>
    cases hout' : outcome y m' with
    | mk r' n' =>
      rw [hout, hout'] at hx
      cases hx with
      | ok hresult hafter => exact hf _ _ hresult n n' hafter
      | error e hafter => exact .error e hafter

theorem bind (hx : Coupled R Q x y) (hf : ∀ a b, Q a b → Coupled R Q' (f a) (g b)) : Coupled R Q' (x >>= f) (y >>= g) :=
  fun m m' h => of_bind (hx m m' h) hf

theorem seq {y : MachineM α} {g : α → MachineM δ} (hx : Coupled R Eq x y) (hf : ∀ a, Coupled R Q' (f a) (g a)) :
    Coupled R Q' (x >>= f) (y >>= g) :=
  by
  refine hx.bind ?_
  rintro a _ rfl
  exact hf a

theorem pure {a : α} {b : β} (h : Q a b) : Coupled R Q (Pure.pure a) (Pure.pure b) := fun _ _ hR => .ok h hR

theorem throw (e : MachineError) : Coupled R Q (MonadExcept.throw e) (MonadExcept.throw e) := fun _ _ hR => .error e hR

theorem get_bind {f : Machine → MachineM γ} {g : Machine → MachineM δ}
    (h : ∀ m m', R m m' → Tied R Q' (outcome (f m) m) (outcome (g m') m')) :
    Coupled R Q' (MonadState.get >>= f) (MonadState.get >>= g) := by
  intro m m' hR
  rw [bind_ok (outcome_get m), bind_ok (outcome_get m')]
  exact h m m' hR

theorem update {g g' : Machine → Machine} (h : ∀ m m', R m m' → R (g m) (g' m')) :
    Coupled R Eq (modify g : MachineM PUnit) (modify g') := fun m m' hR => .ok rfl (h m m' hR)

theorem ofFault (r : Except Fault α) : Coupled R Eq (ofFault r) (ofFault r) := by
  cases r with
  | ok a => exact pure rfl
  | error f => exact throw _

theorem ofFault_ok (a : α) (b : β) :
    Coupled R (fun v w => v = a ∧ w = b) (MachineM.ofFault (.ok a)) (MachineM.ofFault (.ok b)) := pure ⟨rfl, rfl⟩

theorem discarded (hx : Coupled R Q x y) : Coupled R Eq (discard x) (discard y) :=
  show Coupled R Eq (x >>= fun _ => Pure.pure ()) (y >>= fun _ => Pure.pure ()) from hx.bind fun _ _ _ => pure rfl

theorem refuse (e : Int → MachineError) (i : Int) : Coupled R Q (MachineM.refuse e i) (MachineM.refuse e i) :=
  (ofFault (Datum.intText i)).discarded.seq fun _ => throw (e i)

theorem refuse_bind (e : Int → MachineError) (i : Int) (f : α → MachineM γ) (g : β → MachineM δ) :
    Coupled R Q' (MachineM.refuse e i >>= f) (MachineM.refuse e i >>= g) :=
  (refuse (Q := fun _ _ => False) e i).bind fun _ _ h => h.elim

theorem throw_bind (e : MachineError) (f : α → MachineM γ) (g : β → MachineM δ) :
    Coupled R Q' (MonadExcept.throw e >>= f) (MonadExcept.throw e >>= g) :=
  (throw (Q := fun _ _ => False) e).bind fun _ _ h => h.elim

end Coupled

theorem Coupled.keeping {α β γ : Type} {R : Machine → Machine → Prop} {Q : α → β → Prop} {x : MachineM α} {y : MachineM β}
    {V : Machine → γ} (h : Coupled R Q x y) (hx : Keeps V x) (hy : Keeps V y) :
    Coupled (fun m m' => R m m' ∧ V m' = V m) Q x y := by
  rintro m m' ⟨hR, hV⟩
  have hkept := hx m
  have hkept' := hy m'
  have htied := h m m' hR
  generalize outcome x m = out at htied hkept
  generalize outcome y m' = out' at htied hkept'
  cases htied with
  | ok hresult hafter => exact .ok hresult ⟨hafter, hkept'.trans (hV.trans hkept.symm)⟩
  | error e hafter => exact .error e ⟨hafter, hkept'.trans (hV.trans hkept.symm)⟩

/-! ## What two machines share -/

/-- Two machines with programs of their own that are in the same state otherwise: the same scopes are open with the same values,
calls are pending with the same scopes, and both have printed the same. Where a call goes back to is another address on each
machine, and the first one may have pushed and popped some more values. -/
structure Machine.Abreast (p p' : Program) (lag : Nat) (Back : Int → Int → Prop) (m m' : Machine) : Prop where
  program : m.program = p
  program' : m'.program = p'
  names : Extends p.scopes m.store
  names' : Extends p'.scopes m'.store
  signals : m'.signals = m.signals
  size : m'.store.size = m.store.size
  cells : ∀ id, p.scopes.size ≤ id → m'.store[id]? = m.store[id]?
  chain : m'.chain = m.chain
  frames : Forall₂ (fun f f' : Frame => Back f.back f'.back ∧ f'.chain = f.chain) m.frames m'.frames
  items : m'.stack.items = m.stack.items
  depth : m.stack.items.length ≤ m.stack.maxDepth
  maxDepth : m'.stack.maxDepth = m.stack.maxDepth
  pushes : m.stack.pushes = m'.stack.pushes + lag
  pops : m.stack.pops = m'.stack.pops + lag
  printed : m'.printed = m.printed
  log : m'.log = m.log

/-- An operation means the same at two addresses of two programs: its operands come to the same, and so do the places where it goes on.
`Next` relates these places, and `Back` those where calls go back to. -/
inductive Twin (p p' : Program) (Next Back : Int → Int → Prop) (a a' : Int) : Opcode → Prop
  | const {op : Opcode} {i i' : Int} {c : Datum} (hop : op = .loadConst ∨ op = .callPrimitive)
      (hword : itemAt p.code (a + 1) = .ok i) (hword' : itemAt p'.code (a' + 1) = .ok i') (hconst : itemAt p.consts i = .ok c)
      (hconst' : itemAt p'.consts i' = .ok c) (hnext : Next (a + 2) (a' + 2)) : Twin p p' Next Back a a' op
  | access {op : Opcode} {depth : Nat} {i : Int} (hop : op = .loadVar ∨ op = .storeVar)
      (hdepth : itemAt p.code (a + 1) = .ok (depth : Int)) (hdepth' : itemAt p'.code (a' + 1) = .ok (depth : Int))
      (hindex : itemAt p.code (a + 2) = .ok i) (hindex' : itemAt p'.code (a' + 2) = .ok i) (hnext : Next (a + 3) (a' + 3)) :
      Twin p p' Next Back a a' op
  | plain {op : Opcode} (hop : op.isPlain = true) (hword : itemAt p.code a = .ok op.word) (hword' : itemAt p'.code a' = .ok op.word)
      (hnext : Next (a + 1) (a' + 1)) : Twin p p' Next Back a a' op
  | jump {t t' : Int} (hword : itemAt p.code (a + 1) = .ok t) (hword' : itemAt p'.code (a' + 1) = .ok t') (hnext : Next t t') :
      Twin p p' Next Back a a' .jump
  | branch {op : Opcode} {t t' : Int} (hop : op.isBranch = true) (hword : itemAt p.code (a + 1) = .ok t)
      (hword' : itemAt p'.code (a' + 1) = .ok t') (hnext : Next t t') (hstay : Next (a + 2) (a' + 2)) : Twin p p' Next Back a a' op
  | enter {count : Int} (hword : itemAt p.code (a + 1) = .ok count) (hword' : itemAt p'.code (a' + 1) = .ok count)
      (hnext : Next (a + 2) (a' + 2)) : Twin p p' Next Back a a' .enterScope
  | leave (hnext : Next (a + 1) (a' + 1)) : Twin p p' Next Back a a' .leaveScope
  | call {id id' : Nat} {r r' : Routine} {entry entry' : Int} (hword : itemAt p.code (a + 1) = .ok (id : Int))
      (hword' : itemAt p'.code (a' + 1) = .ok (id' : Int)) (hr : p.routines[id]? = some r) (hr' : p'.routines[id']? = some r')
      (hcount : r'.params.length = r.params.length)
      (hsize : frameSize r'.params p'.scopes.toList = frameSize r.params p.scopes.toList)
      (hentry : r.entry = some entry) (hentry' : r'.entry = some entry') (hnext : Next entry entry') (hback : Back (a + 2) (a' + 2)) :
      Twin p p' Next Back a a' .call
  | back {op : Opcode} (hop : op = .return ∨ op = .returnValue) (hnext : ∀ t t', Back t t' → Next t t') : Twin p p' Next Back a a' op

namespace Coupled

variable {p p' : Program} {lag : Nat} {Next Back : Int → Int → Prop}

section

variable {α β : Type} {Q : α → β → Prop}

theorem word {w w' : Int} (h : itemAt p.code a = .ok w) (h' : itemAt p'.code a' = .ok w') :
    Coupled (Machine.Abreast p p' lag Back) (fun v v' => v = w ∧ v' = w') (word a) (word a') := by
  intro m m' hR
  rw [outcome_word (by rw [hR.program]; exact h), outcome_word (by rw [hR.program']; exact h')]
  exact .ok ⟨rfl, rfl⟩ hR

theorem word_bind {w w' : Int} {f : Int → MachineM α} {g : Int → MachineM β} (h : itemAt p.code a = .ok w)
    (h' : itemAt p'.code a' = .ok w') (hf : Coupled (Machine.Abreast p p' lag Back) Q (f w) (g w')) :
    Coupled (Machine.Abreast p p' lag Back) Q (MachineM.word a >>= f) (MachineM.word a' >>= g) := by
  refine (word h h').bind ?_
  rintro v v' ⟨rfl, rfl⟩
  exact hf

end

theorem push (v : Datum) : Coupled (Machine.Abreast p p' lag Back) Eq (push v) (push v) := by
  refine update fun m m' h => { h with items := ?_, depth := ?_, maxDepth := ?_, pushes := ?_, .. }
  · exact congrArg (v :: ·) h.items
  · exact Nat.le_max_right _ _
  · show max m'.stack.maxDepth (m'.stack.items.length + 1) = max m.stack.maxDepth (m.stack.items.length + 1)
    rw [h.maxDepth, h.items]
  · show m.stack.pushes + 1 = m'.stack.pushes + 1 + lag
    rw [h.pushes]
    omega

theorem pushed (v : Datum) (h : Next a a') :
    Coupled (Machine.Abreast p p' lag Back) Next (do MachineM.push v; return a) (do MachineM.push v; return a') :=
  (push v).seq fun _ => pure h

theorem printText (s : String) : Coupled (Machine.Abreast p p' lag Back) Eq (printText s) (printText s) :=
  update fun _ _ h => { h with printed := congrArg (· ++ s) h.printed, .. }

theorem pop : Coupled (Machine.Abreast p p' lag Back) Eq pop pop := by
  have hpop : Coupled (Machine.Abreast p p' lag Back) Eq
      (modifyGet fun m : Machine => (m.stack.pop.1, { m with stack := m.stack.pop.2 }) : MachineM (Option Datum))
      (modifyGet fun m : Machine => (m.stack.pop.1, { m with stack := m.stack.pop.2 })) := by
    intro m m' h
    have htop : m.stack.pop.1 = m'.stack.pop.1 := by
      unfold CountedStack.pop
      rw [h.items]
      split <;> rfl
    have hdepth := h.depth
    refine .ok htop { h with items := ?_, depth := ?_, maxDepth := ?_, pushes := ?_, pops := ?_, .. }
    · show m'.stack.pop.2.items = m.stack.pop.2.items
      unfold CountedStack.pop
      rw [h.items]
      split <;> first | exact h.items | rfl
    · show m.stack.pop.2.items.length ≤ m.stack.pop.2.maxDepth
      unfold CountedStack.pop
      cases hitems : m.stack.items with
      | nil => exact Nat.zero_le _
      | cons v rest =>
        rw [hitems] at hdepth
        exact Nat.le_of_succ_le hdepth
    · show m'.stack.pop.2.maxDepth = m.stack.pop.2.maxDepth
      unfold CountedStack.pop
      rw [h.items]
      split <;> exact h.maxDepth
    · show m.stack.pop.2.pushes = m'.stack.pop.2.pushes + lag
      unfold CountedStack.pop
      rw [h.items]
      split <;> exact h.pushes
    · show m.stack.pop.2.pops = m'.stack.pop.2.pops + lag
      rw [CountedStack.pops_pop, CountedStack.pops_pop, h.pops]
      omega
  refine hpop.seq fun popped => ?_
  cases popped with
  | none => exact throw _
  | some v => exact pure rfl

theorem popPayload : Coupled (Machine.Abreast p p' lag Back) Eq popPayload popPayload :=
  pop.seq fun _ => ofFault _

theorem takeArguments (size : Nat) : ∀ count,
    Coupled (Machine.Abreast p p' lag Back) Eq (takeArguments size count) (takeArguments size count)
  | 0 => pure rfl
  | count + 1 => by
    refine (takeArguments size count).seq fun cells => pop.seq fun v => ?_
    split
    · exact pure rfl
    · exact throw _

theorem popArguments : ∀ n, Coupled (Machine.Abreast p p' lag Back) Eq (popArguments n) (popArguments n)
  | 0 => pure rfl
  | n + 1 => popPayload.seq fun _ => (popArguments n).seq fun _ => pure rfl

theorem openScope (cells : Array Datum) :
    Coupled (Machine.Abreast p p' lag Back) Eq (openScope cells) (openScope cells) := by
  refine update fun m m' h => { h with names := ?_, names' := ?_, size := ?_, cells := ?_, chain := ?_, .. }
  · exact h.names.trans (.push _ _)
  · exact h.names'.trans (.push _ _)
  · rw [Array.size_push, Array.size_push, h.size]
  · intro id hid
    show (m'.store.push cells)[id]? = (m.store.push cells)[id]?
    rw [Array.getElem?_push, Array.getElem?_push, h.size, h.cells id hid]
  · show m'.store.size :: m'.chain = m.store.size :: m.chain
    rw [h.size, h.chain]

theorem signalFor (x : Datum) : Coupled (Machine.Abreast p p' lag Back) Eq (signalFor x) (signalFor x) := by
  unfold MachineM.signalFor
  split
  · exact throw_bind _ _ _
  · refine get_bind fun m m' h => ?_
    rw [h.signals]
    cases m.signals.find? fun s => (Datum.text s.name).eq x with
    | some s => exact .ok rfl h
    | none => exact ((ofFault _).seq fun _ => throw _) m m' h

/-- The names that calls look through are those of each program. -/
theorem names_eq (h : Machine.Abreast p p' lag Back m m') : m.names = p.scopes ∧ m'.names = p'.scopes := by
  unfold Machine.names
  rw [h.program, h.program']
  exact ⟨Snapshot.take_of_extends h.names, Snapshot.take_of_extends h.names'⟩

section

variable {a a' : Int}

theorem loadConst {i' : Int} {c : Datum} (hword : itemAt p.code (a + 1) = .ok i) (hword' : itemAt p'.code (a' + 1) = .ok i')
    (hconst : itemAt p.consts i = .ok c) (hconst' : itemAt p'.consts i' = .ok c) (hnext : Next (a + 2) (a' + 2)) :
    Coupled (Machine.Abreast p p' lag Back) Next (loadConst a) (loadConst a') := by
  refine word_bind hword hword' (get_bind fun m m' h => ?_)
  rw [h.program, h.program', hconst, hconst']
  exact ((ofFault _).seq fun v => pushed v hnext) m m' h

theorem callSignal {i' : Int} {c : Datum} (hword : itemAt p.code (a + 1) = .ok i) (hword' : itemAt p'.code (a' + 1) = .ok i')
    (hconst : itemAt p.consts i = .ok c) (hconst' : itemAt p'.consts i' = .ok c) (hnext : Next (a + 2) (a' + 2)) :
    Coupled (Machine.Abreast p p' lag Back) Next (callSignal a) (callSignal a') := by
  refine word_bind hword hword' (get_bind fun m m' h => ?_)
  rw [h.program, h.program', hconst, hconst']
  refine ((ofFault _).seq fun v => (ofFault _).seq fun x => (signalFor x).seq fun s => (popArguments _).seq fun args =>
    (ofFault _).seq fun sent => seq (update fun m m' h => ?_) fun _ => pushed .nothing hnext) m m' h
  exact { h with log := congrArg (·.push (s.name, sent)) h.log, .. }

/-- A scope that is not of the program has the same cells on both machines. -/
theorem getD_eq (h : Machine.Abreast p p' lag Back m m') (hid : p.scopes.size ≤ id) :
    m'.store.getD id #[] = m.store.getD id #[] := by
  rw [Array.getD_eq_getD_getElem?, Array.getD_eq_getD_getElem?, h.cells id hid]

theorem loadVar (h : Machine.Abreast p p' lag Back m m')
    (hdepth : itemAt p.code (a + 1) = .ok (depth : Int)) (hdepth' : itemAt p'.code (a' + 1) = .ok (depth : Int))
    (hindex : itemAt p.code (a + 2) = .ok i) (hindex' : itemAt p'.code (a' + 2) = .ok i) (hnext : Next (a + 3) (a' + 3))
    (hscope : m.chain[depth]? = some id) (hid : p.scopes.size ≤ id) :
    Tied (Machine.Abreast p p' lag Back) Next (outcome (loadVar a) m) (outcome (loadVar a') m') := by
  unfold MachineM.loadVar
  rw [bind_ok (outcome_word (by rw [h.program]; exact hdepth)),
    bind_ok (outcome_word (by rw [h.program']; exact hdepth')), bind_ok (outcome_scopeAt hscope),
    bind_ok (outcome_scopeAt (by rw [h.chain]; exact hscope))]
  refine get_bind (fun m m' h => ?_) m m' h
  rw [getD_eq h hid]
  refine word_bind hindex hindex' ?_ m m' h
  split
  · exact refuse_bind _ _ _ _
  · exact (ofFault _).seq fun v => pushed v hnext

/-- A scope that is not of the program is changed on both machines. -/
theorem changeScope (hsize : p'.scopes.size = p.scopes.size) (hid : p.scopes.size ≤ id) (f : Array Datum → Array Datum) :
    Coupled (Machine.Abreast p p' lag Back) Eq (modify fun m => { m with store := m.store.modify id f } : MachineM PUnit)
      (modify fun m => { m with store := m.store.modify id f }) := by
  refine update fun m m' h => { h with names := ?_, names' := ?_, size := ?_, cells := ?_, .. }
  · exact h.names.modify hid f
  · exact h.names'.modify (by rw [hsize]; exact hid) f
  · rw [Array.size_modify, Array.size_modify, h.size]
  · intro k hk
    show (m'.store.modify id f)[k]? = (m.store.modify id f)[k]?
    rw [Array.getElem?_modify, Array.getElem?_modify, h.cells k hk]

theorem storeVar (hsize : p'.scopes.size = p.scopes.size)
    (h : Machine.Abreast p p' lag Back m m')
    (hdepth : itemAt p.code (a + 1) = .ok (depth : Int)) (hdepth' : itemAt p'.code (a' + 1) = .ok (depth : Int))
    (hindex : itemAt p.code (a + 2) = .ok i) (hindex' : itemAt p'.code (a' + 2) = .ok i) (hnext : Next (a + 3) (a' + 3))
    (hscope : m.chain[depth]? = some id) (hid : p.scopes.size ≤ id) :
    Tied (Machine.Abreast p p' lag Back) Next (outcome (storeVar a) m) (outcome (storeVar a') m') := by
  unfold MachineM.storeVar
  rw [bind_ok (outcome_word (by rw [h.program]; exact hdepth)),
    bind_ok (outcome_word (by rw [h.program']; exact hdepth')), bind_ok (outcome_scopeAt hscope),
    bind_ok (outcome_scopeAt (by rw [h.chain]; exact hscope))]
  refine word_bind hindex hindex' ((changeScope hsize hid _).seq fun _ => pop.seq fun v => get_bind fun m m' h => ?_) m m' h
  rw [getD_eq h hid]
  split
  · exact ((changeScope hsize hid _).seq fun _ => pure hnext) m m' h
  · exact throw_bind _ _ _ m m' h

theorem leaveScope (hnext : Next (a + 1) (a' + 1)) :
    Coupled (Machine.Abreast p p' lag Back) Next (leaveScope a) (leaveScope a') := by
  refine get_bind fun m m' h => ?_
  rw [h.chain]
  cases m.chain with
  | nil => exact throw_bind _ _ _ m m' h
  | cons id outer => exact (seq (update fun m m' h => { h with chain := rfl, .. }) fun _ => pure hnext) m m' h

theorem callRoutine {id' : Nat} {r r' : Routine} {entry entry' : Int} (hword : itemAt p.code (a + 1) = .ok (id : Int))
    (hword' : itemAt p'.code (a' + 1) = .ok (id' : Int)) (hr : p.routines[id]? = some r) (hr' : p'.routines[id']? = some r')
    (hcount : r'.params.length = r.params.length)
    (hsize : frameSize r'.params p'.scopes.toList = frameSize r.params p.scopes.toList)
    (hentry : r.entry = some entry) (hentry' : r'.entry = some entry') (hnext : Next entry entry') (hback : Back (a + 2) (a' + 2)) :
    Coupled (Machine.Abreast p p' lag Back) Next (callRoutine a) (callRoutine a') := by
  refine word_bind hword hword' (get_bind fun m m' h => ?_)
  have hlt : id < p.routines.size := (Array.getElem?_eq_some_iff.mp hr).1
  have hlt' : id' < p'.routines.size := (Array.getElem?_eq_some_iff.mp hr').1
  rw [if_neg (by rw [h.program]; omega), if_neg (by rw [h.program']; omega), h.program, h.program',
    (names_eq h).1, (names_eq h).2, itemAt_of_getElem? hr, itemAt_of_getElem? hr']
  refine ((ofFault_ok r r').bind ?_) m m' h
  rintro _ _ ⟨rfl, rfl⟩
  rw [hsize, hcount, hentry, hentry']
  refine (ofFault _).seq fun size => (takeArguments size _).seq fun cells => seq (update fun m m' h => ?_) fun _ =>
    (openScope cells).seq fun _ => pure hnext
  exact { h with frames := .cons ⟨hback, h.chain⟩ h.frames, .. }

theorem goBack (v : Datum) (hnext : ∀ t t', Back t t' → Next t t') :
    Coupled (Machine.Abreast p p' lag Back) Next (goBack v) (goBack v) := by
  refine get_bind fun m m' h => ?_
  have hframes := h.frames
  generalize hfs : m.frames = fs at hframes
  generalize hfs' : m'.frames = fs' at hframes
  cases hframes with
  | nil => exact .error _ h
  | @cons frame frame' outer outer' hframe hrest =>
    refine (seq (update fun m m' h => ?_) fun _ => pushed v (hnext _ _ hframe.1)) m m' h
    exact { h with frames := hrest, chain := hframe.2, .. }

theorem returnValue (a a' : Int) (hnext : ∀ t t', Back t t' → Next t t') :
    Coupled (Machine.Abreast p p' lag Back) Next (returnValue a) (returnValue a') := by
  refine get_bind fun m m' h => ?_
  have hempty : m'.frames.isEmpty = m.frames.isEmpty := by
    rw [Bool.eq_iff_iff, isEmpty_iff_length_eq_zero, isEmpty_iff_length_eq_zero, h.frames.length_eq]
  rw [hempty]
  split
  · exact throw_bind _ _ _ m m' h
  · exact (pop.seq fun v => goBack v hnext) m m' h

theorem plain (hop : op.isPlain = true) (hword : itemAt p.code a = .ok op.word) (hword' : itemAt p'.code a' = .ok op.word)
    (hnext : Next (a + 1) (a' + 1)) :
    Coupled (Machine.Abreast p p' lag Back) Next (perform op a) (perform op a') := by
  cases op with
  | loadNull | loadTrue | loadFalse => exact pushed _ hnext
  | printItem => exact popPayload.seq fun v => (ofFault _).seq fun s => (printText _).seq fun _ => pure hnext
  | printNewline => exact (printText _).seq fun _ => pure hnext
  | pop => exact pop.discarded.seq fun _ => pure hnext
  | unary op =>
    refine popPayload.seq fun v => word_bind hword hword' ?_
    rw [Opcode.ofWord?_word]
    exact (ofFault _).seq fun w => pushed w hnext
  | binary op =>
    refine popPayload.seq fun right => popPayload.seq fun left => word_bind hword hword' ?_
    rw [Opcode.ofWord?_word]
    exact (ofFault _).seq fun w => pushed w hnext
  | loadConst | loadVar | storeVar | jump | jumpTrue | jumpFalse | enterScope | leaveScope | call
    | «return» | returnValue | callPrimitive => cases hop

theorem jumpOn {t t' : Int} (expected : Datum) (hword : itemAt p.code (a + 1) = .ok t) (hword' : itemAt p'.code (a' + 1) = .ok t')
    (hnext : Next t t') (hstay : Next (a + 2) (a' + 2)) :
    Coupled (Machine.Abreast p p' lag Back) Next (MachineM.jumpOn expected a) (MachineM.jumpOn expected a') := by
  refine word_bind hword hword' (pop.seq fun v => ?_)
  split
  · exact pure hnext
  · exact pure hstay

end

theorem drain : ∀ depth, Coupled (Machine.Abreast p p' lag Back) Eq (drain depth) (drain depth)
  | 0 => pure rfl
  | depth + 1 => popPayload.seq fun _ => (ofFault _).seq fun _ => (printText _).seq fun _ => drain depth

theorem leftovers : Coupled (Machine.Abreast p p' lag Back) Eq leftovers leftovers := by
  refine get_bind fun m m' h => ?_
  rw [CountedStack.depth, CountedStack.depth, h.items]
  dsimp only
  split
  · exact .ok rfl h
  · exact ((printText _).seq fun _ => (drain _).seq fun _ => printText _) m m' h

end Coupled

/-- An operation that means the same in both programs does the same. Variables are in scopes that are not of the program. -/
theorem Twin.perform {p p' : Program} {lag : Nat} {Next Back : Int → Int → Prop}
    (htwin : Twin p p' Next Back a a' op) (hsize : p'.scopes.size = p.scopes.size) (h : Machine.Abreast p p' lag Back m m')
    (hscope : op = .loadVar ∨ op = .storeVar → ∀ depth : Nat, itemAt p.code (a + 1) = .ok (depth : Int) →
      ∃ id, m.chain[depth]? = some id ∧ p.scopes.size ≤ id) :
    Tied (Machine.Abreast p p' lag Back) Next (outcome (perform op a) m) (outcome (perform op a') m') := by
  cases htwin with
  | const hop hword hword' hconst hconst' hnext =>
    rcases hop with rfl | rfl
    · exact Coupled.loadConst hword hword' hconst hconst' hnext m m' h
    · exact Coupled.callSignal hword hword' hconst hconst' hnext m m' h
  | access hop hdepth hdepth' hindex hindex' hnext =>
    obtain ⟨id, hid, hfresh⟩ := hscope hop _ hdepth
    rcases hop with rfl | rfl
    · exact Coupled.loadVar h hdepth hdepth' hindex hindex' hnext hid hfresh
    · exact Coupled.storeVar hsize h hdepth hdepth' hindex hindex' hnext hid hfresh
  | plain hop hword hword' hnext => exact Coupled.plain hop hword hword' hnext m m' h
  | jump hword hword' hnext =>
    refine (Coupled.word hword hword' m m' h).mono ?_
    rintro _ _ ⟨rfl, rfl⟩
    exact hnext
  | @branch _ t t' hop hword hword' hnext hstay =>
    cases op with
    | jumpTrue | jumpFalse => exact Coupled.jumpOn _ hword hword' hnext hstay m m' h
    | _ => cases hop
  | enter hword hword' hnext =>
    exact Coupled.word_bind hword hword' ((Coupled.openScope _).seq fun _ => .pure hnext) m m' h
  | leave hnext => exact Coupled.leaveScope hnext m m' h
  | call hword hword' hr hr' hcount hsize hentry hentry' hnext hback =>
    exact Coupled.callRoutine hword hword' hr hr' hcount hsize hentry hentry' hnext hback m m' h
  | back hop hnext =>
    rcases hop with rfl | rfl
    · exact Coupled.goBack _ hnext m m' h
    · exact Coupled.returnValue a a' hnext m m' h

namespace Machine

variable {p p' : Program} {lag : Nat} {Next Back : Int → Int → Prop} {m m' : Machine}

theorem Abreast.counted (h : Abreast p p' lag Back m m') : Abreast p p' lag Back m.counted m'.counted := { h with .. }

theorem abreast_start (hsize : p'.scopes.size = p.scopes.size) (signals : List Signal) :
    Abreast p p' 0 Back (Machine.start p signals) (Machine.start p' signals) where
  program := rfl
  program' := rfl
  names := .refl _
  names' := .refl _
  signals := rfl
  size := hsize
  cells id hid := by
    show p'.scopes[id]? = p.scopes[id]?
    rw [Array.getElem?_eq_none (by rw [hsize]; exact hid), Array.getElem?_eq_none hid]
  chain := by
    show (List.range p'.scopes.size).reverse = (List.range p.scopes.size).reverse
    rw [hsize]
  frames := .nil
  items := rfl
  depth := Nat.le_refl 0
  maxDepth := rfl
  pushes := rfl
  pops := rfl
  printed := rfl
  log := rfl

/-- A variable that is loaded or stored is in a scope that is not of the program. -/
theorem Sheltered.accessed {prims : List String} {body : List Node} (h : Sheltered prims body p m) (htame : Tame prims body p)
    (hfetch : itemAt p.code m.pc = .ok op.word) (hop : op = .loadVar ∨ op = .storeVar)
    (hdepth : itemAt p.code (m.pc + 1) = .ok (depth : Int)) : ∃ id, m.chain[depth]? = some id ∧ p.scopes.size ≤ id := by
  rcases h.here with hpc | ⟨x, hx, hpc⟩
  · rw [hpc, itemAt_neg_one htame.laid.back?] at hfetch
    rcases hop with rfl | rfl <;> cases Except.ok.inj hfetch
  · rcases mem_append.mp hx with hx | hx
    · rw [hpc] at hfetch hdepth
      have hin := htame.laid.follows x hx
      have hinstr : ∃ depth index, x.instr = .load depth index ∨ x.instr = .store depth index := by
        rcases hop with rfl | rfl
        · obtain ⟨depth, index, hinstr⟩ := hin.eq_of_op.1 (hin.op_eq hfetch)
          exact ⟨depth, index, .inl hinstr⟩
        · obtain ⟨depth, index, hinstr⟩ := hin.eq_of_op.2.1 (hin.op_eq hfetch)
          exact ⟨depth, index, .inr hinstr⟩
      obtain ⟨depth', index, hinstr⟩ := hinstr
      obtain ⟨d, rfl, hlt⟩ := htame.accessed hx hinstr
      have hword : itemAt p.code ((x.address : Int) + 1) = .ok (d : Int) := by
        rcases hinstr with hinstr | hinstr <;>
        · rw [hinstr] at hin
          exact hin.second
      obtain rfl : depth = d := by
        rw [hword] at hdepth
        exact (Int.ofNat.inj (Except.ok.inj hdepth)).symm
      exact h.scopes x (mem_append_left _ hx) hpc depth hlt
    · have hlt := lt_size_of_itemAt hfetch
      rw [hpc, mem_singleton.mp hx, htame.laid.size] at hlt
      exact absurd hlt (Int.lt_irrefl _)

/-- Machines abreast at an operation that means the same are abreast after it, or it fails on both for the same reason. -/
theorem next_abreast (h : Abreast p p' lag Back m m') (hsize : p'.scopes.size = p.scopes.size)
    (hfetch : itemAt p.code m.pc = .ok op.word) (hfetch' : itemAt p'.code m'.pc = .ok op.word)
    (htwin : Twin p p' Next Back m.pc m'.pc op)
    (hscope : op = .loadVar ∨ op = .storeVar → ∀ depth : Nat, itemAt p.code (m.pc + 1) = .ok (depth : Int) →
      ∃ id, m.chain[depth]? = some id ∧ p.scopes.size ≤ id) :
    (∃ w n n', m.next = (.ok w, n) ∧ m'.next = (.ok w, n') ∧ Abreast p p' lag Back n n' ∧ Next n.pc n'.pc) ∨
      ∃ e n n', m.next = (.error e, n) ∧ m'.next = (.error e, n') ∧ Abreast p p' lag Back n n' := by
  rw [next_eq (by rw [h.program]; exact hfetch), next_eq (by rw [h.program']; exact hfetch')]
  have hperform := htwin.perform hsize h.counted hscope
  generalize outcome (perform op m.pc) m.counted = out at hperform
  generalize outcome (perform op m'.pc) m'.counted = out' at hperform
  cases hperform with
  | @ok next next' n n' hnext hafter => exact .inl ⟨op.word, _, _, rfl, rfl, { hafter with .. }, hnext⟩
  | error e hafter => exact .inr ⟨e, _, _, rfl, rfl, hafter⟩

end Machine

end Cilly
