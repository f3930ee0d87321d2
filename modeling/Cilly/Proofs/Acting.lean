import Cilly.Machine.Run
import Cilly.Program.Compile

/-!
# Actions

Compiling and running are both actions: they read and change a state, and may fail. What an action does is
its outcome, a result or an error together with the state after it. The lemmas here give the outcome of
every way in which actions are put together, and of the operations that assemble code.
-/

namespace Cilly

/-- Every item of the first array stands at the same index of the second. -/
def Extends {α : Type} (xs ys : Array α) : Prop := ∀ (i : Nat) (x : α), xs[i]? = some x → ys[i]? = some x

namespace Extends

variable {α : Type} {xs ys zs : Array α}

theorem refl (xs : Array α) : Extends xs xs := fun _ _ h => h

theorem trans (h : Extends xs ys) (h' : Extends ys zs) : Extends xs zs :=
  fun i x hx => h' i x (h i x hx)

theorem append (xs ys : Array α) : Extends xs (xs ++ ys) := by
  intro i x hx
  have hi : i < xs.size := (Array.getElem?_eq_some_iff.mp hx).1
  rw [Array.getElem?_append_left hi, hx]

theorem push (xs : Array α) (x : α) : Extends xs (xs.push x) := by
  rw [Array.push_eq_append]
  exact append xs #[x]

theorem setIfInBounds (h : Extends xs ys) {k : Nat} (hk : xs.size ≤ k) (x : α) :
    Extends xs (ys.setIfInBounds k x) := by
  intro i y hy
  have hi : i < xs.size := (Array.getElem?_eq_some_iff.mp hy).1
  rw [Array.getElem?_setIfInBounds_ne (by omega)]
  exact h i y hy

theorem size_le (h : Extends xs ys) : xs.size ≤ ys.size := by
  cases hn : xs.size with
  | zero => omega
  | succ n =>
    have hx : xs[n]? = some (xs[n]) := Array.getElem?_eq_getElem (by omega)
    obtain ⟨hlt, -⟩ := Array.getElem?_eq_some_iff.mp (h n _ hx)
    omega

end Extends

theorem Except.bind_eq_ok {ε α β : Type} {x : Except ε α} {f : α → Except ε β} {b : β} :
    (x >>= f) = .ok b ↔ ∃ a, x = .ok a ∧ f a = .ok b := by
  cases x with
  | error e => simp [Bind.bind, Except.bind]
  | ok a => simp [Bind.bind, Except.bind]

namespace Acting

variable {ε σ α β : Type}

/-- What comes of an action, and the state after it. -/
def outcome (x : ExceptT ε (StateM σ) α) (s : σ) : Except ε α × σ := StateT.run (ExceptT.run x) s

@[simp] theorem outcome_pure (a : α) (s : σ) :
    outcome (pure a : ExceptT ε (StateM σ) α) s = (.ok a, s) := rfl

@[simp] theorem outcome_get (s : σ) : outcome (get : ExceptT ε (StateM σ) σ) s = (.ok s, s) := rfl

@[simp] theorem outcome_set (s s' : σ) :
    outcome (set s' : ExceptT ε (StateM σ) PUnit) s = (.ok (), s') := rfl

@[simp] theorem outcome_modify (f : σ → σ) (s : σ) :
    outcome (modify f : ExceptT ε (StateM σ) PUnit) s = (.ok (), f s) := rfl

@[simp] theorem outcome_modifyGet (f : σ → α × σ) (s : σ) :
    outcome (modifyGet f : ExceptT ε (StateM σ) α) s = (.ok (f s).1, (f s).2) := rfl

theorem outcome_bind (x : ExceptT ε (StateM σ) α) (f : α → ExceptT ε (StateM σ) β) (s : σ) :
    outcome (x >>= f) s =
      match outcome x s with
      | (.ok a, s') => outcome (f a) s'
      | (.error e, s') => (.error e, s') := by
  unfold outcome
  rw [ExceptT.run_bind, StateT.run_bind]
  cases h : StateT.run (ExceptT.run x) s with
  | mk r s' => cases r <;> rfl

theorem bind_ok {x : ExceptT ε (StateM σ) α} {f : α → ExceptT ε (StateM σ) β} {s t : σ} {a : α}
    (h : outcome x s = (.ok a, t)) : outcome (x >>= f) s = outcome (f a) t := by
  rw [outcome_bind, h]

theorem bind_error {x : ExceptT ε (StateM σ) α} {f : α → ExceptT ε (StateM σ) β} {s t : σ} {e : ε}
    (h : outcome x s = (.error e, t)) : outcome (x >>= f) s = (.error e, t) := by
  rw [outcome_bind, h]

/-- A sequence succeeds exactly if its first part does and then its second. -/
theorem bind_eq_ok {x : ExceptT ε (StateM σ) α} {f : α → ExceptT ε (StateM σ) β} {s u : σ} {b : β} :
    outcome (x >>= f) s = (.ok b, u) ↔
      ∃ a t, outcome x s = (.ok a, t) ∧ outcome (f a) t = (.ok b, u) := by
  constructor
  · intro h
    cases hx : outcome x s with
    | mk r t =>
      cases r with
      | ok a => exact ⟨a, t, rfl, by rwa [bind_ok hx] at h⟩
      | error e =>
        rw [bind_error hx] at h
        cases h
  · rintro ⟨a, t, hx, hf⟩
    rw [bind_ok hx, hf]

theorem outcome_discard (x : ExceptT ε (StateM σ) α) (s : σ) :
    outcome (discard x) s = ((outcome x s).1.map fun _ => (), (outcome x s).2) := by
  have h : discard x = x >>= fun _ => pure () := rfl
  rw [h, outcome_bind]
  cases hx : outcome x s with
  | mk r t => cases r <;> rfl

end Acting

/-! ## Assembling -/

namespace Assembly

variable (a : Assembly) (code more : Array Int)

/-- The same state with other code. -/
def withCode : Assembly := { a with code := code }

@[simp] theorem withCode_code : (a.withCode code).code = code := rfl

@[simp] theorem withCode_withCode : (a.withCode code).withCode more = a.withCode more := rfl

@[simp] theorem withCode_self : a.withCode a.code = a := rfl

@[simp] theorem withCode_consts : (a.withCode code).consts = a.consts := rfl

@[simp] theorem withCode_scopes : (a.withCode code).scopes = a.scopes := rfl

@[simp] theorem withCode_chain : (a.withCode code).chain = a.chain := rfl

@[simp] theorem withCode_routines : (a.withCode code).routines = a.routines := rfl

@[simp] theorem withCode_current : (a.withCode code).current = a.current := rfl

@[simp] theorem withCode_breaks : (a.withCode code).breaks = a.breaks := rfl

@[simp] theorem withCode_continues : (a.withCode code).continues = a.continues := rfl

@[simp] theorem withCode_primitives : (a.withCode code).primitives = a.primitives := rfl

end Assembly

namespace CompileM

open Acting

variable {a : Assembly}

@[simp] theorem outcome_nextAddress : outcome nextAddress a = (.ok a.code.size, a) := rfl

@[simp] theorem outcome_emit (op : Opcode) :
    outcome (emit op) a = (.ok (), a.withCode (a.code ++ #[op.word])) := rfl

@[simp] theorem outcome_emit1 (op : Opcode) (x : Int) :
    outcome (emit1 op x) a = (.ok a.code.size, a.withCode (a.code ++ #[op.word, x])) := rfl

@[simp] theorem outcome_emit2 (op : Opcode) (x y : Int) :
    outcome (emit2 op x y) a = (.ok (), a.withCode (a.code ++ #[op.word, x, y])) := rfl

@[simp] theorem outcome_openScope :
    outcome openScope a =
      (.ok (), { a with scopes := a.scopes.push #[], chain := a.scopes.size :: a.chain }) := rfl

theorem ofFault_eq_ok {α : Type} {r : Except Fault α} {x : α} {a' : Assembly} :
    outcome (ofFault r) a = (.ok x, a') ↔ r = .ok x ∧ a' = a := by
  cases r with
  | ok y =>
    show ((Except.ok y : Except CompileError α), a) = (.ok x, a') ↔ _
    simp [eq_comm]
  | error f =>
    show ((Except.error (.fault f) : Except CompileError α), a) = (.ok x, a') ↔ _
    simp

theorem position?_of_lt {n i : Nat} (h : i < n) : Datum.position? n (i : Int) = some i := by
  have hneg : ¬ (i : Int) < 0 := by omega
  simp only [Datum.position?, if_neg hneg]
  rw [if_pos ⟨by omega, by omega⟩, Int.toNat_natCast]

theorem outcome_patchWords {address : Nat} {word : Int} (h : address + 1 < a.code.size) :
    outcome (patchWords address (some word) none) a =
      (.ok (), a.withCode (a.code.setIfInBounds (address + 1) word)) := by
  have hset : setItemAt a.code ((address : Int) + 1) word =
      .ok (a.code.setIfInBounds (address + 1) word) := by
    have hpos : Datum.position? a.code.size ((address : Int) + 1) = some (address + 1) :=
      position?_of_lt h
    rw [setItemAt, hpos]
  have hword : outcome (setWord ((address : Int) + 1) word) a =
      (.ok (), a.withCode (a.code.setIfInBounds (address + 1) word)) := by
    unfold setWord
    rw [bind_ok (outcome_get a), hset]
    rfl
  exact bind_ok hword

theorem outcome_patchHere {address : Nat} (h : address + 1 < a.code.size) :
    outcome (patchHere address) a =
      (.ok (), a.withCode (a.code.setIfInBounds (address + 1) (a.code.size : Int))) := by
  unfold patchHere
  rw [bind_ok outcome_nextAddress, outcome_patchWords h]

/-- Adding a constant gives an index where it, or one equal to it, stands. -/
theorem outcome_addConst (c : Datum) : ∃ (i : Nat) (consts : Array Datum),
    outcome (addConst c) a = (.ok i, { a with consts := consts }) ∧
      Extends a.consts consts ∧ (∀ d ∈ consts, d ∈ a.consts ∨ d = c) ∧ consts.size ≤ a.consts.size + 1 ∧
      ∃ d, consts[i]? = some d ∧ (d = c ∨ d.eq c = true) := by
  unfold addConst
  rw [bind_ok (outcome_get a)]
  cases hfind : a.consts.findIdx? fun d => d.eq c with
  | some i =>
    obtain ⟨hlt, heq, -⟩ := Array.findIdx?_eq_some_iff_getElem.mp hfind
    exact ⟨i, a.consts, rfl, .refl _, fun _ => Or.inl, Nat.le_succ _, a.consts[i], Array.getElem?_eq_getElem hlt,
      Or.inr heq⟩
  | none =>
    exact ⟨a.consts.size, a.consts.push c, rfl, .push _ _, fun _ => Array.mem_push.mp,
      Nat.le_of_eq (Array.size_push c), c, by simp, Or.inl rfl⟩

end CompileM

end Cilly
