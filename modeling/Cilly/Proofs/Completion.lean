import Cilly.Proofs.Running

/-!
# Whole runs

A whole run takes steps as long as there is an instruction and the budget allows for a step. No instruction touches the program, the
signals or the count of steps (`perform_course`), so the budget is used up one by one. Hence a whole run that succeeds consists of
steps to the end of the code (`runs_of_steps`), and a number of steps is the beginning of every whole run with a
sufficient budget (`steps_of_runs`).
-/

namespace Cilly

open Acting
open MachineM hiding outcome

variable {last : Machine}

namespace Machine

/-- What belongs to a run as a whole: the program, the signals, and the number of steps so far. -/
def course (m : Machine) : Program × List Signal × Nat := (m.program, m.signals, m.steps)

end Machine

/-- An action that only looks at the machine. -/
def Still {α : Type} (x : MachineM α) : Prop := ∀ m, (outcome x m).2 = m

instance {γ : Type} {V : Machine → γ} : Bearing fun m m' => V m' = V m where
  refl _ := rfl
  trans h h' := h'.trans h

namespace Still

variable {α β : Type} {x : MachineM α} {f : α → MachineM β}

theorem of_acts (h : Acts (fun m m' => m' = m) (fun _ => True) (fun _ => True) x) : Still x := fun m => (h m).1

theorem acts (h : Still x) : Acts (fun m m' => m' = m) (fun _ => True) (fun _ => True) x :=
  fun m => ⟨h m, fun _ _ => trivial, fun _ _ => trivial⟩

theorem bind (hx : Still x) (hf : ∀ a, Still (f a)) : Still (x >>= f) := of_acts (hx.acts.seq fun a => (hf a).acts)

theorem pure (a : α) : Still (Pure.pure a) := fun _ => rfl

theorem throw (e : MachineError) : Still (MonadExcept.throw e : MachineM α) := fun _ => rfl

theorem get : Still (MonadState.get : MachineM Machine) := fun _ => rfl

theorem ofFault (r : Except Fault α) : Still (ofFault r) := of_acts (.ofFault r)

theorem refuse (e : Int → MachineError) (i : Int) : Still (refuse e i : MachineM α) := of_acts (.refuse trivial)

theorem word (address : Int) : Still (word address) := of_acts (.word address)

theorem scopeAt (depth : Int) : Still (scopeAt depth) := of_acts (.scopeAt depth)

theorem signalFor (x : Datum) : Still (signalFor x) := of_acts (.signalFor (fun _ => trivial) x)

end Still

/-- An action that keeps a part of the machine as it is, whether it succeeds or not. -/
def Keeps {α γ : Type} (V : Machine → γ) (x : MachineM α) : Prop := ∀ m, V (outcome x m).2 = V m

/-- A part of the machine that has nothing to do with the stack, the output and the log. -/
structure Apart {γ : Type} (V : Machine → γ) : Prop where
  stack : ∀ (m : Machine) (stack : CountedStack Datum), V { m with stack := stack } = V m
  printed : ∀ (m : Machine) (printed : String), V { m with printed := printed } = V m
  log : ∀ (m : Machine) (log : Array (String × List Datum)), V { m with log := log } = V m

theorem Apart.lenient {γ : Type} {V : Machine → γ} (hV : Apart V) : Lenient fun m m' => V m' = V m where
  stack := hV.stack
  printed := hV.printed
  log := hV.log

namespace Keeps

variable {α γ : Type} {V : Machine → γ} {x : MachineM α}

theorem of_acts (h : Acts (fun m m' => V m' = V m) (fun _ => True) (fun _ => True) x) : Keeps V x := fun m => (h m).1

theorem of_still (h : Still x) : Keeps V x := by
  intro m
  rw [h m]

section

variable (hV : Apart V)

include hV

theorem printText (s : String) : Keeps V (printText s) := fun m => hV.printed m _

theorem pop : Keeps V pop :=
  have := hV.lenient
  of_acts .pop

theorem takeArguments (size count : Nat) : Keeps V (takeArguments size count) :=
  have := hV.lenient
  of_acts (.takeArguments size count)

theorem leftovers : Keeps V leftovers :=
  have := hV.lenient
  of_acts .leftovers

/-- What neither scopes nor calls have a part in is kept by every instruction that opens no scope and changes none. -/
theorem perform (h : ∀ m frames chain, V { m with frames := frames, chain := chain } = V m) {op : Opcode}
    (hop : op ≠ .storeVar ∧ op ≠ .enterScope ∧ op ≠ .call) (pc : Int) : Keeps V (perform op pc) :=
  have := hV.lenient
  of_acts (.perform (fun h => absurd h hop.1) (fun h => (h.elim hop.2.1 hop.2.2).elim) h (fun _ _ => trivial) pc)

end

theorem perform_course (op : Opcode) (pc : Int) : Keeps Machine.course (MachineM.perform op pc) :=
  have : Lenient fun m m' : Machine => m'.course = m.course :=
    Apart.lenient ⟨fun _ _ => rfl, fun _ _ => rfl, fun _ _ => rfl⟩
  of_acts (.perform (fun _ _ _ => rfl) (fun _ _ _ => rfl) (fun _ _ _ => rfl) (fun _ _ => trivial) pc)

end Keeps

namespace Machine

variable {m m' : Machine} {w : Int} {n budget fuel : Nat}

theorem next_eq_ok (h : m.next = (.ok w, m')) :
    ∃ op n pc, itemAt m.program.code m.pc = .ok op.word ∧
      outcome (perform op m.pc) m.counted = (.ok pc, n) ∧ m' = { n with pc := pc } := by
  have hstep := h
  unfold Machine.next step at hstep
  rw [bind_ok (outcome_get m)] at hstep
  cases hfetch : itemAt m.program.code m.pc with
  | error f =>
    rw [bind_error (outcome_word_error hfetch)] at hstep
    cases hstep
  | ok word =>
    rw [bind_ok (outcome_word hfetch), bind_ok (outcome_countStep (Nat.lt_succ_self _))] at hstep
    cases hop : Opcode.ofWord? word with
    | none =>
      rw [hop] at hstep
      have hrefuse : Quiet (refuse MachineError.illegalOpcode word : MachineM Int) fun _ => False :=
        Quiet.refuse _ _
      exact (hrefuse.ok hstep).2.elim
    | some op =>
      rw [← Opcode.word_of_ofWord? hop] at hfetch
      obtain ⟨pc, n, hperform, hm'⟩ := performed hfetch h
      exact ⟨op, n, pc, by rw [← Opcode.word_of_ofWord? hop], hperform, hm'⟩

theorem course_next (h : m.next = (.ok w, m')) : m'.course = (m.program, m.signals, m.steps + 1) := by
  obtain ⟨op, n, pc, -, hperform, rfl⟩ := next_eq_ok h
  have hsame := Keeps.perform_course op m.pc m.counted
  rw [hperform] at hsame
  exact hsame

theorem steps_next (h : m.next = (.ok w, m')) : m'.steps = m.steps + 1 := congrArg (·.2.2) (course_next h)

/-- The machine after a number of steps, if they succeed. -/
def after? : Nat → Machine → Option Machine
  | 0, m => some m
  | n + 1, m =>
    match m.next with
    | (.ok _, m') => m'.after? n
    | (.error _, _) => none

theorem after?_eq_some_iff : ∀ {n : Nat} {m m' : Machine}, m.after? n = some m' ↔ Runs n m m'
  | 0, m, m' => by
    refine ⟨fun h => ?_, fun h => ?_⟩
    · cases h
      exact .refl m
    · cases h
      rfl
  | n + 1, m, m' => by
    refine ⟨fun h => ?_, fun h => ?_⟩
    · unfold after? at h
      split at h
      · rename_i w m₁ hnext
        exact .step hnext (after?_eq_some_iff.mp h)
      · cases h
    · cases h with
      | step hnext hrest =>
        unfold after?
        rw [hnext]
        exact after?_eq_some_iff.mpr hrest

theorem outcome_halted : outcome halted m = (.ok (decide ((m.program.code.size : Int) ≤ m.pc)), m) := rfl

theorem outcome_step_of_le (h : budget ≤ m.steps) :
    ∃ e, outcome (step budget) m = (.error e, m) ∧ (e = .stepLimit ∨ ∃ f, e = .fault f) := by
  unfold step
  rw [bind_ok (outcome_get m)]
  cases hfetch : itemAt m.program.code m.pc with
  | error f => exact ⟨_, bind_error (outcome_word_error hfetch), Or.inr ⟨f, rfl⟩⟩
  | ok w =>
    refine ⟨.stepLimit, ?_, Or.inl rfl⟩
    rw [bind_ok (outcome_word hfetch), bind_error (outcome_countStep_limit h)]

theorem outcome_steps_halted (h : (m.program.code.size : Int) ≤ m.pc) : ∀ fuel,
    outcome (MachineM.steps budget fuel) m = (.ok (), m)
  | 0 => by
    rw [MachineM.steps, bind_ok outcome_halted, decide_eq_true h]
    rfl
  | fuel + 1 => by
    rw [MachineM.steps, bind_ok outcome_halted, decide_eq_true h]
    rfl

theorem outcome_steps_zero (h : ¬ (m.program.code.size : Int) ≤ m.pc) :
    outcome (MachineM.steps budget 0) m = outcome (discard (MachineM.step budget)) m := by
  rw [MachineM.steps, bind_ok outcome_halted, decide_eq_false h]
  rfl

theorem outcome_steps_succ (h : ¬ (m.program.code.size : Int) ≤ m.pc) :
    outcome (MachineM.steps budget (fuel + 1)) m =
      outcome (discard (MachineM.step budget) >>= fun _ => MachineM.steps budget fuel) m := by
  rw [MachineM.steps, bind_ok outcome_halted, decide_eq_false h]
  rfl

theorem runs_of_steps : ∀ {fuel : Nat} {m m' : Machine}, budget ≤ m.steps + fuel →
    outcome (MachineM.steps budget fuel) m = (.ok (), m') →
    ∃ n, Runs n m m' ∧ (m'.program.code.size : Int) ≤ m'.pc
  | fuel, m, m', hbudget, h => by
    by_cases hhalted : (m.program.code.size : Int) ≤ m.pc
    · rw [outcome_steps_halted hhalted] at h
      cases h
      exact ⟨0, .refl m, hhalted⟩
    · cases fuel with
      | zero =>
        obtain ⟨e, he, -⟩ := outcome_step_of_le (m := m) hbudget
        rw [outcome_steps_zero hhalted, outcome_discard, he] at h
        cases h
      | succ fuel =>
        rw [outcome_steps_succ hhalted] at h
        obtain ⟨_, m₁, hstep, hrest⟩ := bind_eq_ok.mp h
        by_cases hlt : m.steps < budget
        · rw [outcome_discard, outcome_step_eq_next hlt] at hstep
          cases hnext : m.next with
          | mk r m₂ =>
            rw [hnext] at hstep
            cases r with
            | error e => cases hstep
            | ok w =>
              cases hstep
              have hsteps : m₂.steps = m.steps + 1 := steps_next hnext
              obtain ⟨n, hruns, hend⟩ := runs_of_steps (m := m₂) (by omega) hrest
              exact ⟨n + 1, .step hnext hruns, hend⟩
        · obtain ⟨e, he, -⟩ := outcome_step_of_le (m := m) (Nat.le_of_not_lt hlt)
          rw [outcome_discard, he] at hstep
          cases hstep

/-- A whole run that succeeds: steps to the end of the code, then what is left, then the statistics. -/
theorem run_eq_ok (h : m.run budget = (.ok (), m')) :
    ∃ n m₁ m₂, Runs n m m₁ ∧ (m₁.program.code.size : Int) ≤ m₁.pc ∧
      outcome leftovers m₁ = (.ok (), m₂) ∧ m' = { m₂ with printed := m₂.printed ++ m₂.stack.summary } := by
  have h : outcome (execute budget) m = (.ok (), m') := h
  unfold MachineM.execute at h
  obtain ⟨_, m₁, hsteps, h⟩ := bind_eq_ok.mp h
  obtain ⟨_, m₂, hleft, h⟩ := bind_eq_ok.mp h
  obtain ⟨n, hruns, hend⟩ := runs_of_steps (Nat.le_add_left ..) hsteps
  rw [bind_ok (outcome_get m₂)] at h
  cases h
  exact ⟨n, m₁, m₂, hruns, hend, hleft, rfl⟩

theorem sameControl_of_run (h : m.run budget = (.ok (), m')) :
    ∃ n m₁, Runs n m m₁ ∧ (m₁.program.code.size : Int) ≤ m₁.pc ∧ SameControl m₁ m' := by
  obtain ⟨n, m₁, m₂, hruns, hend, hleft, rfl⟩ := run_eq_ok h
  obtain ⟨hsame, -⟩ := (Quiet.of_acts .leftovers).ok hleft
  exact ⟨n, m₁, hruns, hend, hsame.program, hsame.chain, hsame.frames⟩

theorem steps_of_runs {fuel : Nat} (h : Runs n m m') (hbudget : m.steps + n ≤ budget) :
    outcome (MachineM.steps budget (n + fuel)) m = outcome (MachineM.steps budget fuel) m' := by
  induction h with
  | refl m => rw [Nat.zero_add]
  | @step m₁ m₂ m₃ w n hnext _ ih =>
    have hhalted : ¬ (m₁.program.code.size : Int) ≤ m₁.pc := by
      have hlt := lt_size_of_next hnext
      omega
    have hsteps : m₂.steps = m₁.steps + 1 := steps_next hnext
    rw [show n + 1 + fuel = n + fuel + 1 by omega, outcome_steps_succ hhalted,
      bind_ok (show outcome (discard (step budget)) m₁ = (.ok (), m₂) by
        rw [outcome_discard, outcome_step_eq_next (by omega), hnext]
        rfl)]
    exact ih (by omega)

theorem outcome_step_limit (h : budget ≤ m.steps) (hfetch : itemAt m.program.code m.pc = .ok w) :
    outcome (step budget) m = (.error .stepLimit, m) := by
  unfold step
  rw [bind_ok (outcome_get m), bind_ok (outcome_word hfetch), bind_error (outcome_countStep_limit h)]

theorem Runs.steps (h : Runs n m m') : m'.steps = m.steps + n := by
  induction h with
  | refl m => rfl
  | @step m₁ m₂ m₃ w n hnext _ ih =>
    rw [ih, steps_next hnext]
    omega

theorem Runs.split {k : Nat} (h : Runs n m m') (hk : k ≤ n) : ∃ m₁, Runs k m m₁ ∧ Runs (n - k) m₁ m' := by
  induction h generalizing k with
  | refl m =>
    obtain rfl : k = 0 := Nat.le_zero.mp hk
    exact ⟨m, .refl m, .refl m⟩
  | @step m₁ m₂ m₃ w n hnext hrest ih =>
    cases k with
    | zero => exact ⟨m₁, .refl m₁, .step hnext hrest⟩
    | succ k =>
      obtain ⟨m, hfirst, hsecond⟩ := ih (Nat.le_of_succ_le_succ hk)
      exact ⟨m, .step hnext hfirst, by rwa [Nat.succ_sub_succ]⟩

section

variable (hstart : m.steps = 0) (h : Runs n m m')

include hstart h

theorem run_eq_of_runs (fuel : Nat) : m.run (n + fuel) = outcome (do
    MachineM.steps (n + fuel) fuel
    leftovers
    MachineM.printText (← get).stack.summary) m' := by
  show outcome (MachineM.execute (n + fuel)) m = _
  unfold MachineM.execute
  rw [outcome_bind, outcome_bind, steps_of_runs h (by omega)]

/-- A whole run is cut off where there is an instruction but no budget for it. -/
theorem run_of_fetch (hfetch : itemAt m'.program.code m'.pc = .ok w) : m.run n = (.error .stepLimit, m') := by
  have hhalted : ¬ (m'.program.code.size : Int) ≤ m'.pc := by
    have hlt := lt_size_of_itemAt hfetch
    omega
  have hcut : outcome (MachineM.steps n 0) m' = (.error .stepLimit, m') := by
    rw [outcome_steps_zero hhalted, outcome_discard, outcome_step_limit (by rw [h.steps]; omega) hfetch]
    rfl
  have hrun := run_eq_of_runs hstart h 0
  rw [Nat.add_zero, bind_error hcut] at hrun
  exact hrun

theorem run_of_lt (hlt : budget < n) : (m.run budget).1 = .error .stepLimit := by
  obtain ⟨m₁, hfirst, hrest⟩ := h.split (Nat.le_of_lt hlt)
  obtain ⟨more, hmore⟩ : ∃ more, n - budget = more + 1 := ⟨n - budget - 1, by omega⟩
  rw [hmore] at hrest
  cases hrest with
  | step hnext _ =>
    obtain ⟨op, _, _, hfetch, -⟩ := next_eq_ok hnext
    rw [run_of_fetch hstart hfirst hfetch]

end

/-- Whole runs come to a result if the budget is sufficient for it, and are cut off if not. -/
def Comes (m : Machine) (r : Except MachineError Unit) (last : Machine) : Prop :=
  ∃ n, (∀ budget, n ≤ budget → m.run budget = (r, last)) ∧ ∀ budget, budget < n → (m.run budget).1 = .error .stepLimit

/-- Steps to the end of the code, then what is left, then the statistics. -/
theorem comes_of_end (hstart : m.steps = 0) (h : Runs n m m') (hhalted : (m'.program.code.size : Int) ≤ m'.pc)
    {r : Except MachineError Unit}
    (hlast : outcome (do MachineM.leftovers; MachineM.printText (← get).stack.summary) m' = (r, last)) : m.Comes r last := by
  refine ⟨n, fun budget hle => ?_, fun budget hlt => run_of_lt hstart h hlt⟩
  obtain ⟨fuel, rfl⟩ := Nat.exists_eq_add_of_le hle
  rw [run_eq_of_runs hstart h, bind_ok (outcome_steps_halted hhalted _)]
  exact hlast

/-- Steps to the end of the code that leave nothing on the stack. -/
theorem comes_of_halted (hstart : m.steps = 0) (h : Runs n m m') (hhalted : (m'.program.code.size : Int) ≤ m'.pc)
    (hempty : m'.stack.items = []) : m.Comes (.ok ()) { m' with printed := m'.printed ++ m'.stack.summary } := by
  refine comes_of_end hstart h hhalted ?_
  have hleft : outcome leftovers m' = (.ok (), m') := by
    unfold leftovers
    rw [bind_ok (outcome_get m'), CountedStack.depth, hempty]
    rfl
  rw [bind_ok hleft]
  rfl

theorem run_of_fault {e : MachineError} (hstart : m.steps = 0) (h : Runs n m m')
    (hfetch : itemAt m'.program.code m'.pc = .ok w) (hnext : m'.next = (.error e, last)) (hlt : n < budget) :
    m.run budget = (.error e, last) := by
  have hhalted : ¬ (m'.program.code.size : Int) ≤ m'.pc := by
    have hlt := lt_size_of_itemAt hfetch
    omega
  obtain ⟨fuel, rfl⟩ := Nat.exists_eq_add_of_le hlt
  have hfails : outcome (discard (step (n + (1 + fuel)))) m' = (.error e, last) := by
    rw [outcome_discard, outcome_step_eq_next (by rw [h.steps]; omega), hnext]
    rfl
  have hsteps : outcome (MachineM.steps (n + (1 + fuel)) (1 + fuel)) m' = (.error e, last) := by
    rw [Nat.add_comm 1 fuel, outcome_steps_succ hhalted, Nat.add_comm fuel 1, bind_error hfails]
  rw [Nat.succ_eq_add_one, Nat.add_assoc, run_eq_of_runs hstart h, bind_error hsteps]

theorem comes_of_fault {e : MachineError} (hstart : m.steps = 0) (h : Runs n m m')
    (hfetch : itemAt m'.program.code m'.pc = .ok w) (hnext : m'.next = (.error e, last)) : m.Comes (.error e) last := by
  refine ⟨n + 1, fun budget hle => run_of_fault hstart h hfetch hnext hle, fun budget hlt => ?_⟩
  rcases Nat.lt_or_eq_of_le (Nat.le_of_lt_succ hlt) with hlt | rfl
  · exact run_of_lt hstart h hlt
  · rw [run_of_fetch hstart h hfetch]

theorem Comes.run_eq {r : Except MachineError Unit} (h : m.Comes r last) (budget : Nat) :
    m.run budget = (r, last) ∨ (m.run budget).1 = .error .stepLimit := by
  obtain ⟨n, henough, hcut⟩ := h
  rcases Nat.lt_or_ge budget n with hlt | hle
  · exact Or.inr (hcut budget hlt)
  · exact Or.inl (henough budget hle)

end Machine

end Cilly
