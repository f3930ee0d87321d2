import Cilly.Proofs.ScopeDiscipline
import Cilly.Sample

/-!
# Trials of programs that call primitives

A trial compiles a text with the names of primitives, and then runs it on a machine to which no signal is connected. The
names are good for the compiler only: a call of a primitive is compiled, and fails where the run comes to it
(`CallsPrimitive.next`). No other instruction looks for a signal (`Raises.perform`), so a trial fails for want of a
signal exactly if its run comes to such a call within the budget (`Trial.fails_at_primitives`).
-/

namespace Cilly

open Acting Node
open MachineM hiding outcome

variable {p : Program} {x : String}

/-! ## The errors of actions -/

/-- Every error of an action has a property. -/
def Raises {α : Type} (E : MachineError → Prop) (x : MachineM α) : Prop := ∀ m e, (outcome x m).1 = .error e → E e

theorem Raises.of_acts {α : Type} {E : MachineError → Prop} {x : MachineM α}
    (h : Acts (fun _ _ => True) E (fun _ => True) x) : Raises E x := fun m => (h m).2.2

instance : Lenient fun _ _ => True where
  refl _ := trivial
  trans _ _ := trivial
  stack _ _ := trivial
  printed _ _ := trivial
  log _ _ := trivial

instance : Faulty fun e => ∃ f, e = .fault f := ⟨fun f => ⟨f, rfl⟩⟩

instance : Admits fun e => ∀ x, e ≠ .unknownSignal x where
  fault _ := by simp
  refused h := h

/-- Instructions other than the call of a primitive look for no signal. -/
theorem Raises.perform {op : Opcode} (hop : op ≠ .callPrimitive) (pc : Int) :
    Raises (fun e => ∀ x, e ≠ .unknownSignal x) (perform op pc) :=
  of_acts (.perform (fun _ _ _ => trivial) (fun _ _ _ => trivial) (fun _ _ _ => trivial) (fun h => absurd h hop) pc)

/-! ## Whole runs that fail -/

namespace Machine

variable {m m' last : Machine} {e : MachineError} {budget n : Nat}

section

variable (hlimit : e ≠ .stepLimit) (hfault : ∀ f, e ≠ .fault f)

include hlimit hfault

/-- Steps that fail with an error of an instruction lead to a step that does. -/
theorem runs_of_steps_error : ∀ {fuel : Nat} {m : Machine}, budget ≤ m.steps + fuel →
    outcome (MachineM.steps budget fuel) m = (.error e, last) →
    ∃ n m', Runs n m m' ∧ m'.steps < budget ∧ m'.next = (.error e, last)
  | fuel, m, hbudget, h => by
    by_cases hhalted : (m.program.code.size : Int) ≤ m.pc
    · rw [outcome_steps_halted hhalted] at h
      cases h
    by_cases hlt : m.steps < budget
    · cases fuel with
      | zero => omega
      | succ fuel =>
        rw [outcome_steps_succ hhalted] at h
        cases hnext : m.next with
        | mk r m₁ =>
          have hstep : outcome (discard (step budget)) m = (r.map fun _ => (), m₁) := by
            rw [outcome_discard, outcome_step_eq_next hlt, hnext]
          cases r with
          | error e' =>
            rw [bind_error hstep] at h
            cases h
            exact ⟨0, m, .refl m, hlt, hnext⟩
          | ok w =>
            rw [bind_ok hstep] at h
            have hsteps : m₁.steps = m.steps + 1 := steps_next hnext
            obtain ⟨n, m', hruns, hrest⟩ := runs_of_steps_error (by omega) h
            exact ⟨n + 1, m', .step hnext hruns, hrest⟩
    · -- Without a budget, only the limit or the fetch can be what fails.
      obtain ⟨e', he', hkind⟩ := outcome_step_of_le (m := m) (Nat.le_of_not_lt hlt)
      have hsame : e' = e := by
        cases fuel with
        | zero =>
          rw [outcome_steps_zero hhalted, outcome_discard, he'] at h
          cases h
          rfl
        | succ fuel =>
          rw [outcome_steps_succ hhalted, bind_error (e := e') (t := m) (by rw [outcome_discard, he']; rfl)] at h
          cases h
          rfl
      subst hsame
      rcases hkind with hkind | ⟨f, hkind⟩
      · exact absurd hkind hlimit
      · exact absurd hkind (hfault f)

/-- A whole run that fails with an error of an instruction comes to it. -/
theorem run_eq_error (h : m.run budget = (.error e, last)) :
    ∃ n m', Runs n m m' ∧ m'.steps < budget ∧ m'.next = (.error e, last) := by
  have h : outcome (execute budget) m = (.error e, last) := h
  unfold execute at h
  cases hsteps : outcome (MachineM.steps budget budget) m with
  | mk r m₁ =>
    cases r with
    | error e' =>
      rw [bind_error hsteps] at h
      cases h
      exact runs_of_steps_error hlimit hfault (Nat.le_add_left ..) hsteps
    | ok u =>
      rw [bind_ok hsteps] at h
      have hrest : Raises (fun e => ∃ f, e = .fault f) (do
          leftovers
          printText (← get).stack.summary) :=
        .of_acts (Acts.leftovers.seq fun _ => Acts.get.seq fun _ => .update fun _ => trivial)
      obtain ⟨f, hf⟩ := hrest m₁ e (by rw [h])
      exact absurd hf (hfault f)

end

/-! ## Calls of primitives -/

/-- The machine is at the call of a primitive with that name. -/
structure CallsPrimitive (m : Machine) (x : String) : Prop where
  fetch : itemAt m.program.code m.pc = .ok Opcode.callPrimitive.word
  name : ∃ i c, itemAt m.program.code (m.pc + 1) = .ok i ∧ itemAt m.program.consts i = .ok c ∧ c.payload = .ok (.text x)

/-- A step that fails for want of a signal is the call of a primitive. -/
theorem fetch_of_unknownSignal (h : m.next = (.error (.unknownSignal x), last)) :
    itemAt m.program.code m.pc = .ok Opcode.callPrimitive.word := by
  have hstep := h
  unfold Machine.next step at hstep
  rw [bind_ok (outcome_get m)] at hstep
  cases hfetch : itemAt m.program.code m.pc with
  | error f =>
    rw [bind_error (outcome_word_error hfetch)] at hstep
    cases hstep
  | ok w =>
    rw [bind_ok (outcome_word hfetch), bind_ok (outcome_countStep (Nat.lt_succ_self _))] at hstep
    cases hop : Opcode.ofWord? w with
    | none =>
      rw [hop] at hstep
      have hrefuse : Raises (fun e => ∀ x, e ≠ .unknownSignal x)
          (refuse MachineError.illegalOpcode w : MachineM Int) := .of_acts (.refuse (by simp))
      exact absurd rfl (hrefuse _ _ (by rw [hstep]) x)
    | some op =>
      rw [← Opcode.word_of_ofWord? hop] at hfetch ⊢
      rw [next_eq hfetch] at h
      by_cases hcall : op = .callPrimitive
      · rw [hcall]
      · cases hperform : outcome (perform op m.pc) m.counted with
        | mk r m' =>
          rw [hperform] at h
          cases r with
          | ok next => cases h
          | error e =>
            cases h
            exact absurd rfl (Raises.perform hcall m.pc m.counted _ (by rw [hperform]) x)

/-- Without signals, the call of a primitive fails with its name. -/
theorem CallsPrimitive.next (h : m.CallsPrimitive x) (hsignals : m.signals = []) :
    m.next = (.error (.unknownSignal x), m.counted) := by
  obtain ⟨i, c, hi, hc, hpayload⟩ := h.name
  have hsignal : outcome (signalFor (.text x)) m.counted = (.error (.unknownSignal x), m.counted) := by
    unfold signalFor
    rw [if_neg (by simp [Datum.kind])]
    dsimp only
    rw [bind_ok (outcome_get _), show m.counted.signals = [] from hsignals]
    rfl
  have hperform : outcome (perform .callPrimitive m.pc) m.counted = (.error (.unknownSignal x), m.counted) := by
    show outcome (callSignal m.pc) m.counted = _
    unfold callSignal
    rw [bind_ok (outcome_word (m := m.counted) hi), bind_ok (outcome_get _),
      show itemAt m.counted.program.consts i = .ok c from hc, bind_ok (a := c) (outcome_ofFault _), hpayload,
      bind_ok (a := Datum.text x) (outcome_ofFault _), bind_error hsignal]
  rw [next_eq h.fetch, hperform]

theorem Runs.signals (h : Runs n m m') : m'.signals = m.signals := by
  induction h with
  | refl m => rfl
  | step hnext _ ih => exact ih.trans (congrArg (·.2.1) (course_next hnext))

theorem payload_of_hasConst {i : Nat} (h : p.HasConst i (.string (.text x))) :
    ∃ c, p.consts[i]? = some c ∧ c.payload = .ok (.text x) := by
  obtain ⟨c, hc, rfl | heq⟩ := h
  · exact ⟨_, hc, rfl⟩
  · obtain ⟨items, rfl, hitems⟩ := Datum.exists_list_of_eq (Datum.eq_symm heq)
    refine ⟨_, hc, ?_⟩
    match items, hitems with
    | [tag, y], hitems =>
      simp only [Datum.eqItems, Bool.and_eq_true, Datum.text_eq_iff] at hitems
      rw [hitems.2.1]
      rfl
    | [], hitems | [_], hitems | _ :: _ :: _ :: _, hitems => simp [Datum.eqItems] at hitems

section

variable {prims : List String} {body : List Node} {p : Program}

/-- A call of a primitive in compiled code is of one of those that the program was compiled with. -/
theorem Standing.callsPrimitive (h : Standing prims body p m) (hbody : AreStats body)
    (hlaid : p.LaidOut prims body)
    (hfetch : itemAt m.program.code m.pc = .ok Opcode.callPrimitive.word) : ∃ x ∈ prims, m.CallsPrimitive x := by
  rcases h.here with hpc | ⟨x, hx, hpc⟩
  · rw [hpc, h.program, itemAt_neg_one hlaid.back?] at hfetch
    exact absurd (Except.ok.inj hfetch) (by decide)
  rcases List.mem_append.mp hx with hx | hx
  · obtain ⟨i, y, hname, hholds, hconst⟩ : ∃ (i : Nat) (name : String), name ∈ prims ∧
        p.Holds x.address [Opcode.callPrimitive.word, (i : Int)] ∧ p.HasConst i (.string (.text name)) := by
      rw [← Layout.program_toSpot prims hbody] at hx
      obtain ⟨x, hscene, rfl⟩ := List.mem_map.mp hx
      have hin := in_of_mem_scenes hbody hlaid hscene
      have hop := hin.op_eq (by rw [← h.program, ← hpc]; exact hfetch)
      have hfits := Layout.program_fits prims hbody x hscene
      cases hinstr : x.instr with
      | primitive y =>
        rw [Scene.Fits, hinstr] at hfits
        obtain ⟨-, name, hname, heq⟩ := hfits
        rw [hinstr, Datum.text_eq_iff.mp heq] at hin
        obtain ⟨i, hholds, hconst⟩ := hin
        exact ⟨i, name, hname, hholds, hconst⟩
      | plain op | branch op =>
        rw [hinstr] at hin hop
        cases hop
        cases hin.1
      | _ =>
        rw [hinstr] at hop
        cases hop
    obtain ⟨c, hc, hpayload⟩ := payload_of_hasConst hconst
    refine ⟨y, hname, hfetch, (i : Int), c, ?_, ?_, hpayload⟩
    · rw [hpc, h.program]
      exact hholds.second
    · rw [h.program]
      exact itemAt_of_getElem? hc
  · have hend : m.pc = m.program.code.size := by
      rw [hpc, List.mem_singleton.mp hx, h.program, hlaid.size]
    exact absurd hend (Int.ne_of_lt (lt_size_of_itemAt hfetch))

end

end Machine

/-! ## Trials -/

namespace Trial

open Machine

theorem prepare_eq_ok {text : String} {prims : List String} (h : prepare text prims = .ok p) :
    ∃ body, Node.ofText text = .ok (.program body) ∧ AreStats body ∧ Program.ofNode prims (.program body) = .ok p := by
  unfold prepare at h
  cases htext : Node.ofText text with
  | error f =>
    rw [htext] at h
    cases h
  | ok n =>
    obtain ⟨body, rfl, hbody⟩ := Node.areStats_of_text htext
    rw [htext] at h
    refine ⟨body, rfl, hbody, ?_⟩
    cases hcompile : Program.ofNode prims (.program body) with
    | error e =>
      have h : Program.ofTree prims (.program body) = .ok p := h
      rw [Program.ofTree, hcompile] at h
      cases h
    | ok q =>
      have h : Program.ofTree prims (.program body) = .ok p := h
      rw [Program.ofTree, hcompile] at h
      cases h
      rfl

/-- A trial fails as the run of its program does, if the program can be listed. -/
theorem failure_eq_iff {budget : Nat} {name text : String} {prims : List String}
    (hp : prepare text prims = .ok p) {e : MachineError} :
    (Trial.run budget name text prims).failure = some (.machine e) ↔
      (∃ shown, p.listing = .ok shown) ∧ ((Machine.start p []).run budget).1 = .error e := by
  unfold Trial.run
  rw [hp]
  dsimp only
  unfold Trial.perform Program.toListing
  cases p.listing with
  | error f => simp [Except.mapError]
  | ok shown =>
    cases h : (Machine.start p []).run budget with
    | mk r m => cases r <;> simp [Except.mapError]

/-- **Primitives are compiled but not connected.** Take a text that is read and compiled with any primitives. All along
the run of its trial, the call of a primitive, which is always one of those, fails: there is no signal of that name. And a
trial fails in that way exactly if the program can be listed and the run comes to such a call within the budget. -/
theorem fails_at_primitives {text : String} {primitives : List String} {p : Program} (hp : prepare text primitives = .ok p)
    (budget : Nat) (name : String) :
    (∀ n m, Runs n (Machine.start p []) m → itemAt m.program.code m.pc = .ok Opcode.callPrimitive.word →
        ∃ x ∈ primitives, m.CallsPrimitive x ∧ m.next = (.error (.unknownSignal x), m.counted)) ∧
      ∀ x, (Trial.run budget name text primitives).failure = some (.machine (.unknownSignal x)) ↔
        (∃ shown, p.listing = .ok shown) ∧
          ∃ n m, n < budget ∧ Runs n (Machine.start p []) m ∧ m.CallsPrimitive x := by
  obtain ⟨body, -, hbody, hcompile⟩ := prepare_eq_ok hp
  have hlaid := Program.laidOut hbody hcompile
  have hcalls : ∀ n m, Runs n (Machine.start p []) m → itemAt m.program.code m.pc = .ok Opcode.callPrimitive.word →
      ∃ x ∈ primitives, m.CallsPrimitive x ∧ m.next = (.error (.unknownSignal x), m.counted) := by
    intro n m hruns hfetch
    obtain ⟨x, hx, hcall⟩ := (hruns.standing hbody hlaid).callsPrimitive hbody hlaid hfetch
    exact ⟨x, hx, hcall, hcall.next hruns.signals⟩
  refine ⟨hcalls, fun x => ?_⟩
  rw [failure_eq_iff hp]
  refine and_congr_right fun _ => ?_
  constructor
  · intro hrun
    obtain ⟨n, m, hruns, hsteps, hnext⟩ := run_eq_error (e := .unknownSignal x) (by simp) (by simp)
      (show (Machine.start p []).run budget = (_, ((Machine.start p []).run budget).2) from Prod.ext hrun rfl)
    obtain ⟨y, -, hcall, hnext'⟩ := hcalls n m hruns (fetch_of_unknownSignal hnext)
    have hsame : y = x := by
      have herror := congrArg Prod.fst (hnext'.symm.trans hnext)
      cases herror
      rfl
    have hcount : m.steps = 0 + n := hruns.steps
    exact ⟨n, m, by omega, hruns, hsame ▸ hcall⟩
  · rintro ⟨n, m, hlt, hruns, hcall⟩
    rw [run_of_fault rfl hruns hcall.fetch (hcall.next hruns.signals) hlt]

/-- `if (1 < 2) forward(3);` is compiled with the primitive, and its trial fails at the call. -/
theorem trial_of_unconnected_forward :
    ∃ p, prepare "if (1 < 2) forward(3);\n" ["forward"] = .ok p ∧
      (Trial.run 100 "walk" "if (1 < 2) forward(3);\n" ["forward"]).failure =
        some (.machine (.unknownSignal "forward")) := by
  let p : Program :=
    { code := #[13, 0, 1, 0, 1, 1, 119, 11, 14, 1, 2, 18, 3, 12, 14]
      consts := #[.number (.int 1), .number (.int 2), .number (.int 3), .string (.text "forward")]
      scopes := #[#[], #[]]
      routines := #[] }
  have hp : prepare "if (1 < 2) forward(3);\n" ["forward"] = .ok p := by cbv
  obtain ⟨hcalls, hfails⟩ := fails_at_primitives hp 100 "walk"
  have hlisting : p.listing.toOption.isSome = true := by decide +kernel
  obtain ⟨shown, hshown⟩ : ∃ shown, p.listing = .ok shown := by
    cases h : p.listing with
    | error f =>
      rw [h] at hlisting
      cases hlisting
    | ok shown => exact ⟨shown, rfl⟩
  have hafter : (((Machine.start p []).after? 6).map fun m => (m.pc, m.program.code)) = some (11, p.code) := by
    decide +kernel
  obtain ⟨m, hm, hview⟩ := Option.map_eq_some_iff.mp hafter
  obtain ⟨hpc, hcode⟩ := Prod.mk.inj hview
  have hruns := after?_eq_some_iff.mp hm
  obtain ⟨x, hx, hcall, -⟩ := hcalls 6 m hruns (by rw [hpc, hcode]; rfl)
  cases List.mem_singleton.mp hx
  exact ⟨p, hp, (hfails "forward").mpr ⟨⟨shown, hshown⟩, 6, m, by decide, hruns, hcall⟩⟩

end Trial

end Cilly
