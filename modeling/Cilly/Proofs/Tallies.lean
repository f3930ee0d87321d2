import Cilly.Proofs.OperandStack

/-!
# What the counts of a stack tell

A stack counts a pop before it knows whether there is anything to pop. So pushes and pops are in balance with the depth only
up to the pops that failed (`CountedStack.emptyPops_replay`). The greatest depth is that of some stage of the session, and a pop
that succeeds gives the value of the push that it matches: the one that opened the stretch of greater depth which the pop closes.

An instruction of the machine that succeeds has found something to pop whenever it popped, whatever the code is, and a run that
ends takes off what is left. So its counts are equal (`Machine.statistics_agree`).
-/

namespace Cilly

open Acting List

namespace CountedStack

variable {α : Type}

/-! ## Sessions -/

theorem fst_pop (s : CountedStack α) : s.pop.1 = s.items.head? := by
  unfold pop
  split <;> simp_all

theorem items_pop (s : CountedStack α) : s.pop.2.items = s.items.tail := by
  unfold pop
  split <;> simp_all

/-- What a stack can be asked for. -/
inductive Call (α : Type) where
  | push (a : α)
  | pop
  | top
  | empty
  | stats

inductive Answer (α : Type) where
  | done
  | value (a : α)
  | failed
  | truth (b : Bool)
  | counts (pushes pops depth maxDepth : Nat)

def Answer.ofOption : Option α → Answer α
  | some a => .value a
  | none => .failed

/-- The answer to a call, and the stack after it. -/
def Call.perform (s : CountedStack α) : Call α → Answer α × CountedStack α
  | .push a => (.done, s.push a)
  | .pop => (.ofOption s.pop.1, s.pop.2)
  | .top => (.ofOption s.top?, s)
  | .empty => (.truth s.isEmpty, s)
  | .stats => (.counts s.pushes s.pops s.depth s.maxDepth, s)

/-- The stack after calls. -/
def replay (s : CountedStack α) (calls : List (Call α)) : CountedStack α := calls.foldl (fun s call => (call.perform s).2) s

/-- How many pops among the calls find nothing. -/
def failedPops (s : CountedStack α) : List (Call α) → Nat
  | [] => 0
  | .pop :: calls => failedPops s.pop.2 calls + if s.pop.1.isNone then 1 else 0
  | call :: calls => failedPops (call.perform s).2 calls

theorem replay_append (s : CountedStack α) (calls more : List (Call α)) :
    s.replay (calls ++ more) = (s.replay calls).replay more := foldl_append

/-- **Counts are in balance up to the pops that failed.** -/
theorem emptyPops_replay (s : CountedStack α) (calls : List (Call α)) :
    (s.replay calls).emptyPops = s.emptyPops + s.failedPops calls := by
  induction calls generalizing s with
  | nil => simp [replay, failedPops]
  | cons call calls ih =>
    have hrest := ih (call.perform s).2
    cases call with
    | pop =>
      have hpop : s.pop.1.isNone = true ↔ s.items = [] := by simp [pop_eq_none_iff]
      rw [show (Call.perform s .pop).2 = s.pop.2 from rfl, emptyPops_pop] at hrest
      simp only [replay, failedPops, hpop] at hrest ⊢
      rw [foldl_cons, show (Call.perform s .pop).2 = s.pop.2 from rfl, hrest]
      split <;> omega
    | push a =>
      rw [show (Call.perform s (.push a)).2 = s.push a from rfl, emptyPops_push] at hrest
      exact hrest
    | top | empty | stats => exact hrest

/-- The depth of a new stack after the first so many calls. -/
def depthAt (calls : List (Call α)) (k : Nat) : Nat := (replay {} (calls.take k)).depth

theorem depthAt_append {calls : List (Call α)} {k : Nat} (hk : k ≤ calls.length) (more : List (Call α)) :
    depthAt (calls ++ more) k = depthAt calls k := by
  rw [depthAt, depthAt, take_append_of_le_length hk]

theorem depthAt_length (calls : List (Call α)) : depthAt calls calls.length = (replay {} calls).depth := by
  rw [depthAt, take_length]

theorem depthAt_concat (calls : List (Call α)) (call : Call α) :
    depthAt (calls ++ [call]) (calls.length + 1) = (call.perform (replay {} calls)).2.depth := by
  rw [depthAt, take_of_length_le (by simp), replay_append]
  rfl

/-- A call leaves the greatest depth as it is, or the depth that it comes to is the greatest. -/
theorem Call.maxDepth_perform (s : CountedStack α) (call : Call α) :
    (call.perform s).2.maxDepth = max s.maxDepth (call.perform s).2.depth ∨
      (call.perform s).2.maxDepth = s.maxDepth ∧ (call.perform s).2.depth ≤ s.depth := by
  cases call with
  | push a => exact .inl rfl
  | pop =>
    refine .inr ⟨?_, ?_⟩
    · show s.pop.2.maxDepth = s.maxDepth
      unfold CountedStack.pop
      split <;> rfl
    · show s.pop.2.items.length ≤ s.items.length
      rw [items_pop, length_tail]
      exact Nat.sub_le ..
  | top | empty | stats => exact .inr ⟨rfl, Nat.le_refl _⟩

/-- **The greatest depth is the greatest of the depths that there were.** -/
theorem maxDepth_replay (calls : List (Call α)) : (∀ k ≤ calls.length, depthAt calls k ≤ (replay {} calls).maxDepth) ∧
    ∃ k ≤ calls.length, depthAt calls k = (replay {} calls).maxDepth := by
  induction calls using reverseRecOn with
  | nil => exact ⟨fun k _ => by simp [depthAt, replay, depth], 0, Nat.le_refl _, rfl⟩
  | append_singleton calls call ih =>
    obtain ⟨hle, k, hk, hgreatest⟩ := ih
    have hlast := depthAt_concat calls call
    have hbefore := hle calls.length (Nat.le_refl _)
    rw [depthAt_length] at hbefore
    have hmax := Call.maxDepth_perform (replay {} calls) call
    have hafter : replay {} (calls ++ [call]) = (call.perform (replay {} calls)).2 := replay_append ..
    rw [length_append, length_singleton, hafter]
    refine ⟨fun j hj => ?_, ?_⟩
    · rcases Nat.lt_or_eq_of_le hj with hj | rfl
      · have := hle j (Nat.le_of_lt_succ hj)
        rw [depthAt_append (Nat.le_of_lt_succ hj)]
        omega
      · omega
    · by_cases hsame : (call.perform (replay {} calls)).2.maxDepth = (replay {} calls).maxDepth
      · exact ⟨k, Nat.le_succ_of_le hk, by rw [depthAt_append hk, hgreatest, hsame]⟩
      · exact ⟨_, Nat.le_refl _, by omega⟩

/-- A pop matches a push if it leads back to the depth before it, and the stack was deeper all along in between. -/
structure Matches (calls : List (Call α)) (i j : Nat) : Prop where
  lt : i < j
  back : depthAt calls (j + 1) = depthAt calls i
  deeper : ∀ k, i < k → k ≤ j → depthAt calls i < depthAt calls k

theorem Matches.unique {calls : List (Call α)} {i i' j : Nat} (h : Matches calls i j) (h' : Matches calls i' j) : i = i' := by
  have hback := h.back.symm.trans h'.back
  rcases Nat.lt_trichotomy i i' with hlt | heq | hlt
  · exact absurd (h.deeper i' hlt (Nat.le_of_lt h'.lt)) (by omega)
  · exact heq
  · exact absurd (h'.deeper i hlt (Nat.le_of_lt h.lt)) (by omega)

/-- Every value on the stack was pushed at the depth where it lies, and the stack has been deeper ever since. -/
theorem exists_push (calls : List (Call α)) : ∀ {d : Nat} {a : α}, (replay {} calls).items.reverse[d]? = some a →
    ∃ i < calls.length, calls[i]? = some (.push a) ∧ depthAt calls i = d ∧
      ∀ k, i < k → k ≤ calls.length → d < depthAt calls k := by
  induction calls using reverseRecOn with
  | nil => simp [replay]
  | append_singleton calls call ih =>
    intro d a ha
    have hafter : replay {} (calls ++ [call]) = (call.perform (replay {} calls)).2 := replay_append ..
    have hdepth : d < (call.perform (replay {} calls)).2.depth := by
      rw [depth, ← hafter, ← length_reverse]
      exact (List.getElem?_eq_some_iff.mp ha).1
    -- a value that was there before is still as deep
    have hkept (hold : (replay {} calls).items.reverse[d]? = some a) : ∃ i < (calls ++ [call]).length,
        (calls ++ [call])[i]? = some (.push a) ∧ depthAt (calls ++ [call]) i = d ∧
          ∀ k, i < k → k ≤ (calls ++ [call]).length → d < depthAt (calls ++ [call]) k := by
      obtain ⟨i, hi, hpush, hat, hsince⟩ := ih hold
      refine ⟨i, by simp; omega, by rw [getElem?_append_left hi, hpush], by rw [depthAt_append (Nat.le_of_lt hi), hat], ?_⟩
      intro k hik hk
      rw [length_append, length_singleton] at hk
      rcases Nat.lt_or_eq_of_le hk with hk | rfl
      · rw [depthAt_append (Nat.le_of_lt_succ hk)]
        exact hsince k hik (Nat.le_of_lt_succ hk)
      · rwa [depthAt_concat]
    rw [hafter] at ha
    cases call with
    | push b =>
      rw [show (Call.perform (replay {} calls) (.push b)).2.items = b :: (replay {} calls).items from rfl, reverse_cons] at ha
      rcases Nat.lt_or_ge d (replay {} calls).items.reverse.length with hlt | hge
      · exact hkept (by rwa [getElem?_append_left hlt] at ha)
      · -- the value on top
        have hd : d = (replay {} calls).depth := by
          have : (Call.perform (replay {} calls) (.push b)).2.depth = (replay {} calls).depth + 1 := rfl
          rw [length_reverse] at hge
          exact Nat.le_antisymm (by omega) hge
        rw [getElem?_append_right hge, hd, depth, length_reverse, Nat.sub_self] at ha
        cases ha
        refine ⟨calls.length, by simp, by simp, by rw [depthAt_append (Nat.le_refl _), depthAt_length, hd], ?_⟩
        intro k hlt hk
        obtain rfl : k = calls.length + 1 := by simp at hk; omega
        rwa [depthAt_concat]
    | pop =>
      rw [show (Call.perform (replay {} calls) .pop).2 = (replay {} calls).pop.2 from rfl, items_pop, ← dropLast_reverse,
        getElem?_dropLast] at ha
      split at ha
      · exact hkept ha
      · cases ha
    | top | empty | stats => exact hkept ha

/-- **Last in, first out.** A pop that succeeds gives the value of the push that it matches. -/
theorem matches_of_pop {calls : List (Call α)} {j : Nat} {a : α} (hj : calls[j]? = some .pop)
    (ha : (replay {} (calls.take j)).pop.1 = some a) : ∃ i, Matches calls i j ∧ calls[i]? = some (.push a) := by
  have hlt : j < calls.length := (List.getElem?_eq_some_iff.mp hj).1
  have hlength : (calls.take j).length = j := length_take_of_le (Nat.le_of_lt hlt)
  have hsplit : calls.take j ++ [.pop] = calls.take (j + 1) := by rw [take_add_one, hj]; rfl
  have hearlier : ∀ k ≤ j, depthAt (calls.take j) k = depthAt calls k := by
    intro k hk
    rw [depthAt, depthAt, take_take, Nat.min_eq_left hk]
  obtain ⟨rest, hitems⟩ := head?_eq_some_iff.mp (fst_pop _ ▸ ha)
  obtain ⟨i, hi, hpush, hat, hsince⟩ := exists_push (calls.take j) (d := rest.length) (a := a) (by simp [hitems])
  rw [hlength] at hi hsince
  rw [hearlier i (Nat.le_of_lt hi)] at hat
  refine ⟨i, ⟨hi, ?_, fun k hik hkj => ?_⟩, by rwa [getElem?_take_of_lt hi] at hpush⟩
  · rw [hat, depthAt, ← hsplit, replay_append]
    show (replay {} (calls.take j)).pop.2.items.length = rest.length
    rw [items_pop, hitems, tail_cons]
  · rw [hat, ← hearlier k hkj]
    exact hsince k hik hkj

end CountedStack

/-! ## Runs of any code -/

namespace Uses

variable {α β : Type} {m m' : Machine} {x : MachineM α} {f : α → MachineM β} {takes gives : Nat}

/-- An action that succeeds has found what it popped. -/
theorem emptyPops_eq {a : α} (h : Uses m x takes gives) (hx : outcome x m = (.ok a, m')) :
    m'.stack.emptyPops = m.stack.emptyPops := by
  have henough := (h.taken a (by rw [hx])).1
  have hempty := h.empty henough
  rwa [hx] at hempty

theorem exists_of_still (hx : Still x) (hf : ∀ a, ∃ takes gives, Uses m (f a) takes gives) :
    ∃ takes gives, Uses m (x >>= f) takes gives := by
  cases h : (outcome x m).1 with
  | error e => exact ⟨0, 0, still_bind hx fun a ha => by rw [h] at ha; cases ha⟩
  | ok a =>
    obtain ⟨takes, gives, huses⟩ := hf a
    exact ⟨takes, gives, still_bind hx fun b hb => by rw [h] at hb; cases hb; exact huses⟩

theorem exists_callRoutine (pc : Int) : ∃ takes gives, Uses m (MachineM.callRoutine pc) takes gives := by
  refine exists_of_still (.word _) fun id => exists_of_still .get fun m' => ?_
  dsimp only
  split
  · exact ⟨0, 0, refuse_bind ..⟩
  · refine exists_of_still (.ofFault _) fun routine => exists_of_still (.ofFault _) fun size => ?_
    refine ⟨0 + routine.params.length, 0, (takeArguments size _).take_bind fun cells m' _ => ?_⟩
    refine update_bind rfl (openScope_bind fun m'' => ?_)
    split
    · exact of_still (.pure _)
    · exact throw ..

theorem exists_callSignal (pc : Int) : ∃ takes gives, Uses m (MachineM.callSignal pc) takes gives := by
  refine exists_of_still (.word _) fun i => exists_of_still .get fun m' => exists_of_still (.ofFault _) fun c =>
    exists_of_still (.ofFault _) fun v => exists_of_still (.signalFor v) fun s => ?_
  refine ⟨0 + Signal.arity s.name, 1, (popArguments _).take_bind fun args m' _ => ?_⟩
  exact still_bind (.ofFault _) fun sent _ => update_bind rfl (pushed _ _)

/-- Every instruction, wherever it stands, takes values off the stack and then puts others there. -/
theorem exists_perform (op : Opcode) (pc : Int) : ∃ takes gives, Uses m (MachineM.perform op pc) takes gives := by
  cases op with
  | loadConst =>
    exact ⟨0, 1, still_bind (.word _) fun _ _ => still_bind .get fun _ _ => still_bind (.ofFault _) fun v _ => pushed v _⟩
  | loadVar => exact ⟨_, _, loadVar⟩
  | storeVar => exact ⟨_, _, storeVar⟩
  | jump => exact ⟨0, 0, of_still (.word _)⟩
  | jumpTrue | jumpFalse => exact ⟨_, _, jumpOn _⟩
  | enterScope => exact ⟨0, 0, still_bind (.word _) fun _ _ => openScope_bind fun _ => of_still (.pure _)⟩
  | leaveScope => exact ⟨_, _, leaveScope⟩
  | call => exact exists_callRoutine pc
  | «return» => exact ⟨_, _, goBack _⟩
  | returnValue => exact ⟨_, _, returnValue pc⟩
  | callPrimitive => exact exists_callSignal pc
  | _ => exact ⟨_, _, plain rfl⟩

theorem printText (s : String) : Uses m (MachineM.printText s) 0 0 :=
  ⟨fun _ => rfl, fun _ _ => ⟨Nat.zero_le _, [], rfl, rfl⟩⟩

theorem drain : ∀ {m : Machine} (depth : Nat), Uses m (MachineM.drain depth) depth 0
  | _, 0 => of_still (.pure _)
  | _, depth + 1 => popPayload.take_bind fun _ _ _ => still_bind (.ofFault _) fun _ _ => update_bind rfl (drain depth)

/-- What is left on the stack is taken off. -/
theorem leftovers : Uses m MachineM.leftovers m.stack.depth 0 := by
  refine still_bind .get fun m' hm' => ?_
  cases hm'
  dsimp only
  split
  · rename_i hdepth
    rw [hdepth]
    exact of_still (.pure _)
  · refine (congrArg (Uses m _ · 0) (Nat.zero_add m.stack.depth)).mp ?_
    exact update_bind rfl ((drain m.stack.depth).take_bind fun _ _ _ => printText "\n")

end Uses

namespace Machine

variable {m m' : Machine}

theorem emptyPops_next {w : Int} (h : m.next = (.ok w, m')) : m'.stack.emptyPops = m.stack.emptyPops := by
  obtain ⟨op, n, pc, -, hperform, rfl⟩ := next_eq_ok h
  obtain ⟨takes, gives, huses⟩ := Uses.exists_perform (m := m.counted) op m.pc
  exact (huses.emptyPops_eq hperform :)

/-- A run that ends has popped all that it pushed, and nothing else. -/
theorem stack_of_run {budget : Nat} (hstart : m.stack = {}) (h : m.run budget = (.ok (), m')) :
    m'.stack.pushes = m'.stack.pops ∧ m'.stack.depth = 0 ∧ ∃ before, m'.printed = before ++ m'.stack.summary := by
  obtain ⟨n, m₁, m₂, hruns, -, hleft, rfl⟩ := run_eq_ok h
  have hsteps : m₁.stack.emptyPops = 0 :=
    hruns.invariant (P := fun m => m.stack.emptyPops = 0) (fun h hnext => (emptyPops_next hnext).trans h) (by rw [hstart]; rfl)
  have hlast := (Uses.leftovers.emptyPops_eq hleft).trans hsteps
  obtain ⟨-, results, hresults, hitems⟩ := Uses.leftovers.taken () (congrArg Prod.fst hleft)
  rw [hleft, eq_nil_of_length_eq_zero hresults, nil_append, CountedStack.depth, drop_length] at hitems
  have hdepth : m₂.stack.depth = 0 := congrArg length hitems
  rw [CountedStack.emptyPops] at hlast
  exact ⟨by dsimp only; omega, hdepth, m₂.printed, rfl⟩

open CountedStack in
/-- **What the statistics of a stack say.** Whatever is asked of a new stack, its pushes less its pops, with the pops that failed
added, are its depth; its greatest depth is the greatest that it had after any of the calls; and every pop that succeeds gives
the value of the push that it matches. So a run of any code on a new machine, if it ends, prints as many pops as
pushes and the depth zero. -/
theorem statistics_agree :
    (∀ {α : Type} (calls : List (Call α)),
      ((replay {} calls).pushes - (replay {} calls).pops + failedPops {} calls : Int) = (replay {} calls).depth ∧
      ((∀ k ≤ calls.length, depthAt calls k ≤ (replay {} calls).maxDepth) ∧
        ∃ k ≤ calls.length, depthAt calls k = (replay {} calls).maxDepth) ∧
      ∀ j a, calls[j]? = some .pop → (Call.pop.perform (replay {} (calls.take j))).1 = .value a →
        ∃! i, Matches calls i j ∧ calls[i]? = some (.push a)) ∧
    ∀ (p : Program) (signals : List Signal) (budget : Nat) (m : Machine), (start p signals).run budget = (.ok (), m) →
      m.stack.pushes = m.stack.pops ∧ m.stack.depth = 0 ∧ ∃ before, m.printed = before ++ m.stack.summary := by
  refine ⟨fun {α} calls => ⟨?_, maxDepth_replay calls, fun j a hj ha => ?_⟩, fun p signals budget m => stack_of_run rfl⟩
  · have hbalance := emptyPops_replay {} calls
    rw [emptyPops, show ({} : CountedStack α).emptyPops = 0 from rfl] at hbalance
    omega
  · have hpop : (replay {} (calls.take j)).pop.1 = some a := by
      unfold Call.perform Answer.ofOption at ha
      dsimp only at ha
      split at ha
      · cases ha
        assumption
      · cases ha
    obtain ⟨i, hmatches, hpush⟩ := matches_of_pop hj hpop
    exact ⟨i, ⟨hmatches, hpush⟩, fun i' hi' => hi'.1.unique hmatches⟩

open CountedStack in
/-- Two pops too many, and a run that leaves two values behind. -/
theorem statistics_agree_with_failures :
    let calls : List (Call Nat) := [.pop, .push 7, .push 8, .top, .pop, .pop, .pop, .stats]
    let m := ((start { code := #[3, 4, 3, 12], consts := #[], scopes := #[#[]], routines := #[] } []).run 9).2
    (failedPops {} calls = 2 ∧ (replay {} calls).maxDepth = 2 ∧ ∃! i, Matches calls i 4 ∧ calls[i]? = some (.push 8)) ∧
      m.stack.pushes = m.stack.pops ∧ m.stack.depth = 0 := by
  intro calls m
  refine ⟨⟨by decide, by decide, (statistics_agree.1 calls).2.2 4 8 rfl rfl⟩, ?_⟩
  obtain ⟨hcounts, hdepth, -⟩ := statistics_agree.2 _ [] 9 m (Prod.ext (by decide +kernel) rfl)
  exact ⟨hcounts, hdepth⟩

end Machine

end Cilly
