import Cilly.Proofs.Running
import Mathlib

/-!
# What `break` and `continue` do

The jump of a `break` keeps the operand that it was emitted with. So it does not lead behind its loop but to
the address -1, where the last word of the code is found: the one that leaves the scope of the program. Behind it
the program starts over, with one scope less than were open at the `break`.

The jump of a `continue` does lead to the test of its loop, but the scopes that are open stay open: those of the
blocks between the loop and the `continue` are still there when the next iteration begins.
-/

namespace Cilly

open Acting Node List
open MachineM hiding outcome

/-! ## Breaking -/

namespace Machine

variable {m : Machine}

theorem next_jump {address : Nat} {target : Int} (hholds : m.program.Holds address [Opcode.jump.word, target])
    (hpc : m.pc = address) : m.next = (.ok Opcode.jump.word, { m.counted with pc := target }) := by
  have hfetch : itemAt m.program.code m.pc = .ok Opcode.jump.word := by rw [hpc]; exact hholds.first
  have hword : itemAt m.counted.program.code (m.pc + 1) = .ok target := by rw [hpc]; exact hholds.second
  rw [next_eq hfetch, show perform .jump m.pc = word (m.pc + 1) from rfl,
    outcome_word hword]

theorem next_leave (hfetch : itemAt m.program.code m.pc = .ok Opcode.leaveScope.word) :
    m.next =
      match m.chain with
      | [] => (.error (.fault .emptyPop), m.counted)
      | _ :: outer => (.ok Opcode.leaveScope.word, { m.counted with chain := outer, pc := m.pc + 1 }) := by
  rw [next_eq hfetch, show perform .leaveScope m.pc = leaveScope m.pc from rfl,
    leaveScope, bind_ok (outcome_get _), show m.counted.chain = m.chain from rfl]
  cases m.chain <;> rfl

/-- **A `break` starts the program over.** It leads to the address -1 and not behind the loop around it, it leaves
no scope, and the instruction found there leaves one scope, whichever that is, and leads to the start of the
program; it fails if no scope is open. -/
theorem break_starts_over {text : String} {primitives : List String} {body : List Node} {p : Program}
    {address : Nat} {shape : List Mark} {budget : Nat}
    (htext : Node.ofText text = .ok (.program body)) (hp : Program.ofNode primitives (.program body) = .ok p)
    (hspot : ⟨address, .breakLoop, shape⟩ ∈ Layout.program primitives body)
    (hm : m.program = p) (hpc : m.pc = address) (hbudget : m.steps + 1 < budget) :
    ∃ start stop, innermost? shape = some (start, stop) ∧ address < stop ∧
      p.Holds (stop - 2) [Opcode.jump.word, (start : Int)] ∧
      (step budget).outcome m =
        (.ok Opcode.jump.word, { m with pc := -1, steps := m.steps + 1 }) ∧
      (step budget).outcome { m with pc := -1, steps := m.steps + 1 } =
        match m.chain with
        | [] => (.error (.fault .emptyPop), { m with pc := -1, steps := m.steps + 2 })
        | _ :: outer =>
          (.ok Opcode.leaveScope.word, { m with chain := outer, pc := 0, steps := m.steps + 2 }) := by
  subst hm
  obtain ⟨body', hbody, hstats⟩ := Node.areStats_of_text htext
  cases hbody
  have hlaid := Program.laidOut hstats hp
  obtain ⟨start, stop, around, hloop, hlt, hjump⟩ := Layout.break_inside_loop primitives hstats hspot
  refine ⟨start, stop, hloop, hlt, hlaid.follows _ hjump, ?_, ?_⟩
  · show outcome (step budget) m = _
    rw [outcome_step_eq_next (by omega)]
    exact next_jump (hlaid.follows _ hspot) hpc
  · have hfetch : itemAt m.program.code (-1) = .ok Opcode.leaveScope.word := itemAt_neg_one hlaid.back?
    let m' : Machine := { m with pc := -1, steps := m.steps + 1 }
    calc outcome (step budget) m'
      _ = m'.next := outcome_step_eq_next (m := m') hbudget
      _ = _ := next_leave (m := m') hfetch

theorem break_of_endless_loop :
    ∃ m : Machine, m.pc = 7 ∧ m.chain = [4, 3, 2, 1, 0] ∧
      m.program.Holds 10 [Opcode.jump.word, 2] ∧
      (step 5000).outcome m =
        (.ok Opcode.jump.word, { m with pc := -1, steps := m.steps + 1 }) ∧
      (step 5000).outcome { m with pc := -1, steps := m.steps + 1 } =
        (.ok Opcode.leaveScope.word, { m with chain := [3, 2, 1, 0], pc := 0, steps := m.steps + 2 }) := by
  let body : List Node := [.loop (.literal .true [.null]) (.block [.breakLoop])]
  let p : Program :=
    { code := #[13, 0, 3, 11, 12, 13, 0, 9, -1, 14, 9, 2, 14], scopes := #[#[], #[], #[]] }
  let m : Machine := { start p [] with pc := 7, chain := [4, 3, 2, 1, 0], steps := 4 }
  have htext : Node.ofText "while (true) \x7b break; \x7d\n" = .ok (.program body) := by cbv
  have hp : Program.ofNode [] (.program body) = .ok p := by cbv
  have hspot : ⟨7, .breakLoop, [.block, .loop 2 12, .block]⟩ ∈ Layout.program [] body := by
    repeat (first | exact List.mem_cons_self | apply List.mem_cons_of_mem)
  obtain ⟨start, stop, hloop, -, hjump, hfirst, hsecond⟩ :=
    break_starts_over (m := m) htext hp hspot rfl rfl (show 4 + 1 < 5000 by decide)
  cases hloop
  exact ⟨m, rfl, rfl, hjump, hfirst, hsecond⟩

end Machine

/-! ## Scopes inside an iteration -/

/-- The start of the innermost loop of the same function, and how many blocks lie between. -/
def ownLoop? : List Mark → Option (Nat × Nat)
  | [] | .function :: _ => none
  | .loop start _ :: _ => some (start, 0)
  | .block :: shape => (ownLoop? shape).map fun (start, blocks) => (start, blocks + 1)
  | .loose :: shape => ownLoop? shape

theorem ownLoop?_eq_some {shape : List Mark} {start blocks : Nat} (h : ownLoop? shape = some (start, blocks)) :
    ∃ inner stop outer, shape = inner ++ .loop start stop :: outer ∧
      (∀ mark ∈ inner, mark = .block ∨ mark = .loose) ∧ inner.count .block = blocks := by
  induction shape generalizing blocks with
  | nil => cases h
  | cons mark shape ih =>
    cases mark with
    | function => cases h
    | loop start' stop =>
      cases h
      exact ⟨[], stop, shape, rfl, by simp, rfl⟩
    | loose =>
      obtain ⟨inner, stop, outer, rfl, hinner, hcount⟩ := ih h
      exact ⟨.loose :: inner, stop, outer, rfl, by simpa using hinner, by simpa using hcount⟩
    | block =>
      rw [ownLoop?] at h
      cases hown : ownLoop? shape with
      | none =>
        rw [hown] at h
        cases h
      | some own =>
        rw [hown] at h
        cases h
        obtain ⟨inner, stop, outer, rfl, hinner, hcount⟩ := ih hown
        exact ⟨.block :: inner, stop, outer, rfl, by simpa using hinner, by simpa using hcount⟩

/-- In an iteration that began with the given scopes they are still open, and at least as many more as there are
blocks in between. -/
def Above (start : Nat) (chain₀ : List Nat) (shape : List Mark) (chain : List Nat) : Prop :=
  ∀ inner stop outer, shape = inner ++ .loop start stop :: outer →
    .function ∉ inner ∧ ∃ leaked, chain = leaked ++ chain₀ ∧ inner.count .block ≤ leaked.length

/-- What is more, directly inside the loop no other scope is open. -/
def Within (start : Nat) (chain₀ : List Nat) (shape : List Mark) (chain : List Nat) : Prop :=
  Above start chain₀ shape chain ∧ ∀ stop outer, shape = .loop start stop :: outer → chain = chain₀

section

variable {start : Nat} {chain₀ chain : List Nat} {shape : List Mark} {mark : Mark} {y : Spot}

theorem Above.suffix {inner : List Mark} (h : Above start chain₀ (inner ++ shape) chain) :
    Above start chain₀ shape chain := by
  rintro inner' stop outer rfl
  obtain ⟨hfunction, leaked, hchain, hcount⟩ := h (inner ++ inner') stop outer (by simp)
  rw [count_append] at hcount
  exact ⟨fun hmem => hfunction (mem_append_right _ hmem), leaked, hchain, by omega⟩

theorem Above.tail (h : Above start chain₀ (mark :: shape) chain) : Above start chain₀ shape chain :=
  @Above.suffix _ _ _ _ [mark] h

theorem Above.cons (h : Above start chain₀ shape chain) (hmark : mark ≠ .function) (hblock : mark ≠ .block)
    (hloop : ∀ stop, mark ≠ .loop start stop) : Above start chain₀ (mark :: shape) chain := by
  intro inner stop outer heq
  cases inner with
  | nil =>
    cases heq
    exact absurd rfl (hloop stop)
  | cons mark' inner =>
    cases heq
    obtain ⟨hfunction, leaked, hchain, hcount⟩ := h inner stop outer rfl
    refine ⟨by simpa using ⟨hmark.symm, hfunction⟩, leaked, hchain, ?_⟩
    rwa [count_cons_of_ne hblock]

theorem Above.enter (h : Above start chain₀ shape chain) (id : Nat) :
    Above start chain₀ (.block :: shape) (id :: chain) := by
  intro inner stop outer heq
  cases inner with
  | nil => cases heq
  | cons mark' inner =>
    cases heq
    obtain ⟨hfunction, leaked, hchain, hcount⟩ := h inner stop outer rfl
    exact ⟨by simpa using hfunction, id :: leaked, by rw [hchain]; rfl, by simpa using hcount⟩

theorem Above.leave {id : Nat} (h : Above start chain₀ (.block :: shape) (id :: chain)) :
    Above start chain₀ shape chain := by
  rintro inner stop outer rfl
  obtain ⟨hfunction, leaked, hchain, hcount⟩ := h (.block :: inner) stop outer rfl
  rw [count_cons_self] at hcount
  cases leaked with
  | nil => simp at hcount
  | cons id' leaked =>
    cases hchain
    exact ⟨fun hmem => hfunction (mem_cons_of_mem _ hmem), leaked, rfl, by simpa using hcount⟩

theorem Within.enters (h : Within start chain₀ shape chain) (hy : Enters shape y) (hne : y.address ≠ start) :
    Within start chain₀ y.shape chain := by
  rcases hy with hy | ⟨stop, hy⟩
  · rw [hy]
    exact h
  · rw [hy]
    refine ⟨h.1.cons (by simp) (by simp) fun stop' heq => hne (by cases heq; rfl), fun stop' outer heq => ?_⟩
    cases heq
    exact absurd rfl hne

theorem Above.after (h : Above start chain₀ shape chain) (hy : After shape y) (hne : y.address ≠ start) :
    Within start chain₀ y.shape chain := by
  rcases hy with hy | ⟨⟨rest, rfl⟩, hy⟩
  · rw [hy]
    exact ⟨h.cons (by simp) (by simp) (by simp), by simp⟩
  · exact Within.enters ⟨h, by simp⟩ hy hne

theorem Within.onward (h : Within start chain₀ shape chain) (hy : Onward shape y) (hne : y.address ≠ start) :
    Within start chain₀ y.shape chain := by
  cases hy with
  | enters hy => exact h.enters hy hne
  | again hy =>
    rw [hy]
    refine ⟨h.1.tail, fun stop' outer heq => ?_⟩
    cases heq
    exact absurd rfl hne
  | after hy => exact h.1.after hy hne
  | afterLoose hy => exact h.1.tail.after hy hne
  | afterLoop hy => exact h.1.tail.after hy hne

theorem Within.begin (hplaced : y.Placed) : Within y.address chain₀ y.shape chain₀ := by
  refine ⟨fun inner stop outer heq => ?_, fun _ _ _ => rfl⟩
  rcases hplaced with hbehind | ⟨stop', shape, hshape, hbehind⟩
  · exact absurd (hbehind y.address stop (by simp [heq])) (Nat.lt_irrefl _)
  · cases inner with
    | nil => exact ⟨by simp, [], rfl, by simp⟩
    | cons mark inner =>
      rw [hshape] at heq
      cases heq
      exact absurd (hbehind y.address stop (by simp)) (Nat.lt_irrefl _)

end

/-! ## Continuing -/

namespace Machine

/-- Steps of the same iteration: the call that the iteration is of does not return, and does not come back to the
start of the loop. -/
inductive SameIteration (start : Nat) (m₀ : Machine) : Machine → Prop
  | begin : m₀.pc = start → SameIteration start m₀ m₀
  | step {m m' : Machine} {w : Int} : SameIteration start m₀ m → m.next = (.ok w, m') →
      m₀.frames.length ≤ m'.frames.length →
      (m'.frames.length = m₀.frames.length → m'.pc ≠ start) → SameIteration start m₀ m'

/-- What is known in an iteration about the scopes of the call that it is of. -/
structure Iterating (primitives : List String) (body : List Node) (p : Program) (start : Nat) (m₀ m : Machine) :
    Prop extends Standing primitives body p m where
  deep : m₀.frames.length ≤ m.frames.length
  scopes : m.frames.length = m₀.frames.length →
    ∀ y ∈ Layout.extent primitives body, m.pc = y.address → Within start m₀.chain y.shape m.chain
  pending : ∀ above f below, m.frames = above ++ f :: below → below.length = m₀.frames.length →
    ∀ y ∈ Layout.extent primitives body, f.back = (y.address : Int) → Within start m₀.chain y.shape f.chain

section

variable {prims : List String} {body : List Node} {p : Program} {start : Nat} {m₀ m m' : Machine} {w : Int}

theorem within_at (hbody : AreStats body) {chain₀ chain : List Nat} {pc : Int} {y : Spot}
    (hy : y ∈ Layout.extent prims body) (hpc : pc = y.address) (h : Within start chain₀ y.shape chain) :
    ∀ y ∈ Layout.extent prims body, pc = y.address → Within start chain₀ y.shape chain := by
  intro z hz hpc'
  have haddress : y.address = z.address := Int.ofNat.inj (hpc.symm.trans hpc')
  rwa [← (Layout.extent_ordered prims hbody).unique hy hz haddress]

theorem Iterating.begin (hbody : AreStats body) (h : Standing prims body p m₀) (hpc : m₀.pc = start) :
    Iterating prims body p start m₀ m₀ := by
  refine ⟨h, Nat.le_refl _, fun _ y hy haddress => ?_, fun above f below hframes hlength => ?_⟩
  · have hplaced : y.Placed := by
      rcases mem_append.mp hy with hy | hy
      · exact (Layout.program_laid prims hbody).placed (by simp [Behind]) y hy
      · rw [mem_singleton.mp hy]
        exact Or.inl (by simp [Behind])
    have hstart : start = y.address := Int.ofNat.inj (hpc.symm.trans haddress)
    rw [hstart]
    exact .begin hplaced
  · rw [hframes] at hlength
    simp at hlength
    omega

theorem Iterating.next (hbody : AreStats body) (hlaid : p.LaidOut prims body)
    (h : Iterating prims body p start m₀ m) (hnext : m.next = (.ok w, m'))
    (hdeep : m₀.frames.length ≤ m'.frames.length) (hne : m'.frames.length = m₀.frames.length → m'.pc ≠ start) :
    Iterating prims body p start m₀ m' := by
  have hstanding := h.toStanding.next hbody hlaid hnext
  have hdiffers : ∀ {y : Spot}, m'.pc = y.address → m'.frames.length = m₀.frames.length → y.address ≠ start :=
    fun hpc hlength heq => hne hlength (by rw [hpc, heq])
  rcases h.next_cases hbody hlaid hnext with ⟨-, hpc, -, -, hframes⟩ | ⟨x, hx, hpc, htransit⟩
  · refine ⟨hstanding, hdeep, fun _ => ?_, hframes ▸ h.pending⟩
    obtain ⟨y, hy, haddress, hshape⟩ := (Layout.program_linked prims hbody).first
    refine within_at hbody hy (by rw [hpc, haddress]; rfl) ?_
    rw [hshape]
    exact ⟨by simp [Above], by simp⟩
  · have hwithin : m.frames.length = m₀.frames.length → Within start m₀.chain x.shape m.chain :=
      fun hlength => h.scopes hlength x (mem_append_left _ hx) hpc
    cases htransit with
    | onward hy hpc' honward hsame =>
      refine ⟨hstanding, hdeep, fun hlength => within_at hbody hy hpc' ?_, hsame.frames ▸ h.pending⟩
      rw [hsame.chain]
      exact (hwithin (hsame.frames ▸ hlength)).onward honward (hdiffers hpc' hlength)
    | @again inner outer stop y _ hy hpc' hshape _ hyshape hsame =>
      refine ⟨hstanding, hdeep, fun hlength => within_at hbody hy hpc' ?_, hsame.frames ▸ h.pending⟩
      have hold := hwithin (hsame.frames ▸ hlength)
      rw [hshape] at hold
      rw [hsame.chain, hyshape]
      refine ⟨hold.1.suffix, fun stop outer heq => ?_⟩
      cases heq
      exact absurd rfl (hdiffers hpc' hlength)
    | away _ hpc' hsame =>
      refine ⟨hstanding, hdeep, fun _ y _ hy => ?_, hsame.frames ▸ h.pending⟩
      omega
    | enter _ hy hpc' henters hprogram hchain hframes =>
      refine ⟨hstanding, hdeep, fun hlength => within_at hbody hy hpc' ?_, hframes ▸ h.pending⟩
      rw [hchain]
      exact Within.enters ⟨(hwithin (hframes ▸ hlength)).1.enter _, by simp⟩ henters (hdiffers hpc' hlength)
    | leave hy hpc' hshape hafter hprogram hchain hframes =>
      refine ⟨hstanding, hdeep, fun hlength => within_at hbody hy hpc' ?_, hframes ▸ h.pending⟩
      have hold := (hwithin (hframes ▸ hlength)).1
      rw [hshape, hchain] at hold
      exact hold.leave.after hafter (hdiffers hpc' hlength)
    | call _ hpc' hy hyshape hprogram hchain hframes =>
      refine ⟨hstanding, hdeep, fun hlength => ?_, fun above f below hsplit hlength => ?_⟩
      · have := h.deep
        rw [hframes, length_cons] at hlength
        omega
      · rw [hframes] at hsplit
        cases above with
        | nil =>
          cases hsplit
          exact within_at hbody hy rfl (hyshape ▸ hwithin hlength)
        | cons _ above => exact h.pending above f below (List.cons.inj hsplit).2 hlength
    | @back frame _ hprogram hframes hpc' hchain =>
      refine ⟨hstanding, hdeep, fun hlength => ?_, fun above f below hsplit hlength => ?_⟩
      · rw [hpc', hchain]
        exact h.pending [] frame m'.frames hframes hlength
      · exact h.pending (frame :: above) f below (by rw [hframes, hsplit]; rfl) hlength

theorem SameIteration.iterating (hbody : AreStats body) (hlaid : p.LaidOut prims body)
    (hstanding : Standing prims body p m₀) (h : SameIteration start m₀ m) :
    Iterating prims body p start m₀ m := by
  induction h with
  | begin hpc => exact .begin hbody hstanding hpc
  | step _ hnext hdeep hne ih => exact ih.next hbody hlaid hnext hdeep hne

end

/-- **A `continue` keeps the scopes open.** It leads to the test of the loop around it, and the scopes that were open
when the iteration began are open then, but those of the blocks in between are open as well: no scope is left. -/
theorem continue_keeps_scopes {text : String} {primitives : List String} {body : List Node} {p : Program}
    {signals : List Signal} {address target start blocks n budget : Nat} {shape : List Mark} {m₀ m : Machine}
    (htext : Node.ofText text = .ok (.program body)) (hp : Program.ofNode primitives (.program body) = .ok p)
    (hspot : ⟨address, .continueLoop target, shape⟩ ∈ Layout.program primitives body)
    (hloop : ownLoop? shape = some (start, blocks))
    (hrun : Runs n (Machine.start p signals) m₀) (hsame : SameIteration start m₀ m)
    (hdepth : m.frames.length = m₀.frames.length) (hpc : m.pc = address) (hbudget : m.steps < budget) :
    (step budget).outcome m =
        (.ok Opcode.jump.word, { m with pc := start, steps := m.steps + 1 }) ∧
      (∃ leaked, m.chain = leaked ++ m₀.chain ∧ blocks ≤ leaked.length) ∧
      (m.chain = m₀.chain ↔ blocks = 0) := by
  obtain ⟨body', hbody', hbody⟩ := Node.areStats_of_text htext
  cases hbody'
  have hlaid := Program.laidOut hbody hp
  have hiterating := hsame.iterating hbody hlaid (hrun.standing hbody hlaid)
  obtain ⟨hwithin, hdirect⟩ := hiterating.scopes hdepth _ (List.mem_append_left _ hspot) hpc
  obtain ⟨htight, around, stop, outer, htarget, haround, -⟩ :=
    (Layout.program_linked primitives hbody).links _ hspot
  obtain ⟨inner, stop', outer', rfl, hmarks, hcount⟩ := ownLoop?_eq_some hloop
  obtain ⟨-, leaked, hleaked, hle⟩ := hwithin inner stop' outer' rfl
  have htarget : target = start := by
    have hinner : ∀ start stop, .loop start stop ∉ inner := fun start stop hmem => by simpa using hmarks _ hmem
    have hown := @innermost?_append inner outer' start stop' hinner
    rw [show inner ++ .loop start stop' :: outer' = around ++ .loop target stop :: outer from htarget,
      innermost?_append haround] at hown
    exact (Prod.mk.inj (Option.some.inj hown)).1
  refine ⟨?_, ⟨leaked, hleaked, hcount ▸ hle⟩, fun hsame => ?_, fun hzero => ?_⟩
  · show outcome (step budget) m = _
    rw [outcome_step_eq_next hbudget, ← htarget]
    have hjump : m.program.Holds address [Opcode.jump.word, (target : Int)] := by
      rw [hiterating.program]
      exact hlaid.follows _ hspot
    exact next_jump hjump hpc
  · have hlength := congrArg List.length (hsame.symm.trans hleaked)
    rw [List.length_append] at hlength
    omega
  · have hnil : inner = [] := by
      refine List.eq_nil_iff_forall_not_mem.mpr fun mark hmem => ?_
      rcases hmarks mark hmem with rfl | rfl
      · exact absurd (hcount.trans hzero) (Nat.ne_of_gt (List.count_pos_iff.mpr hmem))
      · exact htight (List.mem_append_left _ hmem)
    subst hnil
    exact hdirect stop' outer' rfl

theorem continue_of_endless_loop :
    ∃ m₀ m : Machine, m₀.pc = 2 ∧ m₀.chain = [3, 2, 1, 0] ∧ SameIteration 2 m₀ m ∧
      (step 5000).outcome m =
        (.ok Opcode.jump.word, { m with pc := 2, steps := m.steps + 1 }) ∧ m.chain ≠ m₀.chain := by
  let body : List Node := [.loop (.literal .true [.null]) (.block [.continueLoop])]
  let p : Program :=
    { code := #[13, 0, 3, 11, 12, 13, 0, 9, 2, 14, 9, 2, 14], scopes := #[#[], #[], #[]] }
  let m₀ : Machine := { start p [] with store := #[#[], #[], #[], #[]], chain := [3, 2, 1, 0], pc := 2, steps := 1 }
  let m₁ : Machine := { m₀ with stack := m₀.stack.push .yes, pc := 3, steps := 2 }
  let m₂ : Machine := { m₁ with stack := m₁.stack.pop.2, pc := 5, steps := 3 }
  let m : Machine :=
    { m₂ with store := #[#[], #[], #[], #[], #[]], chain := [4, 3, 2, 1, 0], pc := 7, steps := 4 }
  have htext : Node.ofText "while (true) \x7b continue; \x7d\n" = .ok (.program body) := by cbv
  have hp : Program.ofNode [] (.program body) = .ok p := by cbv
  have hspot : ⟨7, .continueLoop 2, [.block, .loop 2 12, .block]⟩ ∈ Layout.program [] body := by
    repeat (first | exact List.mem_cons_self | apply List.mem_cons_of_mem)
  have hrun : Runs 1 (start p []) m₀ := .step (w := 13) rfl (.refl m₀)
  have hsame : SameIteration 2 m₀ m := by
    refine .step (w := 13) (m := m₂) (.step (w := 11) (m := m₁) (.step (w := 3) (.begin rfl) ?_ ?_ ?_) ?_ ?_ ?_) ?_ ?_ ?_
    all_goals first | rfl | decide
  obtain ⟨hstep, -, hiff⟩ := continue_keeps_scopes (m := m) htext hp hspot rfl hrun hsame rfl rfl
    (show 4 < 5000 by decide)
  exact ⟨m₀, m, rfl, rfl, hsame, hstep, fun heq => absurd (hiff.mp heq) (by decide)⟩
end Machine

end Cilly
