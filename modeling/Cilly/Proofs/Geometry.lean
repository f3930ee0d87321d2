import Cilly.Proofs.Views

/-!
# Where instructions stand

The instructions of a layout stand one behind the other, so an address tells which of them it is of. A loop
starts in front of what is inside of it (`Placed`) and ends with a jump back to its start (`closed`).
-/

namespace Cilly

open List Instr

variable {address start stop : Nat} {instr : Instr}

/-! ## Order -/

theorem eq_of_sorted {α : Type} (key : α → Nat) {xs : List α} (h : xs.Pairwise fun x y => key x < key y) {x y : α}
    (hx : x ∈ xs) (hy : y ∈ xs) (hkey : key x = key y) : x = y := by
  induction xs with
  | nil => simp at hx
  | cons z zs ih =>
    obtain ⟨hz, hzs⟩ := pairwise_cons.mp h
    rcases mem_cons.mp hx with hx | hx <;> rcases mem_cons.mp hy with hy | hy
    · rw [hx, hy]
    · exact absurd (hx ▸ hkey) (Nat.ne_of_lt (hz y hy))
    · exact absurd (hy ▸ hkey).symm (Nat.ne_of_lt (hz x hx))
    · exact ih hzs hx hy

/-- Instructions one behind the other, from one address up to another. -/
inductive Ordered : Nat → Nat → List Spot → Prop
  | nil (address : Nat) : Ordered address address []
  | cons {address middle hi : Nat} {instr : Instr} {shape : List Mark} {spots : List Spot} :
      instr.Spans address middle → Ordered middle hi spots → Ordered address hi (⟨address, instr, shape⟩ :: spots)

namespace Ordered

variable {lo middle hi : Nat} {spots more : List Spot}

theorem single (shape : List Mark) (h : instr.Spans address hi) :
    Ordered address hi [⟨address, instr, shape⟩] := .cons h (.nil hi)

theorem append (h : Ordered lo middle spots) (h' : Ordered middle hi more) : Ordered lo hi (spots ++ more) := by
  induction h with
  | nil => exact h'
  | cons hspans _ ih => exact .cons hspans (ih h')

theorem le (h : Ordered lo hi spots) : lo ≤ hi := by
  induction h with
  | nil => exact Nat.le_refl _
  | cons hspans _ ih => exact Nat.le_trans (Nat.le_of_lt hspans.1) ih

theorem bounds (h : Ordered lo hi spots) : ∀ spot ∈ spots, lo ≤ spot.address ∧ spot.address < hi := by
  induction h with
  | nil => simp
  | cons hspans hrest ih =>
    intro spot hspot
    have hle := hrest.le
    rcases mem_cons.mp hspot with rfl | hspot
    · exact ⟨Nat.le_refl _, Nat.lt_of_lt_of_le hspans.1 hle⟩
    · exact ⟨Nat.le_trans (Nat.le_of_lt hspans.1) (ih spot hspot).1, (ih spot hspot).2⟩

theorem sorted (h : Ordered lo hi spots) : spots.Pairwise fun x y => x.address < y.address := by
  induction h with
  | nil => exact .nil
  | cons hspans hrest ih =>
    exact pairwise_cons.mpr ⟨fun y hy => Nat.lt_of_lt_of_le hspans.1 (hrest.bounds y hy).1, ih⟩

theorem unique (h : Ordered lo hi spots) {x y : Spot} (hx : x ∈ spots) (hy : y ∈ spots)
    (haddress : x.address = y.address) : x = y := eq_of_sorted Spot.address h.sorted hx hy haddress

end Ordered

/-! ## Expressions -/

/-- Instructions in order that lie inside the same blocks, loops and functions. -/
structure Level (shape : List Mark) (lo hi : Nat) (spots : List Spot) : Prop where
  ordered : Ordered lo hi spots
  level : ∀ spot ∈ spots, spot.shape = shape

namespace Level

variable {shape : List Mark} {lo middle hi : Nat} {spots more : List Spot}

theorem nil (shape : List Mark) (address : Nat) : Level shape address address [] := ⟨.nil address, by simp⟩

theorem single (h : instr.Spans address hi) :
    Level shape address hi [⟨address, instr, shape⟩] := ⟨.single shape h, by simp⟩

theorem append (h : Level shape lo middle spots) (h' : Level shape middle hi more) :
    Level shape lo hi (spots ++ more) := by
  refine ⟨h.ordered.append h'.ordered, ?_⟩
  intro spot hspot
  rcases mem_append.mp hspot with hspot | hspot
  · exact h.level spot hspot
  · exact h'.level spot hspot

theorem cons {address : Nat} {instr : Instr} (h : instr.Spans address middle) (h' : Level shape middle hi more) :
    Level shape address hi (⟨address, instr, shape⟩ :: more) := (single h).append h'

end Level

namespace Layout

section

variable (prims : List String) (c : Names) {start : Nat}

theorem width_pos (e : Node) : 0 < width prims c e := by
  cases e with
  | literal kind fields => cases kind <;> simp [width]
  | name x =>
    rw [width]
    split <;> omega
  | binary op l r =>
    rw [width]
    split <;> omega
  | _ => simp [width]

end

end Layout

theorem Strand.level {set : Setting} {ends ends' : List Nat} {scenes : List Scene}
    (h : Strand set ends start ends' stop scenes) : Level set.shape start stop (scenes.map (·.toSpot)) := by
  induction h with
  | nil => exact .nil _ _
  | single hpasses => exact .single hpasses.spans
  | append _ _ ih ih' =>
    rw [map_append]
    exact ih.append ih'
  | skipping _ _ _ ih =>
    rw [map_cons, map_append]
    exact .cons (spans rfl) (ih.append (.cons (spans rfl) (.single (spans rfl))))

theorem Strand.bounds {set : Setting} {ends ends' : List Nat} {scenes : List Scene}
    (h : Strand set ends start ends' stop scenes) : ∀ x ∈ scenes, start ≤ x.address ∧ x.address < stop :=
  fun _ hx => h.level.ordered.bounds _ (mem_map_of_mem hx)

namespace Layout

open Node

variable (prims : List String) (shape : List Mark) (c : Names)

theorem expression_level {e : Node} (he : IsExpr e) (start : Nat) :
    Level shape start (start + width prims c e) (expression prims shape c start e) := by
  rw [← expressionScenes_toSpot prims ⟨shape, [], none⟩ c he []]
  exact (expression_strand prims ⟨shape, [], none⟩ c he [] start).level

end Layout

/-! ## Statements -/

/-- Every loop of a shape starts in front of an address. -/
def Behind (shape : List Mark) (address : Nat) : Prop := ∀ start stop, .loop start stop ∈ shape → start < address

namespace Behind

variable {shape : List Mark} {address : Nat}

theorem mono (h : Behind shape address) {later : Nat} (hle : address ≤ later) : Behind shape later :=
  fun start stop hmem => Nat.lt_of_lt_of_le (h start stop hmem) hle

theorem cons_iff {mark : Mark} (hmark : ∀ start stop, mark ≠ .loop start stop) :
    Behind (mark :: shape) address ↔ Behind shape address := by
  constructor
  · exact fun h start stop hmem => h start stop (mem_cons_of_mem _ hmem)
  · intro h start stop hmem
    rcases mem_cons.mp hmem with heq | hmem
    · exact absurd heq.symm (hmark start stop)
    · exact h start stop hmem

theorem loop_iff :
    Behind (.loop start stop :: shape) address ↔ start < address ∧ Behind shape address := by
  constructor
  · exact fun h => ⟨h start stop (by simp), fun _ _ hmem => h _ _ (mem_cons_of_mem _ hmem)⟩
  · rintro ⟨hlt, h⟩ start' stop' hmem
    rcases mem_cons.mp hmem with heq | hmem
    · cases heq
      exact hlt
    · exact h start' stop' hmem

end Behind

/-- An instruction stands behind the starts of all loops around it, unless it is the first of its loop. -/
def Spot.Placed (spot : Spot) : Prop :=
  Behind spot.shape spot.address ∨
    ∃ stop shape, spot.shape = .loop spot.address stop :: shape ∧ Behind shape spot.address

/-- Instructions in order, inside of what lies around them, with their loops closed. -/
structure Laid (shape : List Mark) (lo hi : Nat) (spots : List Spot) : Prop where
  ordered : Ordered lo hi spots
  placed : Behind shape lo → ∀ spot ∈ spots, spot.Placed
  closed : ∀ spot ∈ spots, ∀ start stop, .loop start stop ∈ spot.shape → .loop start stop ∈ shape ∨
    spot.address < stop ∧ ∃ around, ⟨stop - 2, .jump start, around⟩ ∈ spots

namespace Laid

variable {shape : List Mark} {lo middle hi : Nat} {spots more : List Spot}

theorem of_level (h : Level shape lo hi spots) : Laid shape lo hi spots where
  ordered := h.ordered
  placed hbehind spot hspot := by
    refine Or.inl ?_
    rw [h.level spot hspot]
    exact hbehind.mono (h.ordered.bounds spot hspot).1
  closed spot hspot start stop hmem := by
    rw [h.level spot hspot] at hmem
    exact Or.inl hmem

theorem append (h : Laid shape lo middle spots) (h' : Laid shape middle hi more) :
    Laid shape lo hi (spots ++ more) where
  ordered := h.ordered.append h'.ordered
  placed hbehind spot hspot := by
    rcases mem_append.mp hspot with hspot | hspot
    · exact h.placed hbehind spot hspot
    · exact h'.placed (hbehind.mono h.ordered.le) spot hspot
  closed spot hspot start stop hmem := by
    rcases mem_append.mp hspot with hspot | hspot
    · refine (h.closed spot hspot start stop hmem).imp_right ?_
      rintro ⟨hlt, around, hjump⟩
      exact ⟨hlt, around, mem_append_left _ hjump⟩
    · refine (h'.closed spot hspot start stop hmem).imp_right ?_
      rintro ⟨hlt, around, hjump⟩
      exact ⟨hlt, around, mem_append_right _ hjump⟩

theorem single (h : instr.Spans address hi) :
    Laid shape address hi [⟨address, instr, shape⟩] := of_level (.single h)

theorem cons {address : Nat} {instr : Instr} (h : instr.Spans address middle) (h' : Laid shape middle hi more) :
    Laid shape address hi (⟨address, instr, shape⟩ :: more) := (single h).append h'

/-- What lies inside a block or function, or behind a statement, seen from outside. -/
theorem inside {mark : Mark} (hmark : ∀ start stop, mark ≠ .loop start stop)
    (h : Laid (mark :: shape) lo hi spots) : Laid shape lo hi spots where
  ordered := h.ordered
  placed hbehind := h.placed ((Behind.cons_iff hmark).mpr hbehind)
  closed spot hspot start stop hmem := by
    refine (h.closed spot hspot start stop hmem).imp_left fun hmem => ?_
    rcases mem_cons.mp hmem with heq | hmem
    · exact absurd heq.symm (hmark start stop)
    · exact hmem

theorem loop {start last : Nat} {test body : List Spot}
    (htest : Level (.loop start (last + 2) :: shape) start middle test) (hlt : start < middle)
    (hbody : Laid (.loop start (last + 2) :: shape) middle last body) :
    Laid shape start (last + 2)
      (test ++ (body ++ [⟨last, .jump start, .loose :: .loop start (last + 2) :: shape⟩])) := by
  have hjump : Laid (.loop start (last + 2) :: shape) last (last + 2)
      [⟨last, .jump start, .loose :: .loop start (last + 2) :: shape⟩] :=
    inside (by simp) (single (spans rfl))
  have hrest := hbody.append hjump
  refine ⟨htest.ordered.append hrest.ordered, ?_, ?_⟩
  · intro hbehind spot hspot
    rcases mem_append.mp hspot with hspot | hspot
    · -- only the very first instruction of the test stands at the start of the loop
      have hle := (htest.ordered.bounds spot hspot).1
      rcases Nat.lt_or_eq_of_le hle with hlt | heq
      · exact Or.inl (htest.level spot hspot ▸ Behind.loop_iff.mpr ⟨hlt, hbehind.mono hle⟩)
      · exact Or.inr ⟨last + 2, shape, heq ▸ htest.level spot hspot, hbehind.mono hle⟩
    · exact hrest.placed (Behind.loop_iff.mpr ⟨hlt, hbehind.mono htest.ordered.le⟩) spot hspot
  · intro spot hspot start' stop hmem
    have hbound := (htest.ordered.append hrest.ordered).bounds spot hspot
    have hown : .loop start' stop ∈ Mark.loop start (last + 2) :: shape → .loop start' stop ∈ shape ∨
        spot.address < stop ∧ ∃ around, ⟨stop - 2, .jump start', around⟩ ∈
          test ++ (body ++ [⟨last, .jump start, .loose :: .loop start (last + 2) :: shape⟩]) := by
      intro hmem
      rcases mem_cons.mp hmem with heq | hmem
      · cases heq
        exact Or.inr ⟨hbound.2, .loose :: .loop start (last + 2) :: shape, by simp⟩
      · exact Or.inl hmem
    rcases mem_append.mp hspot with hspot | hspot
    · exact hown (htest.level spot hspot ▸ hmem)
    · rcases hrest.closed spot hspot start' stop hmem with hmem | ⟨hlt, around, hjump⟩
      · exact hown hmem
      · exact Or.inr ⟨hlt, around, mem_append_right _ hjump⟩

end Laid

namespace Layout

open Node

variable (prims : List String)

theorem block_laid {body : List Node} {shape : List Mark} {s : Point}
    (h : Laid (.block :: shape) s.inBlock.here (nextAll prims s.inBlock body).here
      (statements prims (.block :: shape) s.inBlock body)) :
    Laid shape s.here (next prims s (.block body)).here (statement prims shape s (.block body)) := by
  rw [statement, next]
  have hleave : leave.Spans (nextAll prims s.inBlock body).here _ := spans rfl
  exact .cons (spans rfl) (.inside (by simp) (h.append (.single hleave)))

theorem straight_laid {n : Node} (h : n.Straight) (shape : List Mark) (s : Point) :
    Laid shape s.here (next prims s n).here (statement prims shape s n) := by
  rw [← statementScenes_toSpot prims h.isStat ⟨shape, [], none⟩]
  exact .of_level (straight_strand prims h ⟨shape, [], none⟩ s).level

mutual

theorem statement_laid : ∀ {n : Node}, IsStat n → ∀ (shape : List Mark) (s : Point),
    Laid shape s.here (next prims s n).here (statement prims shape s n)
  | _, .exprStat he, shape, s => straight_laid prims (.exprStat he) shape s
  | _, .print hargs, shape, s => straight_laid prims (.print hargs) shape s
  | _, @IsStat.ifThen cond yes hcond hyes, shape, s => by
    rw [statement, next]
    have htest := expression_level prims shape s.toNames hcond s.here
    have hyes := statement_laid hyes shape (s.skip (width prims s.toNames cond + 2))
    exact (Laid.of_level htest).append (.cons (spans rfl) hyes)
  | _, @IsStat.ifElse cond yes no hcond hyes hno, shape, s => by
    rw [statement, next]
    have htest := expression_level prims shape s.toNames hcond s.here
    have hyes := statement_laid hyes shape (s.skip (width prims s.toNames cond + 2))
    generalize next prims (s.skip (width prims s.toNames cond + 2)) yes = middle at hyes
    have hjump : ∀ target, Laid shape middle.here (middle.skip 2).here
        [⟨middle.here, .jump target, .loose :: shape⟩] :=
      fun target => .inside (by simp) (.single (spans rfl))
    exact (Laid.of_level htest).append (.cons (spans rfl) (hyes.append
      ((hjump _).append (statement_laid hno shape (middle.skip 2)))))
  | _, @IsStat.loop cond body hcond hbody, shape, s => by
    rw [statement, next]
    have hbody := fun around => statement_laid hbody around (s.skip (width prims s.toNames cond + 2))
    generalize next prims (s.skip (width prims s.toNames cond + 2)) body = last at hbody
    have hbranch : (branch .jumpFalse (last.here + 2)).Spans (s.here + width prims s.toNames cond) _ :=
      spans rfl
    have htest := (expression_level prims (.loop s.here (last.here + 2) :: shape) s.toNames hcond
      s.here).append (.single hbranch)
    have hlt : s.here < s.here + width prims s.toNames cond + 2 := by omega
    simpa using Laid.loop htest hlt (hbody _)
  | _, .breakLoop, shape, s => by
    rw [statement, next]
    split
    · exact .single (spans rfl)
    · exact .single ⟨by simp, Or.inl rfl⟩
  | _, .continueLoop, shape, s => by
    rw [statement, next]
    split
    · exact .single (spans rfl)
    · exact .single ⟨by simp, Or.inl rfl⟩
  | _, .block hbody, shape, s => block_laid prims (statements_laid hbody (.block :: shape) s.inBlock)
  | _, .function x xs hbody, shape, s => by
    have hinside := block_laid prims (statements_laid hbody (.block :: .function :: shape)
      (s.inFunction x xs).inBlock)
    rw [statement_function, next_function, Point.declare_here]
    generalize next prims (s.inFunction x xs) _ = last at hinside
    have hreturn : Laid shape last.here (last.here + 1) [⟨last.here, .return, .loose :: .function :: shape⟩] :=
      .inside (by simp) (.inside (by simp) (.single (spans rfl)))
    have hstore : Laid shape (last.here + 1) (last.here + 6)
        [⟨last.here + 1, .const (.number (.int (s.routineFor x))), shape⟩,
          ⟨last.here + 3, s.storing x, shape⟩] :=
      .cons (spans rfl) (.single (storing_passes ⟨shape, [], none⟩ 0 x).spans)
    exact .cons (spans rfl) ((Laid.inside (by simp) hinside).append (hreturn.append hstore))
  | _, .define x hvalue hne, shape, s => straight_laid prims (.define x hvalue hne) shape s
  | _, .assign x hvalue, shape, s => straight_laid prims (.assign x hvalue) shape s
  | _, .return, shape, s => by
    rw [statement, next]
    split
    · exact .single (spans rfl)
    · exact .single ⟨by simp, Or.inl rfl⟩
  | _, .returnValue hvalue, shape, s => by
    rw [statement, next, Point.skip_here, ← Nat.add_assoc]
    refine .of_level ((expression_level prims shape s.toNames hvalue s.here).append ?_)
    split
    · exact .single (spans rfl)
    · exact .single ⟨by simp, Or.inl rfl⟩

theorem statements_laid : ∀ {ns : List Node}, AreStats ns → ∀ (shape : List Mark) (s : Point),
    Laid shape s.here (nextAll prims s ns).here (statements prims shape s ns)
  | _, .nil, shape, s => by
    rw [Layout.statements, nextAll]
    exact .of_level (.nil shape _)
  | _, .cons hn hns, shape, s => by
    rw [Layout.statements, nextAll]
    exact (statement_laid hn shape s).append (statements_laid hns shape _)

end

end Layout

end Cilly
