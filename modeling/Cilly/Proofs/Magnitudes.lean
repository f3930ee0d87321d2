import Cilly.Proofs.Resolution

/-!
# How large the numbers in code are

Addresses, offsets and indices in compiled code are bounded by the size of the tree (`bulk`), and so by the number of
tokens that it was made of: no statement emits more than six words for each of its tokens, opens more than one scope or
enters more than one name or function for any of them. `Point.Room` says that there is room for what comes, and
`program_within` that every instruction stays within the bound and where its constant comes from.
-/

namespace Cilly

open Node List

/-! ## The instructions of an expression -/

/-- A property of every instruction that an expression with such leaves may have, at a place where names stand for what
they do. -/
structure Names.Every (c : Names) (primitives : List String) (tokens : List Token) (P : Instr → Prop) : Prop where
  loading : ∀ x, P (c.loading primitives x)
  literal : ∀ {kind : LiteralKind} {d : Datum}, ⟨kind.tag, d⟩ ∈ tokens → P (Layout.loadingLiteral kind [d])
  calling : ∀ {callee : Node}, leaves callee ⊆ tokens → P (c.calling primitives callee)
  plain : ∀ op, P (.plain op)
  branch : ∀ op target, P (.branch op target)
  jump : ∀ target, P (.jump target)
  refused : P .refused

namespace Names.Every

variable {c : Names} {prims : List String} {tokens : List Token} {P : Instr → Prop} {shape : List Mark}

theorem applyingUnary (h : c.Every prims tokens P) (op : Datum) : P (Layout.applyingUnary op) := by
  unfold Layout.applyingUnary
  split
  · exact h.plain _
  · exact h.refused

theorem applyingBinary (h : c.Every prims tokens P) (op : Datum) : P (Layout.applyingBinary op) := by
  unfold Layout.applyingBinary
  split
  · exact h.plain _
  · exact h.refused

mutual

theorem expression (h : c.Every prims tokens P) : ∀ {e : Node}, IsExpr e → leaves e ⊆ tokens → ∀ start,
    ∀ x ∈ Layout.expression prims shape c start e, P x.instr
  | _, .name x, _, start => by
    rw [Layout.expression]
    exact forall_mem_singleton.mpr (h.loading x)
  | _, .literal kind d, hleaves, start => by
    rw [Layout.expression]
    exact forall_mem_singleton.mpr (h.literal (hleaves (mem_singleton_self _)))
  | _, .unary he, hleaves, start => by
    rw [leaves] at hleaves
    rw [Layout.expression]
    exact forall_mem_append.mpr
      ⟨h.expression he hleaves start, forall_mem_singleton.mpr (h.applyingUnary _)⟩
  | _, @IsExpr.binary op l r hl hr, hleaves, start => by
    rw [leaves] at hleaves
    obtain ⟨hleft, hright⟩ := append_subset.mp hleaves
    have hl := h.expression hl hleft
    have hr := h.expression hr hright
    rw [Layout.expression]
    cases CompileM.shortcutOf? op with
    | some pair =>
      exact forall_mem_append.mpr ⟨hl start, forall_mem_cons.mpr ⟨h.branch _ _, forall_mem_append.mpr
        ⟨hr _, forall_mem_cons.mpr ⟨h.jump _, forall_mem_singleton.mpr (h.plain _)⟩⟩⟩⟩
    | none =>
      cases CompileM.swappedOf? op with
      | some o =>
        exact forall_mem_append.mpr
          ⟨hr start, forall_mem_append.mpr ⟨hl _, forall_mem_singleton.mpr (h.plain _)⟩⟩
      | none =>
        exact forall_mem_append.mpr
          ⟨hl start, forall_mem_append.mpr ⟨hr _, forall_mem_singleton.mpr (h.applyingBinary op)⟩⟩
  | _, .call _ hargs, hleaves, start => by
    rw [leaves] at hleaves
    obtain ⟨hcallee, hrest⟩ := append_subset.mp hleaves
    rw [Layout.expression]
    exact forall_mem_append.mpr
      ⟨h.arguments hargs hrest start, forall_mem_singleton.mpr (h.calling hcallee)⟩
  | _, .function _ _, _, start => by
    rw [Layout.expression]
    · exact forall_mem_singleton.mpr h.refused
    all_goals simp

theorem arguments (h : c.Every prims tokens P) : ∀ {es : List Node}, AreExprs es → leavesAll es ⊆ tokens →
    ∀ start, ∀ x ∈ Layout.arguments prims shape c start es, P x.instr
  | _, .nil, _, start => by simp [Layout.arguments]
  | _, .cons he hes, hleaves, start => by
    rw [leavesAll] at hleaves
    obtain ⟨hfirst, hrest⟩ := append_subset.mp hleaves
    rw [Layout.arguments]
    exact forall_mem_append.mpr ⟨h.arguments hes hrest start, h.expression he hfirst _⟩

end

theorem printed (h : c.Every prims tokens P) {es : List Node} (hes : AreExprs es) (hleaves : leavesAll es ⊆ tokens)
    (start : Nat) : ∀ x ∈ Layout.printed prims shape c start es, P x.instr := by
  induction es generalizing start with
  | nil => simp [Layout.printed]
  | cons e es ih =>
    obtain _ | ⟨he, hes⟩ := hes
    rw [leavesAll] at hleaves
    obtain ⟨hfirst, hrest⟩ := append_subset.mp hleaves
    rw [Layout.printed]
    exact forall_mem_append.mpr
      ⟨h.expression he hfirst start, forall_mem_cons.mpr ⟨h.plain _, ih hes hrest _⟩⟩

theorem before (h : c.Every prims tokens P) {e : Node} (he : IsExpr e) (hleaves : leaves e ⊆ tokens) {start : Nat}
    {last : Spot} (hlast : P last.instr) : ∀ x ∈ Layout.expression prims shape c start e ++ [last], P x.instr :=
  forall_mem_append.mpr ⟨h.expression he hleaves start, forall_mem_singleton.mpr hlast⟩

end Names.Every

/-! ## Bounds -/

/-- The constants of code: literals and names of the tokens, and indices of functions. -/
inductive Datum.Drawn (tokens : List Token) (bound : Nat) : Datum → Prop
  | number {d : Datum} : ⟨"num", d⟩ ∈ tokens → Drawn tokens bound (Node.form "num" [d])
  | text {d : Datum} : ⟨"str", d⟩ ∈ tokens → Drawn tokens bound (Node.form "str" [d])
  | index {id : Nat} : id ≤ bound → Drawn tokens bound (.number (.int id))
  | name {x : Datum} : ⟨"id", x⟩ ∈ tokens → Drawn tokens bound (.string x)

/-- The operands of an instruction stay within a bound, whereby its constant is one of the tokens. -/
def Instr.Within (tokens : List Token) (bound : Nat) : Instr → Prop
  | .const c => c.Drawn tokens bound
  | .primitive x => ⟨"id", x⟩ ∈ tokens
  | .load depth index | .store depth index => depth.natAbs ≤ bound ∧ index.natAbs ≤ bound
  | .enter n | .call n => n ≤ bound
  | _ => True

theorem Instr.Within.drawn {tokens : List Token} {bound : Nat} {instr : Instr} (h : instr.Within tokens bound)
    {c : Datum} (hc : instr.constant? = some c) : c.Drawn tokens bound := by
  cases instr with
  | const =>
    cases hc
    exact h
  | primitive =>
    cases hc
    exact .name h
  | _ => cases hc

/-- The number of open scopes and of the names in them. -/
def span (visible : List (Array Datum)) : Nat := visible.length + (visible.map Array.size).sum

theorem size_le_span {visible : List (Array Datum)} {names : Array Datum} (h : names ∈ visible) :
    names.size ≤ span visible :=
  Nat.le_trans (le_sum_of_mem (mem_map_of_mem h)) (Nat.le_add_left ..)

/-- There is room for what so many tokens may come to. -/
def Point.Room (s : Point) (bound more : Nat) : Prop :=
  s.here + 6 * more ≤ bound ∧ span s.visible + more ≤ bound ∧ s.routines.size + more ≤ bound

namespace Names

variable {c : Names} {prims : List String} {bound : Nat} {tokens : List Token}

theorem slot_le (h : span c.visible ≤ bound) : c.slot ≤ bound := by
  refine Nat.le_trans ?_ h
  unfold slot innermost
  cases hvisible : c.visible with
  | nil => exact Nat.zero_le _
  | cons top outer => exact size_le_span (mem_cons_self ..)

theorem storing_within (h : span c.visible ≤ bound) (x : Datum) : (c.storing x).Within tokens bound := by
  unfold storing
  split
  · exact ⟨Nat.zero_le _, slot_le h⟩
  · exact trivial

theorem routineIndex?_le (h : c.routines.size ≤ bound) {x : Datum} {id : Nat} (hid : c.routineIndex? x = some id) :
    id ≤ bound := by
  obtain ⟨hlt, -⟩ := Array.findIdx?_eq_some_iff_getElem.mp hid
  exact Nat.le_trans (Nat.le_of_lt hlt) h

theorem routineFor_le (h : c.routines.size ≤ bound) (x : Datum) : c.routineFor x ≤ bound := by
  unfold routineFor
  cases hid : c.routineIndex? x with
  | some id => exact routineIndex?_le h hid
  | none => exact h

/-- A name that stands for no function is loaded and stored with small operands. -/
theorem operands_le (h : span c.visible ≤ bound) (hprimitives : prims.length + 2 ≤ bound) {x : Datum} {place : Place}
    (hplace : c.place? prims x = some place) (hne : ∀ id, place ≠ .routine id) :
    place.operands.1.natAbs ≤ bound ∧ place.operands.2.natAbs ≤ bound := by
  rcases place?_cases hplace with ⟨d, i, rfl, hfind⟩ | ⟨-, ⟨id, rfl, -⟩ | ⟨-, i, rfl, hprovided⟩⟩
  · obtain ⟨names, y, hnames, hy, -⟩ := find?_eq_some hfind
    obtain ⟨hd, -⟩ := List.getElem?_eq_some_iff.mp hnames
    obtain ⟨hi, -⟩ := Array.getElem?_eq_some_iff.mp hy
    have hsize := size_le_span (mem_of_getElem? hnames)
    have hlength : c.visible.length ≤ span c.visible := Nat.le_add_right ..
    show d ≤ bound ∧ i ≤ bound
    omega
  · exact absurd rfl (hne id)
  · obtain ⟨hlt, -⟩ := findIdx?_eq_some_iff_getElem.mp hprovided
    show 2 ≤ bound ∧ i ≤ bound
    omega

theorem assigning_within (h : span c.visible ≤ bound) (hprimitives : prims.length + 2 ≤ bound) (x : Datum) :
    (c.assigning prims x).Within tokens bound := by
  unfold assigning
  cases hplace : c.place? prims x with
  | none => exact trivial
  | some place =>
    cases place with
    | routine id => exact trivial
    | «variable» | primitive => exact operands_le h hprimitives hplace (by simp)

/-- Whatever the expression is, its instructions stay within the bound. -/
theorem every_within (h : span c.visible ≤ bound) (hroutines : c.routines.size ≤ bound)
    (hprimitives : prims.length + 2 ≤ bound) : c.Every prims tokens (Instr.Within tokens bound) where
  loading x := by
    unfold loading
    cases hplace : c.place? prims x with
    | none => exact trivial
    | some place =>
      cases place with
      | routine id =>
        rcases place?_cases hplace with ⟨_, _, ⟨⟩, -⟩ | ⟨-, ⟨_, ⟨⟩, hid⟩ | ⟨-, _, ⟨⟩, -⟩⟩
        exact .index (routineIndex?_le hroutines hid)
      | «variable» | primitive => exact operands_le h hprimitives hplace (by simp)
  literal {kind d} hmem := by
    cases kind with
    | num => exact .number hmem
    | str => exact .text hmem
    | _ => exact trivial
  calling {callee} hleaves := by
    unfold calling
    split
    · split
      · rename_i hid
        exact routineIndex?_le hroutines hid
      · split
        · exact hleaves (mem_singleton_self _)
        · exact trivial
    · exact trivial
  plain _ := trivial
  branch _ _ := trivial
  jump _ := trivial
  refused := trivial

end Names

namespace Point.Room

variable {s : Point} {bound more less : Nat}

theorem mono (h : s.Room bound more) (hle : less ≤ more) : s.Room bound less := by
  unfold Point.Room at *
  omega

theorem skip (h : s.Room bound more) {n : Nat} (hle : n + 6 * less ≤ 6 * more) : (s.skip n).Room bound less := by
  simp only [Point.Room, Point.skip] at *
  omega

theorem inBlock (h : s.Room bound (more + 1)) : s.inBlock.Room bound more := by
  simp only [Point.Room, Point.inBlock, span, length_cons, map_cons, sum_cons, size_toArray,
    length_nil] at *
  omega

theorem declare (h : s.Room bound (more + 1)) (x : Datum) : (s.declare x).Room bound more := by
  unfold Point.declare
  cases hvisible : s.visible with
  | nil => exact h.mono (Nat.le_succ _)
  | cons top outer =>
    simp only [Point.Room, span, hvisible, length_cons, map_cons, sum_cons, Array.size_push] at *
    omega

theorem inFunction {x : Datum} {params : List Datum} (h : s.Room bound (params.length + (more + 1))) :
    (s.inFunction x params).Room bound more := by
  have hdefined : (s.define x params (s.here + 2)).size ≤ s.routines.size + 1 := by
    unfold Names.define
    dsimp only
    rw [Array.size_modify]
    split
    · omega
    · rw [Array.size_push]
  simp only [Point.Room, Point.inFunction, span, length_cons, map_cons, sum_cons, length_nil,
    map_nil, sum_nil, size_toArray] at *
  omega

theorem back (h : s.Room bound more) {last : Point} (hlast : last.Room bound (less + 1)) (hle : less ≤ more) {n : Nat}
    (hn : n ≤ 6) : Point.Room { here := last.here + n, visible := s.visible, routines := last.routines } bound less := by
  simp only [Point.Room] at *
  omega

variable {prims : List String} {tokens : List Token}

theorem every (h : s.Room bound more) (hprimitives : prims.length + 2 ≤ bound) :
    s.toNames.Every prims tokens (Instr.Within tokens bound) :=
  Names.every_within (Nat.le_of_add_right_le h.2.1) (Nat.le_of_add_right_le h.2.2) hprimitives

theorem storing (h : s.Room bound more) (x : Datum) : (s.storing x).Within tokens bound :=
  Names.storing_within (Nat.le_of_add_right_le h.2.1) x

end Point.Room

namespace Layout

section

variable (prims : List String) (c : Names)

mutual

theorem width_lt : ∀ {e : Node}, IsExpr e → width prims c e < 6 * bulk e
  | _, .name x => by
    rw [width, bulk]
    split <;> decide
  | _, .literal kind d => by
    rw [bulk]
    cases kind <;> rw [width] <;> simp
  | _, .unary he => by
    have := width_lt he
    rw [width, bulk]
    omega
  | _, .binary hl hr => by
    have := width_lt hl
    have := width_lt hr
    rw [width, bulk]
    split <;> omega
  | _, .call _ hargs => by
    have := widths_le hargs
    rw [width, bulk]
    omega
  | _, .function xs hbody => by
    rw [width, bulk]
    · omega
    all_goals simp

theorem widths_le : ∀ {es : List Node}, AreExprs es → widths prims c es ≤ 6 * bulkAll es
  | _, .nil => Nat.le_refl 0
  | _, .cons he hes => by
    have := width_lt he
    have := widths_le hes
    rw [widths, bulkAll]
    omega

end

theorem printedWidth_le {es : List Node} (hes : AreExprs es) : printedWidth prims c es ≤ 6 * bulkAll es := by
  induction es with
  | nil => exact Nat.le_refl 0
  | cons e es ih =>
    obtain _ | ⟨he, hes⟩ := hes
    have := width_lt prims c he
    have := ih hes
    rw [printedWidth, bulkAll]
    omega

end

section

variable {prims : List String} {tokens : List Token} {bound : Nat}

/-- Instructions stay within the bound, and there is room behind them. -/
def Keeps (tokens : List Token) (bound : Nat) (spots : List Spot) (last : Point) (more : Nat) : Prop :=
  (∀ x ∈ spots, x.instr.Within tokens bound) ∧ last.Room bound more

theorem block_keeps {body : List Node} {shape : List Mark} {s : Point} {more : Nat} (h : s.Room bound more)
    (hbody : Keeps tokens bound (statements prims (.block :: shape) s.inBlock body)
      (nextAll prims s.inBlock body) (more + 1)) :
    Keeps tokens bound (statement prims shape s (.block body)) (next prims s (.block body)) more := by
  obtain ⟨hinside, hlast⟩ := hbody
  rw [statement, next]
  refine ⟨forall_mem_cons.mpr ⟨?_, forall_mem_append.mpr ⟨hinside, forall_mem_singleton.mpr trivial⟩⟩, ?_⟩
  · exact Names.slot_le (Nat.le_of_add_right_le hlast.2.1)
  · exact h.back hlast (Nat.le_refl _) (by decide)

mutual

/-- A statement that there is room for stays within the bound, and leaves as much room as it was not meant to take. -/
theorem statement_keeps (hprimitives : prims.length + 2 ≤ bound) : ∀ {n : Node}, IsStat n → leaves n ⊆ tokens →
    ∀ (shape : List Mark) (s : Point) (more : Nat), s.Room bound (bulk n + more) →
    Keeps tokens bound (statement prims shape s n) (next prims s n) more
  | _, .exprStat he, hleaves, shape, s, more, hroom => by
    have hwidth := width_lt prims s.toNames he
    rw [leaves] at hleaves
    rw [bulk] at hroom
    rw [statement, next]
    exact ⟨(hroom.every hprimitives).before he hleaves trivial, hroom.skip (by omega)⟩
  | _, .print hargs, hleaves, shape, s, more, hroom => by
    have hwidth := printedWidth_le prims s.toNames hargs
    rw [leaves] at hleaves
    rw [bulk] at hroom
    rw [statement, next]
    exact ⟨forall_mem_append.mpr ⟨(hroom.every hprimitives).printed hargs hleaves _,
      forall_mem_singleton.mpr trivial⟩, hroom.skip (by omega)⟩
  | _, @IsStat.ifThen cond yes hcond hyes, hleaves, shape, s, more, hroom => by
    have hwidth := width_lt prims s.toNames hcond
    rw [leaves] at hleaves
    rw [bulk] at hroom
    obtain ⟨hfirst, hrest⟩ := append_subset.mp hleaves
    have hinside : (s.skip (width prims s.toNames cond + 2)).Room bound (bulk yes + more) := hroom.skip (by omega)
    obtain ⟨hyes, hlast⟩ := statement_keeps hprimitives hyes hrest shape _ more hinside
    rw [statement, next]
    exact ⟨forall_mem_append.mpr ⟨(hroom.every hprimitives).expression hcond hfirst _,
      forall_mem_cons.mpr ⟨trivial, hyes⟩⟩, hlast⟩
  | _, @IsStat.ifElse cond yes no hcond hyes hno, hleaves, shape, s, more, hroom => by
    have hwidth := width_lt prims s.toNames hcond
    rw [leaves] at hleaves
    rw [bulk] at hroom
    obtain ⟨hfirst, hrest⟩ := append_subset.mp hleaves
    obtain ⟨hsecond, hthird⟩ := append_subset.mp hrest
    have hinside : (s.skip (width prims s.toNames cond + 2)).Room bound (bulk yes + (bulk no + more + 1)) :=
      hroom.skip (by omega)
    obtain ⟨hyes, hmiddle⟩ := statement_keeps hprimitives hyes hsecond shape _ _ hinside
    have hother : (Point.skip _ 2).Room bound (bulk no + more) := hmiddle.skip (by omega)
    obtain ⟨hno, hlast⟩ := statement_keeps hprimitives hno hthird shape _ more hother
    rw [statement, next]
    exact ⟨forall_mem_append.mpr ⟨(hroom.every hprimitives).expression hcond hfirst _,
      forall_mem_cons.mpr ⟨trivial, forall_mem_append.mpr
        ⟨hyes, forall_mem_cons.mpr ⟨trivial, hno⟩⟩⟩⟩, hlast⟩
  | _, @IsStat.loop cond body hcond hbody, hleaves, shape, s, more, hroom => by
    have hwidth := width_lt prims s.toNames hcond
    rw [leaves] at hleaves
    rw [bulk] at hroom
    obtain ⟨hfirst, hrest⟩ := append_subset.mp hleaves
    have hinside : (s.skip (width prims s.toNames cond + 2)).Room bound (bulk body + (more + 1)) :=
      hroom.skip (by omega)
    have hbody := fun shape => statement_keeps hprimitives hbody hrest shape _ _ hinside
    rw [statement, next]
    exact ⟨forall_mem_append.mpr ⟨(hroom.every hprimitives).expression hcond hfirst _,
      forall_mem_cons.mpr ⟨trivial, forall_mem_append.mpr
        ⟨(hbody _).1, forall_mem_singleton.mpr trivial⟩⟩⟩, (hbody []).2.skip (by omega)⟩
  | _, .breakLoop, _, shape, s, more, hroom => by
    rw [bulk] at hroom
    rw [statement, next]
    refine ⟨?_, hroom.skip (by omega)⟩
    split <;> exact forall_mem_singleton.mpr trivial
  | _, .continueLoop, _, shape, s, more, hroom => by
    rw [bulk] at hroom
    rw [statement, next]
    refine ⟨?_, hroom.skip (by omega)⟩
    split <;> exact forall_mem_singleton.mpr trivial
  | _, @IsStat.block body hbody, hleaves, shape, s, more, hroom => by
    rw [leaves] at hleaves
    rw [bulk] at hroom
    have hinside : s.inBlock.Room bound (bulkAll body + (more + 1)) := .inBlock (hroom.mono (by omega))
    exact block_keeps (hroom.mono (by omega)) (statements_keeps hprimitives hbody hleaves _ _ _ hinside)
  | _, @IsStat.function x xs body hbody, hleaves, shape, s, more, hroom => by
    have hleaves : leavesAll body ⊆ tokens := by
      intro t ht
      refine hleaves ?_
      rw [leaves, leaves, leaves]
      exact mem_cons_of_mem _ (mem_append_right _ ht)
    rw [bulk, bulk, bulk] at hroom
    have hfunction : (s.inFunction x xs).Room bound (bulkAll body + (more + 1 + 1 + 1) + 1) :=
      .inFunction (hroom.mono (by omega))
    have hblock := block_keeps (hfunction.mono (by omega))
      (statements_keeps hprimitives hbody hleaves (.block :: .function :: shape) _ _ hfunction.inBlock)
    rw [statement_function, next_function]
    refine ⟨forall_mem_cons.mpr ⟨trivial, forall_mem_append.mpr ⟨hblock.1, forall_mem_cons.mpr ⟨trivial,
      forall_mem_cons.mpr ⟨.index ?_, forall_mem_singleton.mpr (hroom.storing x)⟩⟩⟩⟩, ?_⟩
    · exact Names.routineFor_le (Nat.le_of_add_right_le hroom.2.2) x
    · exact (hroom.back hblock.2 (by omega) (by decide)).declare x
  | _, @IsStat.define x value hvalue hne, hleaves, shape, s, more, hroom => by
    have hwidth := width_lt prims s.toNames hvalue
    rw [leaves] at hleaves
    rw [bulk] at hroom
    have hbehind : (s.skip (width prims s.toNames value + 3)).Room bound (more + 1) := hroom.skip (by omega)
    rw [statement_variable prims hne, next_variable prims hne]
    exact ⟨(hroom.every hprimitives).before hvalue (subset_of_cons_subset hleaves) (hroom.storing x),
      hbehind.declare x⟩
  | _, .assign x hvalue, hleaves, shape, s, more, hroom => by
    have hwidth := width_lt prims s.toNames hvalue
    rw [leaves] at hleaves
    rw [bulk] at hroom
    rw [statement, next]
    refine ⟨(hroom.every hprimitives).before hvalue (subset_of_cons_subset hleaves) ?_, hroom.skip (by omega)⟩
    exact Names.assigning_within (Nat.le_of_add_right_le hroom.2.1) hprimitives x
  | _, .return, _, shape, s, more, hroom => by
    rw [bulk] at hroom
    rw [statement, next]
    refine ⟨forall_mem_singleton.mpr ?_, hroom.skip (by omega)⟩
    dsimp only
    split <;> exact trivial
  | _, .returnValue hvalue, hleaves, shape, s, more, hroom => by
    have hwidth := width_lt prims s.toNames hvalue
    rw [leaves] at hleaves
    rw [bulk] at hroom
    rw [statement, next]
    refine ⟨(hroom.every hprimitives).before hvalue hleaves ?_, hroom.skip (by omega)⟩
    dsimp only
    split <;> exact trivial

theorem statements_keeps (hprimitives : prims.length + 2 ≤ bound) : ∀ {ns : List Node}, AreStats ns →
    leavesAll ns ⊆ tokens → ∀ (shape : List Mark) (s : Point) (more : Nat), s.Room bound (bulkAll ns + more) →
    Keeps tokens bound (statements prims shape s ns) (nextAll prims s ns) more
  | _, .nil, _, shape, s, more, hroom => by
    rw [statements, nextAll]
    exact ⟨forall_mem_nil _, hroom.mono (Nat.le_add_left ..)⟩
  | _, @AreStats.cons n ns hn hns, hleaves, shape, s, more, hroom => by
    rw [leavesAll] at hleaves
    rw [bulkAll, Nat.add_assoc] at hroom
    obtain ⟨hfirst, hrest⟩ := append_subset.mp hleaves
    obtain ⟨hn, hnext⟩ := statement_keeps hprimitives hn hfirst shape s _ hroom
    obtain ⟨hns, hlast⟩ := statements_keeps hprimitives hns hrest shape _ more hnext
    rw [statements, nextAll]
    exact ⟨forall_mem_append.mpr ⟨hn, hns⟩, hlast⟩

end

end

mutual

theorem length_registered_le : ∀ {n : Node}, IsStat n → (registered n).length ≤ bulk n
  | _, .block hbody => by
    rw [registered, bulk]
    exact Nat.le_add_right_of_le (length_registeredAll_le hbody)
  | _, .function x xs hbody => by
    rw [registered, bulk]
    exact Nat.le_add_left ..
  | _, .define x hvalue hne => by
    rw [registered]
    · exact Nat.zero_le _
    · exact hne
  | _, .exprStat _ | _, .print _ | _, .ifThen _ _ | _, .ifElse _ _ _ | _, .loop _ _ | _, .breakLoop | _, .continueLoop
  | _, .assign _ _ | _, .return | _, .returnValue _ => Nat.zero_le _

theorem length_registeredAll_le : ∀ {ns : List Node}, AreStats ns → (registeredAll ns).length ≤ bulkAll ns
  | _, .nil => Nat.le_refl 0
  | _, .cons hn hns => by
    rw [registeredAll, bulkAll, length_append]
    exact Nat.add_le_add (length_registered_le hn) (length_registeredAll_le hns)

end

/-- What bounds the numbers in the code of a program. -/
def bound (primitives : List String) (body : List Node) : Nat := 6 * (bulkAll body + 2) + primitives.length

/-- **The instructions of a program stay within the bound, and so does the address after them.** -/
theorem program_within (prims : List String) {body : List Node} (hbody : AreStats body) :
    (∀ x ∈ program prims body, x.instr.Within (leavesAll body) (bound prims body)) ∧
      (finish prims body).here ≤ bound prims body := by
  have hregistered := length_registeredAll_le hbody
  have hprimitives : prims.length + 2 ≤ bound prims body := by
    unfold bound
    omega
  have horigin : (origin body).Room (bound prims body) (bulk (.block body) + 0) := by
    simp only [Point.Room, origin, bound, bulk, span, length_cons, map_cons, sum_cons, length_nil,
      map_nil, sum_nil, size_toArray]
    omega
  have hleaves : leaves (.block body) ⊆ leavesAll body := by
    rw [leaves]
    exact Subset.refl _
  obtain ⟨hwithin, hlast⟩ := statement_keeps hprimitives (.block hbody) hleaves [] (origin body) 0 horigin
  exact ⟨hwithin, hlast.1⟩

end Layout

end Cilly
