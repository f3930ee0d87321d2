import Cilly.Proofs.Scenes

/-!
# What names stand for

A variable is found where its name was declared: the scope that an instruction refers to has the name at the index that
it refers to (`View.Has`). And a function that is called is found by its name in the table that compilation ends
with. `program_fits` says so of every instruction of a program. A primitive may be used as if it were a variable; then
there is no such scope.
-/

namespace Cilly

open Node Names
open List hiding set

variable {x : Datum}

namespace Node

mutual

/-- The names that are read or assigned as variables. -/
def uses : Node → List Datum
  | .name x => [x]
  | .unary _ e => uses e
  | .binary _ l r => uses l ++ uses r
  | .call _ args => usesAll args
  | .exprStat e => uses e
  | .print args => usesAll args
  | .ifThen cond yes => uses cond ++ uses yes
  | .ifElse cond yes no => uses cond ++ (uses yes ++ uses no)
  | .loop cond body => uses cond ++ uses body
  | .block body => usesAll body
  | .define _ value => uses value
  | .function _ body => uses body
  | .assign x value => x :: uses value
  | .returnValue value => uses value
  | _ => []

def usesAll : List Node → List Datum
  | [] => []
  | n :: ns => uses n ++ usesAll ns

end

end Node

/-- The scope so many scopes out has a name at an index. -/
def View.Has (view : View) (depth index : Int) (x : Datum) : Prop :=
  ∃ (d i : Nat) (o : Open), depth = d ∧ index = i ∧ view.scopes[d]? = some o ∧ o.names[i]? = some x

/-- The name is that of a primitive, whose number stands where the index of a variable would. -/
def Provides (primitives : List String) (depth index : Int) (x : Datum) : Prop :=
  ∃ p ∈ primitives, (Datum.text p).eq x = true ∧ depth = -2 ∧ ∃ i : Nat, index = i ∧ primitives[i]? = some p

/-- What an instruction refers to: a variable where its name was declared, or a primitive that is used as one; a function
that the table has under its name, with the arguments that are passed on top of the stack; one of the primitives. -/
def Scene.Fits (primitives : List String) (used : List Datum) (table : Array Routine) (x : Scene) : Prop :=
  match x.instr with
  | .load depth index | .store depth index =>
    ∃ y, x.subject = .variable y ∧ (x.view.Has depth index y ∨ y ∈ used ∧
      ((∃ z, z.eq y = true ∧ x.view.Has depth index z) ∨ Provides primitives depth index y))
  | .call id =>
    ∃ c start y args, x.subject = .call c start (Node.name y) args ∧
      routineIndex? ⟨[], table⟩ y = some id ∧ ∃ below, x.view.ends = Layout.ends primitives c start args ++ below
  | .primitive y => (∃ c start args, x.subject = .call c start (Node.name y) args) ∧
    ∃ p ∈ primitives, (Datum.text p).eq y = true
  | _ => True

/-- Open scopes have at least the names that are visible. -/
def Covers (scopes : List Open) (visible : List (Array Datum)) : Prop :=
  ∀ (d : Nat) (names : Array Datum) (i : Nat) (x : Datum), visible[d]? = some names → names[i]? = some x →
    ∃ o, scopes[d]? = some o ∧ o.names[i]? = some x

namespace Covers

variable {scopes : List Open} {visible : List (Array Datum)}

theorem of_extended {names : List Datum} (h : Covers scopes (extended visible names)) : Covers scopes visible := by
  intro d found i x hfound hx
  cases visible with
  | nil => simp at hfound
  | cons top outer =>
    cases d with
    | zero =>
      rw [← Option.some.inj hfound] at hx
      refine h 0 (top ++ names.toArray) i x rfl ?_
      rw [Array.getElem?_append_left (Array.getElem?_eq_some_iff.mp hx).1]
      exact hx
    | succ d => exact h (d + 1) found i x hfound hx

theorem cons (h : Covers scopes visible) (inside : Nat) (names : List Datum) :
    Covers (⟨inside, names⟩ :: scopes) (extended (#[] :: visible) names) := by
  intro d found i x hfound hx
  cases d with
  | zero =>
    cases hfound
    exact ⟨_, rfl, by simpa using hx⟩
  | succ d => exact h d found i x hfound hx

theorem parameters (inside : Nat) (names : List Datum) : Covers [⟨inside, names⟩] [names.toArray] := by
  intro d found i x hfound hx
  cases d with
  | zero =>
    cases hfound
    exact ⟨_, rfl, by simpa using hx⟩
  | succ d => simp at hfound

end Covers

theorem find?_eq_some : ∀ {visible : List (Array Datum)} {d i : Nat},
    Assembly.find? x visible = some (d, i) → ∃ names y, visible[d]? = some names ∧ names[i]? = some y ∧ y.eq x = true
  | [], d, i, h => by simp [Assembly.find?] at h
  | names :: outer, d, i, h => by
    rw [Assembly.find?] at h
    cases hindex : nameIndex? names x with
    | some j =>
      rw [hindex] at h
      cases h
      obtain ⟨hlt, heq, -⟩ := Array.findIdx?_eq_some_iff_getElem.mp hindex
      exact ⟨names, _, rfl, Array.getElem?_eq_getElem hlt, heq⟩
    | none =>
      rw [hindex] at h
      cases hfind : Assembly.find? x outer with
      | none => simp [hfind] at h
      | some place =>
        rw [hfind] at h
        cases h
        obtain ⟨names', y, hnames, hy, heq⟩ := find?_eq_some hfind
        exact ⟨names', y, by simpa using hnames, hy, heq⟩

namespace Names

variable {c : Names} {prims : List String} {x : Datum} {place : Place}

/-- How a name is resolved: as a variable, else as a function, else as a primitive. -/
theorem place?_cases (h : c.place? prims x = some place) :
    (∃ depth index, place = .variable depth index ∧ Assembly.find? x c.visible = some (depth, index)) ∨
      Assembly.find? x c.visible = none ∧ ((∃ id, place = .routine id ∧ c.routineIndex? x = some id) ∨
        c.routineIndex? x = none ∧
          ∃ index, place = .primitive index ∧ (prims.findIdx? fun p => (Datum.text p).eq x) = some index) := by
  unfold place? at h
  cases hfind : Assembly.find? x c.visible with
  | some found =>
    rw [hfind] at h
    cases h
    exact Or.inl ⟨found.1, found.2, rfl, rfl⟩
  | none =>
    rw [hfind] at h
    refine Or.inr ⟨rfl, ?_⟩
    cases hindex : c.routineIndex? x with
    | some id =>
      rw [hindex] at h
      cases h
      exact Or.inl ⟨id, rfl, rfl⟩
    | none =>
      rw [hindex] at h
      obtain ⟨index, hprovided, rfl⟩ := Option.map_eq_some_iff.mp h
      exact Or.inr ⟨rfl, index, rfl, hprovided⟩

theorem provides_of_findIdx? {index : Nat} (h : (prims.findIdx? fun p => (Datum.text p).eq x) = some index) :
    Provides prims (-2) index x := by
  obtain ⟨hlt, heq, -⟩ := findIdx?_eq_some_iff_getElem.mp h
  exact ⟨prims[index], getElem_mem hlt, heq, rfl, index, rfl, getElem?_eq_getElem hlt⟩

/-- A name that stands for no function is a variable or a primitive. -/
theorem has_of_place? (view : View) (hplace : c.place? prims x = some place) (hne : ∀ id, place ≠ .routine id)
    (hcovers : Covers view.scopes c.visible) :
    (∃ z, z.eq x = true ∧ view.Has place.operands.1 place.operands.2 z) ∨
      Provides prims place.operands.1 place.operands.2 x := by
  rcases place?_cases hplace with ⟨d, i, rfl, hfind⟩ | ⟨-, ⟨id, rfl, -⟩ | ⟨-, i, rfl, hprovided⟩⟩
  · obtain ⟨names, y, hnames, hy, heq⟩ := find?_eq_some hfind
    obtain ⟨o, ho, hname⟩ := hcovers _ _ _ _ hnames hy
    exact Or.inl ⟨y, heq, d, i, o, rfl, rfl, ho, hname⟩
  · exact absurd rfl (hne id)
  · exact Or.inr (provides_of_findIdx? hprovided)

end Names

namespace Layout

variable (prims : List String) {used : List Datum} {table : Array Routine}

section

variable {set : Setting} {c : Names} {start : Nat} {ends : List Nat}

theorem loading_fits (hcovers : Covers set.scopes c.visible) (hused : x ∈ used) :
    (set.scene start (c.loading prims x) ends (.variable x)).Fits prims used table := by
  unfold loading
  cases hplace : c.place? prims x with
  | none => exact trivial
  | some place =>
    have hhas := fun hne => And.intro hused (has_of_place? (set.view ends) hplace hne hcovers)
    cases place with
    | routine id => exact trivial
    | «variable» d i => exact ⟨x, rfl, Or.inr (hhas (by simp))⟩
    | primitive i => exact ⟨x, rfl, Or.inr (hhas (by simp))⟩

theorem assigning_fits (hcovers : Covers set.scopes c.visible) (hused : x ∈ used) :
    (set.scene start (c.assigning prims x) ends (.variable x)).Fits prims used table := by
  unfold assigning
  cases hplace : c.place? prims x with
  | none => exact trivial
  | some place =>
    have hhas := fun hne => And.intro hused (has_of_place? (set.view ends) hplace hne hcovers)
    cases place with
    | routine id => exact trivial
    | «variable» d i => exact ⟨x, rfl, Or.inr (hhas (by simp))⟩
    | primitive i => exact ⟨x, rfl, Or.inr (hhas (by simp))⟩

theorem storing_fits (hopen : c.visible ≠ []) (hcovers : Covers set.scopes (extended c.visible [x])) :
    (set.scene start (c.storing x) ends (.variable x)).Fits prims used table := by
  unfold storing
  split
  · cases hvisible : c.visible with
    | nil => exact absurd hvisible hopen
    | cons top outer =>
      rw [hvisible] at hcovers
      obtain ⟨o, ho, hname⟩ := hcovers 0 (top ++ #[x]) top.size x rfl (by simp)
      have hslot : c.slot = top.size := by simp [slot, innermost, hvisible]
      exact ⟨x, rfl, Or.inl ⟨0, top.size, o, rfl, by rw [hslot], ho, hname⟩⟩
  · exact trivial

theorem calling_fits {callee : Node} {args : List Node} {first : Nat} {below : List Nat}
    (hgrown : Grown c.routines table) :
    (set.scene start (c.calling prims callee) (Layout.ends prims c first args ++ below)
      (.call c first callee args)).Fits prims used table := by
  unfold calling
  split
  · split
    · rename_i hindex
      exact ⟨c, first, _, args, rfl, hgrown.routineIndex? hindex, below, rfl⟩
    · split
      · rename_i hplace
        rcases place?_cases hplace with ⟨_, _, ⟨⟩, -⟩ | ⟨-, ⟨_, ⟨⟩, -⟩ | ⟨-, _, ⟨⟩, hprovided⟩⟩
        obtain ⟨p, hp, heq, -⟩ := provides_of_findIdx? hprovided
        exact ⟨⟨c, first, args, rfl⟩, p, hp, heq⟩
      · exact trivial
  · exact trivial

theorem loadingLiteral_fits {kind : LiteralKind} {fields : List Datum} :
    (set.scene start (loadingLiteral kind fields) ends .none).Fits prims used table := by
  cases kind <;> exact trivial

theorem applyingUnary_fits {op : Datum} :
    (set.scene start (applyingUnary op) ends .none).Fits prims used table := by
  unfold applyingUnary
  split <;> exact trivial

theorem applyingBinary_fits {op : Datum} :
    (set.scene start (applyingBinary op) ends .none).Fits prims used table := by
  unfold applyingBinary
  split <;> exact trivial

end

section

variable (set : Setting) {c : Names}

mutual

theorem expression_fits (hcovers : Covers set.scopes c.visible) (hgrown : Grown c.routines table) : ∀ {e : Node},
    IsExpr e → uses e ⊆ used → ∀ (below : List Nat) (start : Nat),
    ∀ x ∈ expressionScenes prims set c below start e, x.Fits prims used table
  | _, .name x, hused, below, start => by
    rw [expressionScenes]
    exact forall_mem_singleton.mpr (loading_fits prims hcovers (hused (by simp [uses])))
  | _, .literal kind d, _, below, start => by
    rw [expressionScenes]
    exact forall_mem_singleton.mpr (loadingLiteral_fits prims)
  | _, .unary he, hused, below, start => by
    rw [uses] at hused
    rw [expressionScenes]
    exact forall_mem_append.mpr
      ⟨expression_fits hcovers hgrown he hused below start, forall_mem_singleton.mpr (applyingUnary_fits prims)⟩
  | _, @IsExpr.binary op l r hl hr, hused, below, start => by
    rw [uses] at hused
    have hl := expression_fits hcovers hgrown hl (append_subset.mp hused).1
    have hr := expression_fits hcovers hgrown hr (append_subset.mp hused).2
    rw [expressionScenes]
    cases CompileM.shortcutOf? op with
    | some pair =>
      exact forall_mem_append.mpr ⟨hl below start, forall_mem_cons.mpr ⟨trivial,
        forall_mem_append.mpr ⟨hr below _, forall_mem_cons.mpr ⟨trivial,
          forall_mem_singleton.mpr trivial⟩⟩⟩⟩
    | none =>
      cases CompileM.swappedOf? op with
      | some o =>
        exact forall_mem_append.mpr ⟨hr below start, forall_mem_append.mpr ⟨hl _ _,
          forall_mem_singleton.mpr trivial⟩⟩
      | none =>
        exact forall_mem_append.mpr ⟨hl below start, forall_mem_append.mpr ⟨hr _ _,
          forall_mem_singleton.mpr (applyingBinary_fits prims)⟩⟩
  | _, .call _ hargs, hused, below, start => by
    rw [uses] at hused
    rw [expressionScenes]
    exact forall_mem_append.mpr
      ⟨arguments_fits hcovers hgrown hargs hused below start, forall_mem_singleton.mpr (calling_fits prims hgrown)⟩
  | _, .function _ _, _, below, start => by
    rw [expressionScenes]
    · exact forall_mem_singleton.mpr trivial
    all_goals simp

theorem arguments_fits (hcovers : Covers set.scopes c.visible) (hgrown : Grown c.routines table) : ∀ {es : List Node},
    AreExprs es → usesAll es ⊆ used → ∀ (below : List Nat) (start : Nat),
    ∀ x ∈ argumentScenes prims set c below start es, x.Fits prims used table
  | _, .nil, _, below, start => by simp [argumentScenes]
  | _, .cons he hes, hused, below, start => by
    rw [usesAll] at hused
    rw [argumentScenes]
    exact forall_mem_append.mpr ⟨arguments_fits hcovers hgrown hes (append_subset.mp hused).2 below start,
      expression_fits hcovers hgrown he (append_subset.mp hused).1 _ _⟩

end

theorem printed_fits (hcovers : Covers set.scopes c.visible) (hgrown : Grown c.routines table) : ∀ {es : List Node},
    AreExprs es → usesAll es ⊆ used → ∀ start : Nat,
    ∀ x ∈ printedScenes prims set c start es, x.Fits prims used table := by
  intro es
  induction es with
  | nil => simp [printedScenes]
  | cons e es ih =>
    rintro (_ | ⟨he, hes⟩) hused start
    rw [usesAll] at hused
    rw [printedScenes]
    exact forall_mem_append.mpr
      ⟨expression_fits prims set hcovers hgrown he (append_subset.mp hused).1 _ _,
        forall_mem_cons.mpr ⟨trivial, ih hes (append_subset.mp hused).2 _⟩⟩

theorem expression_then_fits (hcovers : Covers set.scopes c.visible) (hgrown : Grown c.routines table) {e : Node} (he : IsExpr e) (hused : uses e ⊆ used) {start last : Nat} {instr : Instr}
    {ends : List Nat} {subject : Subject} (h : (set.scene last instr ends subject).Fits prims used table) :
    ∀ x ∈ expressionScenes prims set c [] start e ++ [set.scene last instr ends subject],
      x.Fits prims used table :=
  forall_mem_append.mpr
    ⟨expression_fits prims set hcovers hgrown he hused _ _, forall_mem_singleton.mpr h⟩

end

theorem extended_ne_nil {visible : List (Array Datum)} (h : visible ≠ []) (names : List Datum) :
    extended visible names ≠ [] := by
  cases visible with
  | nil => exact absurd rfl h
  | cons top outer => simp [extended]

mutual

theorem statement_fits : ∀ {n : Node}, IsStat n → ∀ (set : Setting) (s : Point), s.visible ≠ [] →
    Covers set.scopes (next prims s n).visible → Grown (next prims s n).routines table → uses n ⊆ used →
    ∀ x ∈ statementScenes prims set s n, x.Fits prims used table
  | _, .exprStat he, set, s, _, hcovers, hgrown, hused => by
    rw [next] at hcovers hgrown
    rw [uses] at hused
    rw [statementScenes]
    exact expression_then_fits prims set hcovers hgrown he hused trivial
  | _, .print hargs, set, s, _, hcovers, hgrown, hused => by
    rw [next] at hcovers hgrown
    rw [uses] at hused
    rw [statementScenes]
    exact forall_mem_append.mpr
      ⟨printed_fits prims set hcovers hgrown hargs hused _, forall_mem_singleton.mpr trivial⟩
  | _, @IsStat.ifThen cond yes hcond hyes, set, s, hopen, hcovers, hgrown, hused => by
    have hsited := statement_sited prims hyes set.shape (s.skip (width prims s.toNames cond + 2))
    rw [next] at hcovers hgrown
    rw [uses] at hused
    have hyes' := statement_fits hyes set (s.skip _) hopen hcovers hgrown (append_subset.mp hused).2
    rw [next_visible prims hyes] at hcovers
    rw [statementScenes]
    exact forall_mem_append.mpr ⟨expression_fits prims set hcovers.of_extended (hsited.grows.trans hgrown)
      hcond (append_subset.mp hused).1 _ _, forall_mem_cons.mpr ⟨trivial, hyes'⟩⟩
  | _, @IsStat.ifElse cond yes no hcond hyes hno, set, s, hopen, hcovers, hgrown, hused => by
    have hfirst := statement_sited prims hyes set.shape (s.skip (width prims s.toNames cond + 2))
    have hsecond := statement_sited prims hno set.shape
      ((next prims (s.skip (width prims s.toNames cond + 2)) yes).skip 2)
    rw [next] at hcovers hgrown
    rw [uses] at hused
    obtain ⟨hcondUsed, hused⟩ := append_subset.mp hused
    have hmiddle : (next prims (s.skip (width prims s.toNames cond + 2)) yes).visible ≠ [] := by
      rw [next_visible prims hyes]
      exact extended_ne_nil hopen _
    have hno' := statement_fits hno set (Point.skip _ 2) hmiddle hcovers hgrown (append_subset.mp hused).2
    rw [next_visible prims hno] at hcovers
    have hcovers := hcovers.of_extended
    have hgrown := hsecond.grows.trans hgrown
    have hyes' := statement_fits hyes set (s.skip _) hopen hcovers hgrown (append_subset.mp hused).1
    have hcovers : Covers set.scopes (next prims (s.skip (width prims s.toNames cond + 2)) yes).visible :=
      hcovers
    rw [next_visible prims hyes] at hcovers
    rw [statementScenes]
    exact forall_mem_append.mpr ⟨expression_fits prims set hcovers.of_extended (hfirst.grows.trans hgrown)
      hcond hcondUsed _ _, forall_mem_cons.mpr ⟨trivial, forall_mem_append.mpr ⟨hyes',
        forall_mem_cons.mpr ⟨trivial, hno'⟩⟩⟩⟩
  | _, @IsStat.loop cond body hcond hbody, set, s, hopen, hcovers, hgrown, hused => by
    have hsited := statement_sited prims hbody set.shape (s.skip (width prims s.toNames cond + 2))
    rw [next] at hcovers hgrown
    rw [uses] at hused
    have hbody' := fun stop => statement_fits hbody (set.inLoop s.here stop) (s.skip _) hopen hcovers hgrown
      (append_subset.mp hused).2
    have hcovers : Covers set.scopes (next prims (s.skip (width prims s.toNames cond + 2)) body).visible :=
      hcovers
    rw [next_visible prims hbody] at hcovers
    rw [statementScenes]
    exact forall_mem_append.mpr ⟨expression_fits prims (set.inLoop s.here _) hcovers.of_extended
      (hsited.grows.trans hgrown) hcond (append_subset.mp hused).1 _ _, forall_mem_cons.mpr ⟨trivial,
        forall_mem_append.mpr ⟨hbody' _, forall_mem_singleton.mpr trivial⟩⟩⟩
  | _, .breakLoop, set, s, _, _, _, _ => by
    rw [statementScenes]
    split <;> exact forall_mem_singleton.mpr trivial
  | _, .continueLoop, set, s, _, _, _, _ => by
    rw [statementScenes]
    split <;> exact forall_mem_singleton.mpr trivial
  | _, @IsStat.block body hbody, set, s, hopen, hcovers, hgrown, hused => by
    rw [next] at hcovers hgrown
    rw [uses] at hused
    rw [statementScenes]
    have hinside : Covers (set.inBlock (s.here + 2) (declaresAll body)).scopes
        (nextAll prims s.inBlock body).visible := by
      rw [nextAll_visible prims hbody]
      exact hcovers.cons _ _
    exact forall_mem_cons.mpr ⟨trivial, forall_mem_append.mpr
      ⟨statements_fits hbody _ _ (by simp [Point.inBlock]) hinside hgrown hused, forall_mem_singleton.mpr trivial⟩⟩
  | _, @IsStat.function x xs body hbody, set, s, hopen, hcovers, hgrown, hused => by
    rw [next_function] at hcovers hgrown
    rw [Point.declare_visible] at hcovers
    rw [Point.declare_routines, next] at hgrown
    rw [uses, uses, uses] at hused
    have hinside : Covers ((set.inFunction (s.here + 2) xs).inBlock (s.here + 2 + 2) (declaresAll body)).scopes
        (nextAll prims (s.inFunction x xs).inBlock body).visible := by
      rw [nextAll_visible prims hbody]
      exact (Covers.parameters _ _).cons _ _
    rw [statementScenes_function, statementScenes]
    exact forall_mem_cons.mpr ⟨trivial, forall_mem_append.mpr
      ⟨forall_mem_cons.mpr ⟨trivial, forall_mem_append.mpr
        ⟨statements_fits hbody _ _ (by simp [Point.inBlock]) hinside hgrown hused, forall_mem_singleton.mpr trivial⟩⟩,
      forall_mem_cons.mpr ⟨trivial, forall_mem_cons.mpr ⟨trivial,
        forall_mem_singleton.mpr (storing_fits prims hopen hcovers)⟩⟩⟩⟩
  | _, .define x hvalue hne, set, s, hopen, hcovers, hgrown, hused => by
    rw [next_variable _ hne] at hcovers hgrown
    rw [Point.declare_visible] at hcovers
    rw [Point.declare_routines] at hgrown
    rw [uses] at hused
    rw [statementScenes_variable _ hne]
    exact expression_then_fits prims set (Covers.of_extended hcovers) hgrown hvalue hused
      (storing_fits prims hopen hcovers)
  | _, .assign x hvalue, set, s, _, hcovers, hgrown, hused => by
    rw [next] at hcovers hgrown
    rw [uses] at hused
    rw [statementScenes]
    exact expression_then_fits prims set hcovers hgrown hvalue (subset_of_cons_subset hused)
      (assigning_fits prims hcovers (hused (mem_cons_self ..)))
  | _, .return, set, s, _, _, _, _ => by
    rw [statementScenes]
    split <;> exact forall_mem_singleton.mpr trivial
  | _, .returnValue hvalue, set, s, _, hcovers, hgrown, hused => by
    rw [next] at hcovers hgrown
    rw [uses] at hused
    rw [statementScenes]
    refine expression_then_fits prims set hcovers hgrown hvalue hused ?_
    split <;> exact trivial

theorem statements_fits : ∀ {ns : List Node}, AreStats ns → ∀ (set : Setting) (s : Point), s.visible ≠ [] →
    Covers set.scopes (nextAll prims s ns).visible → Grown (nextAll prims s ns).routines table →
    usesAll ns ⊆ used → ∀ x ∈ statementsScenes prims set s ns, x.Fits prims used table
  | _, .nil, set, s, _, _, _, _ => by simp [statementsScenes]
  | _, @AreStats.cons n ns hn hns, set, s, hopen, hcovers, hgrown, hused => by
    rw [nextAll] at hcovers hgrown
    rw [usesAll] at hused
    have hsited := statements_sited prims hns set.shape (next prims s n)
    have hnext : (next prims s n).visible ≠ [] := by
      rw [next_visible prims hn]
      exact extended_ne_nil hopen _
    have hrest := statements_fits hns set _ hnext hcovers hgrown (append_subset.mp hused).2
    rw [nextAll_visible prims hns] at hcovers
    rw [statementsScenes]
    exact forall_mem_append.mpr ⟨statement_fits hn set s hopen hcovers.of_extended (hsited.grows.trans hgrown)
      (append_subset.mp hused).1, hrest⟩

end

theorem program_fits {body : List Node} (h : AreStats body) :
    ∀ x ∈ scenes prims body, x.Fits prims (usesAll body) (finish prims body).routines := by
  have hcovers : Covers [] (finish prims body).visible := by
    have hdeclares : declares (.block body) = [] := by simp [declares]
    rw [finish, next_visible prims (.block h), hdeclares, extended_nil]
    intro d names i x hnames hx
    cases d with
    | zero =>
      rw [← Option.some.inj hnames] at hx
      simp at hx
    | succ d => simp [origin] at hnames
  exact statement_fits prims (.block h) ⟨[], [], none⟩ _ (by simp [origin]) hcovers (.refl _)
    (by rw [uses]; exact fun x hx => hx)

end Layout

end Cilly
