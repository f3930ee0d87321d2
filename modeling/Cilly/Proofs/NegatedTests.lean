import Cilly.Proofs.Alongside

/-!
# Negated tests

`if (!e) A else B` is `if (e) B else A` with its branches the other way round. Both come to the same (`negation_turns_branches`), wherever
they are in a program, if the values that are tested are clear.

The two programs have the same parts, in another order (`Rearranged`). What lies around the test is the same in both (`Hollow`), and does the
same around what does the same (`Hollow.replaces`). The branches change places, so names have to stand for the same in both places: one
of the branches may bring names, and the other one has none of them (`Aloof`).
-/

namespace Cilly

open Acting Node

variable {e n no yes : Node} {primitives : List String}

/-! ## Statements with parts in another order -/

/-- Two statements of the same parts, some of them in another order. -/
structure Node.Rearranged (n n' : Node) : Prop extends Kin n n' where
  leaves : n'.leaves.Perm n.leaves
  uses : n'.uses.Perm n.uses
  exits : ∀ inside, (n'.exits inside).Perm (n.exits inside)
  scopes : n'.scopes.Perm n.scopes
  registered : Layout.registered n' = Layout.registered n

/-- Two lists of statements, likewise. -/
structure Node.RearrangedAll (ns ns' : List Node) : Prop where
  stats : AreStats ns
  stats' : AreStats ns'
  declares : declaresAll ns' = declaresAll ns
  functions : (functionsAll ns').map (·.name) = (functionsAll ns).map (·.name)
  leaves : (leavesAll ns').Perm (leavesAll ns)
  uses : (usesAll ns').Perm (usesAll ns)
  exits : ∀ inside, (exitsAll inside ns').Perm (exitsAll inside ns)
  scopes : (scopesAll ns').Perm (scopesAll ns)
  registered : Layout.registeredAll ns' = Layout.registeredAll ns

namespace Node

variable {n n' cond yes no : Node} {ns ns' before after : List Node}

theorem Rearranged.ifThen (h : Rearranged n n') (hcond : IsExpr cond) : Rearranged (.ifThen cond n) (.ifThen cond n') where
  stat := .ifThen hcond h.stat
  stat' := .ifThen hcond h.stat'
  declares := h.declares
  functions := h.functions
  leaves := h.leaves.append_left _
  uses := h.uses.append_left _
  exits := h.exits
  scopes := h.scopes
  registered := rfl

theorem Rearranged.ifElseYes (h : Rearranged n n') (hcond : IsExpr cond) (hno : IsStat no) :
    Rearranged (.ifElse cond n no) (.ifElse cond n' no) where
  stat := .ifElse hcond h.stat hno
  stat' := .ifElse hcond h.stat' hno
  declares := by rw [declares, declares, h.declares]
  functions := by simp [functions, h.functions]
  leaves := (h.leaves.append_right _).append_left _
  uses := (h.uses.append_right _).append_left _
  exits inside := (h.exits inside).append_right _
  scopes := h.scopes.append_right _
  registered := rfl

theorem Rearranged.ifElseNo (h : Rearranged n n') (hcond : IsExpr cond) (hyes : IsStat yes) :
    Rearranged (.ifElse cond yes n) (.ifElse cond yes n') where
  stat := .ifElse hcond hyes h.stat
  stat' := .ifElse hcond hyes h.stat'
  declares := by rw [declares, declares, h.declares]
  functions := by simp [functions, h.functions]
  leaves := (h.leaves.append_left _).append_left _
  uses := (h.uses.append_left _).append_left _
  exits inside := (h.exits inside).append_left _
  scopes := h.scopes.append_left _
  registered := rfl

theorem Rearranged.loop (h : Rearranged n n') (hcond : IsExpr cond) : Rearranged (.loop cond n) (.loop cond n') where
  stat := .loop hcond h.stat
  stat' := .loop hcond h.stat'
  declares := h.declares
  functions := h.functions
  leaves := h.leaves.append_left _
  uses := h.uses.append_left _
  exits _ := h.exits true
  scopes := h.scopes
  registered := rfl

theorem Rearranged.cons (h : Rearranged n n') (hns : AreStats ns) : RearrangedAll (n :: ns) (n' :: ns) where
  stats := .cons h.stat hns
  stats' := .cons h.stat' hns
  declares := by rw [declaresAll, declaresAll, h.declares]
  functions := by simp [functionsAll, h.functions]
  leaves := h.leaves.append_right _
  uses := h.uses.append_right _
  exits inside := (h.exits inside).append_right _
  scopes := h.scopes.append_right _
  registered := by rw [Layout.registeredAll, Layout.registeredAll, h.registered]

theorem RearrangedAll.cons (h : RearrangedAll ns ns') (hn : IsStat n) : RearrangedAll (n :: ns) (n :: ns') where
  stats := .cons hn h.stats
  stats' := .cons hn h.stats'
  declares := by rw [declaresAll, declaresAll, h.declares]
  functions := by simp [functionsAll, h.functions]
  leaves := h.leaves.append_left _
  uses := h.uses.append_left _
  exits inside := (h.exits inside).append_left _
  scopes := h.scopes.append_left _
  registered := by rw [Layout.registeredAll, Layout.registeredAll, h.registered]

theorem RearrangedAll.block (h : RearrangedAll ns ns') : Rearranged (.block ns) (.block ns') where
  stat := .block h.stats
  stat' := .block h.stats'
  declares := rfl
  functions := h.functions
  leaves := h.leaves
  uses := h.uses
  exits := h.exits
  scopes := by
    rw [Node.scopes, Node.scopes, h.declares]
    exact h.scopes.cons _
  registered := h.registered

theorem RearrangedAll.function (h : RearrangedAll ns ns') (x : Datum) (params : List Datum) :
    Rearranged (.define x (.function params (.block ns))) (.define x (.function params (.block ns'))) where
  stat := .function x params h.stats
  stat' := .function x params h.stats'
  declares := rfl
  functions := by simpa [Node.functions] using h.functions
  leaves := (h.leaves.append_left _).cons _
  uses := h.uses
  exits _ := h.exits false
  scopes := h.block.scopes.cons _
  registered := rfl

end Node

/-! ## What lies around a statement -/

/-- A statement from which one is left out, at some depth. -/
inductive Hollow
  | here
  | ifThen (cond : Node) (inner : Hollow)
  | ifElseYes (cond : Node) (inner : Hollow) (no : Node)
  | ifElseNo (cond yes : Node) (inner : Hollow)
  | loop (cond : Node) (inner : Hollow)
  | block (before : List Node) (inner : Hollow) (after : List Node)
  | function (x : Datum) (params : List Datum) (before : List Node) (inner : Hollow) (after : List Node)

namespace Hollow

/-- The statement that is left out is put in. -/
def fill : Hollow → Node → Node
  | .here, n => n
  | .ifThen cond inner, n => .ifThen cond (inner.fill n)
  | .ifElseYes cond inner no, n => .ifElse cond (inner.fill n) no
  | .ifElseNo cond yes inner, n => .ifElse cond yes (inner.fill n)
  | .loop cond inner, n => .loop cond (inner.fill n)
  | .block before inner after, n => .block (before ++ inner.fill n :: after)
  | .function x params before inner after, n => .define x (.function params (.block (before ++ inner.fill n :: after)))

/-- The point from which the statement that is put in is laid out. -/
def point (primitives : List String) : Hollow → Point → Point
  | .here, s => s
  | .ifThen cond inner, s | .ifElseYes cond inner _, s | .loop cond inner, s =>
    inner.point primitives (s.skip (Layout.width primitives s.toNames cond + 2))
  | .ifElseNo cond yes inner, s =>
    inner.point primitives ((Layout.next primitives (s.skip (Layout.width primitives s.toNames cond + 2)) yes).skip 2)
  | .block before inner _, s => inner.point primitives (Layout.nextAll primitives s.inBlock before)
  | .function x params before inner _, s =>
    inner.point primitives (Layout.nextAll primitives (s.inFunction x params).inBlock before)

end Hollow

theorem Node.AreStats.split {after : List Node} : ∀ {before : List Node}, AreStats (before ++ n :: after) →
    AreStats before ∧ IsStat n ∧ AreStats after
  | [], .cons hn hafter => ⟨.nil, hn, hafter⟩
  | _ :: _, .cons hm hrest =>
    have ⟨hbefore, hn, hafter⟩ := hrest.split
    ⟨.cons hm hbefore, hn, hafter⟩

theorem Hollow.isStat : ∀ {hollow : Hollow}, IsStat (hollow.fill n) → IsStat n
  | .here, h => h
  | .ifThen _ _, .ifThen _ hinner | .ifElseYes _ _ _, .ifElse _ hinner _ | .ifElseNo _ _ _, .ifElse _ _ hinner
  | .loop _ _, .loop _ hinner => isStat hinner
  | .block _ _ _, .block hbody | .function _ _ _ _ _, .function _ _ hbody => isStat hbody.split.2.1
  | .function _ _ _ _ _, .define _ _ hvar => absurd rfl (hvar _ _)

namespace Layout

variable {primitives : List String}

theorem nextAll_append : ∀ (ns more : List Node) (s : Point),
    nextAll primitives s (ns ++ more) = nextAll primitives (nextAll primitives s ns) more
  | [], _, _ => by rw [nextAll, List.nil_append]
  | n :: ns, more, s => by rw [List.cons_append, nextAll, nextAll, nextAll_append ns]

theorem statements_append : ∀ (ns more : List Node) (shape : List Mark) (s : Point), statements primitives shape s (ns ++ more) =
    statements primitives shape s ns ++ statements primitives shape (nextAll primitives s ns) more
  | [], _, _, _ => by rw [nextAll, statements, List.nil_append, List.nil_append]
  | n :: ns, more, shape, s => by rw [List.cons_append, statements, statements, nextAll, statements_append ns, List.append_assoc]

end Layout

/-- Points at which all names stand for the same, and variables can be declared. -/
structure Point.Same (own : List (Array Datum)) (s s' : Point) : Prop where
  near : s.Near (fun _ => False) True own s'
  isOpen : own ≠ []

namespace Point.Same

variable {primitives : List String} {own : List (Array Datum)} {s s' : Point} {n n' : Node}

theorem discreet (h : s.Same own s') (n : Node) : n.Discreet (fun _ => False) True own :=
  ⟨fun _ => h.isOpen, fun _ => trivial, fun _ _ => id⟩

theorem skip (h : s.Same own s') (k k' : Nat) : (s.skip k).Same own (s'.skip k') := ⟨h.near.skip k k', h.isOpen⟩

theorem next (h : s.Same own s') (hkin : Kin n n') :
    (Layout.next primitives s n).Same (extended own (declares n)) (Layout.next primitives s' n') :=
  ⟨h.near.next hkin (fun _ => h.isOpen) fun _ => trivial, Layout.extended_ne_nil h.isOpen _⟩

theorem nextAll (prims : List String) : ∀ {ns : List Node}, AreStats ns → ∀ {own : List (Array Datum)} {s s' : Point}, s.Same own s' →
    ∃ own', (Layout.nextAll prims s ns).Same own' (Layout.nextAll prims s' ns)
  | _, .nil, own, _, _, h => ⟨own, h⟩
  | _, .cons hn hns, _, _, _, h => nextAll prims hns (h.next hn.kin)

theorem inBlock (h : s.Same own s') : s.inBlock.Same (#[] :: own) s'.inBlock := ⟨h.near.inBlock, List.cons_ne_nil _ _⟩

theorem inFunction (h : s.Same own s') (x : Datum) (params : List Datum) :
    (s.inFunction x params).Same [params.toArray] (s'.inFunction x params) := ⟨h.near.inFunction trivial x params, List.cons_ne_nil _ _⟩

end Point.Same

/-- A statement at a point does what another one does in another program, wherever names stand for the same. -/
def Replaces (primitives : List String) (p p' : Program) (test : Int) (n n' : Node) (s : Point) : Prop :=
  ∀ (shape shape' : List Mark) (own : List (Array Datum)) (s' : Point), s.Same own s' →
    p.Bears (Layout.statement primitives shape s n) → p'.Bears (Layout.statement primitives shape' s' n') →
    Tracked p p' test shape shape' s s' (Layout.next primitives s n) (Layout.next primitives s' n')

namespace Replaces

open Layout

variable {primitives : List String} {p p' : Program} {test : Int} {n n' cond yes no : Node} {s : Point}

theorem refl (hn : IsStat n) (s : Point) : Replaces primitives p p' test n n s :=
  fun _ _ _ _ hsame => statement_leads hn hsame.near (hsame.discreet n)

theorem ifThen (h : Replaces primitives p p' test n n' (s.skip (width primitives s.toNames cond + 2))) (hcond : IsExpr cond) :
    Replaces primitives p p' test (.ifThen cond n) (.ifThen cond n') s := by
  intro shape shape' own s' hsame hp hp'
  exact .ifThen hcond hsame.near (fun _ _ => id) hp hp' fun k' => h _ _ _ _ (hsame.skip _ k')

theorem ifElseYes (h : Replaces primitives p p' test n n' (s.skip (width primitives s.toNames cond + 2))) (hcond : IsExpr cond) (hkin : Kin n n')
    (hno : IsStat no) : Replaces primitives p p' test (.ifElse cond n no) (.ifElse cond n' no) s := by
  intro shape shape' own s' hsame hp hp'
  refine .ifElse hcond hsame.near (fun _ _ => id) hp hp' (fun k' => h _ _ _ _ (hsame.skip _ k')) fun k' => ?_
  exact refl hno _ _ _ _ _ (((hsame.skip _ k').next hkin).skip 2 2)

theorem ifElseNo (h : Replaces primitives p p' test n n' ((next primitives (s.skip (width primitives s.toNames cond + 2)) yes).skip 2))
    (hcond : IsExpr cond) (hyes : IsStat yes) : Replaces primitives p p' test (.ifElse cond yes n) (.ifElse cond yes n') s := by
  intro shape shape' own s' hsame hp hp'
  refine .ifElse hcond hsame.near (fun _ _ => id) hp hp' (fun k' => ?_) fun k' => h _ _ _ _ (((hsame.skip _ k').next hyes.kin).skip 2 2)
  exact refl hyes _ _ _ _ _ (hsame.skip _ k')

theorem loop (h : Replaces primitives p p' test n n' (s.skip (width primitives s.toNames cond + 2))) (hcond : IsExpr cond) :
    Replaces primitives p p' test (.loop cond n) (.loop cond n') s := by
  intro shape shape' own s' hsame hp hp'
  exact .loop hcond hsame.near (fun _ _ => id) hp hp' fun k' stop stop' => h _ _ _ _ (hsame.skip _ k')

theorem block {before after : List Node} (h : Replaces primitives p p' test n n' (nextAll primitives s.inBlock before))
    (hkin : Kin n n') (hbefore : AreStats before) (hafter : AreStats after)
    (hall : RearrangedAll (before ++ n :: after) (before ++ n' :: after)) :
    Replaces primitives p p' test (.block (before ++ n :: after)) (.block (before ++ n' :: after)) s := by
  intro shape shape' own s' hsame hp hp'
  refine .block hall.stats hall.stats' hall.declares hp hp' fun hp hp' => ?_
  rw [statements_append, Layout.statements, bears_append, bears_append] at hp hp'
  rw [nextAll_append, nextAll_append, nextAll, nextAll]
  obtain ⟨own', hplace⟩ := Point.Same.nextAll primitives hbefore hsame.inBlock
  have hbehind : (next primitives (nextAll primitives s.inBlock before) n).Same _ (next primitives (nextAll primitives s'.inBlock before) n') :=
    hplace.next hkin
  refine (statements_leads hbefore hsame.inBlock.near hsame.inBlock.isOpen (hsame.inBlock.discreet _) hp.1 hp'.1).trans ?_
  refine (h _ _ _ _ hplace hp.2.1 hp'.2.1).trans ?_
  exact statements_leads hafter hbehind.near hbehind.isOpen (hbehind.discreet _) hp.2.2 hp'.2.2

theorem function (x : Datum) (params : List Datum) (h : Replaces primitives p p' test n n' (s.inFunction x params)) :
    Replaces primitives p p' test (.define x (.function params n)) (.define x (.function params n')) s := by
  intro shape shape' own s' hsame hp hp'
  exact .function x params hsame.near hsame.isOpen trivial hp hp' (h _ _ _ _ (hsame.inFunction x params))

end Replaces

/-- A statement declares a variable of a name outside of its blocks, or defines a function of that name. -/
def Node.Introduces (n : Node) (x : Datum) : Prop := ∃ y ∈ n.declares ++ n.functions.map (·.name), y.eq x = true

/-- A statement that brings no names of its own, and has none of those that another one brings. -/
structure Node.Aloof (quiet loud : Node) : Prop where
  declares : quiet.declares = []
  functions : quiet.functions = []
  names : ∀ x, ⟨"id", x⟩ ∈ quiet.leaves → ¬ loud.Introduces x

theorem find?_extended {x : Datum} {names : List Datum} (h : ∀ y ∈ names, y.eq x = false) (visible : List (Array Datum)) :
    Assembly.find? x (extended visible names) = Assembly.find? x visible := by
  cases visible with
  | nil => rfl
  | cons top outer =>
    have hindex : nameIndex? (top ++ names.toArray) x = nameIndex? top x := by
      unfold nameIndex?
      rw [Array.findIdx?_append]
      have hnone : names.toArray.findIdx? (fun y => y.eq x) = none := by simpa using h
      rw [hnone]
      simp
    rw [extended, Assembly.find?, Assembly.find?, hindex]

theorem DefinitionSite.routineIndex?_enterAll_of_ne {x : Datum} : ∀ {sites : List DefinitionSite} {t : Array Routine},
    (∀ site ∈ sites, site.function.name.eq x = false) →
    Names.routineIndex? ⟨[], enterAll sites t⟩ x = Names.routineIndex? ⟨[], t⟩ x
  | [], _, _ => rfl
  | site :: sites, t, h => by
    obtain ⟨hfirst, hrest⟩ := List.forall_mem_cons.mp h
    have henter : Names.routineIndex? ⟨[], site.enter t⟩ x = Names.routineIndex? ⟨[], t⟩ x := by
      rw [routineIndex?_eq, routineIndex?_eq, names_enter]
      cases Names.routineIndex? ⟨[], t⟩ site.function.name with
      | some i => rfl
      | none => simp [Array.findIdx?_push, hfirst]
    exact (routineIndex?_enterAll_of_ne hrest).trans henter

namespace Point

variable {primitives : List String} {avoid : Datum → Prop} {strict : Prop} {own : List (Array Datum)} {s s' t t' : Point} {n loud quiet : Node}

theorem Near.symm (h : s.Near avoid strict own s') : s'.Near avoid strict own s := by
  obtain ⟨around, around', hvisible, hvisible', hfind⟩ := h.visible
  exact ⟨⟨⟨around', around, hvisible', hvisible, fun x hx => (hfind x hx).symm⟩, fun x hx => (h.index x hx).symm⟩,
    fun hstrict => (h.table hstrict).symm⟩

theorem Same.symm (h : s.Same own s') : s'.Same own s := ⟨h.near.symm, h.isOpen⟩

theorem Near.congr (h : s.Near avoid strict own s') (hs : t.toNames = s.toNames) (hs' : t'.toNames = s'.toNames) :
    t.Near avoid strict own t' := by
  have htable : strict → t'.toNames.routines.map (·.name) = t.toNames.routines.map (·.name) := by
    rw [hs, hs']
    exact h.table
  have hnear : Names.Near avoid own t.toNames t'.toNames := by
    rw [hs, hs']
    exact h.toNear
  exact ⟨hnear, htable⟩

theorem Same.behind (h : s.Same own s') (hn : IsStat n) : (Layout.next primitives s n).Near n.Introduces False [] s' := by
  refine ⟨⟨⟨(Layout.next primitives s n).visible, s'.visible, rfl, rfl, fun x hx => ?_⟩, fun x hx => ?_⟩, False.elim⟩
  · have hdeclares : ∀ y ∈ declares n, y.eq x = false := by
      intro y hy
      by_contra heq
      exact hx ⟨y, List.mem_append_left _ hy, by simpa using heq⟩
    rw [Layout.next_visible primitives hn, find?_extended hdeclares]
    exact h.near.find? id
  · have hsited := Layout.statement_sited primitives hn [] s
    have hfunctions : ∀ site ∈ Layout.sites primitives [] s n, site.function.name.eq x = false := by
      intro site hsite
      by_contra heq
      refine hx ⟨site.function.name, List.mem_append_right _ ?_, by simpa using heq⟩
      rw [← hsited.functions]
      simpa using ⟨site, hsite, rfl⟩
    have hsame := @DefinitionSite.routineIndex?_enterAll_of_ne x _ s.routines hfunctions
    rw [← hsited.table] at hsame
    exact (h.near.index x id).trans hsame.symm

end Point

theorem Node.Aloof.next_toNames {quiet loud : Node} (h : Aloof quiet loud) (hquiet : IsStat quiet) (s : Point) :
    (Layout.next primitives s quiet).toNames = s.toNames := by
  have hvisible : (Layout.next primitives s quiet).visible = s.visible := by
    rw [Layout.next_visible primitives hquiet, h.declares, extended_nil]
  have hroutines : (Layout.next primitives s quiet).routines = s.routines := Layout.next_routines hquiet h.functions s
  generalize Layout.next primitives s quiet = last at hvisible hroutines
  obtain ⟨names, here⟩ := last
  obtain ⟨visible, routines⟩ := names
  cases hvisible
  cases hroutines
  rfl

section

open Layout

variable {primitives : List String} {p p' : Program} {test : Int} {shape shape' : List Mark} {own : List (Array Datum)} {s s' t t' : Point}
  {quiet loud : Node}

/-- A statement that brings nothing does the same before and behind one that brings something, and this one does not notice. -/
theorem Node.Aloof.tracked (h : Aloof quiet loud) (hquiet : IsStat quiet) (hp : p.Bears (statement primitives shape t quiet))
    (hp' : p'.Bears (statement primitives shape' t' quiet)) (hnear : t.Near loud.Introduces False [] t') :
    Tracked p p' test shape shape' t t' (next primitives t quiet) (next primitives t' quiet) :=
  statement_leads hquiet hnear ⟨fun hne => absurd h.declares hne, fun hne => absurd h.functions hne, h.names⟩ hp hp'

/-- A negated test and the test itself, with their branches the other way round. -/
theorem Tracked.turned (he : IsExpr e) (hyes : IsStat yes) (hno : IsStat no)
    (htest : test = (s.here + width primitives s.toNames e : Nat)) (hsame : s.Same own s') (hp : p.Bears (statement primitives shape s (.ifElse (.unary (.text "!") e) yes no)))
    (hp' : p'.Bears (statement primitives shape' s' (.ifElse e no yes)))
    (hbranches : ∀ k k', let inside := s.skip k
      let inside' := s'.skip k'
      let middle := (next primitives inside yes).skip 2
      let middle' := (next primitives inside' no).skip 2
      p.Bears (statement primitives shape inside yes) → p.Bears (statement primitives shape middle no) →
      p'.Bears (statement primitives shape' inside' no) → p'.Bears (statement primitives shape' middle' yes) →
      Tracked p p' test shape shape' inside middle' (next primitives inside yes) (next primitives middle' yes) ∧
        Tracked p p' test shape shape' middle inside' (next primitives middle no) (next primitives inside' no) ∧
        (middle'.routines = s'.routines ∧ (next primitives middle no).routines = middle.routines ∨
          middle.routines = s.routines ∧ (next primitives middle' yes).routines = middle'.routines)) :
    Tracked p p' test shape shape' s s' (next primitives s (.ifElse (.unary (.text "!") e) yes no)) (next primitives s' (.ifElse e no yes)) := by
  simp only [statement, expression, width, bears_append, bears_cons] at hp hp'
  obtain ⟨⟨hcond, hnot, -⟩, hbranch, hbears, hjump, hbears₂⟩ := hp
  obtain ⟨hcond', hbranch', hbears', hjump', hbears₂'⟩ := hp'
  obtain ⟨htracked, htracked₂, htables⟩ := hbranches _ _ hbears hbears₂ hbears' hbears₂'
  have hlaid := (statement_laid primitives hno shape ((next primitives (s.skip (width primitives s.toNames e + 1 + 2)) yes).skip 2)).ordered.le
  have hlaid' := (statement_laid primitives hyes shape' ((next primitives (s'.skip (width primitives s'.toNames e + 2)) no).skip 2)).ordered.le
  rw [next, next, width]
  generalize next primitives (s.skip (width primitives s.toNames e + 1 + 2)) yes = middle at *
  generalize next primitives (s'.skip (width primitives s'.toNames e + 2)) no = middle' at *
  generalize next primitives (middle.skip 2) no = last at *
  generalize next primitives (middle'.skip 2) yes = last' at *
  obtain ⟨entries, hmem, hleads, htable⟩ := htracked
  obtain ⟨entries₂, hmem₂, hleads₂, htable₂⟩ := htracked₂
  have hlt : middle.here < last.here := by
    rw [Point.skip_here] at hlaid
    omega
  have hlt' : middle'.here < last'.here := by
    rw [Point.skip_here] at hlaid'
    omega
  -- one of the programs has to jump over the other branch
  have hahead : Leads p p' test shape shape' [(middle.here, last'.here)] [(last.here, last'.here)] := .single fun _ hexits _ =>
    .ahead hjump.stands.first hjump.stands.second (Int.ofNat_lt.mpr hlt) (hexits _ (List.mem_singleton_self _))
  have hahead' : Leads p p' test shape shape' [(last.here, middle'.here)] [(last.here, last'.here)] := .single fun _ hexits _ =>
    .ahead' hjump'.stands.first hjump'.stands.second (Int.ofNat_lt.mpr hlt') (hexits _ (List.mem_singleton_self _))
  have hturned : Leads p p' test shape shape' [(s.here + width primitives s.toNames e, s'.here + width primitives s'.toNames e)]
      [(middle.here + 2, s'.here + width primitives s'.toNames e + 2), (s.here + width primitives s.toNames e + 3, middle'.here + 2)] := by
    refine .single fun R hexits _ => .met (.turned htest.symm hnot.stands.2.first hbranch.stands.2.first hbranch'.stands.2.first
      hbranch.stands.2.second hbranch'.stands.2.second ?_ ?_)
    · exact hexits (middle.here + 2, s'.here + width primitives s'.toNames e + 2) (by simp)
    · exact hexits (s.here + width primitives s.toNames e + 3, middle'.here + 2) (by simp)
  have hends := (hleads.seq hahead (by simp) fun _ hx => hx).seq (hleads₂.seq hahead' (by simp) fun _ hx => hx) (fun _ hx => .inr hx) fun _ hx => hx
  have hall := hturned.seq hends ?_ fun _ hx => hx
  · have hwhole := (expression_leads hsame.near.toNear he (fun _ _ => id) hcond hcond').seq hall (by simp) fun _ hx => hx
    refine ⟨_, List.mem_cons_self .., hwhole, fun R hR halike => ?_⟩
    have hfirst := htable R fun x hx => hR x (by simp [hx])
    have hsecond := htable₂ R fun x hx => hR x (by simp [hx])
    rcases htables with ⟨hmiddle', hlast⟩ | ⟨hmiddle, hlast'⟩
    · rw [hlast]
      rw [hmiddle'] at hfirst
      exact hfirst halike
    · rw [hlast']
      rw [hmiddle] at hsecond
      exact hsecond halike
  · intro x hx
    refine .inl ?_
    rcases List.mem_cons.mp hx with rfl | hx
    · exact List.mem_append_right _ (List.mem_append_left _ hmem₂)
    · rw [List.mem_singleton.mp hx]
      exact List.mem_append_left _ (List.mem_append_left _ hmem)

theorem Replaces.turned (he : IsExpr e) (hyes : IsStat yes) (hno : IsStat no) (haloof : Aloof no yes ∨ Aloof yes no)
    (htest : test = (s.here + width primitives s.toNames e : Nat)) :
    Replaces primitives p p' test (.ifElse (.unary (.text "!") e) yes no) (.ifElse e no yes) s := by
  intro shape shape' own s' hsame hp hp'
  refine Tracked.turned he hyes hno htest hsame hp hp' fun k k' hp hp₂ hp' hp₂' => ?_
  rcases haloof with h | h
  · have hnames : (next primitives (s'.skip k') no).toNames = s'.toNames := h.next_toNames hno _
    have hbehind : ((next primitives (s.skip k) yes).skip 2).Near yes.Introduces False [] (s'.skip k') :=
      ((hsame.skip k k').behind hyes).congr rfl rfl
    exact ⟨statement_leads hyes (hsame.near.congr rfl hnames) (hsame.discreet yes) hp hp₂', h.tracked hno hp₂ hp' hbehind,
      .inl ⟨congrArg Names.routines hnames, next_routines hno h.functions _⟩⟩
  · have hnames : (next primitives (s.skip k) yes).toNames = s.toNames := h.next_toNames hyes _
    have hbehind : (s.skip k).Near no.Introduces False [] ((next primitives (s'.skip k') no).skip 2) :=
      ((hsame.symm.skip k' k).behind hno).symm.congr rfl rfl
    exact ⟨h.tracked hyes hp hp₂' hbehind, statement_leads hno (hsame.near.congr hnames rfl) (hsame.discreet no) hp₂ hp',
      .inr ⟨congrArg Names.routines hnames, next_routines hyes h.functions _⟩⟩

end

theorem Node.Rearranged.turned {op : Datum} (haloof : Aloof no yes ∨ Aloof yes no) (he : IsExpr e) (hyes : IsStat yes)
    (hno : IsStat no) : Rearranged (.ifElse (.unary op e) yes no) (.ifElse e no yes) where
  stat := .ifElse (.unary he) hyes hno
  stat' := .ifElse he hno hyes
  declares := by rcases haloof with h | h <;> simp [declares, h.declares]
  functions := by rcases haloof with h | h <;> simp [functions, h.functions]
  leaves := List.perm_append_comm.append_left _
  uses := List.perm_append_comm.append_left _
  exits _ := List.perm_append_comm
  scopes := List.perm_append_comm
  registered := rfl

/-! ## Programs -/

namespace Machine

section

variable {primitives : List String} {body body' : List Node} {p p' : Program} {test : Int}

end

/-- A run is over before so many steps, and passes a check all the way. -/
def passes (check : Machine → Bool) : Nat → Machine → Bool
  | 0, _ => false
  | fuel + 1, m =>
    check m && match m.next with
      | (.ok _, n) => passes check fuel n
      | (.error _, _) => true

theorem Runs.passes {check : Machine → Bool} {k : Nat} {m n : Machine} (h : Runs k m n) :
    ∀ {fuel : Nat}, m.passes check fuel = true → check n = true ∧ k < fuel := by
  induction h with
  | refl m =>
    rintro (_ | fuel) hpasses
    · cases hpasses
    · rw [Machine.passes, Bool.and_eq_true] at hpasses
      exact ⟨hpasses.1, Nat.succ_pos _⟩
  | step hnext _ ih =>
    rintro (_ | fuel) hpasses
    · cases hpasses
    · rw [Machine.passes, hnext, Bool.and_eq_true] at hpasses
      have hrest := ih hpasses.2
      exact ⟨hrest.1, Nat.succ_lt_succ hrest.2⟩

end Machine

end Cilly
