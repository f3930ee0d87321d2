import Cilly.Proofs.Equality
import Cilly.Proofs.Layout
import Cilly.Proofs.Written

/-!
# The table of functions

Compilation enters functions into a table, some of them before it meets their definitions. The table only
grows: what a name is found at stays (`Grown`). Each definition is laid out at a site (`DefinitionSite`), and a statement
leaves the table that its sites make of the one before it (`Sited`). So in the end every function that is called has
the entry of a site (`site_of_routineIndex?`): of two functions with one name the first is found, and a definition of the name
is about that one.
-/

namespace Cilly

open Node List Names

variable {i : Nat} {x : Datum}

/-! ## Growth -/

/-- The second table has what the first has, up to the entries, and maybe more. -/
def Grown (t t' : Array Routine) : Prop :=
  ∀ (i : Nat) (r : Routine), t[i]? = some r → ∃ r', t'[i]? = some r' ∧ r'.name = r.name ∧ r'.params = r.params

namespace Grown

variable {t t' t'' : Array Routine}

theorem refl (t : Array Routine) : Grown t t := fun _ r hr => ⟨r, hr, rfl, rfl⟩

theorem trans (h : Grown t t') (h' : Grown t' t'') : Grown t t'' := by
  intro i r hr
  obtain ⟨r', hr', hname, hparams⟩ := h i r hr
  obtain ⟨r'', hr'', hname', hparams'⟩ := h' i r' hr'
  exact ⟨r'', hr'', hname'.trans hname, hparams'.trans hparams⟩

theorem routineIndex? (h : Grown t t') {visible visible' : List (Array Datum)}
    (hi : Names.routineIndex? ⟨visible, t⟩ x = some i) : Names.routineIndex? ⟨visible', t'⟩ x = some i := by
  unfold Names.routineIndex? at hi ⊢
  rw [Array.findIdx?_eq_some_iff_getElem] at hi ⊢
  obtain ⟨hlt, heq, hfirst⟩ := hi
  dsimp only at hlt heq hfirst ⊢
  obtain ⟨r', hr', hname, -⟩ := h i t[i] (Array.getElem?_eq_getElem hlt)
  obtain ⟨hlt', hget⟩ := Array.getElem?_eq_some_iff.mp hr'
  refine ⟨hlt', by rw [hget, hname]; exact heq, fun j hj => ?_⟩
  obtain ⟨r', hr', hname, -⟩ := h j t[j] (Array.getElem?_eq_getElem (by omega))
  obtain ⟨hlt', hget⟩ := Array.getElem?_eq_some_iff.mp hr'
  rw [hget, hname]
  exact hfirst j hj

end Grown

namespace Names

variable (c : Names)

theorem define_getElem? (x : Datum) (params : List Datum) (entry i : Nat) :
    (c.define x params entry)[i]? =
      if i = c.routineFor x then some { (c.routines[i]?).getD ⟨x, params, none⟩ with entry := some (entry : Int) }
      else c.routines[i]? := by
  unfold define routineFor
  cases h : c.routineIndex? x with
  | some j =>
    have hlt : j < c.routines.size := (Array.findIdx?_eq_some_iff_getElem.mp h).1
    rw [Array.getElem?_modify]
    by_cases hi : i = j
    · subst hi
      simp [hlt]
    · simp [hi, Ne.symm hi]
  | none =>
    rw [Array.getElem?_modify, Array.getElem?_push]
    by_cases hi : i = c.routines.size
    · subst hi
      simp
    · simp [hi, Ne.symm hi]

theorem define_grown (x : Datum) (params : List Datum) (entry : Nat) :
    Grown c.routines (c.define x params entry) := by
  intro i r hr
  rw [define_getElem?]
  by_cases hi : i = c.routineFor x
  · rw [if_pos hi, hr]
    exact ⟨_, rfl, rfl, rfl⟩
  · rw [if_neg hi]
    exact ⟨r, hr, rfl, rfl⟩

end Names

/-! ## Sites -/

/-- A place where a function is defined. -/
structure DefinitionSite where
  shape : List Mark
  point : Point
  function : Function

namespace DefinitionSite

variable (primitives : List String) (site : DefinitionSite)

def entry : Nat := site.point.here + 2

/-- The point where the body starts. -/
def inside : Point := site.point.inFunction site.function.name site.function.params

/-- The point after the body. -/
def last : Point := Layout.next primitives site.inside site.function.body

/-- The body and the return behind it. -/
def listing : List Spot :=
  Layout.statement primitives (.function :: site.shape) site.inside site.function.body ++
    [⟨(site.last primitives).here, .return, .loose :: .function :: site.shape⟩]

/-- The jump past all that. -/
def skip : Spot := ⟨site.point.here, .jump ((site.last primitives).here + 1), site.shape⟩

/-- The table with the function in it. -/
def enter (t : Array Routine) : Array Routine :=
  define ⟨[], t⟩ site.function.name site.function.params site.entry

/-- The table with functions in it, one after the other. -/
def enterAll (sites : List DefinitionSite) (t : Array Routine) : Array Routine :=
  sites.foldl (fun t site => site.enter t) t

/-- An entry of the table is about the function of a site. -/
def Names (r : Routine) : Prop := r.name = site.function.name ∨ r.name.eq site.function.name = true

theorem enter_grown (t : Array Routine) : Grown t (site.enter t) := define_grown ⟨[], t⟩ _ _ _

theorem enterAll_grown : ∀ (sites : List DefinitionSite) (t : Array Routine), Grown t (enterAll sites t)
  | [], t => .refl t
  | site :: sites, t => (site.enter_grown t).trans (enterAll_grown sites _)

theorem enter_cases {t : Array Routine} {r : Routine} (h : (site.enter t)[i]? = some r) :
    t[i]? = some r ∨ r.entry = some (site.entry : Int) ∧ site.Names r := by
  rw [enter, define_getElem?] at h
  by_cases hi : i = routineFor ⟨[], t⟩ site.function.name
  · rw [if_pos hi] at h
    cases h
    refine Or.inr ⟨rfl, ?_⟩
    cases hindex : routineIndex? ⟨[], t⟩ site.function.name with
    | none =>
      rw [routineFor, hindex] at hi
      have hnone : t[i]? = none := Array.getElem?_eq_none (Nat.le_of_eq hi.symm)
      exact Or.inl (by rw [hnone]; rfl)
    | some j =>
      rw [routineFor, hindex] at hi
      obtain ⟨hlt, heq, -⟩ := Array.findIdx?_eq_some_iff_getElem.mp hindex
      have hj : i = j := hi
      subst hj
      exact Or.inr (by rw [Array.getElem?_eq_getElem hlt]; exact heq)
  · rw [if_neg hi] at h
    exact Or.inl h

theorem enterAll_cases : ∀ (sites : List DefinitionSite) {t : Array Routine} {i : Nat} {r : Routine},
    (enterAll sites t)[i]? = some r →
    t[i]? = some r ∨ ∃ site ∈ sites, r.entry = some (site.entry : Int) ∧ site.Names r
  | [], _, _, _, h => Or.inl h
  | site :: sites, t, i, r, h => by
    rcases enterAll_cases sites h with hr | ⟨site', hsite, hentry⟩
    · exact (site.enter_cases hr).imp_right fun hentry => ⟨site, mem_cons_self .., hentry⟩
    · exact Or.inr ⟨site', mem_cons_of_mem _ hsite, hentry⟩

/-- A function that is found in the table and defined later has an entry then. -/
theorem enterAll_defined : ∀ (sites : List DefinitionSite) {t : Array Routine} {site : DefinitionSite} {i : Nat},
    site ∈ sites → routineIndex? ⟨[], t⟩ site.function.name = some i →
    ∃ r, (enterAll sites t)[i]? = some r ∧ ∃ site ∈ sites, r.entry = some (site.entry : Int) ∧ site.Names r
  | first :: sites, t, site, i, hmem, hindex => by
    rcases mem_cons.mp hmem with rfl | hmem
    · have hget : (site.enter t)[i]? = some { (t[i]?).getD ⟨site.function.name, site.function.params, none⟩ with
          entry := some (site.entry : Int) } := by
        rw [enter, define_getElem?, if_pos (by rw [routineFor, hindex]; rfl)]
      obtain ⟨hlt, heq, -⟩ := Array.findIdx?_eq_some_iff_getElem.mp hindex
      have hlt : i < t.size := hlt
      have heq : t[i].name.eq site.function.name = true := heq
      rw [Array.getElem?_eq_getElem hlt, Option.getD_some] at hget
      obtain ⟨r, hr, hname, -⟩ := enterAll_grown sites (site.enter t) i _ hget
      refine ⟨r, hr, ?_⟩
      rcases enterAll_cases sites hr with hsame | ⟨site', hsite, hentry⟩
      · cases hget.symm.trans hsame
        exact ⟨site, mem_cons_self .., rfl, Or.inr heq⟩
      · exact ⟨site', mem_cons_of_mem _ hsite, hentry⟩
    · obtain ⟨r, hr, site', hsite, hentry⟩ :=
        enterAll_defined sites hmem ((first.enter_grown t).routineIndex? hindex)
      exact ⟨r, hr, site', mem_cons_of_mem _ hsite, hentry⟩

/-- Every function of the table was there before, or is that of a site. -/
theorem enterAll_origin : ∀ (sites : List DefinitionSite) {t : Array Routine} {i : Nat} {r : Routine},
    (enterAll sites t)[i]? = some r →
    (∃ r' ∈ t, r.name = r'.name ∧ r.params = r'.params) ∨
      ∃ site ∈ sites, r.name = site.function.name ∧ r.params = site.function.params
  | [], _, _, r, h => Or.inl ⟨r, Array.mem_of_getElem? h, rfl, rfl⟩
  | site :: sites, t, i, r, h => by
    rcases enterAll_origin sites h with ⟨r', hr', hname, hparams⟩ | ⟨site', hsite, hsame⟩
    · obtain ⟨j, hj⟩ := Array.mem_iff_getElem?.mp hr'
      have hj : (site.enter t)[j]? = some r' := hj
      rw [enter, define_getElem?] at hj
      split at hj
      · cases hj
        cases ht : t[j]? with
        | none =>
          rw [ht] at hname hparams
          exact Or.inr ⟨site, mem_cons_self .., hname, hparams⟩
        | some r'' =>
          rw [ht] at hname hparams
          exact Or.inl ⟨r'', Array.mem_of_getElem? ht, hname, hparams⟩
      · exact Or.inl ⟨r', Array.mem_of_getElem? hj, hname, hparams⟩
    · exact Or.inr ⟨site', mem_cons_of_mem _ hsite, hsame⟩

/-- A function that is found by its name has the entry of a site, if those that were there before are defined. -/
theorem entry_of_routineIndex? {sites : List DefinitionSite} {t : Array Routine}
    (hdefined : ∀ r ∈ t, ∃ site ∈ sites, site.function.name = r.name)
    (hindex : routineIndex? ⟨[], enterAll sites t⟩ x = some i) :
    ∃ r, (enterAll sites t)[i]? = some r ∧ ∃ site ∈ sites, r.entry = some (site.entry : Int) ∧ site.Names r := by
  obtain ⟨hlt, heq, hfirst⟩ := Array.findIdx?_eq_some_iff_getElem.mp hindex
  dsimp only at hlt heq hfirst
  by_cases hi : i < t.size
  · -- a definition of this function's name is about the first function that has it, which is this one
    obtain ⟨r, hr, hname, -⟩ := enterAll_grown sites t i t[i] (Array.getElem?_eq_getElem hi)
    obtain ⟨hlt', hget⟩ := Array.getElem?_eq_some_iff.mp hr
    rw [hget, hname] at heq
    obtain ⟨site, hsite, hsame⟩ := hdefined t[i] (Array.getElem_mem hi)
    have hself : t[i].name.eq t[i].name = true := Datum.eq_trans heq (Datum.eq_symm heq)
    cases hj : routineIndex? ⟨[], t⟩ site.function.name with
    | none =>
      have hnone := Array.findIdx?_eq_none_iff.mp hj t[i] (Array.getElem_mem hi)
      rw [hsame, hself] at hnone
      cases hnone
    | some j =>
      obtain ⟨hjlt, hjeq, hjfirst⟩ := Array.findIdx?_eq_some_iff_getElem.mp ((enterAll_grown sites t).routineIndex? hj)
      have hle : ¬ i < j := fun hij => hjfirst i hij (by rw [hget, hname, hsame]; exact hself)
      have hge : ¬ j < i := fun hji => hfirst j hji (Datum.eq_trans (hsame ▸ hjeq) heq)
      have hij : i = j := by omega
      subst hij
      exact enterAll_defined sites hsite hj
  · have hr : (enterAll sites t)[i]? = some (enterAll sites t)[i] := Array.getElem?_eq_getElem hlt
    refine ⟨_, hr, (enterAll_cases sites hr).resolve_left fun hold => ?_⟩
    rw [Array.getElem?_eq_none (by omega)] at hold
    cases hold

end DefinitionSite

namespace Layout

variable (primitives : List String)

mutual

/-- Where the functions of a statement are defined, in the order of the text. -/
def sites (shape : List Mark) (s : Point) : Node → List DefinitionSite
  | .ifThen cond yes => sites shape (s.skip (width primitives s.toNames cond + 2)) yes
  | .ifElse cond yes no =>
    let inside := s.skip (width primitives s.toNames cond + 2)
    sites shape inside yes ++ sites shape ((next primitives inside yes).skip 2) no
  | .loop cond body =>
    let inside := s.skip (width primitives s.toNames cond + 2)
    sites (.loop s.here ((next primitives inside body).here + 2) :: shape) inside body
  | .block body => sitesAll (.block :: shape) s.inBlock body
  | .define x value =>
    match value with
    | .function params body =>
      ⟨shape, s, ⟨x, params, body⟩⟩ :: sites (.function :: shape) (s.inFunction x params) body
    | _ => []
  | _ => []

def sitesAll (shape : List Mark) (s : Point) : List Node → List DefinitionSite
  | [] => []
  | n :: ns => sites shape s n ++ sitesAll shape (next primitives s n) ns

end

/-- Where the functions of a program are defined. -/
def definitions (body : List Node) : List DefinitionSite := sites primitives [] (origin body) (.block body)

theorem sites_variable {value : Node} (h : ∀ params body, value ≠ .function params body) (x : Datum)
    (shape : List Mark) (s : Point) : sites primitives shape s (.define x value) = [] := by
  rw [sites]
  exact h

end Layout

/-- The definitions of a piece of code: from the table before it they make the one after it. -/
structure Sited (primitives : List String) (t t' : Array Routine) (spots : List Spot) (functions : List Function)
    (sites : List DefinitionSite) : Prop where
  functions : sites.map (·.function) = functions
  table : t' = DefinitionSite.enterAll sites t
  listed : ∀ site ∈ sites, ∀ x ∈ site.listing primitives, x ∈ spots
  skipped : ∀ site ∈ sites, site.skip primitives ∈ spots
  grown : ∀ site ∈ sites, Grown (site.last primitives).routines t'
  written : ∀ site ∈ sites, ∃ body, site.function.body = .block body ∧ AreStats body

namespace Sited

variable {prims : List String} {t t' t'' : Array Routine} {spots more : List Spot}
  {functions functions' : List Function} {sites sites' : List DefinitionSite}

theorem nil (t : Array Routine) (spots : List Spot) : Sited prims t t spots [] [] :=
  ⟨rfl, rfl, by simp, by simp, by simp, by simp⟩

theorem grows (h : Sited prims t t' spots functions sites) : Grown t t' :=
  h.table ▸ DefinitionSite.enterAll_grown sites t

theorem weaken (h : Sited prims t t' spots functions sites) (hmore : ∀ x ∈ spots, x ∈ more) :
    Sited prims t t' more functions sites :=
  { h with
    listed := fun site hsite x hx => hmore x (h.listed site hsite x hx)
    skipped := fun site hsite => hmore _ (h.skipped site hsite) }

theorem append (h : Sited prims t t' spots functions sites) (h' : Sited prims t' t'' more functions' sites')
    {all : List Spot} (hspots : ∀ x ∈ spots, x ∈ all) (hmore : ∀ x ∈ more, x ∈ all) :
    Sited prims t t'' all (functions ++ functions') (sites ++ sites') where
  functions := by rw [map_append, h.functions, h'.functions]
  table := by
    rw [h'.table, h.table]
    exact foldl_append.symm
  listed site hsite x hx := by
    rcases mem_append.mp hsite with hsite | hsite
    · exact hspots x (h.listed site hsite x hx)
    · exact hmore x (h'.listed site hsite x hx)
  skipped site hsite := by
    rcases mem_append.mp hsite with hsite | hsite
    · exact hspots _ (h.skipped site hsite)
    · exact hmore _ (h'.skipped site hsite)
  grown site hsite := by
    rcases mem_append.mp hsite with hsite | hsite
    · exact (h.grown site hsite).trans h'.grows
    · exact h'.grown site hsite
  written site hsite := by
    rcases mem_append.mp hsite with hsite | hsite
    · exact h.written site hsite
    · exact h'.written site hsite

theorem site (site : DefinitionSite) (hbody : Sited prims site.inside.routines (site.last prims).routines
      (Layout.statement prims (.function :: site.shape) site.inside site.function.body) functions sites)
    (hlisted : ∀ x ∈ site.listing prims, x ∈ spots) (hskipped : site.skip prims ∈ spots)
    (hwritten : ∃ body, site.function.body = .block body ∧ AreStats body) :
    Sited prims site.point.routines (site.last prims).routines spots (site.function :: functions)
      (site :: sites) where
  functions := by rw [map_cons, hbody.functions]
  table := hbody.table
  listed := by
    simp only [mem_cons, forall_eq_or_imp]
    exact ⟨hlisted, fun site' hsite x hx => hlisted x (mem_append_left _ (hbody.listed site' hsite x hx))⟩
  skipped := by
    simp only [mem_cons, forall_eq_or_imp]
    exact ⟨hskipped, fun site' hsite => hlisted _ (mem_append_left _ (hbody.skipped site' hsite))⟩
  grown := by
    simp only [mem_cons, forall_eq_or_imp]
    exact ⟨.refl _, hbody.grown⟩
  written := by
    simp only [mem_cons, forall_eq_or_imp]
    exact ⟨hwritten, hbody.written⟩

end Sited

namespace Layout

variable (prims : List String)

mutual

theorem statement_sited : ∀ {n : Node}, IsStat n → ∀ (shape : List Mark) (s : Point),
    Sited prims s.routines (next prims s n).routines (statement prims shape s n) (functions n)
      (sites prims shape s n)
  | _, .exprStat _, shape, s => by simpa [next, functions, sites] using .nil s.routines _
  | _, .print _, shape, s => by simpa [next, functions, sites] using .nil s.routines _
  | _, @IsStat.ifThen cond yes _ hyes, shape, s => by
    have hyes := statement_sited hyes shape (s.skip (width prims s.toNames cond + 2))
    rw [next, statement, functions, sites]
    exact hyes.weaken (by simp +contextual)
  | _, @IsStat.ifElse cond yes no _ hyes hno, shape, s => by
    have hyes := statement_sited hyes shape (s.skip (width prims s.toNames cond + 2))
    have hno := statement_sited hno shape
      ((next prims (s.skip (width prims s.toNames cond + 2)) yes).skip 2)
    rw [next, statement, functions, sites]
    exact hyes.append hno (by simp +contextual) (by simp +contextual)
  | _, @IsStat.loop cond body _ hbody, shape, s => by
    have hbody := statement_sited hbody
      (.loop s.here ((next prims (s.skip (width prims s.toNames cond + 2)) body).here + 2) :: shape)
      (s.skip (width prims s.toNames cond + 2))
    rw [next, statement, functions, sites]
    exact hbody.weaken (by simp +contextual)
  | _, .breakLoop, shape, s => by simpa [next, functions, sites] using .nil s.routines _
  | _, .continueLoop, shape, s => by simpa [next, functions, sites] using .nil s.routines _
  | _, .block hbody, shape, s => by
    rw [next, statement, functions, sites]
    exact (statements_sited hbody (.block :: shape) s.inBlock).weaken (by simp +contextual)
  | _, @IsStat.function x xs body hbody, shape, s => by
    rw [next_function, Point.declare_routines, functions, sites]
    have hinside : Sited prims (s.inFunction x xs).routines
        (next prims (s.inFunction x xs) (.block body)).routines
        (statement prims (.function :: shape) (s.inFunction x xs) (.block body)) (functions (.block body))
        (sites prims (.function :: shape) (s.inFunction x xs) (.block body)) := by
      rw [next, statement, functions, sites]
      exact (statements_sited hbody (.block :: .function :: shape) (s.inFunction x xs).inBlock).weaken
        (by simp +contextual)
    rw [statement_function]
    refine Sited.site ⟨shape, s, ⟨x, xs, .block body⟩⟩ hinside (fun y hy => ?_) (mem_cons_self ..) ⟨body, rfl, hbody⟩
    rcases mem_append.mp hy with hy | hy
    · exact mem_cons_of_mem _ (mem_append_left _ hy)
    · exact mem_cons_of_mem _ (mem_append_right _ (mem_singleton.mp hy ▸ mem_cons_self ..))
  | _, .define x _ hne, shape, s => by
    rw [next_variable _ hne, Point.declare_routines, functions_variable hne, sites_variable _ hne]
    exact .nil _ _
  | _, .assign x _, shape, s => by simpa [next, functions, sites] using .nil s.routines _
  | _, .return, shape, s => by simpa [next, functions, sites] using .nil s.routines _
  | _, .returnValue _, shape, s => by simpa [next, functions, sites] using .nil s.routines _

theorem statements_sited : ∀ {ns : List Node}, AreStats ns → ∀ (shape : List Mark) (s : Point),
    Sited prims s.routines (nextAll prims s ns).routines (statements prims shape s ns)
      (functionsAll ns) (sitesAll prims shape s ns)
  | _, .nil, shape, s => by
    rw [nextAll, functionsAll, sitesAll]
    exact .nil _ _
  | _, .cons hn hns, shape, s => by
    rw [nextAll, Layout.statements, functionsAll, sitesAll]
    exact (statement_sited hn shape s).append (statements_sited hns shape _) (by simp +contextual)
      (by simp +contextual)

end

/-! ## Programs -/

mutual

/-- What is entered before anything is compiled is defined in the text. -/
theorem function_of_registered : ∀ {n : Node} {r : Routine}, IsStat n → r ∈ registered n →
    r.entry = some (-1) ∧ ∃ f ∈ functions n, f.name = r.name ∧ f.params = r.params
  | _, r, .block hbody, hr => by
    rw [registered] at hr
    rw [functions]
    exact function_of_registeredAll hbody hr
  | _, r, .function x xs _, hr => by
    rw [registered] at hr
    cases mem_singleton.mp hr
    rw [functions]
    exact ⟨rfl, _, mem_cons_self .., rfl, rfl⟩
  | _, r, @IsStat.define x value _ hne, hr => by
    rw [registered] at hr
    · cases hr
    · exact hne
  | _, r, .exprStat _, hr | _, r, .print _, hr | _, r, .ifThen _ _, hr | _, r, .ifElse _ _ _, hr
  | _, r, .loop _ _, hr | _, r, .breakLoop, hr | _, r, .continueLoop, hr | _, r, .assign _ _, hr
  | _, r, .return, hr | _, r, .returnValue _, hr => by simp [registered] at hr

theorem function_of_registeredAll : ∀ {ns : List Node} {r : Routine}, AreStats ns → r ∈ registeredAll ns →
    r.entry = some (-1) ∧ ∃ f ∈ functionsAll ns, f.name = r.name ∧ f.params = r.params
  | _, r, .nil, hr => by simp [registeredAll] at hr
  | _, r, .cons hn hns, hr => by
    rw [registeredAll] at hr
    rw [functionsAll]
    rcases mem_append.mp hr with hr | hr
    · obtain ⟨hentry, f, hf, hsame⟩ := function_of_registered hn hr
      exact ⟨hentry, f, mem_append_left _ hf, hsame⟩
    · obtain ⟨hentry, f, hf, hsame⟩ := function_of_registeredAll hns hr
      exact ⟨hentry, f, mem_append_right _ hf, hsame⟩

end

section

variable {body : List Node} (h : AreStats body)

include h

theorem program_sited :
    Sited prims (origin body).routines (finish prims body).routines (program prims body)
      (functionsAll body) (definitions prims body) := by
  have hsited := statement_sited prims (.block h) [] (origin body)
  rw [functions] at hsited
  exact hsited

/-- A function that is found by its name has the entry of a definition of that name. -/
theorem site_of_routineIndex?
    (hindex : routineIndex? ⟨[], (finish prims body).routines⟩ x = some i) :
    ∃ r, (finish prims body).routines[i]? = some r ∧
      ∃ site ∈ definitions prims body, r.entry = some (site.entry : Int) ∧ site.Names r := by
  have hsited := program_sited prims h
  rw [hsited.table] at hindex ⊢
  refine DefinitionSite.entry_of_routineIndex? (fun r hr => ?_) hindex
  obtain ⟨-, f, hf, hname, -⟩ := function_of_registeredAll h (by simpa [origin] using hr)
  rw [← hsited.functions] at hf
  obtain ⟨site, hsite, rfl⟩ := mem_map.mp hf
  exact ⟨site, hsite, hname⟩

/-- At the entry of a function stands the first instruction of its body. -/
theorem site_stands {site : DefinitionSite} (hsite : site ∈ definitions prims body) :
    ∃ y ∈ program prims body, y.address = site.entry ∧ y.shape = .function :: site.shape := by
  obtain ⟨inner, hbody, -⟩ := (program_sited prims h).written site hsite
  have hfirst : ⟨site.entry, .enter (nextAll prims site.inside.inBlock inner).slot, .function :: site.shape⟩ ∈
      site.listing prims := by
    rw [DefinitionSite.listing, hbody, statement]
    exact mem_append_left _ (mem_cons_self ..)
  exact ⟨_, (program_sited prims h).listed site hsite _ hfirst, rfl, rfl⟩

/-- The entry of a function is the address of an instruction, unless it is not known. -/
theorem entry_stands {r : Routine} (hr : r ∈ (finish prims body).routines) :
    r.entry = some (-1) ∨
      ∃ y ∈ program prims body, r.entry = some (y.address : Int) ∧ ∃ outer, y.shape = .function :: outer := by
  obtain ⟨i, hi⟩ := Array.mem_iff_getElem?.mp hr
  rw [(program_sited prims h).table] at hi
  rcases DefinitionSite.enterAll_cases _ hi with hold | ⟨site, hsite, hentry, -⟩
  · exact Or.inl (function_of_registeredAll h (by simpa [origin] using Array.mem_of_getElem? hold)).1
  · obtain ⟨y, hy, haddress, hshape⟩ := site_stands prims h hsite
    exact Or.inr ⟨y, hy, by rw [hentry, haddress], _, hshape⟩

end

end Layout

end Cilly
