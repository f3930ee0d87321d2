import Cilly.Proofs.Activations
import Cilly.Proofs.Parameters
import Mathlib

/-!
# The table of functions

Functions are entered into the table by name: first those that stand in the blocks of the program, with an entry that is not known yet, and
then, while a definition is compiled, the first function that has its name gets the entry; if there is none, one is added. So of
functions that share a name only the first is ever found, and it has the entry of the definition that was compiled last.

`entryOf` is the entry that a call finds, and `entryOf_enterAll` says which one it is. The table has one function for each
definition, with its parameters and its entry, exactly if no two definitions share a name (`function_table`).
-/

namespace Cilly

open Acting Node List Datum DefinitionSite

variable {r : Routine} {s : String} {site : DefinitionSite} {sites : List DefinitionSite} {t : Array Routine}

namespace DefinitionSite

/-- What the table should have for a definition. -/
def routine (site : DefinitionSite) : Routine := ⟨site.function.name, site.function.params, some (site.entry : Int)⟩

/-- The last definition of a name. -/
def latest? (x : Datum) (sites : List DefinitionSite) : Option DefinitionSite :=
  sites.reverse.find? fun site => site.function.name.eq x

theorem latest?_append (x : Datum) (sites : List DefinitionSite) (site : DefinitionSite) :
    latest? x (sites ++ [site]) = if site.function.name.eq x = true then some site else latest? x sites := by
  rw [latest?, reverse_append, reverse_singleton, singleton_append, find?_cons]
  cases site.function.name.eq x <;> rfl

theorem latest?_eq_some {x : Datum} (h : latest? x sites = some site) :
    site ∈ sites ∧ site.function.name.eq x = true := by
  unfold latest? at h
  exact ⟨mem_reverse.mp (mem_of_find?_eq_some h), by simpa using find?_some h⟩

theorem enterAll_append (sites : List DefinitionSite) (site : DefinitionSite) (t : Array Routine) :
    enterAll (sites ++ [site]) t = site.enter (enterAll sites t) := foldl_append

/-- Names of functions are texts. -/
def Texts (sites : List DefinitionSite) : Prop := ∀ site ∈ sites, ∃ s, site.function.name = .text s

theorem Texts.append (h : Texts (sites ++ [site])) :
    Texts sites ∧ ∃ s, site.function.name = .text s :=
  ⟨fun other hother => h other (mem_append_left _ hother), h site (mem_append_right _ (mem_singleton_self _))⟩

/-! ## Names -/

section

variable (site : DefinitionSite) (t : Array Routine)

theorem names_enter : (site.enter t).map (·.name) =
    match Names.routineIndex? ⟨[], t⟩ site.function.name with
    | some _ => t.map (·.name)
    | none => (t.map (·.name)).push site.function.name := by
  have hmodify : ∀ (t : Array Routine) (k : Nat) (entry : Option Int),
      (t.modify k fun r => { r with entry := entry }).map (·.name) = t.map (·.name) := by
    intro t k entry
    apply Array.ext_getElem?
    intro i
    rw [Array.getElem?_map, Array.getElem?_map, Array.getElem?_modify]
    split
    · rw [Option.map_map]
      rfl
    · rfl
  unfold enter Names.define
  cases Names.routineIndex? ⟨[], t⟩ site.function.name with
  | some i => exact hmodify ..
  | none =>
    rw [hmodify, Array.map_push]

theorem routineIndex?_eq (x : Datum) : Names.routineIndex? ⟨[], t⟩ x = (t.map (·.name)).findIdx? (·.eq x) := by
  rw [Array.findIdx?_map]
  rfl

variable {site}

theorem routineIndex?_enter (hname : site.function.name = .text s) (x : Datum) :
    Names.routineIndex? ⟨[], site.enter t⟩ x =
      if site.function.name.eq x = true then some (Names.routineFor ⟨[], t⟩ x) else Names.routineIndex? ⟨[], t⟩ x := by
  have hsame : site.function.name.eq x = true → x = site.function.name := by
    rw [hname]
    exact text_eq_iff.mp
  rw [routineIndex?_eq, names_enter, Names.routineFor]
  cases hindex : Names.routineIndex? ⟨[], t⟩ site.function.name with
  | some i =>
    dsimp only
    rw [← routineIndex?_eq]
    split
    · rename_i hx
      rw [hsame hx, hindex]
      rfl
    · rfl
  | none =>
    dsimp only
    rw [Array.findIdx?_push, ← routineIndex?_eq, Array.size_map]
    split
    · rename_i hx
      rw [hsame hx, hindex]
      rfl
    · exact Option.or_none

theorem name_of_routineFor (hname : site.function.name = .text s) {i : Nat}
    (hi : i = Names.routineFor ⟨[], t⟩ site.function.name) (hr : t[i]? = some r) : r.name = site.function.name := by
  obtain ⟨hlt, hget⟩ := Array.getElem?_eq_some_iff.mp hr
  cases hindex : Names.routineIndex? ⟨[], t⟩ site.function.name with
  | none =>
    rw [Names.routineFor, hindex] at hi
    exact absurd hi (Nat.ne_of_lt hlt)
  | some j =>
    rw [Names.routineFor, hindex] at hi
    obtain ⟨_, heq, -⟩ := Array.findIdx?_eq_some_iff_getElem.mp hindex
    have hij : i = j := hi
    subst hij
    rw [hname] at heq ⊢
    rw [← hget]
    exact eq_text_iff.mp heq

end

/-! ## Entries -/

/-- The entry that a call of a name finds. -/
def entryOf (t : Array Routine) (x : Datum) : Option Int :=
  (Names.routineIndex? ⟨[], t⟩ x).bind fun i => t[i]?.bind (·.entry)

theorem entryOf_enter (hname : site.function.name = .text s) (t : Array Routine) (x : Datum) :
    entryOf (site.enter t) x = if site.function.name.eq x = true then some (site.entry : Int) else entryOf t x := by
  unfold entryOf
  rw [routineIndex?_enter t hname]
  split
  · rename_i hx
    have hsame : x = site.function.name := by
      rw [hname] at hx ⊢
      exact text_eq_iff.mp hx
    rw [Option.bind_some, enter, Names.define_getElem?, hsame, if_pos rfl]
    rfl
  · rename_i hx
    cases hindex : Names.routineIndex? ⟨[], t⟩ x with
    | none => rfl
    | some i =>
      -- another function is not the one that is defined
      rw [Option.bind_some, Option.bind_some, enter, Names.define_getElem?, if_neg]
      intro hi
      obtain ⟨hlt, heq, -⟩ := Array.findIdx?_eq_some_iff_getElem.mp hindex
      rw [name_of_routineFor t hname hi (Array.getElem?_eq_getElem hlt)] at heq
      exact hx heq

/-- **The last definition of a name is the one that is called.** -/
theorem entryOf_enterAll (htexts : Texts sites) (t : Array Routine) (x : Datum) :
    entryOf (enterAll sites t) x =
      match latest? x sites with
      | some site => some (site.entry : Int)
      | none => entryOf t x := by
  induction sites using reverseRecOn with
  | nil => rfl
  | append_singleton sites site ih =>
    obtain ⟨hsites, s, hname⟩ := htexts.append
    rw [enterAll_append, entryOf_enter hname, latest?_append]
    by_cases hx : site.function.name.eq x = true
    · rw [if_pos hx, if_pos hx]
    · rw [if_neg hx, if_neg hx, ih hsites]

/-- Names that are found are those of definitions or were there before. -/
theorem routineIndex?_enterAll (htexts : Texts sites) (t : Array Routine)
    (hsite : site ∈ sites) : ∃ i, Names.routineIndex? ⟨[], enterAll sites t⟩ site.function.name = some i := by
  induction sites using reverseRecOn with
  | nil => cases hsite
  | append_singleton sites last ih =>
    obtain ⟨hsites, s, hname⟩ := htexts.append
    rw [enterAll_append, routineIndex?_enter _ hname]
    by_cases hx : last.function.name.eq site.function.name = true
    · exact ⟨_, if_pos hx⟩
    · rw [if_neg hx]
      rcases mem_append.mp hsite with hsite | hsite
      · exact ih hsites hsite
      · rw [mem_singleton.mp hsite, hname, text_eq_iff] at hx
        exact absurd rfl hx

/-! ## Functions that share a name -/

/-- Functions whose entry is known are the first of their name. -/
def Leading (t : Array Routine) : Prop :=
  ∀ (i : Nat) (r : Routine), t[i]? = some r → r.entry ≠ some (-1) → Names.routineIndex? ⟨[], t⟩ r.name = some i

theorem Leading.enter {site : DefinitionSite} {s : String} (hname : site.function.name = .text s) {t : Array Routine}
    (h : Leading t) : Leading (site.enter t) := by
  intro i r hr hentry
  rw [DefinitionSite.enter, Names.define_getElem?] at hr
  rw [routineIndex?_enter t hname]
  by_cases hi : i = Names.routineFor ⟨[], t⟩ site.function.name
  · rw [if_pos hi] at hr
    have hsame : r.name = site.function.name := by
      rw [← Option.some.inj hr]
      cases hget : t[i]? with
      | none => rfl
      | some old => exact name_of_routineFor (r := old) t hname hi hget
    rw [if_pos (by rw [hsame, hname]; exact Datum.text_eq_iff.mpr rfl), hsame, ← hi]
  · rw [if_neg hi] at hr
    have hindex := h i r hr hentry
    rw [if_neg fun heq => hi ?_, hindex]
    rw [hname, Datum.text_eq_iff] at heq
    rw [Names.routineFor, hname, ← heq, hindex]
    rfl

theorem Leading.enterAll (htexts : Texts sites) (h : Leading t) :
    Leading (enterAll sites t) := by
  induction sites using reverseRecOn with
  | nil => exact h
  | append_singleton sites site ih =>
    obtain ⟨hsites, s, hname⟩ := htexts.append
    rw [enterAll_append]
    exact (ih hsites).enter hname

theorem nodup_enterAll (htexts : Texts sites)
    (h : (t.map (·.name)).toList.Nodup) : ((enterAll sites t).map (·.name)).toList.Nodup := by
  induction sites using reverseRecOn with
  | nil => exact h
  | append_singleton sites site ih =>
    obtain ⟨hsites, s, hname⟩ := htexts.append
    rw [enterAll_append, names_enter]
    cases hindex : Names.routineIndex? ⟨[], enterAll sites t⟩ site.function.name with
    | some i => exact ih hsites
    | none =>
      rw [routineIndex?_eq] at hindex
      rw [Array.toList_push, nodup_append]
      refine ⟨ih hsites, nodup_singleton _, fun x hx y hy heq => ?_⟩
      have hdiffers := Array.findIdx?_eq_none_iff.mp hindex x (Array.mem_toList_iff.mp hx)
      rw [heq, mem_singleton.mp hy, hname, text_eq_iff.mpr rfl] at hdiffers
      cases hdiffers

theorem routineIndex?_of_nodup (h : (t.map (·.name)).toList.Nodup) {i : Nat}
    (hr : t[i]? = some r) (hname : r.name = .text s) : Names.routineIndex? ⟨[], t⟩ r.name = some i := by
  obtain ⟨hlt, hget⟩ := Array.getElem?_eq_some_iff.mp hr
  refine Array.findIdx?_eq_some_iff_getElem.mpr ⟨hlt, ?_, fun j hj heq => ?_⟩
  · rw [show (⟨[], t⟩ : Cilly.Names).routines[i] = r from hget, hname]
    exact text_eq_iff.mpr rfl
  · rw [hname, eq_text_iff, ← hname, ← hget] at heq
    rw [Array.toList_map] at h
    have hsame : (t.toList.map (·.name))[j]? = (t.toList.map (·.name))[i]? := by
      rw [getElem?_map, getElem?_map, Array.getElem?_toList, Array.getElem?_toList, Array.getElem?_eq_getElem hlt,
        Array.getElem?_eq_getElem (Nat.lt_trans hj hlt)]
      exact congrArg some heq
    have hlength : j < (t.toList.map (·.name)).length := by simpa using Nat.lt_trans hj hlt
    exact Nat.ne_of_lt hj ((getElem?_inj hlength h).mp hsame)

theorem latest?_of_nodup (htexts : Texts sites) (h : (sites.map (·.function.name)).Nodup)
    (hsite : site ∈ sites) : latest? site.function.name sites = some site := by
  obtain ⟨s, hname⟩ := htexts site hsite
  cases hlatest : latest? site.function.name sites with
  | none =>
    have hnone := find?_eq_none.mp hlatest site (mem_reverse.mpr hsite)
    rw [hname, text_eq_iff] at hnone
    exact absurd rfl hnone
  | some other =>
    obtain ⟨hother, heq⟩ := latest?_eq_some hlatest
    rw [hname, eq_text_iff, ← hname] at heq
    rw [inj_on_of_nodup_map h hother hsite heq]

end DefinitionSite

/-! ## Programs -/

namespace Layout

variable (prims : List String)

mutual

theorem registered_sublist : ∀ {n : Node}, IsStat n → ((registered n).map (·.name)).Sublist ((functions n).map (·.name))
  | _, .block hbody => by
    rw [registered, functions]
    exact registeredAll_sublist hbody
  | _, .function x xs _ => by
    rw [registered, functions]
    exact (nil_sublist _).cons_cons x
  | _, @IsStat.define x value _ hne => by
    rw [registered]
    · exact nil_sublist _
    · exact hne
  | _, .exprStat _ | _, .print _ | _, .ifThen _ _ | _, .ifElse _ _ _ | _, .loop _ _ | _, .breakLoop | _, .continueLoop
  | _, .assign _ _ | _, .return | _, .returnValue _ => by
    rw [registered]
    · exact nil_sublist _
    all_goals simp

theorem registeredAll_sublist : ∀ {ns : List Node}, AreStats ns →
    ((registeredAll ns).map (·.name)).Sublist ((functionsAll ns).map (·.name))
  | _, .nil => Sublist.refl _
  | _, .cons hn hns => by
    rw [registeredAll, functionsAll, map_append, map_append]
    exact (registered_sublist hn).append (registeredAll_sublist hns)

end

section

variable {body : List Node} (hbody : AreStats body) (htexts : HasTexts body)

include hbody

theorem definitions_names : (definitions prims body).map (·.function.name) = (functionsAll body).map (·.name) := by
  rw [← (program_sited prims hbody).functions, map_map]
  rfl

theorem origin_leading : DefinitionSite.Leading (origin body).routines := by
  intro i r hr hentry
  have hregistered : r ∈ registeredAll body := by simpa [origin] using Array.mem_of_getElem? hr
  exact absurd (function_of_registeredAll hbody hregistered).1 hentry

include htexts

theorem definitions_texts : DefinitionSite.Texts (definitions prims body) := by
  intro site hsite
  have hfunction : site.function ∈ functionsAll body := by
    rw [← (program_sited prims hbody).functions]
    exact mem_map_of_mem hsite
  exact htexts _ (functionsAll_written body hfunction)

/-- What a call of a name finds is the last definition of that name. -/
theorem latest?_of_routineIndex? {x : Datum} {id : Nat}
    (hindex : Names.routineIndex? ⟨[], (finish prims body).routines⟩ x = some id) :
    ∃ site r, latest? x (definitions prims body) = some site ∧
      (finish prims body).routines[id]? = some r ∧ r.entry = some (site.entry : Int) := by
  obtain ⟨r, hr, found, hfound, hentry, hnames⟩ := site_of_routineIndex? prims hbody hindex
  have hof : entryOf (finish prims body).routines x = r.entry := by
    rw [entryOf, hindex, Option.bind_some, hr]
    rfl
  rw [(program_sited prims hbody).table, entryOf_enterAll (definitions_texts prims hbody htexts)] at hof
  cases hlatest : latest? x (definitions prims body) with
  | some site =>
    rw [hlatest] at hof
    exact ⟨site, r, rfl, hr, hof.symm⟩
  | none =>
    -- the function that was found is defined under this name
    obtain ⟨s, hname⟩ := definitions_texts prims hbody htexts found hfound
    obtain ⟨hlt, heq, -⟩ := Array.findIdx?_eq_some_iff_getElem.mp hindex
    have hsame : r.name = found.function.name := by
      rcases hnames with hsame | heq
      · exact hsame
      · rw [hname] at heq ⊢
        exact eq_text_iff.mp heq
    have hnone := find?_eq_none.mp hlatest found (mem_reverse.mpr hfound)
    rw [← hsame] at hnone
    rw [show (finish prims body).routines[id] = r from (Array.getElem?_eq_some_iff.mp hr).2] at heq
    exact absurd heq hnone

/-- No name is in the table twice if no two definitions share a name. -/
theorem table_names_nodup (hdistinct : ((functionsAll body).map (·.name)).Nodup) :
    ((finish prims body).routines.map (·.name)).toList.Nodup := by
  rw [(program_sited prims hbody).table]
  refine nodup_enterAll (definitions_texts prims hbody htexts) ?_
  rw [Array.toList_map]
  exact hdistinct.sublist (registeredAll_sublist hbody)

theorem exists_site_of_routine (hdistinct : ((functionsAll body).map (·.name)).Nodup)
    (hr : r ∈ (finish prims body).routines) : ∃ site ∈ definitions prims body, site.routine = r := by
  have hsited := program_sited prims hbody
  obtain ⟨i, hi⟩ := Array.mem_iff_getElem?.mp hr
  obtain ⟨f, hf, hname, hparams⟩ := function_of_routine hbody hi
  obtain ⟨s, htext⟩ := htexts _ (functionsAll_written body hf)
  have hindex := routineIndex?_of_nodup (table_names_nodup prims hbody htexts hdistinct) hi
    (hname.trans htext)
  obtain ⟨site, r', hlatest, hr', hentry⟩ := latest?_of_routineIndex? prims hbody htexts hindex
  cases hi.symm.trans hr'
  obtain ⟨hsite, heq⟩ := latest?_eq_some hlatest
  have hsame : site.function.name = r.name := by
    rw [hname, htext] at heq ⊢
    exact eq_text_iff.mp heq
  have hfunction : site.function ∈ functionsAll body := by
    rw [← hsited.functions]
    exact mem_map_of_mem hsite
  have hf' : site.function = f := inj_on_of_nodup_map hdistinct hfunction hf (hsame.trans hname)
  refine ⟨site, hsite, ?_⟩
  rw [routine, ← hentry, hf', ← hname, ← hparams]

/-- The table has what every definition should put there, and nothing else, if no two definitions share a name. -/
theorem table_perm_of_nodup (hdistinct : ((functionsAll body).map (·.name)).Nodup) :
    (finish prims body).routines.toList.Perm ((definitions prims body).map (·.routine)) := by
  have hsited := program_sited prims hbody
  have hsites : ((definitions prims body).map (·.function.name)).Nodup := by
    rw [definitions_names prims hbody]
    exact hdistinct
  have hroutines : (((definitions prims body).map (·.routine)).map (·.name)).Nodup := by
    rw [map_map]
    exact hsites
  have htable : ((finish prims body).routines.toList.map (·.name)).Nodup := by
    rw [← Array.toList_map]
    exact table_names_nodup prims hbody htexts hdistinct
  refine (perm_ext_iff_of_nodup htable.of_map hroutines.of_map).mpr fun r => ⟨fun hr => ?_, fun hr => ?_⟩
  · exact mem_map.mpr (exists_site_of_routine prims hbody htexts hdistinct (Array.mem_toList_iff.mp hr))
  · -- the function that is found under the name of the definition is its own
    obtain ⟨site, hsite, rfl⟩ := mem_map.mp hr
    obtain ⟨s, hname⟩ := definitions_texts prims hbody htexts site hsite
    obtain ⟨i, hi⟩ := routineIndex?_enterAll (definitions_texts prims hbody htexts)
      (origin body).routines hsite
    rw [← hsited.table] at hi
    obtain ⟨hlt, heq, -⟩ := Array.findIdx?_eq_some_iff_getElem.mp hi
    rw [hname, eq_text_iff, ← hname] at heq
    have hmem : (finish prims body).routines[i] ∈ (finish prims body).routines := Array.getElem_mem hlt
    obtain ⟨other, hother, hroutine⟩ := exists_site_of_routine prims hbody htexts hdistinct hmem
    have hsame : other = site := by
      refine inj_on_of_nodup_map hsites hother hsite ?_
      rw [← heq, ← hroutine]
      rfl
    rw [← hsame, hroutine]
    exact Array.mem_toList_iff.mpr hmem

/-- Definitions that share a name do not all come into the table. -/
theorem nodup_of_table_perm (h : (finish prims body).routines.toList.Perm ((definitions prims body).map (·.routine))) :
    ((functionsAll body).map (·.name)).Nodup := by
  have hleading : DefinitionSite.Leading (finish prims body).routines := by
    rw [(program_sited prims hbody).table]
    exact (origin_leading hbody).enterAll (definitions_texts prims hbody htexts)
  have hfirst : ∀ (i : Nat) (r : Routine), (finish prims body).routines[i]? = some r →
      Names.routineIndex? ⟨[], (finish prims body).routines⟩ r.name = some i := by
    intro i r hr
    refine hleading i r hr ?_
    obtain ⟨site, -, rfl⟩ := mem_map.mp (h.mem_iff.mp (Array.mem_toList_iff.mpr (Array.mem_of_getElem? hr)))
    simp [routine]
  rw [← definitions_names prims hbody]
  have hnames := h.map (·.name)
  rw [map_map] at hnames
  refine hnames.nodup_iff.mp (nodup_iff_getElem?_ne_getElem?.mpr fun i j hij hj heq => ?_)
  rw [length_map, Array.length_toList] at hj
  have hi : i < (finish prims body).routines.size := Nat.lt_trans hij hj
  have hsame : (finish prims body).routines[i].name = (finish prims body).routines[j].name := by
    simpa [hi, hj] using heq
  have hindex := hfirst i _ (Array.getElem?_eq_getElem hi)
  rw [hsame, hfirst j _ (Array.getElem?_eq_getElem hj)] at hindex
  exact Nat.ne_of_gt hij (Option.some.inj hindex)

end

end Layout

/-- **The table of functions.** Take a program text that compiles. Its definitions are those of the source, and the code of the
body of each stands at its entry. The table has one function for each definition, with its parameters and its entry, exactly if
no two definitions share a name. A call of a name leads to the last definition of that name; if no two share a name, that is
the one there is. -/
theorem Program.function_table {text : String} {body : List Node} {primitives : List String} {p : Program}
    (hread : Node.ofText text = .ok (.program body)) (hp : Program.ofNode primitives (.program body) = .ok p) :
    (Layout.definitions primitives body).map (·.function) = functionsAll body ∧
      (∀ site ∈ Layout.definitions primitives body, p.Follows (site.listing primitives)) ∧
      (p.routines.toList.Perm ((Layout.definitions primitives body).map (·.routine)) ↔
        ((functionsAll body).map (·.name)).Nodup) ∧
      (((functionsAll body).map (·.name)).Nodup → ∀ site ∈ Layout.definitions primitives body,
        DefinitionSite.latest? site.function.name (Layout.definitions primitives body) = some site) ∧
      ∀ x ∈ Layout.scenes primitives body, ∀ {id start : Nat} {c : Names} {f : Datum} {args : List Node},
        x.instr = .call id → x.subject = .call c start (.name f) args →
        ∃ site, DefinitionSite.latest? f (Layout.definitions primitives body) = some site ∧
          p.routines[id]?.bind (·.entry) = some (site.entry : Int) ∧
          ∀ (m m' : Machine) (w : Int), m.program = p → m.pc = x.address → m.next = (.ok w, m') → m'.pc = site.entry := by
  obtain ⟨_, heq, hbody⟩ := Node.areStats_of_text hread
  cases heq
  have hlaid := Program.laidOut hbody hp
  have htexts := hasTexts_of_text hread
  have hsited := Layout.program_sited primitives hbody
  refine ⟨hsited.functions, fun site hsite x hx => hlaid.follows x (hsited.listed site hsite x hx), ?_, ?_, ?_⟩
  · rw [hlaid.routines]
    exact ⟨Layout.nodup_of_table_perm primitives hbody htexts, Layout.table_perm_of_nodup primitives hbody htexts⟩
  · intro hdistinct site hsite
    refine DefinitionSite.latest?_of_nodup (Layout.definitions_texts primitives hbody htexts) ?_ hsite
    rw [Layout.definitions_names primitives hbody]
    exact hdistinct
  · intro x hx id start c f args hinstr hsubject
    have hfits := Layout.program_fits primitives hbody x hx
    rw [Scene.Fits, hinstr] at hfits
    obtain ⟨c', start', y, args', hsubject', hindex, -⟩ := hfits
    rw [hsubject] at hsubject'
    cases hsubject'
    obtain ⟨site, r, hlatest, hr, hentry⟩ := Layout.latest?_of_routineIndex? primitives hbody htexts hindex
    rw [← hlaid.routines] at hr
    refine ⟨site, hlatest, by rw [hr]; exact hentry, fun m m' w hprogram hpc hnext => ?_⟩
    have hmoves := Machine.moves_of_scene hbody hlaid hprogram hx hpc hnext
    rw [hinstr] at hmoves
    obtain ⟨⟨r', hr', hentry'⟩, -⟩ := hmoves
    rw [hprogram, hr] at hr'
    cases hr'
    exact Option.some.inj (hentry'.symm.trans hentry)

/-- `var f = fun() { }; f(); { var f = fun(x) { }; }`: the call leads to the second function. -/
theorem Program.call_of_shadowed_function :
    ∃ (body : List Node) (p : Program), Program.ofNode [] (.program body) = .ok p ∧
      ¬ p.routines.toList.Perm ((Layout.definitions [] body).map (·.routine)) ∧
      ∀ (m m' : Machine) (w : Int), m.program = p → m.pc = 13 → m.next = (.ok w, m') → m'.pc = 20 := by
  let body : List Node :=
    [.define (.text "f") (.function [] (.block [])), .exprStat (.call (.name (.text "f")) []),
      .block [.define (.text "f") (.function [.text "x"] (.block []))]]
  let p : Program :=
    { code := #[13, 1, 9, 8, 13, 0, 14, 16, 1, 0, 6, 0, 0, 15, 0, 12, 13, 1, 9, 24, 13, 0, 14, 16, 1, 0, 6, 0, 0, 14, 14]
      consts := #[.number (.int 0)]
      scopes := #[#[], #[.text "f"], #[], #[], #[.text "f"], #[.text "x"], #[]]
      routines := #[⟨.text "f", [], some 20⟩, ⟨.text "f", [.text "x"], some (-1)⟩] }
  have hread : Node.ofText "var f = fun() \x7b \x7d; f(); \x7b var f = fun(x) \x7b \x7d; \x7d" = .ok (.program body) := by cbv
  have hp : Program.ofNode [] (.program body) = .ok p := by cbv
  obtain ⟨-, -, htable, -, hcalls⟩ := Program.function_table hread hp
  have hlt : 7 < (Layout.scenes [] body).length := by decide +kernel
  generalize hx : (Layout.scenes [] body).get ⟨7, hlt⟩ = x
  have hscene : (x.address, x.instr, x.subject) =
      (13, .call 0, .call ⟨[#[.text "f"], #[]], #[⟨.text "f", [], some 4⟩, ⟨.text "f", [.text "x"], some (-1)⟩]⟩ 13
        (.name (.text "f")) []) := by
    rw [← hx]
    cbv
  obtain ⟨haddress, hscene⟩ := Prod.mk.inj hscene
  obtain ⟨hinstr, hsubject⟩ := Prod.mk.inj hscene
  obtain ⟨site, -, hentry, hsteps⟩ := hcalls x (hx ▸ List.get_mem _ _) hinstr hsubject
  have hsite : (site.entry : Int) = 20 := (Option.some.inj hentry).symm
  refine ⟨body, p, hp, fun hperm => ?_, fun m m' w hprogram hpc hnext => ?_⟩
  · have hdistinct := htable.mp hperm
    simp [body, functionsAll, functions] at hdistinct
  · rw [← hsite]
    exact hsteps m m' w hprogram (by rw [hpc, haddress]; rfl) hnext

end Cilly
