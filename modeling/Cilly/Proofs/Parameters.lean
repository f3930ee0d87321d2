import Cilly.Proofs.Compiling
import Cilly.Proofs.Resolution
import Mathlib.Data.List.Nodup

/-!
# Names and parameters

A call looks among the scopes of the program for one that has the names of the parameters, and takes as many arguments as
that has names. Names of a text are texts, so equal names are the same, and no scope has a name twice. Hence the first scope with the
right names has as many as there are parameters (`frameSize_eq`). If no two functions have one name, then the
parameters in the table are those of the definition that is called (`params_of_site`).
-/

namespace Cilly

open Node List Layout

namespace Node

/-! ## Names of a text -/

mutual

theorem uses_written : ∀ (n : Node) {x : Datum}, x ∈ uses n → ⟨"id", x⟩ ∈ leaves n
  | .name y, x, h => by
    rw [uses] at h
    rw [leaves, mem_singleton.mp h]
    exact mem_singleton_self _
  | .unary _ e, x, h | .exprStat e, x, h | .returnValue e, x, h => by
    rw [uses] at h
    rw [leaves]
    exact uses_written e h
  | .binary _ l r, x, h | .ifThen l r, x, h | .loop l r, x, h => by
    rw [uses] at h
    rw [leaves]
    exact (mem_append.mp h).elim (fun h => mem_append_left _ (uses_written l h))
      fun h => mem_append_right _ (uses_written r h)
  | .ifElse c yes no, x, h => by
    rw [uses] at h
    rw [leaves]
    rcases mem_append.mp h with h | h
    · exact mem_append_left _ (uses_written c h)
    · refine mem_append_right _ ?_
      exact (mem_append.mp h).elim (fun h => mem_append_left _ (uses_written yes h))
        fun h => mem_append_right _ (uses_written no h)
  | .call callee args, x, h => by
    rw [uses] at h
    rw [leaves]
    exact mem_append_right _ (usesAll_written args h)
  | .print args, x, h | .block args, x, h => by
    rw [uses] at h
    rw [leaves]
    exact usesAll_written args h
  | .define y value, x, h => by
    rw [uses] at h
    rw [leaves]
    exact mem_cons_of_mem _ (uses_written value h)
  | .function params body, x, h => by
    rw [uses] at h
    rw [leaves]
    exact mem_append_right _ (uses_written body h)
  | .assign y value, x, h => by
    rw [uses] at h
    rw [leaves]
    rcases mem_cons.mp h with rfl | h
    · exact mem_cons_self ..
    · exact mem_cons_of_mem _ (uses_written value h)
  | .program _, x, h | .literal _ _, x, h | .breakLoop, x, h | .continueLoop, x, h | .return, x, h => by
    simp [uses] at h

theorem usesAll_written : ∀ (ns : List Node) {x : Datum}, x ∈ usesAll ns → ⟨"id", x⟩ ∈ leavesAll ns
  | [], x, h => by simp [usesAll] at h
  | n :: ns, x, h => by
    rw [usesAll] at h
    rw [leavesAll]
    exact (mem_append.mp h).elim (fun h => mem_append_left _ (uses_written n h))
      fun h => mem_append_right _ (usesAll_written ns h)

end

theorem declares_written : ∀ (n : Node) {x : Datum}, x ∈ declares n → ⟨"id", x⟩ ∈ leaves n
  | .ifThen c yes, x, h => by
    rw [declares] at h
    rw [leaves]
    exact mem_append_right _ (declares_written yes h)
  | .ifElse c yes no, x, h => by
    rw [declares] at h
    rw [leaves]
    refine mem_append_right _ ?_
    exact (mem_append.mp h).elim (fun h => mem_append_left _ (declares_written yes h))
      fun h => mem_append_right _ (declares_written no h)
  | .loop c body, x, h => by
    rw [declares] at h
    rw [leaves]
    exact mem_append_right _ (declares_written body h)
  | .define y value, x, h => by
    rw [declares] at h
    rw [leaves, mem_singleton.mp h]
    exact mem_cons_self ..

theorem declaresAll_written : ∀ (ns : List Node) {x : Datum}, x ∈ declaresAll ns → ⟨"id", x⟩ ∈ leavesAll ns
  | [], x, h => by simp [declaresAll] at h
  | n :: ns, x, h => by
    rw [declaresAll] at h
    rw [leavesAll]
    exact (mem_append.mp h).elim (fun h => mem_append_left _ (declares_written n h))
      fun h => mem_append_right _ (declaresAll_written ns h)

mutual

theorem scopes_written : ∀ (n : Node) {s : Scope} {x : Datum}, s ∈ scopes n → x ∈ s.names → ⟨"id", x⟩ ∈ leaves n
  | .block body, s, x, hs, hx => by
    rw [scopes] at hs
    rw [leaves]
    rcases mem_cons.mp hs with rfl | hs
    · exact declaresAll_written body hx
    · exact scopesAll_written body hs hx
  | .ifThen c yes, s, x, hs, hx => by
    rw [scopes] at hs
    rw [leaves]
    exact mem_append_right _ (scopes_written yes hs hx)
  | .ifElse c yes no, s, x, hs, hx => by
    rw [scopes] at hs
    rw [leaves]
    refine mem_append_right _ ?_
    exact (mem_append.mp hs).elim (fun hs => mem_append_left _ (scopes_written yes hs hx))
      fun hs => mem_append_right _ (scopes_written no hs hx)
  | .loop c body, s, x, hs, hx => by
    rw [scopes] at hs
    rw [leaves]
    exact mem_append_right _ (scopes_written body hs hx)
  | .define y (.function params body), s, x, hs, hx => by
    rw [scopes] at hs
    rw [leaves, leaves]
    refine mem_cons_of_mem _ ?_
    rcases mem_cons.mp hs with rfl | hs
    · exact mem_append_left _ (mem_map_of_mem hx)
    · exact mem_append_right _ (scopes_written body hs hx)

theorem scopesAll_written : ∀ (ns : List Node) {s : Scope} {x : Datum}, s ∈ scopesAll ns → x ∈ s.names →
    ⟨"id", x⟩ ∈ leavesAll ns
  | [], s, x, hs, _ => by simp [scopesAll] at hs
  | n :: ns, s, x, hs, hx => by
    rw [scopesAll] at hs
    rw [leavesAll]
    exact (mem_append.mp hs).elim (fun hs => mem_append_left _ (scopes_written n hs hx))
      fun hs => mem_append_right _ (scopesAll_written ns hs hx)

end

mutual

theorem functions_written : ∀ (n : Node) {f : Function}, f ∈ functions n → ⟨"id", f.name⟩ ∈ leaves n
  | .program body, f, hf | .block body, f, hf => by
    rw [functions] at hf
    rw [leaves]
    exact functionsAll_written body hf
  | .ifThen c yes, f, hf => by
    rw [functions] at hf
    rw [leaves]
    exact mem_append_right _ (functions_written yes hf)
  | .ifElse c yes no, f, hf => by
    rw [functions] at hf
    rw [leaves]
    refine mem_append_right _ ?_
    exact (mem_append.mp hf).elim (fun hf => mem_append_left _ (functions_written yes hf))
      fun hf => mem_append_right _ (functions_written no hf)
  | .loop c body, f, hf => by
    rw [functions] at hf
    rw [leaves]
    exact mem_append_right _ (functions_written body hf)
  | .define y (.function params body), f, hf => by
    rw [functions] at hf
    rw [leaves, leaves]
    rcases mem_cons.mp hf with rfl | hf
    · exact mem_cons_self ..
    · exact mem_cons_of_mem _ (mem_append_right _ (functions_written body hf))

theorem functionsAll_written : ∀ (ns : List Node) {f : Function}, f ∈ functionsAll ns →
    ⟨"id", f.name⟩ ∈ leavesAll ns
  | [], f, hf => by simp [functionsAll] at hf
  | n :: ns, f, hf => by
    rw [functionsAll] at hf
    rw [leavesAll]
    exact (mem_append.mp hf).elim (fun hf => mem_append_left _ (functions_written n hf))
      fun hf => mem_append_right _ (functionsAll_written ns hf)

end

/-- Every name in the text is a text. -/
def HasTexts (body : List Node) : Prop := ∀ x : Datum, ⟨"id", x⟩ ∈ leavesAll body → ∃ s, x = .text s

theorem hasTexts_of_text {src : String} {body : List Node} (h : Node.ofText src = .ok (.program body)) :
    HasTexts body := fun x hx => (leaves_of_text h ⟨"id", x⟩ hx).name rfl

end Node

/-- In a text a variable is found where its very name is declared, unless the name is that of a primitive. -/
theorem Layout.found_of_access {prims : List String} {body : List Node} (hbody : AreStats body) (htexts : HasTexts body)
    {x : Scene} (hx : x ∈ scenes prims body) {depth index : Int}
    (hinstr : x.instr = .load depth index ∨ x.instr = .store depth index) :
    ∃ y, x.subject = .variable y ∧ (x.view.Has depth index y ∨ y ∈ usesAll body ∧ Provides prims depth index y) := by
  have hfits := program_fits prims hbody x hx
  have hvariable : ∃ y, x.subject = .variable y ∧ (x.view.Has depth index y ∨ y ∈ usesAll body ∧
      ((∃ z, z.eq y = true ∧ x.view.Has depth index z) ∨ Provides prims depth index y)) := by
    rcases hinstr with hinstr | hinstr
    · rw [Scene.Fits, hinstr] at hfits
      exact hfits
    · rw [Scene.Fits, hinstr] at hfits
      exact hfits
  obtain ⟨y, hsubject, hhas | ⟨hused, ⟨z, heq, hhas⟩ | hprovides⟩⟩ := hvariable
  · exact ⟨y, hsubject, Or.inl hhas⟩
  · -- names of a text that are equal are the same
    obtain ⟨s, rfl⟩ := htexts y (usesAll_written body hused)
    cases Datum.eq_text_iff.mp heq
    exact ⟨_, hsubject, Or.inl hhas⟩
  · exact ⟨y, hsubject, Or.inr ⟨hused, hprovides⟩⟩

/-! ## The size of a frame -/

namespace MachineM

variable {params : List Datum} {scopes : List (Array Datum)}

theorem checkNames_texts {xs : List Datum} (h : ∀ x ∈ xs, ∃ s, x = .text s) : checkNames xs = .ok () := by
  rw [checkNames, if_neg]
  rw [any_eq_true]
  rintro ⟨x, hx, hkind⟩
  obtain ⟨s, rfl⟩ := h x hx
  simp [Datum.kind] at hkind

theorem sameNames_texts {xs ys : List Datum} (hxs : ∀ x ∈ xs, ∃ s, x = .text s) (hys : ∀ y ∈ ys, ∃ s, y = .text s) :
    sameNames xs ys = true ↔ xs ⊆ ys ∧ ys ⊆ xs := by
  have hany : ∀ {xs ys : List Datum}, (∀ x ∈ xs, ∃ s, x = .text s) →
      ((xs.all fun x => ys.any (Datum.eq x)) = true ↔ xs ⊆ ys) := by
    intro xs ys hxs
    rw [all_eq_true]
    refine ⟨fun h x hx => ?_, fun h x hx => ?_⟩
    · obtain ⟨y, hy, heq⟩ := any_eq_true.mp (h x hx)
      obtain ⟨s, rfl⟩ := hxs x hx
      rwa [Datum.text_eq_iff.mp heq] at hy
    · obtain ⟨s, rfl⟩ := hxs x hx
      exact any_eq_true.mpr ⟨_, h hx, Datum.text_eq_iff.mpr rfl⟩
  rw [sameNames, Bool.and_eq_true, hany hxs, hany hys]

theorem nodup_texts {xs : List Datum} (hxs : ∀ x ∈ xs, ∃ s, x = .text s)
    (h : xs.Pairwise fun x y => x.eq y = false) : xs.Nodup := by
  refine h.imp_of_mem fun {x y} hx _ hne heq => ?_
  obtain ⟨s, rfl⟩ := hxs x hx
  rw [← heq, Datum.text_eq_iff.mpr rfl] at hne
  cases hne

/-- **A call finds the parameters.** -/
theorem frameSize_eq (htexts : ∀ names ∈ scopes, ∀ x ∈ names.toList, ∃ s, x = .text s)
    (htidy : ∀ names ∈ scopes, names.toList.Pairwise fun x y => x.eq y = false) (hmem : params.toArray ∈ scopes) :
    frameSize params scopes = .ok params.length := by
  have hparams : ∀ x ∈ params, ∃ s, x = .text s := htexts _ hmem
  have hnodup : params.Nodup := nodup_texts hparams (htidy _ hmem)
  induction scopes with
  | nil => cases hmem
  | cons names rest ih =>
    obtain ⟨hnames, hrest⟩ := forall_mem_cons.mp htexts
    obtain ⟨htop, htidy⟩ := forall_mem_cons.mp htidy
    rw [frameSize, checkNames_texts hnames, checkNames_texts hparams]
    show (if sameNames names.toList params = true then _ else _) = _
    by_cases hsame : sameNames names.toList params = true
    · -- neither list has a name twice, so they are as long
      obtain ⟨hsub, hsup⟩ := (sameNames_texts hnames hparams).mp hsame
      have hperm := (perm_ext_iff_of_nodup (nodup_texts hnames htop) hnodup).mpr
        fun x => ⟨fun hx => hsub hx, fun hx => hsup hx⟩
      rw [if_pos hsame, ← hperm.length_eq]
      rfl
    · rw [if_neg hsame]
      refine ih hrest htidy ?_
      rcases mem_cons.mp hmem with hfirst | hmem
      · subst hfirst
        exact absurd ((sameNames_texts hparams hparams).mpr ⟨fun _ hx => hx, fun _ hx => hx⟩) hsame
      · exact hmem

end MachineM

section

variable {prims : List String} {body : List Node} {p : Program} {id : Nat} {r : Routine} {site : DefinitionSite}

theorem Layout.function_of_routine (hbody : AreStats body) (hr : (finish prims body).routines[id]? = some r) :
    ∃ f ∈ functionsAll body, r.name = f.name ∧ r.params = f.params := by
  have hsited := program_sited prims hbody
  rw [hsited.table] at hr
  rcases DefinitionSite.enterAll_origin _ hr with ⟨r', hr', hname, hparams⟩ | ⟨site, hsite, hname, hparams⟩
  · obtain ⟨-, f, hf, hname', hparams'⟩ := function_of_registeredAll hbody (by simpa [origin] using hr')
    exact ⟨f, hf, hname.trans hname'.symm, hparams.trans hparams'.symm⟩
  · refine ⟨site.function, ?_, hname, hparams⟩
    rw [← hsited.functions]
    exact mem_map_of_mem hsite

/-- If no two functions have one name, then what is called has the parameters that the table says. -/
theorem Program.LaidOut.params_of_site (h : p.LaidOut prims body) (hbody : AreStats body) (htexts : HasTexts body)
    (hdistinct : ((functionsAll body).map (·.name)).Nodup) (hr : p.routines[id]? = some r)
    (hsite : site ∈ definitions prims body) (hnames : site.Names r) : r.params = site.function.params := by
  rw [h.routines] at hr
  obtain ⟨f, hf, hname, hparams⟩ := function_of_routine hbody hr
  have hfunction : site.function ∈ functionsAll body := by
    rw [← (program_sited prims hbody).functions]
    exact mem_map_of_mem hsite
  have hsame : r.name = site.function.name := by
    rcases hnames with hsame | heq
    · exact hsame
    · obtain ⟨s, hs⟩ := htexts _ (functionsAll_written body hfunction)
      rw [hs] at heq ⊢
      exact Datum.eq_text_iff.mp heq
  rw [hparams, inj_on_of_nodup_map hdistinct hf hfunction (hname.symm.trans hsame)]

/-- The names in the scopes of a program are written in the text. -/
theorem Program.LaidOut.names_written (h : p.LaidOut prims body) :
    ∀ names ∈ p.scopes.toList, ∀ x ∈ names.toList, ⟨"id", x⟩ ∈ leavesAll body := by
  intro names hnames x hx
  rw [h.scopes] at hnames
  rcases mem_cons.mp hnames with rfl | hnames
  · simp at hx
  · obtain ⟨scope, hscope, rfl⟩ := mem_map.mp hnames
    have hwritten := scopes_written (.block body) hscope (by simpa using hx)
    rwa [leaves] at hwritten

theorem Program.LaidOut.names_texts (h : p.LaidOut prims body) (htexts : HasTexts body) :
    ∀ names ∈ p.scopes.toList, ∀ x ∈ names.toList, ∃ s, x = .text s :=
  fun names hnames x hx => htexts x (h.names_written names hnames x hx)

theorem Program.LaidOut.frameSize (h : p.LaidOut prims body) (hbody : AreStats body) (htexts : HasTexts body)
    (hr : p.routines[id]? = some r) : MachineM.frameSize r.params p.scopes.toList = .ok r.params.length := by
  rw [h.routines] at hr
  obtain ⟨f, hf, -, hparams⟩ := function_of_routine hbody hr
  refine MachineM.frameSize_eq (h.names_texts htexts) (fun names hnames => h.tidy names (by simpa using hnames)) ?_
  rw [hparams]
  simpa using h.params hbody hf

end

end Cilly
