import Cilly.Proofs.Completion
import Cilly.Proofs.Statements
import Mathlib

/-!
# Compiled programs do what they mean

The machine that runs a compiled program and the reference interpreter that walks over its tree come to the same (`correct_compilation`). Statements are
mirrored by induction over the tree, in the place that they are laid out in (`Hosted`, `exec_mirrors`). Calls are mirrored by induction over the fuel: the body of a
function is a statement, and the calls in it have less fuel (`Straight.accords`).

Fuel and budget are not the same measure. An evaluation that is out of fuel has kept the machine going for as many steps as there was fuel, so with more fuel than
budget the machine is at its limit, or both have come to their end (`Machine.Renders.run_cases`).
-/

namespace Cilly

open Acting Node Layout Snapshot Reference

/-! ## Statements in their place -/

namespace Reference

variable {scopes full : Scopes} {xs ys : List String}

theorem Scopes.declare_append (scopes : Scopes) (xs ys : List String) :
    scopes.declare (xs ++ ys) = (scopes.declare xs).declare ys := by
  cases scopes with
  | nil => rfl
  | cons top outer => simp [Scopes.declare]

theorem Scopes.declare_nil (scopes : Scopes) : scopes.declare [] = scopes := by
  cases scopes with
  | nil => rfl
  | cons top outer => simp [Scopes.declare]

theorem Scopes.declare_ne_nil (h : scopes ≠ []) (xs : List String) : scopes.declare xs ≠ [] := by
  cases scopes with
  | nil => exact absurd rfl h
  | cons top outer => simp [Scopes.declare]

/-- What is declared so far comes first, and so does what was declared before. -/
theorem begins_of_declare (h : List.Forall₂ List.IsPrefix (scopes.declare xs) full) : List.Forall₂ List.IsPrefix scopes full := by
  cases scopes with
  | nil => exact h
  | cons top outer =>
    cases h with
    | cons htop houter => exact .cons ((List.prefix_append top xs).trans htop) houter

end Reference

/-- A statement is laid out in the program, in scopes that have room for its names. -/
structure Hosted (p : Program) (shape : List Mark) (s : Point) (scopes full : Scopes) (n : Node) : Prop where
  follows : p.Follows (statement [] shape s n)
  grown : Grown (next [] s n).routines p.routines
  named : Named scopes s.visible
  opened : declared n ≠ [] → scopes ≠ []
  begins : List.Forall₂ List.IsPrefix (scopes.declare (declared n)) full

structure HostedAll (p : Program) (shape : List Mark) (s : Point) (scopes full : Scopes) (ns : List Node) : Prop where
  follows : p.Follows (Layout.statements [] shape s ns)
  grown : Grown (nextAll [] s ns).routines p.routines
  named : Named scopes s.visible
  opened : declaredAll ns ≠ [] → scopes ≠ []
  begins : List.Forall₂ List.IsPrefix (scopes.declare (declaredAll ns)) full

section

variable {body : List Node} {p : Program} {shape : List Mark} {s : Point} {scopes full : Scopes} {n cond yes no : Node}
  {ns : List Node}

theorem named_next (hn : IsStat n) (hlexed : ∀ t ∈ leaves n, t.Lexed) (hnamed : Named scopes s.visible)
    (hopened : declared n ≠ [] → scopes ≠ []) :
    Named (scopes.declare (declared n)) (next [] s n).visible := by
  rw [next_visible [] hn, declares_eq hn hlexed]
  exact hnamed.declare hopened

namespace Hosted

theorem known (h : Hosted p shape s scopes full n) (hn : IsStat n) : s.toNames.Known p scopes full :=
  ⟨(statement_sited [] hn shape s).grows.trans h.grown, h.named, begins_of_declare h.begins⟩

theorem ifThen (h : Hosted p shape s scopes full (.ifThen cond yes)) :
    Hosted p shape (s.skip (width [] s.toNames cond + 2)) scopes full yes := by
  obtain ⟨hfollows, hgrown, hnamed, hopened, hbegins⟩ := h
  rw [statement, follows_append, follows_cons] at hfollows
  rw [next] at hgrown
  rw [declared] at hopened hbegins
  exact ⟨hfollows.2.2, hgrown, hnamed, hopened, hbegins⟩

theorem loop (h : Hosted p shape s scopes full (.loop cond n)) :
    Hosted p (.loop s.here ((next [] (s.skip (width [] s.toNames cond + 2)) n).here + 2) :: shape)
      (s.skip (width [] s.toNames cond + 2)) scopes full n := by
  obtain ⟨hfollows, hgrown, hnamed, hopened, hbegins⟩ := h
  rw [statement, follows_append, follows_cons, follows_append] at hfollows
  rw [next] at hgrown
  rw [declared] at hopened hbegins
  exact ⟨hfollows.2.2.1, hgrown, hnamed, hopened, hbegins⟩

theorem ifElse (h : Hosted p shape s scopes full (.ifElse cond yes no)) (hyes : IsStat yes) (hno : IsStat no)
    (hlexed : ∀ t ∈ leaves yes, t.Lexed) : Hosted p shape (s.skip (width [] s.toNames cond + 2)) scopes full yes ∧
      Hosted p shape ((next [] (s.skip (width [] s.toNames cond + 2)) yes).skip 2) (scopes.declare (declared yes)) full no := by
  obtain ⟨hfollows, hgrown, hnamed, hopened, hbegins⟩ := h
  rw [statement, follows_append, follows_cons, follows_append,
    follows_cons] at hfollows
  obtain ⟨-, -, hfirst, -, hsecond⟩ := hfollows
  rw [next] at hgrown
  rw [declared] at hopened hbegins
  rw [Scopes.declare_append] at hbegins
  have hopened' : declared yes ≠ [] → scopes ≠ [] := fun hne => hopened (by simp [hne])
  refine ⟨⟨hfirst, (statement_sited [] hno shape (Point.skip _ 2)).grows.trans hgrown, hnamed, hopened', begins_of_declare hbegins⟩,
    ⟨hsecond, hgrown, named_next hyes hlexed hnamed hopened', fun hne => ?_, hbegins⟩⟩
  exact Scopes.declare_ne_nil (hopened (by simp [hne])) _

theorem block (h : Hosted p shape s scopes full (.block ns)) :
    HostedAll p (.block :: shape) s.inBlock ([] :: scopes) (declaredAll ns :: full) ns := by
  obtain ⟨hfollows, hgrown, hnamed, -, hbegins⟩ := h
  rw [statement, follows_cons, follows_append] at hfollows
  rw [next] at hgrown
  exact ⟨hfollows.2.1, hgrown, hnamed.block, by simp, .cons (List.prefix_refl _) (begins_of_declare hbegins)⟩

end Hosted

theorem HostedAll.cons (h : HostedAll p shape s scopes full (n :: ns)) (hn : IsStat n) (hns : AreStats ns)
    (hlexed : ∀ t ∈ leaves n, t.Lexed) : Hosted p shape s scopes full n ∧
      HostedAll p shape (next [] s n) (scopes.declare (declared n)) full ns := by
  obtain ⟨hfollows, hgrown, hnamed, hopened, hbegins⟩ := h
  rw [Layout.statements, follows_append] at hfollows
  rw [nextAll] at hgrown
  rw [declaredAll, List.flatMap_cons] at hopened hbegins
  rw [Scopes.declare_append] at hbegins
  have hopened' : declared n ≠ [] → scopes ≠ [] := fun hne => hopened (by simp [hne])
  refine ⟨⟨hfollows.1, (statements_sited [] hns shape _).grows.trans hgrown, hnamed, hopened', begins_of_declare hbegins⟩,
    ⟨hfollows.2, hgrown, named_next hn hlexed hnamed hopened', fun hne => ?_, hbegins⟩⟩
  exact Scopes.declare_ne_nil (hopened (List.append_ne_nil_of_right_ne_nil _ hne)) _

theorem Hosted.routineIndex? {x : String} {params : List Datum} {inner : List Node}
    (h : Hosted p shape s scopes full (.define (.text x) (.function params (.block inner)))) (hinner : AreStats inner) :
    Names.routineIndex? ⟨[], p.routines⟩ (.text x) = some (s.routineFor (.text x)) := by
  let site : DefinitionSite := ⟨shape, s, ⟨.text x, params, .block inner⟩⟩
  have hgrown := h.grown
  rw [next_function, Point.declare_routines] at hgrown
  have hinside := (statement_sited [] (.block hinner) (.function :: shape) (s.inFunction (.text x) params)).grows.trans hgrown
  have hindex : Names.routineIndex? ⟨[], site.enter s.routines⟩ (.text x) = _ :=
    DefinitionSite.routineIndex?_enter s.routines rfl (.text x)
  rw [if_pos (Datum.text_eq_iff.mpr rfl)] at hindex
  exact hinside.routineIndex? hindex

/-! ## Statements -/

section

variable {fuel : Nat} {rules : Rules}

mutual

/-- **The code of a statement does what the statement means.** -/
theorem exec_mirrors (h : Straight body p) (haccords : Accords body p fuel rules) : ∀ {n : Node}, IsStat n → Clause body n →
    ∀ {shape : List Mark} {s : Point} {scopes full : Scopes}, Hosted p shape s scopes full n →
      Executes p fuel rules shape s scopes full n
  | _, .exprStat he, hclause, _, _, _, _, hhosted =>
    .exprStat (eval_mirrors h haccords (hhosted.known (.exprStat he)) he hclause.exprStat) hhosted.follows
  | _, .print hargs, hclause, _, _, _, _, hhosted =>
    .print h haccords (hhosted.known (.print hargs)) hargs hclause.print hhosted.follows
  | _, .ifThen hcond hyes, hclause, _, _, _, _, hhosted =>
    .ifThen (eval_mirrors h haccords (hhosted.known (.ifThen hcond hyes)) hcond hclause.ifThen.1)
      (exec_mirrors h haccords hyes hclause.ifThen.2 hhosted.ifThen) hhosted.follows
  | _, .ifElse hcond hyes hno, hclause, _, _, _, _, hhosted => by
    obtain ⟨hfirst, hsecond, hthird⟩ := hclause.ifElse
    obtain ⟨hthen, helse⟩ := hhosted.ifElse hyes hno fun t ht => h.lexed t (hsecond.leaves ht)
    exact .ifElse (eval_mirrors h haccords (hhosted.known (.ifElse hcond hyes hno)) hcond hfirst)
      (exec_mirrors h haccords hyes hsecond hthen) (exec_mirrors h haccords hno hthird helse) hhosted.follows
  | _, .loop hcond hbody, hclause, _, _, _, _, hhosted =>
    .loop haccords (fun _ => eval_mirrors h haccords (hhosted.known (.loop hcond hbody)) hcond hclause.loop.1)
      (exec_mirrors h haccords hbody hclause.loop.2 hhosted.loop) hhosted.follows
  | _, .breakLoop, hclause, _, _, _, _, _ =>
    absurd (hclause.parts (by simp [parts])) h.exits.1
  | _, .continueLoop, hclause, _, _, _, _, _ =>
    absurd (hclause.parts (by simp [parts])) h.exits.2
  | _, .block hns, hclause, _, _, _, _, hhosted => by
    obtain ⟨hscope, hinside⟩ := hclause.block
    have hlexed : ∀ t ∈ leavesAll _, t.Lexed := fun t ht => h.lexed t (hinside.leaves ht)
    exact .block hlexed hns (h.nodup_names hscope (declaresAll_eq hns hlexed))
      (execAll_mirrors h haccords hns hinside hhosted.block) hhosted.follows
  | _, .define x hvalue hne, hclause, _, _, _, _, hhosted => by
    obtain ⟨hx, hpart⟩ := hclause.define
    obtain ⟨name, rfl⟩ := h.texts x hx
    exact .define (eval_mirrors h haccords (hhosted.known (.define _ hvalue hne)) hvalue hpart) hne hhosted.named
      (hhosted.opened (by simp [declared])) hhosted.begins hhosted.follows
  | _, .function x xs hinner, hclause, _, _, _, _, hhosted => by
    obtain ⟨name, rfl⟩ := h.texts x hclause.define.1
    exact .function h haccords (hhosted.routineIndex? hinner) hhosted.named
      (hhosted.opened (by simp [declared])) hhosted.begins hhosted.follows
  | _, .assign x hvalue, hclause, _, _, _, _, hhosted => by
    obtain ⟨hx, hpart⟩ := hclause.assign
    obtain ⟨name, rfl⟩ := h.texts x hx
    have hknown := hhosted.known (.assign _ hvalue)
    exact .assign (eval_mirrors h haccords hknown hvalue hpart) hknown hhosted.follows
  | _, .return, _, _, _, _, _, hhosted => .return hhosted.follows
  | _, .returnValue hvalue, hclause, _, _, _, _, hhosted =>
    .returnValue (eval_mirrors h haccords (hhosted.known (.returnValue hvalue)) hvalue hclause.returnValue) hhosted.follows

theorem execAll_mirrors (h : Straight body p) (haccords : Accords body p fuel rules) : ∀ {ns : List Node}, AreStats ns →
    ClauseAll body ns → ∀ {shape : List Mark} {s : Point} {scopes full : Scopes}, HostedAll p shape s scopes full ns →
      ExecutesAll p fuel rules shape s scopes full ns
  | _, .nil, _, _, _, _, _, _ => by
    intro env c hpc hcarries _
    rw [execAll]
    exact .returns ⟨hpc, rfl, rfl, rfl, .refl _ _, hcarries.stored⟩
  | _, .cons hn hns, hclause, _, _, _, _, hhosted => by
    intro env c hpc hcarries hcalled
    obtain ⟨hfirst, hrest⟩ := hclause.cons
    obtain ⟨hthis, hnext⟩ := hhosted.cons hn hns fun t ht => h.lexed t (hfirst.leaves ht)
    rw [execAll, nextAll]
    refine (exec_mirrors h haccords hn hfirst hthis env c hpc hcarries hcalled).bind fun flow c' hran => ?_
    cases flow with
    | on env' =>
      have hends : Ends p _ _ c env' c' := hran
      exact (execAll_mirrors h haccords hns hrest hnext env' c' hends.pc (hends.carries hcarries) (hends.called hcalled)).imp
        fun _ _ => hends.ran
    | back v => exact .returns hran

end

end

/-! ## Calls -/

/-- The names of the parameters are texts, and no two are the same. -/
theorem Straight.params_texts (h : Straight body p) {f : Function} (hf : f ∈ functionsAll body) :
    (Reference.texts f.params).map Datum.text = f.params ∧ (Reference.texts f.params).Nodup := by
  have hscope : .parameters f.params ∈ Node.scopes (.block body) := parameters_mem_scopes (.block h.stats) (by rwa [functions])
  have hparams : (Reference.texts f.params).map Datum.text = f.params := by
    refine map_texts fun x hx => ?_
    have hwritten := scopes_written (.block body) hscope hx
    rw [leaves] at hwritten
    exact h.texts x hwritten
  exact ⟨hparams, h.nodup_names hscope hparams.symm⟩

theorem Straight.find?_function (h : Straight body p) {f : Function} (hf : f ∈ functionsAll body) {x : String} (hname : f.name = .text x) :
    (functionsAll body).find? (fun f => f.name.eq (.text x)) = some f := by
  cases hfind : (functionsAll body).find? fun f => f.name.eq (.text x) with
  | none =>
    have hnone := List.find?_eq_none.mp hfind f hf
    rw [hname, Datum.text_eq_iff] at hnone
    exact absurd rfl hnone
  | some g =>
    have hg := List.find?_some hfind
    rw [Datum.eq_text_iff] at hg
    rw [List.inj_on_of_nodup_map h.distinct (List.mem_of_find?_eq_some hfind) hf (hg.trans hname.symm)]

/-- The body of a function is laid out at its site, in a scope that has the parameters. -/
theorem Straight.hosted (h : Straight body p) {site : DefinitionSite} (hsite : site ∈ definitions [] body) {names : List String}
    (hnames : site.function.params = names.map Datum.text) :
    Hosted p (.function :: site.shape) site.inside [names] [names] site.function.body := by
  have hsited := program_sited [] h.stats
  obtain ⟨inner, hinner, -⟩ := hsited.written site hsite
  have hlisted : p.Follows (site.listing []) := fun x hx => h.laid.follows x (hsited.listed site hsite x hx)
  rw [DefinitionSite.listing, follows_append] at hlisted
  have hdeclared : declared site.function.body = [] := by
    rw [hinner, declared]
    all_goals simp
  refine ⟨hlisted.1, ?_, ?_, fun hne => absurd hdeclared hne, ?_⟩
  · rw [h.laid.routines]
    exact hsited.grown site hsite
  · show Named [names] [site.function.params.toArray]
    rw [hnames]
    exact .parameters names
  · rw [hdeclared, Scopes.declare_nil]
    exact .cons (List.prefix_refl _) .nil

theorem Straight.site_of_index (h : Straight body p) {x : String} {id : Nat}
    (hindex : Names.routineIndex? ⟨[], p.routines⟩ (.text x) = some id) :
    ∃ site ∈ definitions [] body, p.routines[id]? = some site.routine ∧ site.function ∈ functionsAll body ∧
      site.function.name = .text x := by
  obtain ⟨hlt, heq, -⟩ := Array.findIdx?_eq_some_iff_getElem.mp hindex
  have hlt : id < p.routines.size := hlt
  have heq : p.routines[id].name.eq (.text x) = true := heq
  have hmem : p.routines[id] ∈ (finish [] body).routines := h.laid.routines ▸ Array.getElem_mem hlt
  obtain ⟨site, hsite, hroutine⟩ := exists_site_of_routine [] h.stats h.texts h.distinct hmem
  refine ⟨site, hsite, by rw [hroutine, Array.getElem?_eq_getElem hlt], ?_, ?_⟩
  · rw [← (program_sited [] h.stats).functions]
    exact List.mem_map_of_mem hsite
  · rw [← hroutine] at heq
    exact Datum.eq_text_iff.mp heq

/-- **A call does what the body of the function means**, one step after it. -/
theorem Straight.call_mirrors (h : Straight body p) {fuel : Nat} {rules : Rules} (haccords : Accords body p fuel rules) :
    CallsMirror body p (fuel + 1) (Reference.enter rules (functionsAll body)) := by
  intro x id args rest c hindex hcount hin hstack hstatic
  obtain ⟨site, hsite, hr, hfunction, hname⟩ := h.site_of_index hindex
  obtain ⟨hparams, hnodup⟩ := h.params_texts hfunction
  obtain ⟨inner, hinner, hstats⟩ := (program_sited [] h.stats).written site hsite
  have hlength : site.function.params.length = args.length := hcount _ hfunction hname
  have hsize : MachineM.frameSize site.routine.params p.scopes.toList = .ok args.length :=
    hlength ▸ h.laid.frameSize h.stats h.texts hr
  have hclause : Clause body site.function.body := clause_of_functionAll h.stats (.refl body) hfunction
  have hhosted := h.hosted hsite hparams.symm
  have hreturn : Instr.return.In p (site.last []).here := by
    have hlisted : p.Follows (site.listing []) :=
      fun y hy => h.laid.follows y ((program_sited [] h.stats).listed site hsite y hy)
    rw [DefinitionSite.listing, follows_append, follows_cons] at hlisted
    exact hlisted.2.1
  have hcells : (Reference.texts site.function.params).map (Reference.parameters (Reference.texts site.function.params) args) = args := by
    refine map_parameters hnodup ?_
    rw [← hlength, ← hparams, List.length_map, hparams]
  have hcarries : Carries p [Reference.texts site.function.params]
      [Reference.parameters (Reference.texts site.function.params) args]
      { c with pc := site.entry, stack := rest, chain := c.store.size :: c.chain,
               frames := ⟨(c.pc : Int) + 2, c.chain⟩ :: c.frames, store := c.store.push args.toArray } := by
    have hstored := (.nil c.chain : Stored p c.store [] [] c.chain).enter hstatic.size_le hnodup
      (Reference.parameters (Reference.texts site.function.params) args)
    rw [hcells] at hstored
    exact ⟨hstatic.trans (.push _ _), hstored⟩
  have hbody := exec_mirrors h haccords (hinner ▸ .block hstats) hclause hhosted _ _ rfl hcarries
    fun _ => ⟨c.pc + 2, c.chain, c.frames, rfl⟩
  have hsteps := steps_call hin hr rfl hlength hsize hstatic hstack
  refine .leads hsteps.leads rfl ?_
  rw [Reference.enter, h.find?_function hfunction hname]
  refine hbody.bind fun flow c' hran => ?_
  cases flow with
  | on env =>
    obtain ⟨hpc, hstack', hchain, hframes, huntouched, -⟩ := hran
    have hreturn : Instr.return.In p c'.pc := by
      rw [hpc]
      exact hreturn
    exact .step (steps_return hreturn hframes (show (c.pc : Int) + 2 = (c.pc + 2 : Nat) from rfl)) rfl
      (.returns ⟨rfl, by rw [hstack']; rfl, rfl, rfl, huntouched.push.all⟩)
  | back v =>
    obtain ⟨hframes, hstack', huntouched⟩ := hran
    obtain ⟨hframe, houter⟩ := List.cons.inj hframes
    obtain ⟨hback, hchain⟩ := Frame.mk.inj hframe
    exact .returns ⟨by omega, hstack', hchain.symm, houter.symm, huntouched.push.all⟩

/-- The rules of the program are those of its code, however much fuel there is. -/
theorem Straight.accords (h : Straight body p) : ∀ fuel, Accords body p fuel
    (rules (functionsAll body) (fun x => p.routines.findIdx? fun r => r.name.eq (.text x)) fuel)
  | 0 => ⟨fun _ => rfl, fun _ _ _ _ _ => .outOfFuel, rfl⟩
  | fuel + 1 => ⟨fun _ => rfl, h.call_mirrors (h.accords fuel), rfl⟩

/-! ## Programs -/

/-- The machine does what the program comes to: at the end of it nothing is left on the stack. -/
theorem Straight.interpret_mirrors (h : Straight body p) (fuel : Nat) {c : Snapshot} (hpc : c.pc = 0) (hstack : c.stack = [])
    (hframes : c.frames = []) (hstore : c.store = p.scopes) (hprinted : c.printed = "") :
    Snapshot.Follows p fuel c (fun _ c' => c'.pc = p.code.size ∧ c'.stack = []) (interpret p.routines body fuel) := by
  have hhosted : Hosted p [] (origin body) [] [] (.block body) := by
    refine ⟨h.laid.follows, ?_, ⟨[#[]], rfl, by simp⟩, ?_, ?_⟩
    · rw [h.laid.routines]
      exact .refl _
    · simp [declared]
    · exact .nil
  have hcarries : Carries p [] [] c := ⟨by rw [hstore]; exact .refl _, .nil _⟩
  have hscope : .block (declaresAll body) ∈ Node.scopes (.block body) := by
    rw [Node.scopes]
    exact List.mem_cons_self ..
  have hnodup := h.nodup_names hscope (declaresAll_eq h.stats h.lexed)
  have hblock := Executes.block h.lexed h.stats hnodup (execAll_mirrors h (h.accords fuel) h.stats (.refl body) hhosted.block)
    hhosted.follows [] c hpc hcarries fun hmem => by cases hmem
  have hwhole : c.Mirrors p fuel (discard _) fun _ c' => c'.pc = p.code.size ∧ c'.stack = [] :=
    hblock.discard.imp fun _ c' ⟨flow, hran⟩ => by
      cases flow with
      | on env =>
        obtain ⟨hpc', hstack', -⟩ := hran
        exact ⟨hpc'.trans h.laid.size.symm, hstack'.trans hstack⟩
      | back v =>
        -- there is no call to return from
        obtain ⟨hframes', -⟩ := hran
        rw [hframes] at hframes'
        cases hframes'
  unfold Mirrors at hwhole
  rw [hprinted] at hwhole
  exact hwhole

/-- What whole runs come to, by what the program comes to. -/
def Machine.Renders (m : Machine) (fuel : Nat) : Except Stop Unit × String → Prop
  | (.ok (), text) => ∃ last, m.Comes (.ok ()) last ∧ last.printed = text ++ last.stack.summary
  | (.error (.fault f), text) => ∃ last, m.Comes (.error (.fault f)) last ∧ last.printed = text
  | (.error .outOfFuel, text) => ∃ n m', fuel ≤ n ∧ Machine.Runs n m m' ∧ m'.printed = text
  | (.error .stuck, _) => False

namespace Machine.Renders

variable {m : Machine} {fuel budget : Nat} {printed : String} {f : Fault}

theorem ok (h : m.Renders fuel (.ok (), printed)) :
    ∃ budget last, m.run budget = (.ok (), last) ∧ last.printed = printed ++ last.stack.summary := by
  obtain ⟨last, ⟨n, henough, -⟩, hlast⟩ := h
  exact ⟨n, last, henough n (Nat.le_refl _), hlast⟩

theorem fault (h : m.Renders fuel (.error (.fault f), printed)) :
    ∃ budget last, m.run budget = (.error (.fault f), last) ∧ last.printed = printed := by
  obtain ⟨last, ⟨n, henough, -⟩, hlast⟩ := h
  exact ⟨n, last, henough n (Nat.le_refl _), hlast⟩

/-- A run for which there is more fuel than budget is cut off, or is one of which the result is known. -/
theorem run_cases (hstart : m.steps = 0) {r : Except Stop Unit × String} (h : m.Renders fuel r) (hlt : budget < fuel) :
    (∃ printed last, r = (.ok (), printed) ∧ m.run budget = (.ok (), last) ∧ last.printed = printed ++ last.stack.summary) ∨
      (∃ f printed last, r = (.error (.fault f), printed) ∧ m.run budget = (.error (.fault f), last) ∧ last.printed = printed) ∨
      (m.run budget).1 = .error .stepLimit := by
  match r, h with
  | (.ok (), text), ⟨last, hcomes, hlast⟩ =>
    rcases hcomes.run_eq budget with hrun | hcut
    · exact Or.inl ⟨text, last, rfl, hrun, hlast⟩
    · exact Or.inr (Or.inr hcut)
  | (.error (.fault f), text), ⟨last, hcomes, hlast⟩ =>
    rcases hcomes.run_eq budget with hrun | hcut
    · exact Or.inr (Or.inl ⟨f, text, last, rfl, hrun, hlast⟩)
    · exact Or.inr (Or.inr hcut)
  | (.error .outOfFuel, text), ⟨n, m', hle, hruns, _⟩ =>
    exact Or.inr (Or.inr (run_of_lt hstart hruns (Nat.lt_of_lt_of_le hlt hle)))

/-! What is known of the machine for any fuel tells all its runs. -/

section

variable {results : Nat → Except Stop Unit × String} (hstart : m.steps = 0) (h : ∀ fuel, m.Renders fuel (results fuel))

include hstart h

theorem ok_iff : (∃ fuel, results fuel = (.ok (), printed)) ↔
    ∃ budget last, m.run budget = (.ok (), last) ∧ last.printed = printed ++ last.stack.summary := by
  constructor
  · rintro ⟨fuel, hfuel⟩
    exact (hfuel ▸ h fuel).ok
  · rintro ⟨budget, last, hrun, hlast⟩
    rcases (h (budget + 1)).run_cases hstart (Nat.lt_succ_self budget) with
      ⟨printed', last', hfuel, hrun', hlast'⟩ | ⟨_, _, _, _, hrun', -⟩ | hcut
    · cases hrun.symm.trans hrun'
      rw [hlast'] at hlast
      exact ⟨budget + 1, (String.append_left_inj _).mp hlast ▸ hfuel⟩
    · cases hrun.symm.trans hrun'
    · rw [hrun] at hcut
      cases hcut

theorem fault_iff : (∃ fuel, results fuel = (.error (.fault f), printed)) ↔
    ∃ budget last, m.run budget = (.error (.fault f), last) ∧ last.printed = printed := by
  constructor
  · rintro ⟨fuel, hfuel⟩
    exact (hfuel ▸ h fuel).fault
  · rintro ⟨budget, last, hrun, hlast⟩
    rcases (h (budget + 1)).run_cases hstart (Nat.lt_succ_self budget) with
      ⟨_, _, _, hrun', -⟩ | ⟨f', printed', last', hfuel, hrun', hlast'⟩ | hcut
    · cases hrun.symm.trans hrun'
    · cases hrun.symm.trans hrun'
      exact ⟨budget + 1, hlast'.symm.trans hlast ▸ hfuel⟩
    · rw [hrun] at hcut
      cases hcut

/-- A run that is not cut off has a result, for which there was fuel. -/
theorem outOfFuel_iff : (∀ fuel, (results fuel).1 = .error .outOfFuel) ↔ ∀ budget, (m.run budget).1 = .error .stepLimit := by
  constructor
  · intro hall budget
    have hout := hall (budget + 1)
    rcases (h (budget + 1)).run_cases hstart (Nat.lt_succ_self budget) with ⟨_, _, hfuel, -⟩ | ⟨_, _, _, hfuel, -⟩ | hcut
    · rw [hfuel] at hout
      cases hout
    · rw [hfuel] at hout
      cases hout
    · exact hcut
  · intro hall fuel
    have hresult := h fuel
    cases hfuel : results fuel with
    | mk r text =>
      rw [hfuel] at hresult
      match r, hresult with
      | .ok (), hresult =>
        obtain ⟨budget, last, hrun, -⟩ := hresult.ok
        have hcut := hall budget
        rw [hrun] at hcut
        cases hcut
      | .error (.fault f), hresult =>
        obtain ⟨budget, last, hrun, -⟩ := hresult.fault
        have hcut := hall budget
        rw [hrun] at hcut
        cases hcut
      | .error .outOfFuel, _ => rfl

theorem run_ends (budget : Nat) : (m.run budget).1 = .ok () ∨ (∃ f, (m.run budget).1 = .error (.fault f)) ∨
    (m.run budget).1 = .error .stepLimit := by
  rcases (h (budget + 1)).run_cases hstart (Nat.lt_succ_self budget) with ⟨_, _, _, hrun, -⟩ | ⟨f, _, _, _, hrun, -⟩ | hcut
  · exact Or.inl (by rw [hrun])
  · exact Or.inr (Or.inl ⟨f, by rw [hrun]⟩)
  · exact Or.inr (Or.inr hcut)

end

end Machine.Renders

theorem Straight.renders (h : Straight body p) (signals : List Signal) (fuel : Nat) :
    (Machine.start p signals).Renders fuel (interpret p.routines body fuel) := by
  have hshows := Machine.shows_snapshot (m := Machine.start p signals) (p := p) rfl rfl
  have hfollows := h.interpret_mirrors fuel (c := (Machine.start p signals).snapshot 0) rfl rfl rfl rfl rfl
  match interpret p.routines body fuel, hfollows with
  | (.ok (), text), ⟨n, c, hleads, hprinted, hpc, hstack⟩ =>
    obtain ⟨m, hruns, hm⟩ := hleads _ hshows
    refine ⟨_, Machine.comes_of_halted rfl hruns ?_ (hm.stack.trans hstack), ?_⟩
    · have hend : (m.program.code.size : Int) = m.pc := by rw [hm.program, hm.pc, hpc]
      exact Int.le_of_eq hend
    · show m.printed ++ m.stack.summary = text ++ m.stack.summary
      rw [hm.printed, hprinted]
  | (.error (.fault f), text), ⟨n, c, hleads, ⟨hlt, hstops⟩, hprinted⟩ =>
    obtain ⟨m, hruns, hm⟩ := hleads _ hshows
    obtain ⟨last, hnext, hlast⟩ := hstops m hm
    have hfetch : itemAt m.program.code m.pc = .ok p.code[c.pc] := by
      rw [hm.program, hm.pc]
      exact itemAt_of_getElem? (Array.getElem?_eq_getElem hlt)
    exact ⟨last, Machine.comes_of_fault rfl hruns hfetch hnext, hlast.trans hprinted⟩
  | (.error .outOfFuel, text), ⟨n, c, hle, hleads, hprinted⟩ =>
    obtain ⟨m, hruns, hm⟩ := hleads _ hshows
    exact ⟨n, m, hle, hruns, hm.printed.trans hprinted⟩

end

/-- **Compiled programs do what they mean.** Take a text that compiles without primitives. It has no `break` and no `continue`, every call passes as many
arguments as there are parameters, no two functions share a name, and no floating-point number in it is equal to an integer. Then the machine ends exactly if the
interpreter does, and has printed the same, with the statistics of its stack behind it. It fails exactly if the interpreter does, with the same fault after the same
output. It goes on forever exactly if the interpreter does, and then prints all that the interpreter prints on the way. The interpreter is never stuck, and the machine
has no other way to end. -/
theorem Program.correct_compilation {text : String} {body : List Node} {p : Program}
    (hread : Node.ofText text = .ok (.program body)) (hp : Program.ofNode [] (.program body) = .ok p)
    (hexits : .breakLoop ∉ partsAll body ∧ .continueLoop ∉ partsAll body) (hmatching : Matching body)
    (hdistinct : ((functionsAll body).map (·.name)).Nodup) (hfractional : Fractional (leavesAll body)) (signals : List Signal) :
    (∀ printed, (∃ fuel, interpret p.routines body fuel = (.ok (), printed)) ↔
      ∃ budget m, (Machine.start p signals).run budget = (.ok (), m) ∧ m.printed = printed ++ m.stack.summary) ∧
    (∀ fault printed, (∃ fuel, interpret p.routines body fuel = (.error (.fault fault), printed)) ↔
      ∃ budget m, (Machine.start p signals).run budget = (.error (.fault fault), m) ∧ m.printed = printed) ∧
    ((∀ fuel, (interpret p.routines body fuel).1 = .error .outOfFuel) ↔
      ∀ budget, ((Machine.start p signals).run budget).1 = .error .stepLimit) ∧
    (∀ fuel printed, interpret p.routines body fuel = (.error .outOfFuel, printed) →
      ∃ n m, fuel ≤ n ∧ Machine.Runs n (Machine.start p signals) m ∧ m.printed = printed) ∧
    (∀ fuel, (interpret p.routines body fuel).1 ≠ .error .stuck) ∧
    ∀ budget, ((Machine.start p signals).run budget).1 = .ok () ∨
      (∃ fault, ((Machine.start p signals).run budget).1 = .error (.fault fault)) ∨
      ((Machine.start p signals).run budget).1 = .error .stepLimit := by
  obtain ⟨_, heq, hbody⟩ := Node.areStats_of_text hread
  cases heq
  have hstraight : Straight body p :=
    ⟨hbody, Program.laidOut hbody hp, leaves_of_text hread, hexits, hmatching, hdistinct, hfractional⟩
  have hrenders := hstraight.renders signals
  refine ⟨fun printed => Machine.Renders.ok_iff rfl hrenders, fun fault printed => Machine.Renders.fault_iff rfl hrenders,
    Machine.Renders.outOfFuel_iff rfl hrenders, ?_, ?_, Machine.Renders.run_ends rfl hrenders⟩
  · intro fuel printed hfuel
    have hresult := hrenders fuel
    rw [hfuel] at hresult
    exact hresult
  · intro fuel hstuck
    have hresult := hrenders fuel
    cases hfuel : interpret p.routines body fuel with
    | mk r text =>
      rw [hfuel] at hresult hstuck
      cases hstuck
      exact hresult

set_option maxRecDepth 8000 in
/-- A function that calls itself and gives its own index, called in a loop. -/
theorem Program.run_of_recursive_function :
    ∃ (body : List Node) (p : Program) (budget : Nat) (m : Machine),
      Node.ofText ("var f = fun(n) \x7b if (n < 1) return f; return f(n - 1) + n; \x7d; " ++
        "var i = 0; while (i < 2) \x7b print(f(i)); i = i + 1; \x7d") = .ok (.program body) ∧
      Program.ofNode [] (.program body) = .ok p ∧ (Machine.start p []).run budget = (.ok (), m) ∧
      m.printed = "0 \n1 \n" ++ m.stack.summary := by
  let body : List Node :=
    [.define (.text "f") (.function [.text "n"] (.block
      [.ifThen (.binary (.text "<") (.name (.text "n")) (.literal .num [.int 1])) (.returnValue (.name (.text "f"))),
        .returnValue (.binary (.text "+") (.call (.name (.text "f"))
          [.binary (.text "-") (.name (.text "n")) (.literal .num [.int 1])]) (.name (.text "n")))])),
      .define (.text "i") (.literal .num [.int 0]),
      .loop (.binary (.text "<") (.name (.text "i")) (.literal .num [.int 2])) (.block
        [.print [.call (.name (.text "f")) [.name (.text "i")]],
          .assign (.text "i") (.binary (.text "+") (.name (.text "i")) (.literal .num [.int 1]))])]
  let p : Program :=
    { code := #[13, 2, 9, 32, 13, 0, 5, 1, 0, 1, 0, 119, 11, 17, 1, 1, 17, 5, 1, 0, 1, 0, 112, 15, 0, 5, 1, 0, 111, 17, 14,
        16, 1, 1, 6, 0, 0, 1, 1, 6, 0, 1, 5, 0, 1, 1, 2, 119, 11, 71, 13, 0, 5, 1, 1, 15, 0, 7, 8, 5, 1, 1, 1, 0, 111, 6,
        1, 1, 14, 9, 42, 14]
      consts := #[.number (.int 1), .number (.int 0), .number (.int 2)]
      scopes := #[#[], #[.text "f", .text "i"], #[.text "n"], #[], #[]]
      routines := #[⟨.text "f", [.text "n"], some 4⟩] }
  have hread : Node.ofText ("var f = fun(n) \x7b if (n < 1) return f; return f(n - 1) + n; \x7d; " ++
      "var i = 0; while (i < 2) \x7b print(f(i)); i = i + 1; \x7d") = .ok (.program body) := by cbv
  have hp : Program.ofNode [] (.program body) = .ok p := by cbv
  have hexits : .breakLoop ∉ partsAll body ∧ .continueLoop ∉ partsAll body := by simp [body, partsAll, parts]
  have hmatching : Matching body := by simp [Matching, body, functionsAll, functions, partsAll, parts]
  have hdistinct : ((functionsAll body).map (·.name)).Nodup := by simp [body, functionsAll, functions]
  have hfractional : Fractional (leavesAll body) := by simp [Fractional, body, leavesAll, leaves, LiteralKind.tag]
  have hresult : interpret p.routines body 4 = (.ok (), "0 \n1 \n") := by
    unfold p body
    decide +kernel
  obtain ⟨hends, -⟩ := Program.correct_compilation hread hp hexits hmatching hdistinct hfractional []
  obtain ⟨budget, m, hrun, hprinted⟩ := (hends _).mp ⟨4, hresult⟩
  exact ⟨body, p, budget, m, hread, hp, hrun, hprinted⟩

end Cilly
