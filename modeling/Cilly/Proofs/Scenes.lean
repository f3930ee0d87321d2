import Cilly.Proofs.Flow
import Cilly.Proofs.Routines

/-!
# How scenes fit together

Where an instruction leads, the view is what the instruction makes of its own (`program_framed`). Only a `break`, and a
`continue` whose loop is outside of its function, leave scopes and function behind; programs without them are `staged`.
-/

namespace Cilly

open Node Setting
open List hiding set

/-- An address is that of a scene with that view. -/
def Finds (all : List Scene) (address : Nat) (view : View) : Prop := ∃ y ∈ all, y.address = address ∧ y.view = view

/-- What a scene leads to. There is no way on from a `break`. -/
def Scene.Leads (all : List Scene) (x : Scene) : Prop :=
  match x.instr with
  | .const _ | .call _ | .primitive _ => Finds all (x.address + 2) (x.after (x.address + 2))
  | .load .. | .store .. => Finds all (x.address + 3) (x.after (x.address + 3))
  | .plain _ => Finds all (x.address + 1) (x.after (x.address + 1))
  -- a jump may end the code of an operand
  | .jump target =>
    Finds all target x.view ∨
      ∃ last below, x.view.ends = last :: below ∧ Finds all target { x.view with ends := target :: below }
  | .branch _ target => Finds all target (x.after target) ∧ Finds all (x.address + 2) (x.after (x.address + 2))
  | .breakLoop => False
  | .continueLoop target => x.view.ends = [] ∧ ∃ scopes, Finds all target ⟨[], scopes, x.view.home⟩
  | .enter count =>
    x.view.ends = [] ∧ ∃ names, names.length = count ∧
      Finds all (x.address + 2) { x.view with scopes := ⟨x.address + 2, names⟩ :: x.view.scopes }
  | .leave =>
    x.view.ends = [] ∧ ∃ top outer, x.view.scopes = top :: outer ∧
      Finds all (x.address + 1) { x.view with scopes := outer }
  | .return => x.view.ends = [] ∧ x.view.home ≠ none
  | .returnValue => (∃ last, x.view.ends = [last]) ∧ x.view.home ≠ none
  | .refused => True

/-- A scene has enough operands and leads to others. -/
structure Scene.Sound (all : List Scene) (x : Scene) : Prop where
  enough : x.takes ≤ x.view.ends.length
  leads : x.Leads all

/-- A piece of code is sound, and its start has that view. -/
structure Led (all : List Scene) (start : Nat) (view : View) (scenes : List Scene) : Prop where
  first : Finds all start view
  sound : ∀ x ∈ scenes, x.Sound all

section

variable {all scenes more : List Scene} {set : Setting} {address start : Nat} {view view' : View} {ends : List Nat}
  {instr : Instr} {subject : Subject}

theorem Led.append (h : Led all start view scenes) (h' : Led all address view' more) :
    Led all start view (scenes ++ more) := by
  refine ⟨h.first, fun x hx => ?_⟩
  rcases mem_append.mp hx with hx | hx
  · exact h.sound x hx
  · exact h'.sound x hx

theorem Led.cons (hall : ∀ x ∈ set.scene start instr ends subject :: more, x ∈ all)
    (hsound : (set.scene start instr ends subject).Sound all) (h' : Led all address view' more) :
    Led all start (set.view ends) (set.scene start instr ends subject :: more) := by
  refine ⟨⟨_, hall _ (mem_cons_self ..), rfl, rfl⟩, fun x hx => ?_⟩
  rcases mem_cons.mp hx with rfl | hx
  · exact hsound
  · exact h'.sound x hx

theorem Led.single (hall : ∀ x ∈ [set.scene start instr ends subject], x ∈ all)
    (hsound : (set.scene start instr ends subject).Sound all) :
    Led all start (set.view ends) [set.scene start instr ends subject] :=
  ⟨⟨_, hall _ (mem_cons_self ..), rfl, rfl⟩, by simpa using hsound⟩

theorem members_tail {x : Scene} (h : ∀ y ∈ x :: more, y ∈ all) : ∀ y ∈ more, y ∈ all :=
  fun y hy => h y (mem_cons_of_mem _ hy)

theorem members_head {x : Scene} (h : ∀ y ∈ x :: more, y ∈ all) : ∀ y ∈ [x], y ∈ all := by
  intro y hy
  rw [mem_singleton.mp hy]
  exact h x (mem_cons_self ..)

theorem members_left (h : ∀ x ∈ scenes ++ more, x ∈ all) : ∀ x ∈ scenes, x ∈ all :=
  fun x hx => h x (mem_append_left _ hx)

theorem members_right (h : ∀ x ∈ scenes ++ more, x ∈ all) : ∀ x ∈ more, x ∈ all :=
  fun x hx => h x (mem_append_right _ hx)

theorem sound_refused : (set.scene start .refused ends subject).Sound all := ⟨Nat.zero_le _, trivial⟩

end

section

variable {all scenes : List Scene} {set : Setting} {ends ends' : List Nat} {start stop : Nat}

theorem Scene.Passes.sound {x : Scene} (h : x.Passes stop ends) (hend : Finds all stop { x.view with ends := ends }) :
    x.Sound all := by
  obtain ⟨⟨-, hspans⟩, hrefused | ⟨hstraight, htakes, rfl⟩⟩ := h
  · exact ⟨by simp [Scene.takes, hrefused], by simp [Scene.Leads, hrefused]⟩
  · refine ⟨htakes, ?_⟩
    unfold Scene.Leads
    cases hinstr : x.instr with
    | const | plain | load | store | call | primitive =>
      rw [hinstr] at hspans
      obtain rfl := hspans.resolve_left (by simp)
      exact hend
    | _ => simp [hinstr, Instr.isStraight] at hstraight

theorem Strand.led (h : Strand set ends start ends' stop scenes) (hall : ∀ x ∈ scenes, x ∈ all)
    (hend : Finds all stop (set.view ends')) : Led all start (set.view ends) scenes := by
  induction h with
  | nil => exact ⟨hend, forall_mem_nil _⟩
  | single hpasses => exact .single hall (hpasses.sound hend)
  | append _ _ ih ih' =>
    have hlast := ih' (members_right hall) hend
    exact (ih (members_left hall) hlast.first).append hlast
  | @skipping below start last skip skipped scenes htakes hgives _ ih =>
    have hrest := members_tail hall
    have hpasses : (set.scene (last + 2) (.plain skipped) below .none).Passes (last + 3) ((last + 3) :: below) :=
      ⟨Instr.spans rfl, Or.inr ⟨rfl, by simp [Scene.takes, scene, htakes], by
        simp [Scene.after, Scene.takes, Scene.gives, scene, view, htakes, hgives]⟩⟩
    have hskipped := Led.single (members_tail (members_right hrest)) (hpasses.sound hend)
    have hjump := Led.cons (members_right hrest) ⟨Nat.zero_le _, Or.inr ⟨_, below, rfl, hend⟩⟩ hskipped
    have hright := (ih (members_left hrest) hjump.first).append hjump
    exact .cons hall ⟨Nat.le_add_left .., hskipped.first, hright.first⟩ hright

end

/-! ## Statements -/

/-- A statement that leaves the normal order; whether a `continue` is in a loop of its own function. -/
inductive Exit where
  | breaks
  | continues (own : Bool)
  deriving DecidableEq

namespace Node

mutual

/-- Every `break` and `continue`, given whether there is a loop of the same function around. -/
def exits (inside : Bool) : Node → List Exit
  | .breakLoop => [.breaks]
  | .continueLoop => [.continues inside]
  | .ifThen _ yes => exits inside yes
  | .ifElse _ yes no => exits inside yes ++ exits inside no
  | .loop _ body => exits true body
  | .block body => exitsAll inside body
  | .define _ value =>
    match value with
    | .function _ body => exits false body
    | _ => []
  | _ => []

def exitsAll (inside : Bool) : List Node → List Exit
  | [] => []
  | n :: ns => exits inside n ++ exitsAll inside ns

end

end Node

/-- There is no `break`, and every `continue` is in a loop of its own function. -/
def Orderly (exits : List Exit) : Prop := ∀ e ∈ exits, e = .continues true

instance (exits : List Exit) : Decidable (Orderly exits) := inferInstanceAs (Decidable (∀ e ∈ exits, e = .continues true))

/-- A `break` or `continue` out of a list. Whether a `continue` stays in its function, the list says. -/
inductive Scene.Exits (all : List Scene) (exits : List Exit) (x : Scene) : Prop
  | breaks : x.instr = .breakLoop → x.view.ends = [] → .breaks ∈ exits → Exits all exits x
  | continues {target : Nat} {own : Bool} {scopes : List Open} {home : Option Nat} : x.instr = .continueLoop target →
      x.view.ends = [] → .continues own ∈ exits → Finds all target ⟨[], scopes, home⟩ →
      (own = true → home = x.view.home) → Exits all exits x

namespace Scene.Exits

variable {all : List Scene} {exits more : List Exit} {x : Scene}

theorem mono (h : x.Exits all exits) (hsub : exits ⊆ more) : x.Exits all more := by
  cases h with
  | breaks hinstr hends hmem => exact .breaks hinstr hends (hsub hmem)
  | continues hinstr hends hmem hfinds hown => exact .continues hinstr hends (hsub hmem) hfinds hown

theorem sound (h : x.Exits all exits) (horderly : Orderly exits) : x.Sound all := by
  cases h with
  | breaks _ _ hmem => exact absurd (horderly _ hmem) (by simp)
  | continues hinstr hends hmem hfinds hown =>
    cases horderly _ hmem
    rw [hown rfl] at hfinds
    refine ⟨by simp [takes, hinstr], ?_⟩
    rw [Leads, hinstr]
    exact ⟨hends, _, hfinds⟩

end Scene.Exits

/-- What is known of the setting of a statement. -/
structure Around (all : List Scene) (inside : Bool) (set : Setting) : Prop where
  home : .function ∈ set.shape → set.home ≠ none
  loop : ∀ start stop, innermost? set.shape = some (start, stop) →
    ∃ scopes home, Finds all start ⟨[], scopes, home⟩ ∧ (inside = true → home = set.home)

namespace Around

variable {all : List Scene} {inside : Bool} {set : Setting}

theorem inBlock (h : Around all inside set) (address : Nat) (names : List Datum) :
    Around all inside (set.inBlock address names) :=
  ⟨by simpa [Setting.inBlock] using h.home, h.loop⟩

theorem inLoop (h : Around all inside set) {start : Nat} (stop : Nat) (hstart : Finds all start (set.view [])) :
    Around all true (set.inLoop start stop) := by
  refine ⟨by simpa [Setting.inLoop] using h.home, fun start' stop' hloop => ?_⟩
  cases hloop
  exact ⟨set.scopes, set.home, hstart, fun _ => rfl⟩

theorem inFunction (h : Around all inside set) (entry : Nat) (params : List Datum) :
    Around all false (set.inFunction entry params) := by
  refine ⟨by simp [Setting.inFunction], fun start stop hloop => ?_⟩
  obtain ⟨scopes, home, hfinds, -⟩ := h.loop start stop hloop
  exact ⟨scopes, home, hfinds, by simp⟩

end Around

namespace Layout

variable (primitives : List String)

mutual

/-- The addresses at which a statement and those in it start. -/
def starts (s : Point) : Node → List Nat
  | .ifThen cond yes => s.here :: starts (s.skip (width primitives s.toNames cond + 2)) yes
  | .ifElse cond yes no =>
    let inside := s.skip (width primitives s.toNames cond + 2)
    s.here :: (starts inside yes ++ starts ((next primitives inside yes).skip 2) no)
  | .loop cond body => s.here :: starts (s.skip (width primitives s.toNames cond + 2)) body
  | .block body => s.here :: startsAll s.inBlock body
  | .define x value =>
    match value with
    | .function params body => s.here :: starts (s.inFunction x params) body
    | _ => [s.here]
  | _ => [s.here]

def startsAll (s : Point) : List Node → List Nat
  | [] => []
  | n :: ns => starts s n ++ startsAll (next primitives s n) ns

end

theorem starts_variable {value : Node} (h : ∀ params body, value ≠ .function params body) (x : Datum)
    (s : Point) : starts primitives s (.define x value) = [s.here] := by
  rw [starts]
  exact h

end Layout

/-- What a function has at hand at its entry. -/
def DefinitionSite.view (site : DefinitionSite) : View := ⟨[], [⟨site.entry, site.function.params⟩], some site.entry⟩

/-- A piece of code that is sound, with the functions that are defined and the statements that start in it. -/
structure Staged (all : List Scene) (start : Nat) (view : View) (scenes : List Scene) (sites : List DefinitionSite)
    (starts : List Nat) : Prop extends Led all start view scenes where
  entries : ∀ site ∈ sites, Finds all site.entry site.view
  level : ∀ address ∈ starts, ∃ y ∈ all, y.address = address ∧ y.view.ends = []

/-- A piece of code that is sound but for those exits. -/
structure Framed (all : List Scene) (start : Nat) (view : View) (scenes : List Scene) (sites : List DefinitionSite)
    (starts : List Nat) (exits : List Exit) : Prop where
  first : Finds all start view
  sound : ∀ x ∈ scenes, x.Sound all ∨ x.Exits all exits
  entries : ∀ site ∈ sites, Finds all site.entry site.view
  level : ∀ address ∈ starts, ∃ y ∈ all, y.address = address ∧ y.view.ends = []

section

variable {all scenes more : List Scene} {set : Setting} {address start : Nat} {view view' : View}
  {sites sites' : List DefinitionSite} {starts starts' : List Nat} {exits exits' : List Exit} {instr : Instr}

theorem Finds.level (h : Finds all start (set.view [])) : ∃ y ∈ all, y.address = start ∧ y.view.ends = [] := by
  obtain ⟨y, hy, haddress, hview⟩ := h
  exact ⟨y, hy, haddress, by rw [hview]; rfl⟩

theorem Led.framed (h : Led all start (set.view []) scenes) :
    Framed all start (set.view []) scenes [] [start] exits :=
  ⟨h.first, fun x hx => Or.inl (h.sound x hx), by simp, by simpa using h.first.level⟩

theorem Framed.staged (h : Framed all start view scenes sites starts exits) (horderly : Orderly exits) :
    Staged all start view scenes sites starts :=
  ⟨⟨h.first, fun x hx => (h.sound x hx).elim id (·.sound horderly)⟩, h.entries, h.level⟩

theorem Framed.behind (h : Framed all address view' more sites starts exits) (h' : Led all start (set.view []) scenes) :
    Framed all start (set.view []) (scenes ++ more) sites (start :: starts) exits := by
  refine ⟨h'.first, fun x hx => ?_, h.entries, forall_mem_cons.mpr ⟨h'.first.level, h.level⟩⟩
  rcases mem_append.mp hx with hx | hx
  · exact Or.inl (h'.sound x hx)
  · exact h.sound x hx

theorem Framed.before (h : Framed all start view scenes sites starts exits) (h' : Led all address view' more) :
    Framed all start view (scenes ++ more) sites starts exits := by
  refine ⟨h.first, fun x hx => ?_, h.entries, h.level⟩
  rcases mem_append.mp hx with hx | hx
  · exact h.sound x hx
  · exact Or.inl (h'.sound x hx)

theorem Framed.append (h : Framed all start view scenes sites starts exits)
    (h' : Framed all address view' more sites' starts' exits') :
    Framed all start view (scenes ++ more) (sites ++ sites') (starts ++ starts') (exits ++ exits') := by
  refine ⟨h.first, fun x hx => ?_, fun site hsite => ?_, fun a ha => ?_⟩
  · rcases mem_append.mp hx with hx | hx
    · exact (h.sound x hx).imp_right (·.mono (subset_append_left ..))
    · exact (h'.sound x hx).imp_right (·.mono (subset_append_right ..))
  · rcases mem_append.mp hsite with hsite | hsite
    · exact h.entries site hsite
    · exact h'.entries site hsite
  · rcases mem_append.mp ha with ha | ha
    · exact h.level a ha
    · exact h'.level a ha

end

namespace Layout

variable (primitives : List String)

section

variable {all : List Scene}

theorem sites_straight {n : Node} (h : n.Straight) (shape : List Mark) (s : Point) : sites primitives shape s n = [] := by
  cases h with
  | define x _ hne => exact sites_variable _ hne ..
  | _ => simp [sites]

theorem straight_framed {n : Node} (h : n.Straight) {set : Setting} {s : Point} {exits : List Exit}
    (hall : ∀ x ∈ statementScenes primitives set s n, x ∈ all)
    (hend : Finds all (next primitives s n).here (set.view [])) :
    Framed all s.here (set.view []) (statementScenes primitives set s n) (sites primitives set.shape s n)
      (starts primitives s n) exits := by
  have hstarts : starts primitives s n = [s.here] := by
    cases h with
    | define x _ hne => exact starts_variable _ hne ..
    | _ => simp [starts]
  rw [sites_straight primitives h, hstarts]
  exact ((straight_strand primitives h set s).led hall hend).framed

theorem block_framed (set : Setting) {body : List Node} {s : Point} {exits : List Exit} (hstats : AreStats body)
    (hall : ∀ x ∈ statementScenes primitives set s (.block body), x ∈ all)
    (hend : Finds all (next primitives s (.block body)).here (set.view []))
    (hbody : (∀ x ∈ statementsScenes primitives (set.inBlock (s.here + 2) (declaresAll body)) s.inBlock body, x ∈ all) →
      Finds all (nextAll primitives s.inBlock body).here ((set.inBlock (s.here + 2) (declaresAll body)).view []) →
      Framed all s.inBlock.here ((set.inBlock (s.here + 2) (declaresAll body)).view [])
        (statementsScenes primitives (set.inBlock (s.here + 2) (declaresAll body)) s.inBlock body)
        (sitesAll primitives (.block :: set.shape) s.inBlock body) (startsAll primitives s.inBlock body) exits) :
    Framed all s.here (set.view []) (statementScenes primitives set s (.block body))
      (sites primitives set.shape s (.block body)) (starts primitives s (.block body)) exits := by
  rw [statementScenes] at hall ⊢
  rw [next] at hend
  rw [sites, starts]
  have hinside := members_tail hall
  have hleave := Led.single (members_right hinside) ⟨Nat.zero_le _, rfl, _, _, rfl, hend⟩
  have hframed := hbody (members_left hinside) hleave.first
  -- the block is entered with as many variables as it declares
  have hcount : (declaresAll body).length = (nextAll primitives s.inBlock body).slot := by
    rw [Names.slot, nextAll_innermost primitives hstats]
    rfl
  have henter := Led.single (members_head hall) ⟨Nat.zero_le _, rfl, declaresAll body, hcount, hframed.first⟩
  exact (hframed.before hleave).behind henter

end

mutual

theorem statement_framed {all : List Scene} : ∀ {n : Node}, IsStat n → ∀ {inside : Bool} {set : Setting} {s : Point},
    (∀ x ∈ statementScenes primitives set s n, x ∈ all) → Finds all (next primitives s n).here (set.view []) →
    Around all inside set →
    Framed all s.here (set.view []) (statementScenes primitives set s n) (sites primitives set.shape s n)
      (starts primitives s n) (exits inside n)
  | _, .exprStat he, _, _, _, hall, hend, _ => straight_framed primitives (.exprStat he) hall hend
  | _, .print hargs, _, _, _, hall, hend, _ => straight_framed primitives (.print hargs) hall hend
  | _, .ifThen hcond hyes, inside, set, s, hall, hend, haround => by
    rw [statementScenes] at hall ⊢
    rw [next] at hend
    rw [sites, starts, exits]
    have hinside := statement_framed hyes (members_tail (members_right hall)) hend haround
    have hbranch := Led.single (members_head (members_right hall)) ⟨Nat.le_refl 1, hend, hinside.first⟩
    have htest := ((expression_strand primitives set _ hcond [] _).led (members_left hall) hbranch.first).append hbranch
    simpa only [append_assoc, cons_append, nil_append] using hinside.behind htest
  | _, .ifElse hcond hyes hno, inside, set, s, hall, hend, haround => by
    rw [statementScenes] at hall ⊢
    rw [next] at hend
    rw [sites, starts, exits]
    have hbranches := members_tail (members_right hall)
    have hno := statement_framed hno (members_tail (members_right hbranches)) hend haround
    have hjump := Led.single (members_head (members_right hbranches)) ⟨Nat.zero_le _, Or.inl hend⟩
    have hyes := statement_framed hyes (members_left hbranches) hjump.first haround
    have hbranch := Led.single (members_head (members_right hall)) ⟨Nat.le_refl 1, hno.first, hyes.first⟩
    have htest := ((expression_strand primitives set _ hcond [] _).led (members_left hall) hbranch.first).append hbranch
    simpa only [append_assoc, cons_append, nil_append] using
      ((hyes.before hjump).append hno).behind htest
  | _, @IsStat.loop cond body hcond hbody, inside, set, s, hall, hend, haround => by
    rw [statementScenes] at hall ⊢
    rw [next] at hend
    rw [sites, starts, exits]
    have hrest := members_tail (members_right hall)
    have htest := (expression_strand primitives _ _ hcond [] _).led (members_left hall)
      ⟨_, members_right hall _ (mem_cons_self ..), rfl, rfl⟩
    have hjump := Led.single (members_right hrest) ⟨Nat.zero_le _, Or.inl htest.first⟩
    have hinside := statement_framed hbody (members_left hrest) hjump.first
      (haround.inLoop _ htest.first)
    have hbranch := Led.single (members_head (members_right hall)) ⟨Nat.le_refl 1, hend, hinside.first⟩
    have hframed := (hinside.before hjump).behind (htest.append hbranch)
    simp only [append_assoc, cons_append, nil_append] at hframed
    exact hframed
  | _, .breakLoop, inside, set, s, hall, _, _ => by
    rw [statementScenes] at hall ⊢
    rw [sites, starts, exits]
    · cases hloop : innermost? set.shape with
      | none =>
        rw [hloop] at hall
        exact (Led.single hall sound_refused).framed
      | some loop =>
        rw [hloop] at hall
        have hfirst : Finds all s.here (set.view []) := ⟨_, hall _ (mem_singleton_self _), rfl, rfl⟩
        exact ⟨hfirst, forall_mem_singleton.mpr (Or.inr (.breaks rfl rfl (mem_singleton_self _))), by simp,
          by simpa using hfirst.level⟩
    all_goals simp
  | _, .continueLoop, inside, set, s, hall, _, haround => by
    rw [statementScenes] at hall ⊢
    rw [sites, starts, exits]
    · cases hloop : innermost? set.shape with
      | none =>
        rw [hloop] at hall
        exact (Led.single hall sound_refused).framed
      | some loop =>
        rw [hloop] at hall
        obtain ⟨scopes, home, hfinds, hown⟩ := haround.loop _ _ hloop
        have hfirst : Finds all s.here (set.view []) := ⟨_, hall _ (mem_singleton_self _), rfl, rfl⟩
        exact ⟨hfirst, forall_mem_singleton.mpr
          (Or.inr (.continues rfl rfl (mem_singleton_self _) hfinds hown)), by simp, by simpa using hfirst.level⟩
    all_goals simp
  | _, .block hbody, inside, set, s, hall, hend, haround => by
    exact block_framed primitives set hbody hall hend fun hall' hend' =>
      statements_framed hbody hall' hend' (haround.inBlock _ _)
  | _, @IsStat.function x xs body hbody, inside, set, s, hall, hend, haround => by
    rw [statementScenes_function] at hall ⊢
    rw [next_function, Point.declare_here] at hend
    rw [sites, starts, exits]
    have hrest := members_right (members_tail hall)
    have hstore := Led.single (members_tail (members_tail hrest)) ((storing_passes set _ x).sound hend)
    have hconst := Led.cons (members_tail hrest) ⟨Nat.zero_le _, hstore.first⟩ hstore
    have hreturn := Led.cons hrest ⟨Nat.zero_le _, rfl, by simp [scene, view, loose,
      inFunction]⟩ hconst
    have hinside := block_framed primitives (set.inFunction (s.here + 2) xs) hbody
      (members_left (members_tail hall)) hreturn.first fun hall' hend' =>
        statements_framed hbody hall' hend' ((haround.inFunction _ _).inBlock _ _)
    have hjump := Led.single (members_head hall) ⟨Nat.zero_le _, Or.inl hconst.first⟩
    have hframed := (hinside.before hreturn).behind hjump
    exact ⟨hframed.first, hframed.sound, forall_mem_cons.mpr ⟨hinside.first, hframed.entries⟩, hframed.level⟩
  | _, .define x hvalue hne, _, _, _, hall, hend, _ => straight_framed primitives (.define x hvalue hne) hall hend
  | _, .assign x hvalue, _, _, _, hall, hend, _ => straight_framed primitives (.assign x hvalue) hall hend
  | _, .return, inside, set, s, hall, _, haround => by
    rw [statementScenes] at hall ⊢
    rw [sites, starts, exits]
    · refine (Led.single hall ?_).framed
      by_cases hfunction : .function ∈ set.shape
      · rw [if_pos hfunction]
        exact ⟨Nat.zero_le _, rfl, haround.home hfunction⟩
      · rw [if_neg hfunction]
        exact sound_refused
    all_goals simp
  | _, .returnValue hvalue, inside, set, s, hall, _, haround => by
    rw [statementScenes] at hall ⊢
    rw [sites, starts, exits]
    · have hreturn := Led.single (members_right hall) (by
        by_cases hfunction : .function ∈ set.shape
        · rw [if_pos hfunction]
          exact ⟨Nat.le_refl 1, ⟨_, rfl⟩, haround.home hfunction⟩
        · rw [if_neg hfunction]
          exact sound_refused)
      exact (((expression_strand primitives set _ hvalue [] _).led (members_left hall) hreturn.first).append hreturn).framed
    all_goals simp

theorem statements_framed {all : List Scene} : ∀ {ns : List Node}, AreStats ns →
    ∀ {inside : Bool} {set : Setting} {s : Point},
    (∀ x ∈ statementsScenes primitives set s ns, x ∈ all) → Finds all (nextAll primitives s ns).here (set.view []) →
    Around all inside set →
    Framed all s.here (set.view []) (statementsScenes primitives set s ns) (sitesAll primitives set.shape s ns)
      (startsAll primitives s ns) (exitsAll inside ns)
  | _, .nil, inside, set, s, _, hend, _ => by
    rw [nextAll] at hend
    rw [statementsScenes, sitesAll, startsAll, exitsAll]
    exact ⟨hend, by simp, by simp, by simp⟩
  | _, .cons hn hns, inside, set, s, hall, hend, haround => by
    rw [statementsScenes] at hall ⊢
    rw [nextAll] at hend
    rw [sitesAll, startsAll, exitsAll]
    have hrest := statements_framed hns (members_right hall) hend haround
    exact (statement_framed hn (members_left hall) hrest.first haround).append hrest

end

/-! ## Programs -/

/-- The scenes of a program, with the end of its code behind them. -/
def stage (body : List Node) : List Scene :=
  scenes primitives body ++ [⟨⟨(finish primitives body).here, .refused, [.loose]⟩, ⟨[], [], none⟩, .none⟩]

section

variable {body : List Node} (h : AreStats body)

include h

theorem stage_toSpot : (stage primitives body).map (·.toSpot) = extent primitives body := by
  rw [stage, map_append, program_toSpot primitives h]
  rfl

theorem stage_unique {x y : Scene} (hx : x ∈ stage primitives body) (hy : y ∈ stage primitives body)
    (haddress : x.address = y.address) : x = y := by
  have hsorted := (extent_ordered primitives h).sorted
  rw [← stage_toSpot primitives h, pairwise_map] at hsorted
  exact eq_of_sorted (fun x : Scene => x.address) hsorted hx hy haddress

/-- **The scenes of a program fit together.** -/
theorem program_framed :
    Framed (stage primitives body) 0 ⟨[], [], none⟩ (scenes primitives body) (definitions primitives body)
      (starts primitives (origin body) (.block body)) (exitsAll false body) := by
  have hend : Finds (stage primitives body) (finish primitives body).here ⟨[], [], none⟩ :=
    ⟨_, mem_append_right _ (mem_singleton_self _), rfl, rfl⟩
  have haround : Around (stage primitives body) false ⟨[], [], none⟩ := ⟨by simp, by simp [innermost?]⟩
  exact block_framed primitives ⟨[], [], none⟩ h (fun x hx => mem_append_left _ hx) hend
    fun hall' hend' => statements_framed primitives h hall' hend' (haround.inBlock _ _)

theorem program_staged (horderly : Orderly (exitsAll false body)) :
    Staged (stage primitives body) 0 ⟨[], [], none⟩ (scenes primitives body) (definitions primitives body)
      (starts primitives (origin body) (.block body)) := (program_framed primitives h).staged horderly

end

end Layout

end Cilly
