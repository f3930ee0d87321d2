import Cilly.Proofs.Expressions
import Cilly.Proofs.FunctionTable

/-!
# Compiled statements

The code of a statement does what the statement means (`exec_mirrors`). It ends in one of two ways: the machine stands behind the statement, with the variables
as they are then (`Snapshot.Ends`), or the function has returned (`Snapshot.Departs`). In both, only the scopes of the function itself may
have changed.

There is a lemma for each kind of statement; what it needs of the layout is `Hosted`, which passes on to the statements inside. A loop goes back once per
round, so that a loop which lacks fuel has taken a step for each of its rounds (`iterate_mirrors`).
-/

namespace Cilly

open Node Layout Snapshot Reference

variable {body : List Node} {start stop : Nat}

/-! ## Parts of a program -/

/-- A statement of a program: a part of it whose scopes are those of the program. -/
structure Node.Clause (body : List Node) (n : Node) : Prop extends Part body n where
  scopes : scopes n ⊆ scopes (.block body)

structure Node.ClauseAll (body : List Node) (ns : List Node) : Prop extends PartAll body ns where
  scopes : scopesAll ns ⊆ scopes (.block body)

namespace Node.Clause

variable {body : List Node} {e cond yes no n value : Node} {args ns : List Node} {x : Datum} {xs : List Datum}

theorem exprStat (h : Clause body (.exprStat e)) : Part body e := by
  obtain ⟨⟨hleaves, hparts⟩, -⟩ := h
  rw [leaves] at hleaves
  rw [parts] at hparts
  exact ⟨hleaves, (List.cons_subset.mp hparts).2⟩

theorem print (h : Clause body (.print args)) : PartAll body args := by
  obtain ⟨⟨hleaves, hparts⟩, -⟩ := h
  rw [leaves] at hleaves
  rw [parts] at hparts
  exact ⟨hleaves, (List.cons_subset.mp hparts).2⟩

theorem ifThen (h : Clause body (.ifThen cond yes)) : Part body cond ∧ Clause body yes := by
  obtain ⟨⟨hleaves, hparts⟩, hscopes⟩ := h
  rw [leaves] at hleaves
  rw [parts] at hparts
  rw [Node.scopes] at hscopes
  obtain ⟨hfirst, hsecond⟩ := List.append_subset.mp hleaves
  obtain ⟨hfirst', hsecond'⟩ := List.append_subset.mp (List.cons_subset.mp hparts).2
  exact ⟨⟨hfirst, hfirst'⟩, ⟨hsecond, hsecond'⟩, hscopes⟩

theorem ifElse (h : Clause body (.ifElse cond yes no)) : Part body cond ∧ Clause body yes ∧ Clause body no := by
  obtain ⟨⟨hleaves, hparts⟩, hscopes⟩ := h
  rw [leaves] at hleaves
  rw [parts] at hparts
  rw [Node.scopes] at hscopes
  obtain ⟨hfirst, hrest⟩ := List.append_subset.mp hleaves
  obtain ⟨hsecond, hthird⟩ := List.append_subset.mp hrest
  obtain ⟨hfirst', hrest'⟩ := List.append_subset.mp (List.cons_subset.mp hparts).2
  obtain ⟨hsecond', hthird'⟩ := List.append_subset.mp hrest'
  obtain ⟨hyes, hno⟩ := List.append_subset.mp hscopes
  exact ⟨⟨hfirst, hfirst'⟩, ⟨⟨hsecond, hsecond'⟩, hyes⟩, ⟨hthird, hthird'⟩, hno⟩

theorem loop (h : Clause body (.loop cond n)) : Part body cond ∧ Clause body n := by
  obtain ⟨⟨hleaves, hparts⟩, hscopes⟩ := h
  rw [leaves] at hleaves
  rw [parts] at hparts
  rw [Node.scopes] at hscopes
  obtain ⟨hfirst, hsecond⟩ := List.append_subset.mp hleaves
  obtain ⟨hfirst', hsecond'⟩ := List.append_subset.mp (List.cons_subset.mp hparts).2
  exact ⟨⟨hfirst, hfirst'⟩, ⟨hsecond, hsecond'⟩, hscopes⟩

theorem block (h : Clause body (.block ns)) : .block (declaresAll ns) ∈ Node.scopes (.block body) ∧ ClauseAll body ns := by
  obtain ⟨⟨hleaves, hparts⟩, hscopes⟩ := h
  rw [leaves] at hleaves
  rw [parts] at hparts
  rw [Node.scopes] at hscopes
  obtain ⟨hscope, hscopes⟩ := List.cons_subset.mp hscopes
  exact ⟨hscope, ⟨hleaves, (List.cons_subset.mp hparts).2⟩, hscopes⟩

theorem define (h : Clause body (.define x value)) : ⟨"id", x⟩ ∈ leavesAll body ∧ Part body value := by
  obtain ⟨⟨hleaves, hparts⟩, -⟩ := h
  rw [leaves] at hleaves
  rw [parts] at hparts
  obtain ⟨hx, hleaves⟩ := List.cons_subset.mp hleaves
  exact ⟨hx, hleaves, (List.cons_subset.mp hparts).2⟩

theorem function (h : Clause body (.define x (.function xs n))) : Clause body n := by
  obtain ⟨-, hleaves, hparts⟩ := h.define
  have hscopes := h.scopes
  rw [leaves] at hleaves
  rw [parts] at hparts
  rw [Node.scopes] at hscopes
  exact ⟨⟨(List.append_subset.mp hleaves).2, (List.cons_subset.mp hparts).2⟩, (List.cons_subset.mp hscopes).2⟩

theorem assign (h : Clause body (.assign x value)) : ⟨"id", x⟩ ∈ leavesAll body ∧ Part body value := by
  obtain ⟨⟨hleaves, hparts⟩, -⟩ := h
  rw [leaves] at hleaves
  rw [parts] at hparts
  obtain ⟨hx, hleaves⟩ := List.cons_subset.mp hleaves
  exact ⟨hx, hleaves, (List.cons_subset.mp hparts).2⟩

theorem returnValue (h : Clause body (.returnValue value)) : Part body value := by
  obtain ⟨⟨hleaves, hparts⟩, -⟩ := h
  rw [leaves] at hleaves
  rw [parts] at hparts
  exact ⟨hleaves, (List.cons_subset.mp hparts).2⟩

end Node.Clause

theorem Node.ClauseAll.refl (body : List Node) : ClauseAll body body :=
  ⟨⟨List.Subset.refl _, List.Subset.refl _⟩, by rw [Node.scopes]; exact List.subset_cons_self _ _⟩

theorem Node.ClauseAll.cons {body : List Node} {n : Node} {ns : List Node} (h : ClauseAll body (n :: ns)) :
    Clause body n ∧ ClauseAll body ns := by
  obtain ⟨hfirst, hrest⟩ := h.toPartAll.cons
  have hscopes := h.scopes
  rw [scopesAll] at hscopes
  obtain ⟨hscopes, hscopes'⟩ := List.append_subset.mp hscopes
  exact ⟨⟨hfirst, hscopes⟩, ⟨hrest, hscopes'⟩⟩

mutual

theorem Node.clause_of_function : ∀ {n : Node}, IsStat n → Clause body n → ∀ {f : Function}, f ∈ functions n →
    Clause body f.body
  | _, .ifThen _ hyes, hclause, f, hf => by
    rw [functions] at hf
    exact clause_of_function hyes hclause.ifThen.2 hf
  | _, .ifElse _ hyes hno, hclause, f, hf => by
    rw [functions] at hf
    rcases List.mem_append.mp hf with hf | hf
    · exact clause_of_function hyes hclause.ifElse.2.1 hf
    · exact clause_of_function hno hclause.ifElse.2.2 hf
  | _, .loop _ hbody, hclause, f, hf => by
    rw [functions] at hf
    exact clause_of_function hbody hclause.loop.2 hf
  | _, .block hbody, hclause, f, hf => by
    rw [functions] at hf
    exact clause_of_functionAll hbody hclause.block.2 hf
  | _, .function x xs hbody, hclause, f, hf => by
    rw [functions, functions] at hf
    rcases List.mem_cons.mp hf with rfl | hf
    · exact hclause.function
    · exact clause_of_functionAll hbody hclause.function.block.2 hf
  | _, .define x _ hne, _, f, hf => by
    rw [functions_variable hne] at hf
    cases hf
  | _, .exprStat _, _, f, hf | _, .print _, _, f, hf | _, .breakLoop, _, f, hf | _, .continueLoop, _, f, hf
  | _, .assign _ _, _, f, hf | _, .return, _, f, hf | _, .returnValue _, _, f, hf => by simp [functions] at hf

theorem Node.clause_of_functionAll : ∀ {ns : List Node}, AreStats ns → ClauseAll body ns →
    ∀ {f : Function}, f ∈ functionsAll ns → Clause body f.body
  | _, .nil, _, f, hf => by simp [functionsAll] at hf
  | _, .cons hn hns, hclause, f, hf => by
    rw [functionsAll] at hf
    rcases List.mem_append.mp hf with hf | hf
    · exact clause_of_function hn hclause.cons.1 hf
    · exact clause_of_functionAll hns hclause.cons.2 hf

end

theorem Straight.nodup_names {p : Program} (h : Straight body p) {scope : Scope} {names : List String}
    (hscope : scope ∈ Node.scopes (.block body)) (hnames : scope.names = names.map Datum.text) : names.Nodup := by
  have hmem : scope.names.toArray ∈ p.scopes := by
    rw [← Array.mem_toList_iff, h.laid.scopes]
    exact List.mem_cons_of_mem _ (List.mem_map_of_mem (f := fun scope : Scope => scope.names.toArray) hscope)
  have htidy : (names.map Datum.text).Pairwise fun x y => x.eq y = false := hnames ▸ h.laid.tidy _ hmem
  have htexts : ∀ x ∈ names.map Datum.text, ∃ s, x = .text s := by
    intro x hx
    obtain ⟨s, -, rfl⟩ := List.mem_map.mp hx
    exact ⟨s, rfl⟩
  exact (MachineM.nodup_texts htexts htidy).of_map

/-! ## How a statement ends -/

namespace Snapshot

/-- A statement is over, and the next one follows. Of what was there before, only the scopes of the function have changed. -/
structure Ends (p : Program) (full : Scopes) (address : Nat) (c : Snapshot) (env : Env) (c' : Snapshot) :
    Prop where
  pc : c'.pc = address
  stack : c'.stack = c.stack
  chain : c'.chain = c.chain
  frames : c'.frames = c.frames
  untouched : Untouched (c.chain.take full.length) c.store c'.store
  stored : Stored p c'.store full env c'.chain

/-- The function has returned: its frame is gone, and the value is on the stack. -/
structure Departs (full : Scopes) (c : Snapshot) (v : Datum) (c' : Snapshot) : Prop where
  frames : c.frames = ⟨c'.pc, c'.chain⟩ :: c'.frames
  stack : c'.stack = v :: c.stack
  untouched : Untouched (c.chain.take full.length) c.store c'.store

/-- What a statement has come to. -/
def Ran (p : Program) (full : Scopes) (address : Nat) (c : Snapshot) : Flow → Snapshot → Prop
  | .on env, c' => Ends p full address c env c'
  | .back v, c' => Departs full c v c'

/-- In a function there is a call to return from. -/
def Called (shape : List Mark) (c : Snapshot) : Prop :=
  .function ∈ shape → ∃ (back : Nat) (chain : List Nat) (outer : List Frame), c.frames = ⟨back, chain⟩ :: outer

variable {p : Program} {full : Scopes} {env env' : Env} {c c' c'' : Snapshot} {address address' fuel : Nat}
  {v : Datum} {values : List Datum}

theorem Gives.ends (h : Gives c address [] c') (hcarries : Carries p full env c) : Ends p full address c env c' where
  pc := h.pc
  stack := h.stack
  chain := h.chain
  frames := h.frames
  untouched := .of_extends h.store
  stored := (hcarries.gives h).stored

namespace Ends

theorem carries (h : Ends p full address c env' c') (hcarries : Carries p full env c) : Carries p full env' c' where
  static := by
    refine h.untouched.static (fun id hid => ?_) hcarries.static
    rw [hcarries.stored.length] at hid
    exact (hcarries.stored.own id hid).1
  stored := h.stored

theorem called {shape : List Mark} (h : Ends p full address c env' c') (hcalled : Called shape c) : Called shape c' := by
  intro hmem
  rw [h.frames]
  exact hcalled hmem

/-- What comes after a statement has the same scopes to change. -/
theorem ran (h : Ends p full address c env c') {flow : Flow} (h' : Ran p full address' c' flow c'') :
    Ran p full address' c flow c'' := by
  cases flow with
  | on env' =>
    obtain ⟨hpc, hstack, hchain, hframes, huntouched, hstored⟩ := h'
    rw [h.chain] at huntouched hchain
    exact ⟨hpc, hstack.trans h.stack, hchain, hframes.trans h.frames, h.untouched.trans huntouched, hstored⟩
  | back v =>
    obtain ⟨hframes, hstack, huntouched⟩ := h'
    rw [h.chain] at huntouched
    exact ⟨h.frames ▸ hframes, by rw [hstack, h.stack], h.untouched.trans huntouched⟩

end Ends

theorem Mirrors.jump {x : Eval Flow} (h : Mirrors p fuel c' x (Ran p full address c))
    (hjump : (Instr.jump address').In p address) : Mirrors p fuel c' x (Ran p full address' c) := by
  rw [← bind_pure x]
  refine h.bind fun flow c'' hran => ?_
  cases flow with
  | on env =>
    rw [← Ends.pc hran] at hjump
    exact .step (steps_jump hjump) rfl (.returns { hran with pc := rfl })
  | back v => exact .returns hran

end Snapshot

/-! ## Kinds of statements -/

/-- The code of a statement does what the statement means. -/
def Executes (p : Program) (fuel : Nat) (rules : Rules) (shape : List Mark) (s : Point)
    (scopes full : Scopes) (n : Node) : Prop :=
  ∀ (env : Env) (c : Snapshot), c.pc = s.here → Carries p full env c → Called shape c →
    c.Mirrors p fuel (exec rules scopes env n) (Ran p full (next [] s n).here c)

def ExecutesAll (p : Program) (fuel : Nat) (rules : Rules) (shape : List Mark) (s : Point)
    (scopes full : Scopes) (ns : List Node) : Prop :=
  ∀ (env : Env) (c : Snapshot), c.pc = s.here → Carries p full env c → Called shape c →
    c.Mirrors p fuel (execAll rules scopes env ns) (Ran p full (nextAll [] s ns).here c)

section

variable {body : List Node} {p : Program} {fuel : Nat} {rules : Rules} {shape : List Mark} {s : Point}
  {scopes full : Scopes} {env : Env} {c : Snapshot} {e cond yes no value : Node} {args ns : List Node}
  {x : String}

theorem Expresses.mirrors (he : Expresses p fuel rules shape s.toNames scopes full e)
    (hfollows : p.Follows (expression [] shape s.toNames s.here e)) (hpc : c.pc = s.here) (hcarries : Carries p full env c) :
    c.Mirrors p fuel (eval rules scopes env e) fun v c' => c.Gives (s.here + width [] s.toNames e) [v] c' := by
  rw [← hpc] at hfollows ⊢
  exact he env c hfollows hcarries

theorem Executes.exprStat (he : Expresses p fuel rules shape s.toNames scopes full e)
    (hfollows : p.Follows (statement [] shape s (.exprStat e))) : Executes p fuel rules shape s scopes full (.exprStat e) := by
  intro env c hpc hcarries _
  rw [statement, follows_append, follows_cons] at hfollows
  obtain ⟨hfirst, hpop, -⟩ := hfollows
  rw [exec, next]
  refine (he.mirrors hfirst hpc hcarries).discard.bind ?_
  rintro _ c' ⟨v, hgives⟩
  rw [← hgives.pc] at hpop
  refine .step (steps_pop hpop hgives.stack) rfl (.returns (Gives.ends ?_ hcarries))
  exact ⟨by rw [Point.skip_here, ← Nat.add_assoc, ← hgives.pc], rfl, hgives.chain, hgives.frames, hgives.store⟩

theorem print_mirrors (h : Straight body p) (haccords : Accords body p fuel rules) {names : Names}
    (hknown : names.Known p scopes full) : ∀ {es : List Node}, AreExprs es → PartAll body es →
    ∀ (c : Snapshot), p.Follows (Layout.printed [] shape names c.pc es) → Carries p full env c →
    c.Mirrors p fuel (print rules scopes env es) fun _ c' => c.Gives (c.pc + printedWidth [] names es) [] c' := by
  intro es
  induction es with
  | nil =>
    intro _ _ c _ _
    rw [Reference.print]
    exact .returns ⟨rfl, rfl, rfl, rfl, .refl _⟩
  | cons e es ih =>
    rintro (_ | ⟨he, hes⟩) hpart c hfollows hcarries
    rw [Layout.printed, follows_append, follows_cons] at hfollows
    obtain ⟨hfirst, hprint, hrest⟩ := hfollows
    rw [Reference.print]
    refine (eval_mirrors h haccords hknown he hpart.cons.1 env c hfirst hcarries).bind fun v c' hgives => ?_
    rw [← hgives.pc] at hprint hrest
    refine .ofFault (fun f hf => stops_printItem hprint hgives.stack hf) fun text htext => ?_
    have hgives' : c.Gives (c'.pc + 1) [] { c' with pc := c'.pc + 1, stack := c.stack, printed := c'.printed ++ (text ++ " ") } :=
      ⟨rfl, rfl, hgives.chain, hgives.frames, hgives.store⟩
    refine .emit (steps_printItem hprint hgives.stack htext) rfl
      ((ih hes hpart.cons.2 _ hrest (hcarries.gives hgives')).imp fun _ c'' hgives'' => ?_)
    rw [printedWidth, ← Nat.add_assoc, ← Nat.add_assoc, ← hgives.pc]
    exact hgives'.trans hgives''

theorem Executes.print (h : Straight body p) (haccords : Accords body p fuel rules) (hknown : s.toNames.Known p scopes full)
    (hargs : AreExprs args) (hpart : PartAll body args) (hfollows : p.Follows (statement [] shape s (.print args))) :
    Executes p fuel rules shape s scopes full (.print args) := by
  intro env c hpc hcarries _
  rw [statement, follows_append, follows_cons, ← hpc] at hfollows
  obtain ⟨hfirst, hnewline, -⟩ := hfollows
  rw [exec, next, Point.skip_here, ← hpc]
  refine (print_mirrors h haccords hknown hargs hpart c hfirst hcarries).bind fun _ c' hgives => ?_
  rw [← hgives.pc] at hnewline
  refine .emit (steps_printNewline hnewline) rfl (.returns (Gives.ends ?_ hcarries))
  exact ⟨by rw [← Nat.add_assoc, ← hgives.pc], hgives.stack, hgives.chain, hgives.frames, hgives.store⟩

theorem Expresses.test (he : Expresses p fuel rules shape s.toNames scopes full e)
    (hfollows : p.Follows (expression [] shape s.toNames s.here e)) {target : Nat}
    (hbranch : (Instr.branch .jumpFalse target).In p (s.here + width [] s.toNames e)) (hpc : c.pc = s.here)
    (hcarries : Carries p full env c) : c.Mirrors p fuel (eval rules scopes env e) fun v c' =>
      Ends p full (if v.eq .no then target else s.here + (width [] s.toNames e + 2)) c env c' := by
  refine (he.mirrors hfollows hpc hcarries).andThen fun v c' hgives => ?_
  rw [← Nat.add_assoc, ← hgives.pc]
  rw [← hgives.pc] at hbranch
  exact ⟨_, steps_jumpFalse hbranch hgives.stack, rfl,
    Gives.ends ⟨rfl, rfl, hgives.chain, hgives.frames, hgives.store⟩ hcarries⟩

theorem Executes.ifThen (hcond : Expresses p fuel rules shape s.toNames scopes full cond)
    (hyes : Executes p fuel rules shape (s.skip (width [] s.toNames cond + 2)) scopes full yes)
    (hfollows : p.Follows (statement [] shape s (.ifThen cond yes))) : Executes p fuel rules shape s scopes full (.ifThen cond yes) := by
  intro env c hpc hcarries hcalled
  rw [statement, follows_append, follows_cons] at hfollows
  obtain ⟨hfirst, hbranch, -⟩ := hfollows
  rw [exec, next]
  refine (hcond.test hfirst hbranch hpc hcarries).bind fun v c' hends => ?_
  by_cases hv : v.eq .no = true
  · rw [if_pos hv] at hends ⊢
    exact .returns hends
  · rw [if_neg hv] at hends ⊢
    exact (hyes env c' hends.pc (hends.carries hcarries) (hends.called hcalled)).imp fun _ _ => hends.ran

theorem Executes.ifElse (hcond : Expresses p fuel rules shape s.toNames scopes full cond)
    (hyes : Executes p fuel rules shape (s.skip (width [] s.toNames cond + 2)) scopes full yes)
    (hno : Executes p fuel rules shape ((next [] (s.skip (width [] s.toNames cond + 2)) yes).skip 2)
      (scopes.declare (declared yes)) full no)
    (hfollows : p.Follows (statement [] shape s (.ifElse cond yes no))) :
    Executes p fuel rules shape s scopes full (.ifElse cond yes no) := by
  intro env c hpc hcarries hcalled
  rw [statement, follows_append, follows_cons, follows_append,
    follows_cons] at hfollows
  obtain ⟨hfirst, hbranch, -, hjump, -⟩ := hfollows
  rw [exec, next]
  refine (hcond.test hfirst hbranch hpc hcarries).bind fun v c' hends => ?_
  by_cases hv : v.eq .no = true
  · rw [if_pos hv] at hends ⊢
    exact (hno env c' hends.pc (hends.carries hcarries) (hends.called hcalled)).imp fun _ _ => hends.ran
  · rw [if_neg hv] at hends ⊢
    exact ((hyes env c' hends.pc (hends.carries hcarries) (hends.called hcalled)).imp fun _ _ => hends.ran).jump hjump

/-- Each round of a loop ends with a step back, so a loop that lacks fuel has taken as many steps. -/
theorem iterate_mirrors {test : Env → Eval Datum} {round : Env → Eval Flow}
    {inside last : Nat}
    (htest : ∀ env c, c.pc = start → Carries p full env c →
      c.Mirrors p fuel (test env) fun v c' => Ends p full (if v.eq .no then stop else inside) c env c')
    (hround : ∀ env c, c.pc = inside → Carries p full env c → Called shape c → c.Mirrors p fuel (round env) (Ran p full last c))
    (hjump : (Instr.jump start).In p last) : ∀ rounds ≤ fuel, ∀ (env : Env) (c : Snapshot), c.pc = start →
    Carries p full env c → Called shape c → c.Mirrors p rounds (iterate test round rounds env) (Ran p full stop c)
  | 0, _ => fun env c _ _ _ => .outOfFuel
  | rounds + 1, hle => by
    intro env c hpc hcarries hcalled
    rw [iterate]
    refine ((htest env c hpc hcarries).mono hle).bind fun v c₁ hends₁ => ?_
    by_cases hv : v.eq .no = true
    · rw [if_pos hv] at hends₁ ⊢
      exact .returns hends₁
    · rw [if_neg hv] at hends₁ ⊢
      refine ((hround env c₁ hends₁.pc (hends₁.carries hcarries) (hends₁.called hcalled)).mono hle).bind fun flow c₂ hran => ?_
      have hran := hends₁.ran hran
      cases flow with
      | back v => exact .returns hran
      | on env' =>
        have hback : (Instr.jump start).In p c₂.pc := by
          rw [Ends.pc hran]
          exact hjump
        have hends₂ : Ends p full start c env' { c₂ with pc := start } := { hran with pc := rfl }
        have hrest := iterate_mirrors htest hround hjump rounds (Nat.le_of_succ_le hle) env' _ rfl
          (hends₂.carries hcarries) (hends₂.called hcalled)
        exact .leads (steps_jump hback).leads rfl (hrest.imp fun _ _ => hends₂.ran)

theorem Snapshot.Called.inLoop (h : Called shape c) : Called (.loop start stop :: shape) c :=
  fun hmem => h (by simpa using hmem)

theorem Executes.loop (haccords : Accords body p fuel rules) {n : Node} {start stop : Nat}
    (hcond : ∀ shape, Expresses p fuel rules shape s.toNames scopes full cond)
    (hbody : Executes p fuel rules (.loop start stop :: shape) (s.skip (width [] s.toNames cond + 2)) scopes full n)
    (hfollows : p.Follows (statement [] shape s (.loop cond n))) : Executes p fuel rules shape s scopes full (.loop cond n) := by
  intro env c hpc hcarries hcalled
  rw [statement, follows_append, follows_cons, follows_append,
    follows_cons] at hfollows
  obtain ⟨hfirst, hbranch, -, hjump, -⟩ := hfollows
  rw [exec, next, haccords.rounds]
  exact iterate_mirrors (fun env c hpc hcarries => (hcond _).test hfirst hbranch hpc hcarries) hbody hjump fuel (Nat.le_refl _)
    env c hpc hcarries hcalled.inLoop

theorem Executes.block (hlexed : ∀ t ∈ leavesAll ns, t.Lexed) (hns : AreStats ns) (hnodup : (declaredAll ns).Nodup)
    (hbody : ExecutesAll p fuel rules (.block :: shape) s.inBlock ([] :: scopes) (declaredAll ns :: full) ns)
    (hfollows : p.Follows (statement [] shape s (.block ns))) : Executes p fuel rules shape s scopes full (.block ns) := by
  intro env c hpc hcarries hcalled
  rw [statement, follows_cons, follows_append, follows_cons, ← hpc] at hfollows
  obtain ⟨henter, -, hleave, -⟩ := hfollows
  have hcells : Array.replicate (nextAll [] s.inBlock ns).slot Datum.nothing =
      ((declaredAll ns).map fun _ => Datum.nothing).toArray := by
    rw [Names.slot, nextAll_innermost [] hns, declaresAll_eq hns hlexed]
    simp
  have hsteps := steps_enter henter
  rw [hcells] at hsteps
  have hinside : Carries p (declaredAll ns :: full) ((fun _ => .nothing) :: env)
      { c with pc := c.pc + 2, store := c.store.push ((declaredAll ns).map fun _ => Datum.nothing).toArray,
               chain := c.store.size :: c.chain } :=
    ⟨hcarries.static.trans (.push _ _), hcarries.stored.enter hcarries.static.size_le hnodup _⟩
  rw [exec, next]
  refine .step hsteps rfl ((hbody _ _ (by rw [hpc]; rfl) hinside fun hmem => hcalled (by simpa using hmem)).bind
    fun flow c' hran => ?_)
  cases flow with
  | on env' =>
    obtain ⟨hpc', hstack, hchain, hframes, huntouched, hstored⟩ := hran
    rw [← hpc'] at hleave
    rw [hchain] at hstored
    cases hstored with
    | cons _ _ _ _ hrest =>
      exact .step (steps_leave hleave hchain) rfl (.returns ⟨by rw [hpc'], hstack, rfl, hframes, huntouched.push, hrest⟩)
  | back v =>
    obtain ⟨hframes, hstack, huntouched⟩ := hran
    exact .returns ⟨hframes, hstack, huntouched.push⟩

theorem Snapshot.Carries.define {v : Datum} {rest : List Datum} (hcarries : Carries p full env c) (hnamed : Named scopes s.visible)
    (hopen : scopes ≠ []) (hbegins : List.Forall₂ List.IsPrefix (scopes.declare [x]) full)
    (hin : (s.storing (.text x)).In p c.pc) (hstack : c.stack = v :: rest) : ∃ c', Steps p c c' ∧ c'.printed = c.printed ∧
      Ends p full (c.pc + 3) { c with stack := rest } (define x v env) c' := by
  cases scopes with
  | nil => exact absurd rfl hopen
  | cons names outer =>
    obtain ⟨outside, hvisible, -⟩ := hnamed
    have hslot : s.slot = names.length := by
      rw [Names.slot, Names.innermost, hvisible]
      simp
    unfold Names.storing at hin
    split at hin
    · obtain ⟨id, cells, hid, hown, hcells, hlt, hstored⟩ := hcarries.stored.define hbegins v
      rw [hslot] at hin
      rw [← hcarries.stored.length] at hown
      have hstore : (Instr.store (0 : Nat) names.length).In p c.pc := hin
      exact ⟨_, steps_store hstore hid hcells hlt hstack, rfl, rfl, rfl, rfl, rfl, .set hown _ _, hstored⟩
    · exact hin.elim

theorem Executes.define (hvalue : Expresses p fuel rules shape s.toNames scopes full value)
    (hne : ∀ params body, value ≠ .function params body) (hnamed : Named scopes s.visible) (hopen : scopes ≠ [])
    (hbegins : List.Forall₂ List.IsPrefix (scopes.declare [x]) full)
    (hfollows : p.Follows (statement [] shape s (.define (.text x) value))) :
    Executes p fuel rules shape s scopes full (.define (.text x) value) := by
  intro env c hpc hcarries _
  rw [statement_variable [] hne, follows_append, follows_cons] at hfollows
  obtain ⟨hfirst, hstore, -⟩ := hfollows
  rw [exec_variable hne, next_variable [] hne, Point.declare_here, Point.skip_here, ← Nat.add_assoc]
  refine (hvalue.mirrors hfirst hpc hcarries).bind fun v c' hgives => ?_
  rw [← hgives.pc] at hstore ⊢
  have hcarries' := hcarries.gives hgives
  obtain ⟨c'', hsteps, hprinted, hends⟩ := hcarries'.define hnamed hopen hbegins hstore hgives.stack
  have hback : c.Gives c'.pc [] { c' with stack := c.stack } := ⟨rfl, rfl, hgives.chain, hgives.frames, hgives.store⟩
  exact .step hsteps hprinted (.returns ((hback.ends hcarries).ran hends))

/-- The definition of a function is stepped over, and its variable gets its index. -/
theorem Executes.function (h : Straight body p) (haccords : Accords body p fuel rules) {params : List Datum}
    (hindex : Names.routineIndex? ⟨[], p.routines⟩ (.text x) = some (s.routineFor (.text x)))
    (hnamed : Named scopes s.visible) (hopen : scopes ≠ [])
    (hbegins : List.Forall₂ List.IsPrefix (scopes.declare [x]) full)
    (hfollows : p.Follows (statement [] shape s (.define (.text x) (.function params value)))) :
    Executes p fuel rules shape s scopes full (.define (.text x) (.function params value)) := by
  intro env c hpc hcarries _
  rw [statement_function, follows_cons, follows_append, follows_cons, follows_cons,
    follows_cons, ← hpc] at hfollows
  obtain ⟨hjump, -, -, ⟨i, hholds, hconst⟩, hstore, -⟩ := hfollows
  rw [exec, haccords.index, hindex, next_function, Point.declare_here]
  obtain ⟨c', hsteps, hprinted, hends⟩ := Carries.define (c := { c with
      pc := (next [] (s.inFunction (.text x) params) value).here + 3,
      stack := .number (.int (s.routineFor (.text x))) :: c.stack }) ⟨hcarries.static, hcarries.stored⟩ hnamed hopen hbegins hstore rfl
  exact .step (steps_jump hjump) rfl (.step (steps_const hholds (h.const_eq (.int _) hconst)) rfl
    (.step hsteps hprinted (.returns { hends with })))

theorem Executes.assign (hvalue : Expresses p fuel rules shape s.toNames scopes full value) (hknown : s.toNames.Known p scopes full)
    (hfollows : p.Follows (statement [] shape s (.assign (.text x) value))) :
    Executes p fuel rules shape s scopes full (.assign (.text x) value) := by
  intro env c hpc hcarries _
  rw [statement, follows_append, follows_cons] at hfollows
  obtain ⟨hfirst, hstore, -⟩ := hfollows
  rw [exec, next, Point.skip_here, ← Nat.add_assoc]
  refine (hvalue.mirrors hfirst hpc hcarries).bind fun v c' hgives => ?_
  rw [← hgives.pc] at hstore ⊢
  have hcarries' := hcarries.gives hgives
  unfold Names.assigning at hstore
  cases hposition : position? x scopes with
  | none =>
    rw [hknown.place?_of_none hposition] at hstore
    cases hindex : s.routineIndex? (.text x) with
    | none =>
      rw [hindex] at hstore
      exact hstore.elim
    | some id =>
      rw [hindex] at hstore
      exact hstore.elim
  | some position =>
    obtain ⟨depth, i⟩ := position
    rw [hknown.place?_of_some hposition] at hstore
    obtain ⟨id, cells, env', hid, hown, hcells, hlt, hassign, hstored⟩ := hcarries'.stored.assign hknown.begins hposition v
    rw [← hcarries'.stored.length, hgives.chain] at hown
    rw [hassign]
    exact .step (steps_store hstore hid hcells hlt hgives.stack) rfl (.returns ⟨rfl, rfl, hgives.chain, hgives.frames,
      (Untouched.of_extends hgives.store).trans (.set hown _ _), hstored⟩)

theorem Executes.return (hfollows : p.Follows (statement [] shape s .return)) : Executes p fuel rules shape s scopes full .return := by
  intro env c hpc _ hcalled
  rw [statement, follows_cons, ← hpc] at hfollows
  obtain ⟨hreturn, -⟩ := hfollows
  rw [exec]
  by_cases hmem : .function ∈ shape
  · obtain ⟨back, chain, outer, hframes⟩ := hcalled hmem
    rw [if_pos hmem] at hreturn
    exact .step (steps_return hreturn hframes rfl) rfl (.returns ⟨hframes, rfl, .refl _ _⟩)
  · rw [if_neg hmem] at hreturn
    exact hreturn.elim

theorem Executes.returnValue (hvalue : Expresses p fuel rules shape s.toNames scopes full value)
    (hfollows : p.Follows (statement [] shape s (.returnValue value))) :
    Executes p fuel rules shape s scopes full (.returnValue value) := by
  intro env c hpc hcarries hcalled
  rw [statement, follows_append, follows_cons] at hfollows
  obtain ⟨hfirst, hreturn, -⟩ := hfollows
  rw [exec]
  refine (hvalue.mirrors hfirst hpc hcarries).bind fun v c' hgives => ?_
  rw [← hgives.pc] at hreturn
  by_cases hmem : .function ∈ shape
  · obtain ⟨back, chain, outer, hframes⟩ := hcalled hmem
    rw [if_pos hmem] at hreturn
    exact .step (steps_returnValue hreturn (hgives.frames.trans hframes) rfl hgives.stack) rfl
      (.returns ⟨hframes, rfl, .of_extends hgives.store⟩)
  · rw [if_neg hmem] at hreturn
    exact hreturn.elim

end

end Cilly
