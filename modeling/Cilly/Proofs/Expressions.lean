import Cilly.Proofs.Constants
import Cilly.Proofs.Mirroring
import Cilly.Proofs.Parameters
import Cilly.Proofs.Variables

/-!
# Compiled expressions

The code of an expression does what the expression means: it leaves the value on the stack, prints what is printed on the way, and fails as the
evaluation does (`eval_mirrors`). What is known of the place of an expression is kept apart from what is known of the machine there. `Names.Known` is about
compilation: names are found where they are declared. `Snapshot.Carries` is about the machine: it has the variables of the function in its scopes. A call is
taken from the rules that the expression is evaluated by (`Accords`), so nothing here depends on how deep calls are nested.
-/

namespace Cilly

open Node List CompileM Reference Reference

variable {o : BinaryOp}

/-! ## Programs -/

/-- Every call of a function passes as many arguments as the function has parameters. -/
def Node.Matching (body : List Node) : Prop :=
  ∀ f ∈ functionsAll body, ∀ args, .call (.name f.name) args ∈ partsAll body → args.length = f.params.length

/-- The programs whose code does what their tree means: without `break` and `continue`, with as many arguments as there are parameters, with
different names for different functions, and without floating-point numbers that are equal to an integer. -/
structure Straight (body : List Node) (p : Program) : Prop where
  stats : AreStats body
  laid : p.LaidOut [] body
  lexed : ∀ t ∈ leavesAll body, t.Lexed
  exits : .breakLoop ∉ partsAll body ∧ .continueLoop ∉ partsAll body
  matching : Matching body
  distinct : ((functionsAll body).map (·.name)).Nodup
  fractional : Fractional (leavesAll body)

namespace Straight

variable {body : List Node} {p : Program}

theorem const_eq (h : Straight body p) {i : Nat} {c : Datum} (hc : IsConstant (leavesAll body) c) (hconst : p.HasConst i c) :
    p.consts[i]? = some c := h.laid.const_eq h.stats h.lexed h.fractional hc hconst

theorem texts (h : Straight body p) : HasTexts body := fun _ hx => (h.lexed _ hx).name rfl

end Straight

/-- A node is a part of the program. -/
structure Node.Part (body : List Node) (n : Node) : Prop where
  leaves : leaves n ⊆ leavesAll body
  parts : parts n ⊆ partsAll body

/-- Nodes are parts of the program. -/
structure Node.PartAll (body : List Node) (ns : List Node) : Prop where
  leaves : leavesAll ns ⊆ leavesAll body
  parts : partsAll ns ⊆ partsAll body

namespace Node.Part

variable {body : List Node} {op : Datum} {e l r callee : Node} {args : List Node}

theorem unary (h : Part body (.unary op e)) : Part body e := by
  obtain ⟨hleaves, hparts⟩ := h
  rw [Node.leaves] at hleaves
  rw [Node.parts] at hparts
  exact ⟨hleaves, (cons_subset.mp hparts).2⟩

theorem binary (h : Part body (.binary op l r)) : Part body l ∧ Part body r := by
  obtain ⟨hleaves, hparts⟩ := h
  rw [Node.leaves] at hleaves
  rw [Node.parts] at hparts
  obtain ⟨hleft, hright⟩ := append_subset.mp hleaves
  obtain ⟨hleft', hright'⟩ := append_subset.mp (cons_subset.mp hparts).2
  exact ⟨⟨hleft, hleft'⟩, ⟨hright, hright'⟩⟩

theorem call (h : Part body (.call callee args)) : .call callee args ∈ partsAll body ∧ PartAll body args := by
  obtain ⟨hleaves, hparts⟩ := h
  rw [Node.leaves] at hleaves
  rw [Node.parts] at hparts
  obtain ⟨hcall, hparts⟩ := cons_subset.mp hparts
  exact ⟨hcall, (append_subset.mp hleaves).2, (append_subset.mp hparts).2⟩

end Node.Part

theorem Node.PartAll.cons {body : List Node} {n : Node} {ns : List Node} (h : PartAll body (n :: ns)) :
    Part body n ∧ PartAll body ns := by
  obtain ⟨hleaves, hparts⟩ := h
  rw [leavesAll] at hleaves
  rw [partsAll] at hparts
  obtain ⟨hfirst, hrest⟩ := append_subset.mp hleaves
  obtain ⟨hfirst', hrest'⟩ := append_subset.mp hparts
  exact ⟨⟨hfirst, hfirst'⟩, ⟨hrest, hrest'⟩⟩

/-! ## What an expression is evaluated with -/

/-- Names stand for what compilation has found: variables of the function that are declared so far, and functions of the table. -/
structure Names.Known (p : Program) (scopes full : Scopes) (names : Names) : Prop where
  grown : Grown names.routines p.routines
  named : Named scopes names.visible
  begins : Forall₂ IsPrefix scopes full

namespace Snapshot

/-- The machine has the variables of a function, and the scopes of the program as they were. -/
structure Carries (p : Program) (full : Scopes) (env : Env) (c : Snapshot) : Prop where
  static : Extends p.scopes c.store
  stored : Stored p c.store full env c.chain

/-- Code has been run that leaves values on the stack and gets to an address; it may have opened scopes, and has closed them again. -/
structure Gives (c : Snapshot) (address : Nat) (values : List Datum) (c' : Snapshot) : Prop where
  pc : c'.pc = address
  stack : c'.stack = values ++ c.stack
  chain : c'.chain = c.chain
  frames : c'.frames = c.frames
  store : Extends c.store c'.store

variable {p : Program} {c c' c'' : Snapshot} {address address' fuel : Nat} {values more : List Datum} {v : Datum}
  {full : Scopes} {env : Env}

theorem Gives.trans (h : Gives c address values c') (h' : Gives c' address' more c'') :
    Gives c address' (more ++ values) c'' where
  pc := h'.pc
  stack := by rw [h'.stack, h.stack, append_assoc]
  chain := h'.chain.trans h.chain
  frames := h'.frames.trans h.frames
  store := h.store.trans h'.store

theorem Carries.gives (h : Carries p full env c) (hgives : Gives c address values c') : Carries p full env c' where
  static := h.static.trans hgives.store
  stored := by
    rw [hgives.chain]
    exact h.stored.extended hgives.store

theorem Mirrors.value (h : Steps p c { c with pc := address, stack := v :: c.stack }) :
    Mirrors p fuel c (pure v) fun v c' => Gives c address [v] c' :=
  .step h rfl (.returns ⟨rfl, rfl, rfl, rfl, .refl _⟩)

end Snapshot

/-- A call in compiled code does what a call is said to do. -/
def CallsMirror (body : List Node) (p : Program) (fuel : Nat) (call : String → List Datum → Eval Datum) : Prop :=
  ∀ {x : String} {id : Nat} {args rest : List Datum} {c : Snapshot},
    Names.routineIndex? ⟨[], p.routines⟩ (.text x) = some id →
    (∀ f ∈ functionsAll body, f.name = .text x → f.params.length = args.length) → (Instr.call id).In p c.pc →
    c.stack = args ++ rest → Extends p.scopes c.store →
    c.Mirrors p fuel (call x args) fun v c' => Snapshot.Gives { c with stack := rest } (c.pc + 2) [v] c'

/-- The rules tell functions apart as compiled code does, and loops may be repeated as often as there is fuel. -/
structure Accords (body : List Node) (p : Program) (fuel : Nat) (rules : Rules) : Prop where
  index : ∀ x, rules.index x = Names.routineIndex? ⟨[], p.routines⟩ (.text x)
  call : CallsMirror body p fuel rules.call
  rounds : rules.rounds = fuel

/-! ## Operators -/

namespace Reference

variable {rules : Rules} {scopes : Scopes} {env : Env} {l r : Node} {op : Datum}

theorem eval_binary (h : binaryOf? op = some o) : eval rules scopes env (.binary op l r) = (do
    let a ← eval rules scopes env l
    let b ← eval rules scopes env r
    combine o a b) := by
  unfold binaryOf? at h
  split at h <;> cases h <;> simp [eval, operation?]

theorem eval_swapped (h : swappedOf? op = some o) : eval rules scopes env (.binary op l r) = (do
    let b ← eval rules scopes env r
    let a ← eval rules scopes env l
    combine o b a) := by
  unfold swappedOf? at h
  split at h <;> cases h <;> rw [eval]

/-- The right operand of `&&` and `||` is skipped if the left one is the value that it is compared with. -/
theorem eval_shortcut {skip skipped : Opcode} (h : shortcutOf? op = some (skip, skipped)) (rules : Rules)
    (scopes : Scopes) (env : Env) (l r : Node) :
    ∃ stop : Datum, eval rules scopes env (.binary op l r) = (do
      let a ← eval rules scopes env l
      if a.eq stop then return stop
      eval rules scopes env r) ∧ (skip = .jumpFalse ∧ skipped = .loadFalse ∧ stop = .no ∨
        skip = .jumpTrue ∧ skipped = .loadTrue ∧ stop = .yes) := by
  unfold shortcutOf? at h
  split at h
  · cases h
    exact ⟨.no, by rw [eval], Or.inl ⟨rfl, rfl, rfl⟩⟩
  · cases h
    exact ⟨.yes, by rw [eval], Or.inr ⟨rfl, rfl, rfl⟩⟩
  · cases h

theorem unary_eq {o : UnaryOp} (h : unaryOf? op = some o) (v : Datum) :
    unary op v = ofFault (v.payload >>= o.apply) := by
  unfold unaryOf? at h
  split at h <;> cases h <;> rfl

end Reference

namespace Snapshot.Mirrors

variable {p : Program} {fuel : Nat} {c c' : Snapshot} {v w : Datum}

theorem unary {op : Datum} (hin : (Layout.applyingUnary op).In p c'.pc) (hgives : c.Gives c'.pc [v] c') :
    c'.Mirrors p fuel (unary op v) fun u c'' => c.Gives (c'.pc + 1) [u] c'' := by
  unfold Layout.applyingUnary at hin
  split at hin
  · rename_i o hop
    rw [unary_eq hop]
    exact .attempt (fun _ hf => stops_unary hin hgives.stack hf) fun _ hu =>
      ⟨_, steps_unary hin hgives.stack hu, rfl, rfl, rfl, hgives.chain, hgives.frames, hgives.store⟩
  · exact hin.elim

theorem combine (hin : (Instr.plain (.binary o)).In p c'.pc) (hgives : c.Gives c'.pc [w, v] c') :
    c'.Mirrors p fuel (combine o v w) fun u c'' => c.Gives (c'.pc + 1) [u] c'' :=
  .attempt (fun _ hf => stops_binary hin hgives.stack hf) fun _ hu =>
    ⟨_, steps_binary hin hgives.stack hu, rfl, rfl, rfl, hgives.chain, hgives.frames, hgives.store⟩

/-- `&&` and `||`. -/
theorem shortcut {skip skipped : Opcode} {stop : Datum} {middle last : Nat} {left right : Eval Datum}
    (hcase : skip = .jumpFalse ∧ skipped = .loadFalse ∧ stop = .no ∨ skip = .jumpTrue ∧ skipped = .loadTrue ∧ stop = .yes)
    (hbranch : (Instr.branch skip (last + 2)).In p middle) (hjump : (Instr.jump (last + 3)).In p last)
    (hskipped : (Instr.plain skipped).In p (last + 2)) (hleft : c.Mirrors p fuel left fun v c' => c.Gives middle [v] c')
    (hright : ∀ c', c.Gives (middle + 2) [] c' → c'.Mirrors p fuel right fun v c'' => c'.Gives last [v] c'') :
    c.Mirrors p fuel (do
      let a ← left
      if a.eq stop then return stop
      right) fun v c' => c.Gives (last + 3) [v] c' := by
  refine hleft.bind fun a c₁ hgives => ?_
  have hstack : c₁.stack = a :: c.stack := hgives.stack
  have hsteps : Steps p c₁ { c₁ with pc := if a.eq stop then last + 2 else middle + 2, stack := c.stack } := by
    rw [← hgives.pc] at hbranch ⊢
    rcases hcase with ⟨rfl, rfl, rfl⟩ | ⟨rfl, rfl, rfl⟩
    · exact steps_jumpFalse hbranch hstack
    · exact steps_jumpTrue hbranch hstack
  refine .step hsteps rfl ?_
  by_cases hstop : a.eq stop = true
  · rw [if_pos hstop, if_pos hstop]
    have hload : Steps p { c₁ with pc := last + 2, stack := c.stack } { c₁ with pc := last + 3, stack := stop :: c.stack } := by
      rcases hcase with ⟨rfl, rfl, rfl⟩ | ⟨rfl, rfl, rfl⟩
      · exact steps_loadFalse hskipped
      · exact steps_loadTrue hskipped
    exact .step hload rfl (.returns ⟨rfl, rfl, hgives.chain, hgives.frames, hgives.store⟩)
  · rw [if_neg hstop, if_neg hstop]
    have hback : c.Gives (middle + 2) [] { c₁ with pc := middle + 2, stack := c.stack } :=
      ⟨rfl, rfl, hgives.chain, hgives.frames, hgives.store⟩
    refine (hright _ hback).andThen fun v c₂ hgives₂ => ?_
    have hall := hback.trans hgives₂
    have hjump : (Instr.jump (last + 3)).In p c₂.pc := by
      rw [hgives₂.pc]
      exact hjump
    exact ⟨_, steps_jump hjump, rfl, rfl, hall.stack, hall.chain, hall.frames, hall.store⟩

end Snapshot.Mirrors

/-! ## Names and literals -/

open Snapshot Layout

section

variable {body : List Node} {p : Program} {fuel : Nat} {rules : Rules} {names : Names}
  {scopes full : Scopes} {env : Env} {c : Snapshot} {x : String}

theorem Names.Known.place?_of_some (h : names.Known p scopes full) {depth i : Nat}
    (hposition : position? x scopes = some (depth, i)) : names.place? [] (.text x) = some (.variable depth i) := by
  rw [Names.place?, find?_named h.named, hposition]

theorem Names.Known.place?_of_none (h : names.Known p scopes full) (hposition : position? x scopes = none) :
    names.place? [] (.text x) = (names.routineIndex? (.text x)).map .routine := by
  rw [Names.place?, find?_named h.named, hposition]
  cases names.routineIndex? (.text x) with
  | some i => rfl
  | none => rfl

theorem Straight.name (h : Straight body p) (haccords : Accords body p fuel rules) (hknown : names.Known p scopes full)
    (hcarries : Carries p full env c) (hin : (names.loading [] (.text x)).In p c.pc) :
    c.Mirrors p fuel (name rules scopes env x)
      fun v c' => c.Gives (c.pc + width [] names (.name (.text x))) [v] c' := by
  cases hposition : position? x scopes with
  | some position =>
    obtain ⟨depth, i⟩ := position
    obtain ⟨id, cells, v, hid, hcells, hv, hlookup⟩ := hcarries.stored.lookup hknown.begins hposition
    have hplace := hknown.place?_of_some hposition
    rw [Names.loading, hplace] at hin
    rw [Reference.name, hlookup, width, hplace]
    exact .value (steps_load hin hid hcells hv)
  | none =>
    have hplace := hknown.place?_of_none hposition
    rw [Reference.name, Reference.Stored.lookup_eq_none hposition, haccords.index]
    cases hindex : names.routineIndex? (.text x) with
    | some id =>
      rw [hindex] at hplace
      rw [Names.loading, hplace] at hin
      obtain ⟨i, hholds, hconst⟩ := hin
      rw [hknown.grown.routineIndex? hindex, width, hplace]
      exact .value (steps_const hholds (h.const_eq (.int _) hconst))
    | none =>
      rw [hindex] at hplace
      rw [Names.loading, hplace] at hin
      exact hin.elim

theorem Straight.literal (h : Straight body p) {kind : LiteralKind} {d : Datum} (hmem : ⟨kind.tag, d⟩ ∈ leavesAll body)
    (hin : (loadingLiteral kind [d]).In p c.pc) :
    c.Mirrors p fuel (pure (literal kind d)) fun v c' => c.Gives (c.pc + width [] names (.literal kind [d])) [v] c' := by
  cases kind with
  | num =>
    obtain ⟨i, hholds, hconst⟩ := hin
    have hdrawn : Datum.Drawn (leavesAll body) 0 _ := .number hmem
    exact .value (steps_const hholds (h.const_eq (hdrawn.isConstant h.lexed) hconst))
  | str =>
    obtain ⟨i, hholds, hconst⟩ := hin
    have hdrawn : Datum.Drawn (leavesAll body) 0 _ := .text hmem
    exact .value (steps_const hholds (h.const_eq (hdrawn.isConstant h.lexed) hconst))
  | null => exact .value (steps_loadNull hin)
  | true => exact .value (steps_loadTrue hin)
  | false => exact .value (steps_loadFalse hin)

/-! ## Expressions -/

/-- The code of an expression does what the expression means. -/
def Expresses (p : Program) (fuel : Nat) (rules : Rules) (shape : List Mark) (names : Names)
    (scopes full : Scopes) (e : Node) : Prop :=
  ∀ (env : Env) (c : Snapshot), p.Follows (expression [] shape names c.pc e) → Carries p full env c →
    c.Mirrors p fuel (eval rules scopes env e) fun v c' => c.Gives (c.pc + width [] names e) [v] c'

/-- Arguments are there in their order, though they are evaluated from the last to the first. -/
def ExpressesAll (p : Program) (fuel : Nat) (rules : Rules) (shape : List Mark) (names : Names)
    (scopes full : Scopes) (es : List Node) : Prop :=
  ∀ (env : Env) (c : Snapshot), p.Follows (arguments [] shape names c.pc es) → Carries p full env c →
    c.Mirrors p fuel (evalAll rules scopes env es) fun vs c' =>
      vs.length = es.length ∧ c.Gives (c.pc + widths [] names es) vs c'

variable {shape : List Mark} {op : Datum} {e l r callee : Node} {args : List Node}

theorem Expresses.unary (he : Expresses p fuel rules shape names scopes full e) :
    Expresses p fuel rules shape names scopes full (.unary op e) := by
  intro env c hfollows hcarries
  rw [expression, follows_append, follows_cons] at hfollows
  rw [eval]
  refine (he env c hfollows.1 hcarries).bind fun v c' hgives => ?_
  rw [width, ← Nat.add_assoc, ← hgives.pc]
  rw [← hgives.pc] at hfollows hgives
  exact .unary hfollows.2.1 hgives

/-- The operand that is evaluated first lies below the other one. -/
theorem Expresses.operands (hl : Expresses p fuel rules shape names scopes full l)
    (hr : Expresses p fuel rules shape names scopes full r)
    (hfirst : p.Follows (expression [] shape names c.pc l))
    (hsecond : p.Follows (expression [] shape names (c.pc + width [] names l) r))
    (hlast : (Instr.plain (.binary o)).In p (c.pc + width [] names l + width [] names r)) (hcarries : Carries p full env c) :
    c.Mirrors p fuel (do
      let a ← eval rules scopes env l
      let b ← eval rules scopes env r
      combine o a b) fun v c' => c.Gives (c.pc + width [] names l + width [] names r + 1) [v] c' := by
  refine (hl env c hfirst hcarries).bind fun a c₁ hgives₁ => ?_
  rw [← hgives₁.pc] at hsecond hlast
  refine (hr env c₁ hsecond (hcarries.gives hgives₁)).bind fun b c₂ hgives₂ => ?_
  have hboth := hgives₁.trans hgives₂
  rw [← hgives₂.pc] at hlast hboth
  rw [← hgives₁.pc, ← hgives₂.pc]
  exact .combine hlast hboth

theorem Expresses.binary (hl : Expresses p fuel rules shape names scopes full l)
    (hr : Expresses p fuel rules shape names scopes full r) :
    Expresses p fuel rules shape names scopes full (.binary op l r) := by
  intro env c hfollows hcarries
  rw [expression] at hfollows
  rw [width]
  cases hshort : shortcutOf? op with
  | some pair =>
    obtain ⟨skip, skipped⟩ := pair
    obtain ⟨stop, heval, hcase⟩ := eval_shortcut hshort rules scopes env l r
    rw [hshort] at hfollows
    simp only [follows_append, follows_cons] at hfollows
    obtain ⟨hfirst, hbranch, hsecond, hjump, hskipped, -⟩ := hfollows
    have hlast : c.pc + (width [] names l + width [] names r + 5) = c.pc + width [] names l + 2 + width [] names r + 3 := by
      omega
    rw [heval, hlast]
    refine .shortcut hcase hbranch hjump hskipped (hl env c hfirst hcarries) fun c' hgives => ?_
    rw [← hgives.pc] at hsecond ⊢
    exact hr env c' hsecond (hcarries.gives hgives)
  | none =>
    rw [hshort] at hfollows
    cases hswapped : swappedOf? op with
    | some o =>
      rw [hswapped] at hfollows
      simp only [follows_append, follows_cons] at hfollows
      obtain ⟨hfirst, hsecond, hlast, -⟩ := hfollows
      rw [eval_swapped hswapped, show c.pc + (width [] names l + width [] names r + 1) =
        c.pc + width [] names r + width [] names l + 1 by omega]
      exact hr.operands hl hfirst hsecond hlast hcarries
    | none =>
      rw [hswapped] at hfollows
      simp only [follows_append, follows_cons] at hfollows
      obtain ⟨hfirst, hsecond, hlast, -⟩ := hfollows
      unfold applyingBinary at hlast
      cases hbinary : binaryOf? op with
      | some o =>
        rw [hbinary] at hlast
        rw [eval_binary hbinary, show c.pc + (width [] names l + width [] names r + 1) =
          c.pc + width [] names l + width [] names r + 1 by omega]
        exact hl.operands hr hfirst hsecond hlast hcarries
      | none =>
        rw [hbinary] at hlast
        exact hlast.elim

theorem Expresses.call (h : Straight body p) (haccords : Accords body p fuel rules) (hknown : names.Known p scopes full)
    (hpart : Part body (.call callee args)) (hargs : ExpressesAll p fuel rules shape names scopes full args) :
    Expresses p fuel rules shape names scopes full (.call callee args) := by
  intro env c hfollows hcarries
  rw [expression, follows_append, follows_cons] at hfollows
  obtain ⟨hfirst, hcall, -⟩ := hfollows
  unfold Names.calling at hcall
  split at hcall
  · rename_i x
    have hleaf : ⟨"id", x⟩ ∈ leavesAll body := by
      refine hpart.leaves ?_
      rw [leaves, leaves]
      exact mem_append_left _ (mem_singleton_self _)
    obtain ⟨s, rfl⟩ := h.texts x hleaf
    split at hcall
    · rename_i id hindex
      rw [eval]
      refine (hargs env c hfirst hcarries).bind ?_
      rintro vs c' ⟨hlength, hgives⟩
      have hcount : ∀ f ∈ functionsAll body, f.name = .text s → f.params.length = vs.length := by
        intro f hf hname
        rw [hlength]
        exact (h.matching f hf args (by rw [hname]; exact hpart.call.1)).symm
      rw [← hgives.pc] at hcall
      refine (haccords.call (hknown.grown.routineIndex? hindex) hcount hcall hgives.stack
        (hcarries.gives hgives).static).imp fun v c'' hgives' => ?_
      rw [width, ← Nat.add_assoc, ← hgives.pc]
      exact ⟨hgives'.pc, hgives'.stack, hgives'.chain.trans hgives.chain, hgives'.frames.trans hgives.frames,
        hgives.store.trans hgives'.store⟩
    · -- there are no primitives
      split at hcall
      · rename_i hplace
        rw [Names.place?] at hplace
        split at hplace
        · cases hplace
        · split at hplace
          · cases hplace
          · cases hplace
      · exact hcall.elim
  · exact hcall.elim

mutual

/-- **The code of an expression does what the expression means.** -/
theorem eval_mirrors (h : Straight body p) (haccords : Accords body p fuel rules) (hknown : names.Known p scopes full) :
    ∀ {e : Node}, IsExpr e → Part body e → Expresses p fuel rules shape names scopes full e
  | _, .name x, hpart => by
    intro env c hfollows hcarries
    obtain ⟨s, rfl⟩ := h.texts x (hpart.leaves (by rw [leaves]; exact mem_singleton_self _))
    rw [expression] at hfollows
    rw [eval]
    exact h.name haccords hknown hcarries (hfollows _ (mem_singleton_self _))
  | _, .literal kind d, hpart => by
    intro env c hfollows _
    rw [expression] at hfollows
    rw [eval]
    exact h.literal (hpart.leaves (by rw [leaves]; exact mem_singleton_self _)) (hfollows _ (mem_singleton_self _))
  | _, .unary he, hpart => (eval_mirrors h haccords hknown he hpart.unary).unary
  | _, .binary hl hr, hpart =>
    (eval_mirrors h haccords hknown hl hpart.binary.1).binary (eval_mirrors h haccords hknown hr hpart.binary.2)
  | _, .call _ hargs, hpart => .call h haccords hknown hpart (evalAll_mirrors h haccords hknown hargs hpart.call.2)
  | _, .function _ _, _ => by
    intro env c hfollows _
    rw [expression] at hfollows
    · exact (hfollows _ (mem_singleton_self _)).elim
    all_goals simp

theorem evalAll_mirrors (h : Straight body p) (haccords : Accords body p fuel rules) (hknown : names.Known p scopes full) :
    ∀ {es : List Node}, AreExprs es → PartAll body es → ExpressesAll p fuel rules shape names scopes full es
  | _, .nil, _ => by
    intro env c _ _
    rw [evalAll]
    exact .returns ⟨rfl, rfl, rfl, rfl, rfl, .refl _⟩
  | _, .cons he hes, hpart => by
    intro env c hfollows hcarries
    rw [arguments, follows_append] at hfollows
    rw [evalAll, widths, ← Nat.add_assoc]
    refine (evalAll_mirrors h haccords hknown hes hpart.cons.2 env c hfollows.1 hcarries).bind fun vs c' ⟨hlength, hgives⟩ => ?_
    rw [← hgives.pc] at hfollows ⊢
    refine (eval_mirrors h haccords hknown he hpart.cons.1 env c' hfollows.2 (hcarries.gives hgives)).bind fun v c'' hgives' =>
      .returns ⟨by rw [length_cons, length_cons, hlength], hgives.trans hgives'⟩

end

end

end Cilly
