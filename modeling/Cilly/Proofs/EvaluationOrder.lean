import Cilly.Proofs.Activations
import Cilly.Proofs.CallFrames
import Cilly.Proofs.WellFormed
import Mathlib

/-!
# The order of evaluation

The code of an expression has jumps, but all of them lead forward. So a machine that starts with it goes through it once, from
the first instruction to the last, and a call from it only interrupts that: the machine comes back right behind the call,
whatever the function does. Hence all that happens on behalf of an operand (what is printed, which signals are given, which
error comes up, be it in a function that is called) happens before anything on behalf of the operands whose code stands behind
its own (`operands_in_order`).

Code stands in the order of the text, with two exceptions. For `>` and `<=` the right operand comes first, because they are
computed as `<` and `>=` with the operands swapped; and the arguments of a call come from the last to the first.
-/

namespace Cilly

open Acting Node
open List hiding set

variable {c : Names} {m₀ : Machine} {o : Occurrence}

/-! ## Expressions and their operands -/

namespace Node

/-- The operands of an expression, in the order in which they are evaluated. -/
def operands : Node → List Node
  | .unary _ e => [e]
  | .binary op l r =>
    match op with
    | .text ">" | .text "<=" => [r, l]
    | _ => [l, r]
  | .call _ args => args.reverse
  | _ => []

mutual

/-- An expression and all that is evaluated for it, in the order of the text. What is called is a name and not evaluated. -/
def subexpressions : Node → List Node
  | .unary op e => .unary op e :: subexpressions e
  | .binary op l r => .binary op l r :: (subexpressions l ++ subexpressions r)
  | .call callee args => .call callee args :: subexpressionsAll args
  | e => [e]

def subexpressionsAll : List Node → List Node
  | [] => []
  | e :: es => subexpressions e ++ subexpressionsAll es

end

mutual

/-- The expressions that stand in a statement, but not in another expression. -/
def roots : Node → List Node
  | .exprStat e => [e]
  | .print args => args
  | .ifThen cond yes => cond :: roots yes
  | .ifElse cond yes no => cond :: (roots yes ++ roots no)
  | .loop cond body => cond :: roots body
  | .block body => rootsAll body
  | .define _ value =>
    match value with
    | .function _ body => roots body
    | value => [value]
  | .assign _ value => [value]
  | .returnValue value => [value]
  | _ => []

def rootsAll : List Node → List Node
  | [] => []
  | n :: ns => roots n ++ rootsAll ns

end

end Node

/-- An expression in a program: what names stand for there, and the address at which its code starts. -/
structure Occurrence where
  names : Names
  start : Nat
  node : Node

namespace Layout

open CompileM (swappedOf? shortcutOf?)

variable (primitives : List String)

/-- The arguments of a call, in the order of their code. -/
def argumentPlaces (c : Names) (start : Nat) : List Node → List Occurrence
  | [] => []
  | e :: es => argumentPlaces c start es ++ [⟨c, start + widths primitives c es, e⟩]

mutual

/-- An expression and all that is evaluated for it, in the order of the text. -/
def occurrences (c : Names) (start : Nat) : Node → List Occurrence
  | .unary op e => ⟨c, start, .unary op e⟩ :: occurrences c start e
  | .binary op l r =>
    match shortcutOf? op with
    | some _ => ⟨c, start, .binary op l r⟩ :: (occurrences c start l ++ occurrences c (start + width primitives c l + 2) r)
    | none =>
      match swappedOf? op with
      | some _ => ⟨c, start, .binary op l r⟩ :: (occurrences c (start + width primitives c r) l ++ occurrences c start r)
      | none => ⟨c, start, .binary op l r⟩ :: (occurrences c start l ++ occurrences c (start + width primitives c l) r)
  | .call callee args => ⟨c, start, .call callee args⟩ :: argumentOccurrences c start args
  | e => [⟨c, start, e⟩]

def argumentOccurrences (c : Names) (start : Nat) : List Node → List Occurrence
  | [] => []
  | e :: es => occurrences c (start + widths primitives c es) e ++ argumentOccurrences c start es

end

/-- The items of a `print`. -/
def printedPlaces (c : Names) (start : Nat) : List Node → List Occurrence
  | [] => []
  | e :: es => ⟨c, start, e⟩ :: printedPlaces c (start + width primitives c e + 1) es

mutual

/-- Where the expressions are that stand in a statement, but not in another expression. -/
def places (s : Point) : Node → List Occurrence
  | .exprStat e => [⟨s.toNames, s.here, e⟩]
  | .print args => printedPlaces primitives s.toNames s.here args
  | .ifThen cond yes =>
    ⟨s.toNames, s.here, cond⟩ :: places (s.skip (width primitives s.toNames cond + 2)) yes
  | .ifElse cond yes no =>
    let inside := s.skip (width primitives s.toNames cond + 2)
    ⟨s.toNames, s.here, cond⟩ :: (places inside yes ++ places ((next primitives inside yes).skip 2) no)
  | .loop cond body =>
    ⟨s.toNames, s.here, cond⟩ :: places (s.skip (width primitives s.toNames cond + 2)) body
  | .block body => placesAll s.inBlock body
  | .define x value =>
    match value with
    | .function params body => places (s.inFunction x params) body
    | value => [⟨s.toNames, s.here, value⟩]
  | .assign _ value => [⟨s.toNames, s.here, value⟩]
  | .returnValue value => [⟨s.toNames, s.here, value⟩]
  | _ => []

def placesAll (s : Point) : List Node → List Occurrence
  | [] => []
  | n :: ns => places s n ++ placesAll (next primitives s n) ns

end

/-- Every expression of a program that is evaluated. -/
def evaluated (body : List Node) : List Occurrence :=
  (places primitives (origin body) (.block body)).flatMap fun o => occurrences primitives o.names o.start o.node

end Layout

namespace Occurrence

open CompileM (swappedOf? shortcutOf?)
open Layout (width)

variable (primitives : List String) (o : Occurrence)

/-- Where the code of the expression ends. -/
def stop : Nat := o.start + width primitives o.names o.node

/-- The operands of the expression, in the order of their code. -/
def operands : List Occurrence :=
  match o.node with
  | .unary _ e => [⟨o.names, o.start, e⟩]
  | .binary op l r =>
    match shortcutOf? op with
    | some _ => [⟨o.names, o.start, l⟩, ⟨o.names, o.start + width primitives o.names l + 2, r⟩]
    | none =>
      match swappedOf? op with
      | some _ => [⟨o.names, o.start, r⟩, ⟨o.names, o.start + width primitives o.names r, l⟩]
      | none => [⟨o.names, o.start, l⟩, ⟨o.names, o.start + width primitives o.names l, r⟩]
  | .call _ args => Layout.argumentPlaces primitives o.names o.start args
  | _ => []

end Occurrence

namespace Layout

open CompileM (swappedOf? shortcutOf?)

variable (primitives : List String)

theorem map_argumentPlaces (c : Names) (start : Nat) (es : List Node) :
    (argumentPlaces primitives c start es).map (·.node) = es.reverse := by
  induction es with
  | nil => rfl
  | cons e es ih => rw [argumentPlaces, map_append, ih, reverse_cons, map_singleton]

theorem operands_binary (op : Datum) (l r : Node) :
    (Node.binary op l r).operands = match swappedOf? op with
      | some _ => [r, l]
      | none => [l, r] := by
  unfold Node.operands swappedOf?
  dsimp only
  split <;> simp_all

/-- The code of the operands stands in the order in which they are evaluated. -/
theorem map_operands (o : Occurrence) : (o.operands primitives).map (·.node) = o.node.operands := by
  obtain ⟨c, start, e⟩ := o
  cases e with
  | binary op l r =>
    rw [operands_binary]
    unfold Occurrence.operands
    dsimp only
    cases hshort : shortcutOf? op with
    | some pair =>
      have hswap : swappedOf? op = none := by
        unfold shortcutOf? at hshort
        split at hshort
        · rfl
        · rfl
        · cases hshort
      rw [hswap]
      rfl
    | none => cases swappedOf? op <;> rfl
  | call callee args => exact map_argumentPlaces primitives c start args
  | _ => rfl

mutual

theorem map_occurrences (c : Names) : ∀ {e : Node}, IsExpr e → ∀ start : Nat,
    (occurrences primitives c start e).map (·.node) = subexpressions e
  | _, .name x, start => by rw [occurrences, subexpressions] <;> simp
  | _, .literal kind d, start => by rw [occurrences, subexpressions] <;> simp
  | _, .unary he, start => by rw [occurrences, subexpressions, map_cons, map_occurrences c he]
  | _, @IsExpr.binary op l r hl hr, start => by
    rw [occurrences, subexpressions]
    cases shortcutOf? op with
    | some pair => simp only [map_cons, map_append, map_occurrences c hl, map_occurrences c hr]
    | none =>
      cases swappedOf? op with
      | some o => simp only [map_cons, map_append, map_occurrences c hl, map_occurrences c hr]
      | none => simp only [map_cons, map_append, map_occurrences c hl, map_occurrences c hr]
  | _, .call _ hargs, start => by rw [occurrences, subexpressions, map_cons, map_argumentOccurrences c hargs]
  | _, .function _ _, start => by rw [occurrences, subexpressions] <;> simp

theorem map_argumentOccurrences (c : Names) : ∀ {es : List Node}, AreExprs es → ∀ start : Nat,
    (argumentOccurrences primitives c start es).map (·.node) = subexpressionsAll es
  | _, .nil, start => by rw [argumentOccurrences, subexpressionsAll]; rfl
  | _, .cons he hes, start => by
    rw [argumentOccurrences, subexpressionsAll, map_append, map_occurrences c he, map_argumentOccurrences c hes]

end

theorem mem_occurrences_self (c : Names) (start : Nat) (e : Node) : ⟨c, start, e⟩ ∈ occurrences primitives c start e := by
  cases e with
  | binary op l r =>
    rw [occurrences]
    cases shortcutOf? op with
    | some pair => exact mem_cons_self ..
    | none => cases swappedOf? op <;> exact mem_cons_self ..
  | _ => simp [occurrences]

theorem argumentOccurrences_of_place {start : Nat} {es : List Node}
    (h : o ∈ argumentPlaces primitives c start es) : o ∈ argumentOccurrences primitives c start es := by
  induction es with
  | nil => cases h
  | cons e es ih =>
    rw [argumentOccurrences]
    rw [argumentPlaces] at h
    rcases mem_append.mp h with h | h
    · exact mem_append_right _ (ih h)
    · rw [mem_singleton.mp h]
      exact mem_append_left _ (mem_occurrences_self primitives c _ e)

mutual

/-- The operands of an expression are evaluated for whatever it is evaluated for. -/
theorem operands_mem (c : Names) : ∀ {e : Node}, IsExpr e → ∀ {start : Nat} {o : Occurrence},
    o ∈ occurrences primitives c start e → ∀ o' ∈ o.operands primitives, o' ∈ occurrences primitives c start e
  | _, .name x, start, o, ho => by
    rw [occurrences, mem_singleton] at ho
    · rw [ho]
      simp [Occurrence.operands]
    all_goals simp
  | _, .literal kind d, start, o, ho => by
    rw [occurrences, mem_singleton] at ho
    · rw [ho]
      simp [Occurrence.operands]
    all_goals simp
  | _, @IsExpr.unary op e he, start, o, ho => by
    rw [occurrences] at ho ⊢
    intro o' ho'
    refine mem_cons_of_mem _ ?_
    rcases mem_cons.mp ho with rfl | ho
    · rw [Occurrence.operands, mem_singleton] at ho'
      rw [ho']
      exact mem_occurrences_self primitives c start e
    · exact operands_mem c he ho o' ho'
  | _, @IsExpr.binary op l r hl hr, start, o, ho => by
    rw [occurrences] at ho ⊢
    intro o' ho'
    have hself := mem_occurrences_self primitives c
    cases hshort : shortcutOf? op with
    | some pair =>
      rw [hshort] at ho
      refine mem_cons_of_mem _ (mem_append.mpr ?_)
      rcases mem_cons.mp ho with rfl | ho
      · simp only [Occurrence.operands, hshort, mem_cons, not_mem_nil, or_false] at ho'
        rcases ho' with rfl | rfl
        · exact Or.inl (hself ..)
        · exact Or.inr (hself ..)
      · exact (mem_append.mp ho).imp (operands_mem c hl · o' ho') (operands_mem c hr · o' ho')
    | none =>
      rw [hshort] at ho
      cases hswap : swappedOf? op with
      | some s =>
        rw [hswap] at ho
        refine mem_cons_of_mem _ (mem_append.mpr ?_)
        rcases mem_cons.mp ho with rfl | ho
        · simp only [Occurrence.operands, hshort, hswap, mem_cons, not_mem_nil, or_false] at ho'
          rcases ho' with rfl | rfl
          · exact Or.inr (hself ..)
          · exact Or.inl (hself ..)
        · exact (mem_append.mp ho).imp (operands_mem c hl · o' ho') (operands_mem c hr · o' ho')
      | none =>
        rw [hswap] at ho
        refine mem_cons_of_mem _ (mem_append.mpr ?_)
        rcases mem_cons.mp ho with rfl | ho
        · simp only [Occurrence.operands, hshort, hswap, mem_cons, not_mem_nil, or_false] at ho'
          rcases ho' with rfl | rfl
          · exact Or.inl (hself ..)
          · exact Or.inr (hself ..)
        · exact (mem_append.mp ho).imp (operands_mem c hl · o' ho') (operands_mem c hr · o' ho')
  | _, .call _ hargs, start, o, ho => by
    rw [occurrences] at ho ⊢
    intro o' ho'
    refine mem_cons_of_mem _ ?_
    rcases mem_cons.mp ho with rfl | ho
    · exact argumentOccurrences_of_place primitives ho'
    · exact arguments_operands_mem c hargs ho o' ho'
  | _, .function _ _, start, o, ho => by
    rw [occurrences, mem_singleton] at ho
    · rw [ho]
      simp [Occurrence.operands]
    all_goals simp

theorem arguments_operands_mem (c : Names) : ∀ {es : List Node}, AreExprs es → ∀ {start : Nat} {o : Occurrence},
    o ∈ argumentOccurrences primitives c start es →
    ∀ o' ∈ o.operands primitives, o' ∈ argumentOccurrences primitives c start es
  | _, .nil, start, o, ho => by
    rw [argumentOccurrences] at ho
    cases ho
  | _, .cons he hes, start, o, ho => by
    rw [argumentOccurrences] at ho ⊢
    intro o' ho'
    exact mem_append.mpr
      ((mem_append.mp ho).imp (operands_mem c he · o' ho') (arguments_operands_mem c hes · o' ho'))

end

theorem map_printedPlaces (c : Names) : ∀ (es : List Node) (start : Nat),
    (printedPlaces primitives c start es).map (·.node) = es
  | [], _ => rfl
  | e :: es, start => by rw [printedPlaces, map_cons, map_printedPlaces c es]

mutual

theorem map_places : ∀ {n : Node}, IsStat n → ∀ s : Point, (places primitives s n).map (·.node) = roots n
  | _, .exprStat _, s => by rw [places, roots]; rfl
  | _, .print _, s => by rw [places, roots, map_printedPlaces]
  | _, .ifThen _ hyes, s => by rw [places, roots, map_cons, map_places hyes]
  | _, .ifElse _ hyes hno, s => by
    rw [places, roots, map_cons, map_append, map_places hyes, map_places hno]
  | _, .loop _ hbody, s => by rw [places, roots, map_cons, map_places hbody]
  | _, .breakLoop, s => by rw [places, roots] <;> simp
  | _, .continueLoop, s => by rw [places, roots] <;> simp
  | _, .block hbody, s => by rw [places, roots, map_placesAll hbody]
  | _, .function _ _ hbody, s => by rw [places, roots, places, roots, map_placesAll hbody]
  | _, .define _ _ hne, s => by
    rw [places, roots]
    · rfl
    all_goals exact hne
  | _, .assign _ _, s => by rw [places, roots]; rfl
  | _, .return, s => by rw [places, roots] <;> simp
  | _, .returnValue _, s => by rw [places, roots]; rfl

theorem map_placesAll : ∀ {ns : List Node}, AreStats ns → ∀ s : Point, (placesAll primitives s ns).map (·.node) = rootsAll ns
  | _, .nil, s => by rw [placesAll, rootsAll]; rfl
  | _, .cons hn hns, s => by rw [placesAll, rootsAll, map_append, map_places hn, map_placesAll hns]

end

/-! ## Occurrences and their code -/

/-- The code of an expression is among the scenes. -/
def Sees (scenes : List Scene) (o : Occurrence) : Prop :=
  IsExpr o.node ∧ ∃ set below, ∀ x ∈ expressionScenes primitives set o.names below o.start o.node, x ∈ scenes

section

variable {all : List Scene} {set : Setting}

mutual

theorem occurrences_seen : ∀ {e : Node}, IsExpr e → ∀ {below : List Nat} {start : Nat},
    (∀ x ∈ expressionScenes primitives set c below start e, x ∈ all) →
    ∀ o ∈ occurrences primitives c start e, Sees primitives all o
  | _, .name x, below, start, hall => by
    rw [occurrences]
    · exact forall_mem_singleton.mpr ⟨.name x, set, below, hall⟩
    all_goals simp
  | _, .literal kind d, below, start, hall => by
    rw [occurrences]
    · exact forall_mem_singleton.mpr ⟨.literal kind d, set, below, hall⟩
    all_goals simp
  | _, .unary he, below, start, hall => by
    rw [occurrences]
    refine forall_mem_cons.mpr ⟨⟨.unary he, set, below, hall⟩, ?_⟩
    rw [expressionScenes] at hall
    exact occurrences_seen he (members_left hall)
  | _, @IsExpr.binary op l r hl hr, below, start, hall => by
    have hself : Sees primitives all ⟨c, start, .binary op l r⟩ := ⟨.binary hl hr, set, below, hall⟩
    rw [occurrences]
    rw [expressionScenes] at hall
    cases hshort : shortcutOf? op with
    | some pair =>
      rw [hshort] at hall
      exact forall_mem_cons.mpr ⟨hself, forall_mem_append.mpr ⟨occurrences_seen hl (members_left hall),
        occurrences_seen hr (members_left (members_tail (members_right hall)))⟩⟩
    | none =>
      rw [hshort] at hall
      cases hswap : swappedOf? op with
      | some s =>
        rw [hswap] at hall
        exact forall_mem_cons.mpr ⟨hself, forall_mem_append.mpr
          ⟨occurrences_seen hl (members_left (members_right hall)), occurrences_seen hr (members_left hall)⟩⟩
      | none =>
        rw [hswap] at hall
        exact forall_mem_cons.mpr ⟨hself, forall_mem_append.mpr
          ⟨occurrences_seen hl (members_left hall), occurrences_seen hr (members_left (members_right hall))⟩⟩
  | _, .call hcallee hargs, below, start, hall => by
    rw [occurrences]
    refine forall_mem_cons.mpr ⟨⟨.call hcallee hargs, set, below, hall⟩, ?_⟩
    rw [expressionScenes] at hall
    exact argumentOccurrences_seen hargs (members_left hall)
  | _, .function xs hbody, below, start, hall => by
    rw [occurrences]
    · exact forall_mem_singleton.mpr ⟨.function xs hbody, set, below, hall⟩
    all_goals simp

theorem argumentOccurrences_seen : ∀ {es : List Node}, AreExprs es → ∀ {below : List Nat} {start : Nat},
    (∀ x ∈ argumentScenes primitives set c below start es, x ∈ all) →
    ∀ o ∈ argumentOccurrences primitives c start es, Sees primitives all o
  | _, .nil, below, start, _ => by simp [argumentOccurrences]
  | _, .cons he hes, below, start, hall => by
    rw [argumentOccurrences]
    rw [argumentScenes] at hall
    exact forall_mem_append.mpr
      ⟨occurrences_seen he (members_right hall), argumentOccurrences_seen hes (members_left hall)⟩

end

theorem printedPlaces_seen : ∀ {es : List Node}, AreExprs es → ∀ {start : Nat},
    (∀ x ∈ printedScenes primitives set c start es, x ∈ all) → ∀ o ∈ printedPlaces primitives c start es, Sees primitives all o := by
  intro es
  induction es with
  | nil => simp [printedPlaces]
  | cons e es ih =>
    rintro (_ | ⟨he, hes⟩) start hall
    rw [printedScenes] at hall
    rw [printedPlaces]
    exact forall_mem_cons.mpr ⟨⟨he, set, [], members_left hall⟩, ih hes (members_tail (members_right hall))⟩

end

mutual

theorem places_seen {all : List Scene} : ∀ {n : Node}, IsStat n → ∀ {set : Setting} {s : Point},
    (∀ x ∈ statementScenes primitives set s n, x ∈ all) → ∀ o ∈ places primitives s n, Sees primitives all o
  | _, .exprStat he, set, s, hall => by
    rw [statementScenes] at hall
    rw [places]
    exact forall_mem_singleton.mpr ⟨he, set, [], members_left hall⟩
  | _, .print hargs, set, s, hall => by
    rw [statementScenes] at hall
    rw [places]
    exact printedPlaces_seen primitives hargs (members_left hall)
  | _, .ifThen hcond hyes, set, s, hall => by
    rw [statementScenes] at hall
    rw [places]
    exact forall_mem_cons.mpr
      ⟨⟨hcond, set, [], members_left hall⟩, places_seen hyes (members_tail (members_right hall))⟩
  | _, .ifElse hcond hyes hno, set, s, hall => by
    rw [statementScenes] at hall
    rw [places]
    have hbranches := members_tail (members_right hall)
    exact forall_mem_cons.mpr ⟨⟨hcond, set, [], members_left hall⟩, forall_mem_append.mpr
      ⟨places_seen hyes (members_left hbranches), places_seen hno (members_tail (members_right hbranches))⟩⟩
  | _, .loop hcond hbody, set, s, hall => by
    rw [statementScenes] at hall
    rw [places]
    exact forall_mem_cons.mpr ⟨⟨hcond, _, [], members_left hall⟩,
      places_seen hbody (members_left (members_tail (members_right hall)))⟩
  | _, .breakLoop, set, s, _ => by
    rw [places] <;> simp
  | _, .continueLoop, set, s, _ => by
    rw [places] <;> simp
  | _, .block hbody, set, s, hall => by
    rw [statementScenes] at hall
    rw [places]
    exact placesAll_seen hbody (members_left (members_tail hall))
  | _, .function x xs hbody, set, s, hall => by
    rw [statementScenes_function, statementScenes] at hall
    rw [places, places]
    exact placesAll_seen hbody (members_left (members_tail (members_left (members_tail hall))))
  | _, .define x hvalue hne, set, s, hall => by
    rw [statementScenes_variable _ hne] at hall
    rw [places]
    · exact forall_mem_singleton.mpr ⟨hvalue, set, [], members_left hall⟩
    · exact hne
  | _, .assign x hvalue, set, s, hall => by
    rw [statementScenes] at hall
    rw [places]
    exact forall_mem_singleton.mpr ⟨hvalue, set, [], members_left hall⟩
  | _, .return, set, s, _ => by
    rw [places] <;> simp
  | _, .returnValue hvalue, set, s, hall => by
    rw [statementScenes] at hall
    rw [places]
    exact forall_mem_singleton.mpr ⟨hvalue, set, [], members_left hall⟩

theorem placesAll_seen {all : List Scene} : ∀ {ns : List Node}, AreStats ns → ∀ {set : Setting} {s : Point},
    (∀ x ∈ statementsScenes primitives set s ns, x ∈ all) → ∀ o ∈ placesAll primitives s ns, Sees primitives all o
  | _, .nil, set, s, _ => by simp [placesAll]
  | _, .cons hn hns, set, s, hall => by
    rw [statementsScenes] at hall
    rw [placesAll]
    exact forall_mem_append.mpr ⟨places_seen hn (members_left hall), placesAll_seen hns (members_right hall)⟩

end

section

variable {body : List Node} (h : AreStats body)

include h

theorem program_seen : ∀ o ∈ places primitives (origin body) (.block body), Sees primitives (scenes primitives body) o :=
  places_seen primitives (.block h) fun _ hx => hx

theorem evaluated_seen : ∀ o ∈ evaluated primitives body, Sees primitives (scenes primitives body) o := by
  intro o ho
  obtain ⟨root, hroot, ho⟩ := mem_flatMap.mp ho
  obtain ⟨he, set, below, hall⟩ := program_seen primitives h root hroot
  exact occurrences_seen primitives he hall o ho

theorem operands_evaluated (ho : o ∈ evaluated primitives body) :
    ∀ o' ∈ o.operands primitives, o' ∈ evaluated primitives body := by
  intro o' ho'
  obtain ⟨root, hroot, ho⟩ := mem_flatMap.mp ho
  exact mem_flatMap.mpr ⟨root, hroot, operands_mem primitives _ (program_seen primitives h root hroot).1 ho o' ho'⟩

theorem map_evaluated : (evaluated primitives body).map (·.node) = (rootsAll body).flatMap subexpressions := by
  have hroots := map_places primitives (.block h) (origin body)
  rw [roots] at hroots
  rw [evaluated, map_flatMap, ← hroots, flatMap_map]
  exact flatMap_congr fun o ho => map_occurrences primitives o.names (program_seen primitives h o ho).1 o.start

end

/-! ## Operands one behind the other -/

theorem argumentPlaces_stop (c : Names) (start : Nat) (es : List Node) : ∀ o ∈ argumentPlaces primitives c start es,
    o.stop primitives ≤ start + widths primitives c es := by
  induction es with
  | nil => simp [argumentPlaces]
  | cons e es ih =>
    rw [argumentPlaces, widths]
    refine forall_mem_append.mpr ⟨fun o ho => ?_, forall_mem_singleton.mpr (Nat.le_of_eq (Nat.add_assoc ..))⟩
    exact Nat.le_trans (ih o ho) (by omega)

theorem argumentPlaces_apart (c : Names) (start : Nat) (es : List Node) :
    (argumentPlaces primitives c start es).Pairwise fun o o' => o.stop primitives ≤ o'.start := by
  induction es with
  | nil => simp [argumentPlaces]
  | cons e es ih =>
    rw [argumentPlaces, pairwise_append]
    refine ⟨ih, pairwise_singleton .., fun o ho => ?_⟩
    exact forall_mem_singleton.mpr (argumentPlaces_stop primitives c start es o ho)

theorem operands_apart (o : Occurrence) : (o.operands primitives).Pairwise fun o o' => o.stop primitives ≤ o'.start := by
  obtain ⟨c, start, e⟩ := o
  have hpair : ∀ {o o' : Occurrence}, o.stop primitives ≤ o'.start →
      [o, o'].Pairwise fun o o' => o.stop primitives ≤ o'.start := by
    intro o o' h
    simpa using h
  cases e with
  | binary op l r =>
    unfold Occurrence.operands
    dsimp only
    cases shortcutOf? op with
    | some pair => exact hpair (Nat.le_add_right ..)
    | none => cases swappedOf? op <;> exact hpair (Nat.le_refl _)
  | call callee args => exact argumentPlaces_apart primitives c start args
  | unary op e => exact pairwise_singleton ..
  | _ => exact Pairwise.nil

end Layout

/-- An instruction that leads to a later address, if it stays in its function. -/
def Instr.Ahead (address : Nat) : Instr → Prop
  | .jump target | .branch _ target => address < target
  | .breakLoop | .continueLoop _ | .return | .returnValue => False
  | _ => True

theorem Scene.Passes.ahead {x : Scene} {stop : Nat} {ends : List Nat} (h : x.Passes stop ends) :
    x.instr.Ahead x.address := by
  have hgoes := h.goes
  cases hinstr : x.instr with
  | jump | branch | breakLoop | continueLoop | «return» | returnValue => simp [hinstr, Instr.isStraight] at hgoes
  | _ => trivial

theorem Strand.ahead {set : Setting} {ends ends' : List Nat} {start stop : Nat} {scenes : List Scene}
    (h : Strand set ends start ends' stop scenes) : ∀ x ∈ scenes, x.instr.Ahead x.address := by
  induction h with
  | nil => exact forall_mem_nil _
  | single hpasses => exact forall_mem_singleton.mpr hpasses.ahead
  | append _ _ ih ih' => exact forall_mem_append.mpr ⟨ih, ih'⟩
  | @skipping below start last _ _ _ _ _ hright ih =>
    have hle := hright.level.ordered.le
    refine forall_mem_cons.mpr ⟨?_, forall_mem_append.mpr ⟨ih, forall_mem_cons.mpr ⟨?_,
      forall_mem_singleton.mpr trivial⟩⟩⟩
    · show start < last + 2
      omega
    · exact Nat.lt_add_of_pos_right (by decide)

/-! ## Working through an expression -/

/-- The code of an expression, which ends at `stop`, as a piece of a program. -/
structure ForwardCode (primitives : List String) (body : List Node) (start stop : Nat) (code : List Scene) : Prop where
  first : ∃ x ∈ code, x.address = start
  bound : ∀ x ∈ code, start ≤ x.address ∧ x.address < stop
  placed : ∀ x ∈ code, x ∈ Layout.scenes primitives body
  ahead : ∀ x ∈ code, x.instr.Ahead x.address
  sound : ∃ last : Scene, last.address = stop ∧ ∀ x ∈ code, x.Sound (code ++ [last])

theorem Layout.forwardCode {prims : List String} {body : List Node}
    (h : Sees prims (scenes prims body) o) :
    ∃ code, ForwardCode prims body o.start (o.stop prims) code := by
  obtain ⟨he, set, below, hall⟩ := h
  let code := expressionScenes prims set o.names below o.start o.node
  let last := set.scene (o.stop prims) .refused (o.stop prims :: below) .none
  have hstrand := expression_strand prims set o.names he below o.start
  have hled : Led (code ++ [last]) o.start (set.view below) code :=
    hstrand.led (fun x hx => mem_append_left _ hx) ⟨last, mem_append_right _ (mem_singleton_self _), rfl, rfl⟩
  refine ⟨code, ?_, hstrand.bounds, hall, hstrand.ahead, last, rfl, hled.sound⟩
  obtain ⟨x, hx, haddress, -⟩ := hled.first
  rcases mem_append.mp hx with hx | hx
  · exact ⟨x, hx, haddress⟩
  · -- there is code, so the start is not the end
    have hpos := width_pos prims o.names o.node
    rw [mem_singleton.mp hx] at haddress
    have hstop : o.start + width prims o.names o.node = o.start := haddress
    omega

namespace Machine

section

variable {frames : List Frame} {f : Frame} {m m' : Machine} {w : Int} {address address' : Nat}

/-- A function that has those calls pending below it is at an address: the machine stands there, or it is in a call that was
made there. -/
def WorksAt (frames : List Frame) (address : Nat) (m : Machine) : Prop :=
  m.frames = frames ∧ m.pc = address ∨ ∃ f, f :: frames <:+ m.frames ∧ f.back = address + 2

theorem WorksAt.unique (h : m.WorksAt frames address) (h' : m.WorksAt frames address') : address = address' := by
  have hno : ∀ {f : Frame}, m.frames = frames → ¬ f :: frames <:+ m.frames := by
    intro f hsame hsuffix
    have hle := hsuffix.length_le
    rw [hsame, length_cons] at hle
    omega
  rcases h with ⟨hframes, hpc⟩ | ⟨f, hsuffix, hback⟩ <;> rcases h' with ⟨hframes', hpc'⟩ | ⟨f', hsuffix', hback'⟩
  · omega
  · exact absurd hsuffix' (hno hframes)
  · exact absurd hsuffix (hno hframes')
  · have hsame := (suffix_of_suffix_length_le hsuffix hsuffix' (Nat.le_refl _)).eq_of_length rfl
    rw [(List.cons.inj hsame).1] at hback
    omega

/-- A pending call stays pending until the machine comes back behind it. -/
theorem suffix_next (h : f :: frames <:+ m.frames) (hnext : m.next = (.ok w, m')) :
    f :: frames <:+ m'.frames ∨ m'.frames = frames ∧ m'.pc = f.back := by
  have hsame : m'.frames = m.frames → f :: frames <:+ m'.frames := fun hframes => hframes ▸ h
  have hback : (∃ top, m.frames = top :: m'.frames ∧ m'.pc = top.back ∧ m'.chain = top.chain) →
      f :: frames <:+ m'.frames ∨ m'.frames = frames ∧ m'.pc = f.back := by
    rintro ⟨top, htop, hpc, -⟩
    rw [htop] at h
    rcases suffix_cons_iff.mp h with heq | hsuffix
    · obtain ⟨rfl, rfl⟩ := List.cons.inj heq
      exact Or.inr ⟨rfl, hpc⟩
    · exact Or.inl hsuffix
  obtain ⟨op, -, -, haffects⟩ := affects hnext
  cases op with
  | call => exact Or.inl (haffects.2 ▸ h.trans (suffix_cons ..))
  | «return» | returnValue => exact hback haffects.1
  | _ => exact Or.inl (hsame haffects.2)

end

section

variable {prims : List String} {body : List Node} {p : Program} {start stop : Nat} {code : List Scene}
  {frames : List Frame} {m m' : Machine} {w : Int} {x : Scene}

/-- The machine is at work on an instruction of a piece of code. -/
structure Busy (p : Program) (code : List Scene) (frames : List Frame) (x : Scene) (m : Machine) : Prop where
  program : m.program = p
  mem : x ∈ code
  works : m.frames = frames ∧ m.pc = x.address ∨
    (∃ id, x.instr = .call id) ∧ ∃ f, f :: frames <:+ m.frames ∧ f.back = x.address + 2

theorem Busy.worksAt (h : Busy p code frames x m) : m.WorksAt frames x.address := h.works.imp_right And.right

/-- What comes after an instruction of an expression: a later one, or the end. -/
def Proceeds (p : Program) (code : List Scene) (frames : List Frame) (stop : Nat) (x : Scene) (m' : Machine) : Prop :=
  (∃ y, x.address ≤ y.address ∧ Busy p code frames y m') ∨ m'.frames = frames ∧ m'.pc = stop

/-- The machine comes to an address that the code of the expression leads to. -/
theorem Proceeds.of_mem {last y : Scene} (hlast : last.address = stop) (hy : y ∈ code ++ [last]) (hle : x.address ≤ y.address)
    (hprogram : m'.program = p) (hframes : m'.frames = frames) (hpc : m'.pc = y.address) : Proceeds p code frames stop x m' := by
  rcases mem_append.mp hy with hy | hy
  · exact Or.inl ⟨y, hle, hprogram, hy, Or.inl ⟨hframes, hpc⟩⟩
  · rw [mem_singleton.mp hy, hlast] at hpc
    exact Or.inr ⟨hframes, hpc⟩

/-- An instruction that leads ahead and stays in its function comes to a later address. -/
theorem lt_of_moves {instr : Instr} {address : Nat} (hahead : instr.Ahead address) (hmoves : instr.Moves address m m')
    (hframes : m'.frames = m.frames) : (address : Int) < m'.pc := by
  cases instr with
  | const _ | primitive _ | load _ _ | store _ _ | plain _ | enter _ | leave =>
    have hpc := hmoves.1
    omega
  | jump target =>
    have hpc := hmoves.1
    have hlt : address < target := hahead
    omega
  | branch op target =>
    have hpc := hmoves.1
    have hlt : address < target := hahead
    omega
  | call id => exact absurd (hmoves.2.2.2.symm.trans hframes) (by simp)
  | breakLoop | continueLoop _ | «return» | returnValue => exact hahead.elim
  | refused => exact hmoves.elim

variable (hbody : AreStats body) (hlaid : p.LaidOut prims body) (hcode : ForwardCode prims body start stop code)

include hbody hlaid hcode

/-- **A step of an expression goes forward.** -/
theorem Busy.next (h : Busy p code frames x m) (hnext : m.next = (.ok w, m')) : Proceeds p code frames stop x m' := by
  obtain ⟨last, hlast, hsound⟩ := hcode.sound
  have hsound := hsound x h.mem
  have hprogram' : m'.program = p := (congrArg (·.1) (course_next hnext)).trans h.program
  rcases h.works with ⟨hframes, hpc⟩ | ⟨⟨id, hinstr⟩, f, hsuffix, hback⟩
  · have hmoves := moves_of_scene hbody hlaid h.program (hcode.placed x h.mem) hpc hnext
    cases passage_of_moves hsound hmoves with
    | @onward y hy hpc' honward =>
      have hlt := lt_of_moves (hcode.ahead x h.mem) hmoves honward.frames
      exact .of_mem hlast hy (by omega) hprogram' (honward.frames.trans hframes) hpc'
    | @call y id r hy hcalls =>
      refine Or.inl ⟨x, Nat.le_refl _, hprogram', h.mem, Or.inr ⟨⟨id, hcalls.instr⟩, ?_⟩⟩
      rw [hcalls.instr] at hmoves
      exact ⟨_, by rw [hmoves.2.2.2, hframes], rfl⟩
    | back hreturns =>
      have hahead := hcode.ahead x h.mem
      rcases hreturns.instr with hinstr | hinstr
      · rw [hinstr] at hahead
        exact hahead.elim
      · rw [hinstr] at hahead
        exact hahead.elim
  · rcases suffix_next hsuffix hnext with hsuffix' | ⟨hframes', hpc'⟩
    · exact Or.inl ⟨x, Nat.le_refl _, hprogram', h.mem, Or.inr ⟨⟨id, hinstr⟩, f, hsuffix', hback⟩⟩
    · -- the call comes back to what stands behind it
      have hleads := hsound.leads
      rw [Scene.Leads, hinstr] at hleads
      obtain ⟨y, hy, haddress, -⟩ := hleads
      exact .of_mem hlast hy (by omega) hprogram' hframes' (by rw [hpc', hback, haddress]; rfl)

/-- Up to a step, the machine has not been at the end of what it evaluates with the calls pending that were pending at first. -/
def Unfinished (stop : Nat) (m₀ : Machine) (n : Nat) : Prop :=
  ∀ k ≤ n, ∀ m ∈ m₀.after? k, ¬ (m.frames = m₀.frames ∧ m.pc = stop)

theorem Busy.later {k : Nat} (hm : m₀.after? k = some m) (h : Busy p code m₀.frames x m) :
    ∀ {n : Nat} {m' : Machine}, m₀.after? (k + n) = some m' → Unfinished stop m₀ (k + n) →
      ∃ y, x.address ≤ y.address ∧ Busy p code m₀.frames y m' := by
  intro n
  induction n with
  | zero =>
    intro m' hm' _
    cases hm.symm.trans hm'
    exact ⟨x, Nat.le_refl _, h⟩
  | succ n ih =>
    intro m' hm' hunfinished
    obtain ⟨m₁, w, hm₁, hnext⟩ := after?_succ.mp hm'
    obtain ⟨y, hle, hbusy⟩ := ih hm₁ fun j hj => hunfinished j (Nat.le_succ_of_le hj)
    rcases hbusy.next hbody hlaid hcode hnext with ⟨z, hle', hbusy'⟩ | hover
    · exact ⟨z, Nat.le_trans hle hle', hbusy'⟩
    · exact absurd hover (hunfinished _ (Nat.le_refl _) m' hm')

theorem Busy.all (hprogram : m₀.program = p) (hstart : m₀.pc = start) {n : Nat} (hm : m₀.after? n = some m)
    (hunfinished : Unfinished stop m₀ n) : ∃ x, Busy p code m₀.frames x m := by
  obtain ⟨x, hx, haddress⟩ := hcode.first
  have hfirst : Busy p code m₀.frames x m₀ := ⟨hprogram, hx, Or.inl ⟨rfl, by rw [hstart, haddress]⟩⟩
  rw [← Nat.zero_add n] at hm hunfinished
  obtain ⟨y, -, hbusy⟩ := hfirst.later hbody hlaid hcode rfl hm hunfinished
  exact ⟨y, hbusy⟩

/-- **An expression is worked through from the start to the end.** -/
theorem worksAt_le (hprogram : m₀.program = p) (hstart : m₀.pc = start) {k k' address address' : Nat} (hle : k ≤ k')
    (hm : m₀.after? k = some m) (hm' : m₀.after? k' = some m') (hunfinished : Unfinished stop m₀ k')
    (hworks : m.WorksAt m₀.frames address) (hworks' : m'.WorksAt m₀.frames address') : address ≤ address' := by
  obtain ⟨n, rfl⟩ := Nat.exists_eq_add_of_le hle
  obtain ⟨x, hbusy⟩ := Busy.all hbody hlaid hcode hprogram hstart hm fun j hj => hunfinished j (Nat.le_trans hj hle)
  obtain ⟨y, hxy, hbusy'⟩ := hbusy.later hbody hlaid hcode hm hm' hunfinished
  rw [hworks.unique hbusy.worksAt, hworks'.unique hbusy'.worksAt]
  exact hxy

end

end Machine

/-- The machine is at work on an expression, for a function that has those calls pending below it. -/
def Occurrence.Works (primitives : List String) (o : Occurrence) (frames : List Frame) (m : Machine) : Prop :=
  ∃ address, o.start ≤ address ∧ address < o.stop primitives ∧ m.WorksAt frames address

theorem Occurrence.works_of_call {prims : List String} (o : Occurrence) {m : Machine} (address : Nat)
    (hback : m.frames.map (·.back) = [(address : Int) + 2]) (hle : o.start ≤ address) (hlt : address < o.stop prims) :
    o.Works prims [] m := by
  obtain ⟨f, hf, hback⟩ := map_eq_singleton_iff.mp hback
  exact ⟨address, hle, hlt, Or.inr ⟨f, by rw [hf], hback⟩⟩

namespace Machine

/-- **Operands are evaluated one after the other, in the order of their code.** Take any program that was read and compiled, and
any expression that is evaluated in it, with a machine that is about to evaluate it. Until the machine is behind the
expression, with as many calls pending as at first, it is at work on the expression, be it in functions that are called. The
operands are evaluated in this order: the operand of a sign; the left and then the right operand, but for `>` and `<=` the right and
then the left one; the arguments of a call from the last to the first. Every step that is done for an earlier one of them, with
what it prints, the signal that it gives or the error that it ends with, comes before every step that is done for a later one. -/
theorem operands_in_order {text : String} {body : List Node} {primitives : List String} {p : Program}
    (htext : Node.ofText text = .ok (.program body)) (hp : Program.ofNode primitives (.program body) = .ok p) :
    (Layout.evaluated primitives body).map (·.node) = (rootsAll body).flatMap subexpressions ∧
    ∀ o ∈ Layout.evaluated primitives body,
      (∀ o' ∈ o.operands primitives, o' ∈ Layout.evaluated primitives body) ∧
      (o.operands primitives).map (·.node) = o.node.operands ∧
      ∀ m₀ : Machine, m₀.program = p → m₀.pc = o.start →
        (∀ n m, m₀.after? n = some m → Unfinished (o.stop primitives) m₀ n → o.Works primitives m₀.frames m) ∧
        (o.operands primitives).Pairwise fun first second => ∀ k k' m m', m₀.after? k = some m → m₀.after? k' = some m' →
          Unfinished (o.stop primitives) m₀ k → Unfinished (o.stop primitives) m₀ k' →
          first.Works primitives m₀.frames m → second.Works primitives m₀.frames m' → k < k' := by
  obtain ⟨_, ⟨⟩, hbody⟩ := areStats_of_text htext
  have hlaid := Program.laidOut hbody hp
  refine ⟨Layout.map_evaluated primitives hbody, fun o ho => ⟨Layout.operands_evaluated primitives hbody ho,
    Layout.map_operands primitives o, fun m₀ hprogram hstart => ?_⟩⟩
  obtain ⟨code, hcode⟩ := Layout.forwardCode (Layout.evaluated_seen primitives hbody o ho)
  constructor
  · intro n m hm hunfinished
    obtain ⟨x, hbusy⟩ := Busy.all hbody hlaid hcode hprogram hstart hm hunfinished
    exact ⟨x.address, (hcode.bound x hbusy.mem).1, (hcode.bound x hbusy.mem).2, hbusy.worksAt⟩
  · refine (Layout.operands_apart primitives o).imp fun {first second} hapart k k' m m' hm hm' hgoes _ hfirst hsecond => ?_
    obtain ⟨address, -, hlt, hworks⟩ := hfirst
    obtain ⟨address', hge, -, hworks'⟩ := hsecond
    by_contra hle
    have hback := worksAt_le hbody hlaid hcode hprogram hstart (Nat.le_of_not_lt hle) hm' hm hgoes hworks' hworks
    omega

/-- `var f=fun(x){print(x);};f(f(1),f(2));` where the second argument prints before the first one does. -/
theorem arguments_from_last_to_first :
    ∃ (body : List Node) (p : Program) (o first second : Occurrence) (m₀ m m' : Machine),
      Node.ofText "var f=fun(x)\x7bprint(x);\x7d;f(f(1),f(2));" = .ok (.program body) ∧
      Program.ofNode [] (.program body) = .ok p ∧ o ∈ Layout.evaluated [] body ∧
      o.node = .call (.name (.text "f")) [second.node, first.node] ∧ Runs 4 (Machine.start p []) m₀ ∧ m₀.pc = o.start ∧
      m₀.after? 4 = some m ∧ first.Works [] m₀.frames m ∧ m.next.2.printed = "2 " ∧
      m₀.after? 12 = some m' ∧ second.Works [] m₀.frames m' ∧ m'.next.2.printed = "2 \n1 " ∧
      ∀ n m, m₀.after? n = some m → Unfinished (o.stop []) m₀ n → first.Works [] m₀.frames m → n < 12 := by
  let body : List Node :=
    [.define (.text "f") (.function [.text "x"] (.block [.print [.name (.text "x")]])),
      .exprStat (.call (.name (.text "f"))
        [.call (.name (.text "f")) [.literal .num [.int 1]], .call (.name (.text "f")) [.literal .num [.int 2]]])]
  let p : Program :=
    { code := #[13, 1, 9, 13, 13, 0, 5, 1, 0, 7, 8, 14, 16, 1, 0, 6, 0, 0, 1, 1, 15, 0, 1, 2, 15, 0, 15, 0, 12, 14]
      consts := #[.number (.int 0), .number (.int 2), .number (.int 1)]
      scopes := #[#[], #[.text "f"], #[.text "x"], #[]]
      routines := #[⟨.text "f", [.text "x"], some 4⟩] }
  have htext : Node.ofText "var f=fun(x)\x7bprint(x);\x7d;f(f(1),f(2));" = .ok (.program body) := by cbv
  have hp : Program.ofNode [] (.program body) = .ok p := by cbv
  let o : Occurrence := (Layout.evaluated [] body).get ⟨1, by decide +kernel⟩
  let first : Occurrence := (o.operands []).get ⟨0, by decide +kernel⟩
  let second : Occurrence := (o.operands []).get ⟨1, by decide +kernel⟩
  have hplaces : o.start = 18 ∧ o.stop [] = 28 ∧ first.start = 18 ∧ first.stop [] = 22 ∧ second.start = 22 ∧
      second.stop [] = 26 := by decide +kernel
  have hruns : ((Machine.start p []).after? 4).bind (fun m₀ => (m₀.after? 4).bind fun m => (m₀.after? 12).map fun m' =>
      (m₀.pc, m₀.frames, m.frames.map (·.back), m.next.2.printed, m'.frames.map (·.back), m'.next.2.printed)) =
        some (18, [], [22], "2 ", [26], "2 \n1 ") := by decide +kernel
  have hgoes : ∀ k ≤ 12, ∀ m ∈ ((Machine.start p []).after? 4).bind (·.after? k), ¬ m.pc = 28 := by decide +kernel
  obtain ⟨m₀, hm₀, hlater⟩ := Option.bind_eq_some_iff.mp hruns
  obtain ⟨m, hm, hlater⟩ := Option.bind_eq_some_iff.mp hlater
  obtain ⟨m', hm', hfacts⟩ := Option.map_eq_some_iff.mp hlater
  simp only [Prod.mk.injEq] at hfacts
  obtain ⟨hpc, hframes, hback, hprints, hback', hprints'⟩ := hfacts
  obtain ⟨hstart, hstop, hfirst, hfirst', hsecond, hsecond'⟩ := hplaces
  simp only [hm₀, Option.bind_some] at hgoes
  have hprogram : m₀.program = p := by
    obtain ⟨_, ⟨⟩, hbody⟩ := areStats_of_text htext
    exact ((after?_eq_some_iff.mp hm₀).standing hbody (Program.laidOut hbody hp)).program
  have hmem : o ∈ Layout.evaluated [] body := List.get_mem ..
  have hpc : m₀.pc = o.start := by rw [hpc, hstart]; rfl
  have hworks : second.Works [] m₀.frames m' := by
    rw [hframes]
    exact second.works_of_call 24 hback' (by omega) (by omega)
  refine ⟨body, p, o, first, second, m₀, m, m', htext, hp, hmem, by cbv, after?_eq_some_iff.mp hm₀, hpc, hm, ?_, hprints, hm',
    hworks, hprints', fun n m hm hunfinished hfirst => ?_⟩
  · rw [hframes]
    exact first.works_of_call 20 hback (by omega) (by omega)
  · have horder := (((operands_in_order htext hp).2 o hmem).2.2 m₀ hprogram hpc).2
    exact List.pairwise_iff_get.mp horder ⟨0, by decide +kernel⟩ ⟨1, by decide +kernel⟩ (by decide) n 12 m m' hm hm' hunfinished
      (fun k hk m hm h => hgoes k hk m hm (by rw [h.2, hstop]; rfl)) hfirst hworks

/-- `var f=fun(x){print(x);return x;};print(f(1)>f(2));` where the right operand prints before the left one does. -/
theorem right_operand_first :
    ∃ (body : List Node) (p : Program) (o left right : Occurrence) (m₀ m m' : Machine),
      Node.ofText "var f=fun(x)\x7bprint(x);return x;\x7d;print(f(1)>f(2));" = .ok (.program body) ∧
      Program.ofNode [] (.program body) = .ok p ∧ o ∈ Layout.evaluated [] body ∧ left ∈ Layout.evaluated [] body ∧
      right ∈ Layout.evaluated [] body ∧ o.node = .binary (.text ">") left.node right.node ∧
      left.node = .call (.name (.text "f")) [.literal .num [.int 1]] ∧
      right.node = .call (.name (.text "f")) [.literal .num [.int 2]] ∧ Runs 4 (Machine.start p []) m₀ ∧ m₀.pc = o.start ∧
      m₀.after? 4 = some m ∧ right.Works [] m₀.frames m ∧ m.next.2.printed = "2 " ∧
      m₀.after? 12 = some m' ∧ left.Works [] m₀.frames m' ∧ m'.next.2.printed = "2 \n1 " := by
  let body : List Node :=
    [.define (.text "f") (.function [.text "x"] (.block [.print [.name (.text "x")], .returnValue (.name (.text "x"))])),
      .print [.binary (.text ">") (.call (.name (.text "f")) [.literal .num [.int 1]])
        (.call (.name (.text "f")) [.literal .num [.int 2]])]]
  let p : Program :=
    { code := #[13, 1, 9, 17, 13, 0, 5, 1, 0, 7, 8, 5, 1, 0, 17, 14, 16, 1, 0, 6, 0, 0, 1, 1, 15, 0, 1, 2, 15, 0, 119, 7, 8, 14]
      consts := #[.number (.int 0), .number (.int 2), .number (.int 1)]
      scopes := #[#[], #[.text "f"], #[.text "x"], #[]]
      routines := #[⟨.text "f", [.text "x"], some 4⟩] }
  have htext : Node.ofText "var f=fun(x)\x7bprint(x);return x;\x7d;print(f(1)>f(2));" = .ok (.program body) := by cbv
  have hp : Program.ofNode [] (.program body) = .ok p := by cbv
  let o : Occurrence := (Layout.evaluated [] body).get ⟨2, by decide +kernel⟩
  let left : Occurrence := (Layout.evaluated [] body).get ⟨3, by decide +kernel⟩
  let right : Occurrence := (Layout.evaluated [] body).get ⟨5, by decide +kernel⟩
  have hplaces : o.start = 22 ∧ left.start = 26 ∧ left.stop [] = 30 ∧ right.start = 22 ∧ right.stop [] = 26 := by
    decide +kernel
  have hruns : ((Machine.start p []).after? 4).bind (fun m₀ => (m₀.after? 4).bind fun m => (m₀.after? 12).map fun m' =>
      (m₀.pc, m₀.frames, m.frames.map (·.back), m.next.2.printed, m'.frames.map (·.back), m'.next.2.printed)) =
        some (22, [], [26], "2 ", [30], "2 \n1 ") := by decide +kernel
  obtain ⟨m₀, hm₀, hlater⟩ := Option.bind_eq_some_iff.mp hruns
  obtain ⟨m, hm, hlater⟩ := Option.bind_eq_some_iff.mp hlater
  obtain ⟨m', hm', hfacts⟩ := Option.map_eq_some_iff.mp hlater
  simp only [Prod.mk.injEq] at hfacts
  obtain ⟨hpc, hframes, hback, hprints, hback', hprints'⟩ := hfacts
  obtain ⟨hstart, hleft, hleft', hright, hright'⟩ := hplaces
  refine ⟨body, p, o, left, right, m₀, m, m', htext, hp, List.get_mem .., List.get_mem .., List.get_mem .., by cbv, by cbv, by cbv,
    after?_eq_some_iff.mp hm₀, by rw [hpc, hstart]; rfl, hm, ?_, hprints, hm', ?_, hprints'⟩
  · rw [hframes]
    exact right.works_of_call 24 hback (by omega) (by omega)
  · rw [hframes]
    exact left.works_of_call 28 hback' (by omega) (by omega)

end Machine

end Cilly
