import Cilly.Proofs.Layout
import Cilly.Proofs.Written

/-!
# The scopes of a program

A block has a scope with the variables that are defined directly in it, and a function one with its parameters.
Scopes are opened in the order of the text (`scopes`). At any place a scope has the names that were declared before
it, so that a statement adds those that it declares (`next_visible`).
-/

namespace Cilly

open List

/-- A scope and its names. -/
inductive Scope where
  | block (names : List Datum)
  | parameters (names : List Datum)

def Scope.names : Scope → List Datum
  | .block names | .parameters names => names

/-- The names of a scope of a block. -/
def Scope.block? : Scope → Option (List Datum)
  | .block names => some names
  | .parameters _ => none

namespace Node

/-- The names that a statement declares in the scope that it stands in. -/
def declares : Node → List Datum
  | .ifThen _ yes => declares yes
  | .ifElse _ yes no => declares yes ++ declares no
  | .loop _ body => declares body
  | .define x _ => [x]
  | _ => []

def declaresAll : List Node → List Datum
  | [] => []
  | n :: ns => declares n ++ declaresAll ns

mutual

/-- The scopes that a statement opens, in the order of the text. -/
def scopes : Node → List Scope
  | .block body => .block (declaresAll body) :: scopesAll body
  | .ifThen _ yes => scopes yes
  | .ifElse _ yes no => scopes yes ++ scopes no
  | .loop _ body => scopes body
  | .define _ value =>
    match value with
    | .function params body => .parameters params :: scopes body
    | _ => []
  | _ => []

def scopesAll : List Node → List Scope
  | [] => []
  | n :: ns => scopes n ++ scopesAll ns

end

theorem scopes_variable {x : Datum} {value : Node} (h : ∀ params body, value ≠ .function params body) :
    scopes (.define x value) = [] := by
  rw [scopes]
  exact h

mutual

theorem parameters_mem_scopes : ∀ {n : Node}, IsStat n → ∀ {f : Function}, f ∈ functions n →
    .parameters f.params ∈ scopes n
  | _, .block hbody, f, hf => by
    rw [functions] at hf
    rw [scopes]
    exact mem_cons_of_mem _ (parameters_mem_scopesAll hbody hf)
  | _, .ifThen _ hyes, f, hf => by
    rw [functions] at hf
    rw [scopes]
    exact parameters_mem_scopes hyes hf
  | _, .ifElse _ hyes hno, f, hf => by
    rw [functions] at hf
    rw [scopes]
    rcases mem_append.mp hf with hf | hf
    · exact mem_append_left _ (parameters_mem_scopes hyes hf)
    · exact mem_append_right _ (parameters_mem_scopes hno hf)
  | _, .loop _ hbody, f, hf => by
    rw [functions] at hf
    rw [scopes]
    exact parameters_mem_scopes hbody hf
  | _, .function x xs hbody, f, hf => by
    rw [functions, functions] at hf
    rw [scopes, scopes]
    rcases mem_cons.mp hf with rfl | hf
    · exact mem_cons_self ..
    · exact mem_cons_of_mem _ (mem_cons_of_mem _ (parameters_mem_scopesAll hbody hf))
  | _, .define x _ hne, f, hf => by
    rw [functions_variable hne] at hf
    cases hf
  | _, .exprStat _, f, hf | _, .print _, f, hf | _, .breakLoop, f, hf | _, .continueLoop, f, hf
  | _, .assign _ _, f, hf | _, .return, f, hf | _, .returnValue _, f, hf => by simp [functions] at hf

theorem parameters_mem_scopesAll : ∀ {ns : List Node}, AreStats ns → ∀ {f : Function}, f ∈ functionsAll ns →
    .parameters f.params ∈ scopesAll ns
  | _, .nil, f, hf => by simp [functionsAll] at hf
  | _, .cons hn hns, f, hf => by
    rw [functionsAll] at hf
    rw [scopesAll]
    rcases mem_append.mp hf with hf | hf
    · exact mem_append_left _ (parameters_mem_scopes hn hf)
    · exact mem_append_right _ (parameters_mem_scopesAll hns hf)

end

end Node

/-! ## What is visible -/

/-- Scopes, innermost first, with names added to the innermost. -/
def extended (visible : List (Array Datum)) (names : List Datum) : List (Array Datum) :=
  match visible with
  | [] => []
  | top :: outer => (top ++ names.toArray) :: outer

@[simp] theorem extended_nil (visible : List (Array Datum)) : extended visible [] = visible := by
  cases visible <;> simp [extended]

theorem extended_append (visible : List (Array Datum)) (xs ys : List Datum) :
    extended visible (xs ++ ys) = extended (extended visible xs) ys := by
  cases visible <;> simp [extended]

theorem Point.declare_visible (s : Point) (x : Datum) : (s.declare x).visible = extended s.visible [x] := by
  unfold Point.declare
  cases h : s.visible with
  | nil => simpa [extended] using h
  | cons top outer => simp [extended]

namespace Layout

open Node

variable (prims : List String)

mutual

/-- A statement declares its names and leaves all else as it is. -/
theorem next_visible : ∀ {n : Node}, IsStat n → ∀ s : Point,
    (next prims s n).visible = extended s.visible (declares n)
  | _, .exprStat _, s | _, .print _, s | _, .breakLoop, s | _, .continueLoop, s | _, .assign _ _, s
  | _, .return, s | _, .returnValue _, s => by simp [next, declares, Point.skip]
  | _, .ifThen _ hyes, s => by
    rw [next, declares, next_visible hyes]
    rfl
  | _, .ifElse _ hyes hno, s => by
    rw [next, declares, next_visible hno, Point.skip, next_visible hyes, extended_append]
    rfl
  | _, .loop _ hbody, s => by
    rw [next, declares, Point.skip, next_visible hbody]
    rfl
  | _, .block _, s => by simp [next, declares]
  | _, .define x _ hne, s => by
    rw [next_variable _ hne, Point.declare_visible, declares]
    rfl
  | _, .function x xs _, s => by rw [next_function, Point.declare_visible, declares]

theorem nextAll_visible : ∀ {ns : List Node}, AreStats ns → ∀ s : Point,
    (nextAll prims s ns).visible = extended s.visible (declaresAll ns)
  | _, .nil, s => by simp [nextAll, declaresAll]
  | _, .cons hn hns, s => by
    rw [nextAll, declaresAll, nextAll_visible hns, next_visible hn, extended_append]

end

theorem nextAll_innermost {body : List Node} (h : AreStats body) (s : Point) :
    (nextAll prims s.inBlock body).innermost = (declaresAll body).toArray := by
  rw [Names.innermost, nextAll_visible prims h]
  simp [Point.inBlock, extended]

end Layout

end Cilly
