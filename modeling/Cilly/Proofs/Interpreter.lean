import Cilly.Datum.Reading
import Cilly.Program.Basic
import Cilly.Proofs.Written

/-!
# A reference interpreter

What a program prints and how it ends, by recursion over its tree, with no code and no machine. Two things are
kept apart: the scopes say which names are declared at a place of the text, and the variables have the values
they got so far. A name stands for the variable of the innermost scope of the function that declares it before
that place; if there is none, it stands for the index of a function. All variables of a block are there from its
start, as nothing.

Loops and calls need not end. Fuel bounds how often a loop is repeated and how deep calls are nested; evaluation
that lacks it is out of fuel, and one that means nothing is stuck.
-/

namespace Cilly

namespace Reference

/-- Why evaluation stops before its end. -/
inductive Stop where
  | fault (f : Fault)
  | outOfFuel
  | stuck
  deriving DecidableEq, Repr

/-- Evaluation has printed a text, prints more of it, and may stop. -/
abbrev Eval := ExceptT Stop (StateM String)

def ofFault {α : Type} : Except Fault α → Eval α
  | .ok a => pure a
  | .error f => throw (.fault f)

def emit (s : String) : Eval Unit := modify (· ++ s)

/-! ## Variables -/

/-- The names that are declared so far, scope by scope, innermost first. -/
abbrev Scopes := List (List String)

/-- The values of the variables of a scope. -/
abbrev Variables := String → Datum

/-- The variables of each scope, innermost first. -/
abbrev Env := List Variables

def Scopes.declare (names : List String) : Scopes → Scopes
  | [] => []
  | top :: outer => (top ++ names) :: outer

def Variables.set (x : String) (v : Datum) (vars : Variables) : Variables := fun y => if y = x then v else vars y

def lookup (x : String) : Scopes → Env → Option Datum
  | names :: scopes, vars :: env => if x ∈ names then some (vars x) else lookup x scopes env
  | _, _ => none

/-- Gives a variable that is declared another value. -/
def assign (x : String) (v : Datum) : Scopes → Env → Option Env
  | names :: scopes, vars :: env =>
    if x ∈ names then some (vars.set x v :: env) else (assign x v scopes env).map (vars :: ·)
  | _, _ => none

/-- Gives a variable of the innermost scope its first value. -/
def define (x : String) (v : Datum) : Env → Env
  | [] => []
  | vars :: env => vars.set x v :: env

/-- The names that a statement declares in the scope that it stands in. -/
def declared : Node → List String
  | .define (.text x) _ => [x]
  | .ifThen _ yes => declared yes
  | .ifElse _ yes no => declared yes ++ declared no
  | .loop _ body => declared body
  | _ => []

/-! ## Expressions -/

/-- What the meaning of a tree depends on: the index that a function's name stands for, what a call of it does,
and how often a loop may be repeated. -/
structure Rules where
  index : String → Option Nat
  call : String → List Datum → Eval Datum
  rounds : Nat

def operation? : String → Option BinaryOp
  | "+" => some .add
  | "-" => some .sub
  | "*" => some .mul
  | "/" => some .div
  | "%" => some .mod
  | "^" => some .pow
  | "==" => some .eq
  | "!=" => some .ne
  | "<" => some .lt
  | ">=" => some .ge
  | _ => none

/-- The right operand is looked at first. -/
def combine (op : BinaryOp) (left right : Datum) : Eval Datum :=
  ofFault (right.payload >>= fun b => left.payload >>= fun a => op.apply a b)

def unary (op : Datum) (v : Datum) : Eval Datum :=
  match op with
  | .text "-" => ofFault (v.payload >>= UnaryOp.neg.apply)
  | .text "!" => ofFault (v.payload >>= UnaryOp.not.apply)
  | _ => throw .stuck

def name (rules : Rules) (scopes : Scopes) (env : Env) (x : String) : Eval Datum :=
  match lookup x scopes env with
  | some v => return v
  | none =>
    match rules.index x with
    | some i => return .number (.int i)
    | none => throw .stuck

def literal (kind : LiteralKind) (d : Datum) : Datum :=
  match kind with
  | .num => .number d
  | .str => .string d
  | .true => .yes
  | .false => .no
  | .null => .nothing

mutual

def eval (rules : Rules) (scopes : Scopes) (env : Env) : Node → Eval Datum
  | .literal kind [d] => return literal kind d
  | .name (.text x) => name rules scopes env x
  | .unary op e => do unary op (← eval rules scopes env e)
  | .binary (.text op) l r => do
    match op with
    | "&&" =>
      let a ← eval rules scopes env l
      if a.eq .no then return .no
      eval rules scopes env r
    | "||" =>
      let a ← eval rules scopes env l
      if a.eq .yes then return .yes
      eval rules scopes env r
    -- these two are turned around, and so is the order of their operands
    | ">" =>
      let b ← eval rules scopes env r
      let a ← eval rules scopes env l
      combine .lt b a
    | "<=" =>
      let b ← eval rules scopes env r
      let a ← eval rules scopes env l
      combine .ge b a
    | op =>
      match operation? op with
      | some o =>
        let a ← eval rules scopes env l
        let b ← eval rules scopes env r
        combine o a b
      | none => throw .stuck
  | .call (.name (.text f)) args => do rules.call f (← evalAll rules scopes env args)
  | _ => throw .stuck

/-- Arguments, from the last to the first. -/
def evalAll (rules : Rules) (scopes : Scopes) (env : Env) : List Node → Eval (List Datum)
  | [] => return []
  | e :: es => do
    let vs ← evalAll rules scopes env es
    let v ← eval rules scopes env e
    return v :: vs

end

/-- Prints values, each as soon as it is known. -/
def print (rules : Rules) (scopes : Scopes) (env : Env) : List Node → Eval Unit
  | [] => return
  | e :: es => do
    let v ← eval rules scopes env e
    let s ← ofFault (v.payload >>= Datum.display)
    emit (s ++ " ")
    print rules scopes env es

/-! ## Statements -/

/-- How a statement ends: the next one follows, or the function returns. -/
inductive Flow where
  | on (env : Env)
  | back (v : Datum)

/-- A loop goes on until its test gives `false`. -/
def iterate (test : Env → Eval Datum) (body : Env → Eval Flow) : Nat → Env → Eval Flow
  | 0, _ => throw .outOfFuel
  | rounds + 1, env => do
    let v ← test env
    if v.eq .no then return .on env
    match ← body env with
    | .on env => iterate test body rounds env
    | .back v => return .back v

mutual

def exec (rules : Rules) (scopes : Scopes) (env : Env) : Node → Eval Flow
  | .exprStat e => do
    discard (eval rules scopes env e)
    return .on env
  | .print args => do
    print rules scopes env args
    emit "\n"
    return .on env
  | .ifThen cond yes => do
    let v ← eval rules scopes env cond
    if v.eq .no then return .on env
    exec rules scopes env yes
  | .ifElse cond yes no => do
    let v ← eval rules scopes env cond
    if v.eq .no then exec rules (scopes.declare (declared yes)) env no
    else exec rules scopes env yes
  | .loop cond body =>
    iterate (fun env => eval rules scopes env cond) (fun env => exec rules scopes env body) rules.rounds env
  | .block body => do
    match ← execAll rules ([] :: scopes) ((fun _ => .nothing) :: env) body with
    | .on env => return .on env.tail
    | .back v => return .back v
  | .define (.text x) value =>
    match value with
    | .function _ _ =>
      match rules.index x with
      | some i => return .on (define x (.number (.int i)) env)
      | none => throw .stuck
    | value => do
      let v ← eval rules scopes env value
      return .on (define x v env)
  | .assign (.text x) value => do
    let v ← eval rules scopes env value
    match assign x v scopes env with
    | some env => return .on env
    | none => throw .stuck
  | .return => return .back .nothing
  | .returnValue value => do
    let v ← eval rules scopes env value
    return .back v
  | _ => throw .stuck

def execAll (rules : Rules) (scopes : Scopes) (env : Env) : List Node → Eval Flow
  | [] => return .on env
  | n :: ns => do
    match ← exec rules scopes env n with
    | .on env => execAll rules (scopes.declare (declared n)) env ns
    | .back v => return .back v

end

theorem exec_variable {value : Node} (h : ∀ params body, value ≠ .function params body) (rules : Rules) (scopes : Scopes)
    (env : Env) (x : String) : exec rules scopes env (.define (.text x) value) = (do
      let v ← eval rules scopes env value
      return .on (define x v env)) := by
  rw [exec]
  exact h

/-! ## Programs -/

/-- The parameters with the arguments as their values. -/
def parameters (names : List String) (args : List Datum) : Variables :=
  fun x => ((names.zip args).lookup x).getD .nothing

/-- The names among data. -/
def texts (names : List Datum) : List String :=
  names.filterMap fun
    | .text x => some x
    | _ => none

/-- A call: the body of the function of that name, in a scope with its parameters only. -/
def enter (rules : Rules) (functions : List Function) (x : String) (args : List Datum) : Eval Datum :=
  match functions.find? fun f => f.name.eq (.text x) with
  | some f => do
    match ← exec rules [texts f.params] [parameters (texts f.params) args] f.body with
    | .on _ => return .nothing
    | .back v => return v
  | none => throw .stuck

def rules (functions : List Function) (index : String → Option Nat) : Nat → Rules
  | 0 => ⟨index, fun _ _ => throw .outOfFuel, 0⟩
  | fuel + 1 => ⟨index, enter (rules functions index fuel) functions, fuel + 1⟩

/-- What a program comes to and prints. Functions are told apart by their index in a table. -/
def interpret (table : Array Routine) (body : List Node) (fuel : Nat) : Except Stop Unit × String :=
  let index x := table.findIdx? fun r => r.name.eq (.text x)
  StateT.run (ExceptT.run (discard (exec (rules (Node.functionsAll body) index fuel) [] [] (.block body)))) ""

end Reference

end Cilly
