import Cilly.Program.Basic

/-!
# Assembling code

The state of a compilation, and the operations on it: appending words, patching an operand once its value is
known, sharing constants, and keeping track of which names are visible. A scope is opened once and never
forgotten, since its names go into the program; the chain lists the scopes that are open, innermost first.

An operation that fails leaves behind what it had done up to then.
-/

namespace Cilly

inductive CompileError where
  | redefined (name : String)
  | undefinedName (name : String)
  | assignedFunction (name : String)
  | illegalUnary (op : String)
  | illegalBinary (op : String)
  | breakOutsideLoop
  | continueOutsideLoop
  | returnOutsideFunction
  | anonymousFunction
  | unsupportedCall (node : String)
  | illegalNode (tag : String)
  | fault (f : Fault)
  deriving DecidableEq, Repr

namespace CompileError

def category : CompileError → Category
  | .fault f => f.category
  | _ => .reported

def message : CompileError → String
  | .redefined x => "cilly vm compiler : 已定义变量: " ++ x
  | .undefinedName x => "cilly vm compiler : 未定义变量：" ++ x
  | .assignedFunction x => "cilly vm compiler : 不能给函数名赋值: " ++ x
  | .illegalUnary op => "cilly vm compiler : 非法一元运算符：" ++ op
  | .illegalBinary op => "cilly vm compiler : 非法二元运算符：" ++ op
  | .breakOutsideLoop => "cilly vm compiler : break语句必须在循环内部"
  | .continueOutsideLoop => "cilly vm compiler : continue语句必须在循环内部"
  | .returnOutsideFunction => "cilly vm compiler : return语句必须在函数内部"
  | .anonymousFunction => "cilly vm compiler : 匿名函数暂不支持"
  | .unsupportedCall node => "cilly vm compiler : 不支持的函数调用: " ++ node
  | .illegalNode tag => "cilly vm compiler : 非法ast节点: " ++ tag
  | .fault f => f.message

end CompileError

structure Assembly where
  code : Array Int := #[]
  consts : Array Datum := #[]
  /-- The names of every scope, in the order of opening. -/
  scopes : Array (Array Datum) := #[#[]]
  /-- The open scopes as indices of `scopes`, innermost first. -/
  chain : List Nat := [0]
  routines : Array Routine := #[]
  /-- The function whose body is being compiled. -/
  current : Option Nat := none
  /-- Jumps that leave the innermost loop; the first is its exit test. -/
  breaks : Array Nat := #[]
  /-- Where the innermost loop starts. -/
  continues : Array Nat := #[]
  /-- Names that the machine provides. -/
  primitives : List String := []
  deriving Inhabited

/-- Steps of a compilation. -/
abbrev CompileM := ExceptT CompileError (StateM Assembly)

/-- What a name refers to. -/
inductive Place where
  /-- So many scopes out, at an index. -/
  | variable (depth index : Nat)
  | routine (id : Nat)
  | primitive (index : Nat)
  deriving DecidableEq, Repr

/-- A place as the two operands that address it. -/
def Place.operands : Place → Int × Int
  | .variable depth index => (depth, index)
  | .routine id => (-1, id)
  | .primitive index => (-2, index)

/-- The first index at which a name stands. -/
def nameIndex? (names : Array Datum) (x : Datum) : Option Nat := names.findIdx? fun y => y.eq x

namespace Assembly

/-- The names of the open scopes, innermost first. -/
def openScopes (a : Assembly) : List (Array Datum) := a.chain.map fun i => a.scopes.getD i #[]

/-- Where a name stands in a list of scopes, innermost first. -/
def find? (x : Datum) : List (Array Datum) → Option (Nat × Nat)
  | [] => none
  | names :: outer =>
    match nameIndex? names x with
    | some i => some (0, i)
    | none => (find? x outer).map fun (depth, i) => (depth + 1, i)

def routineIndex? (a : Assembly) (x : Datum) : Option Nat := a.routines.findIdx? fun r => r.name.eq x

def primitiveIndex? (a : Assembly) (x : Datum) : Option Nat :=
  a.primitives.findIdx? fun p => (Datum.text p).eq x

/-- Variables come first, then functions, then primitives. -/
def place? (a : Assembly) (x : Datum) : Option Place :=
  match find? x a.openScopes with
  | some (depth, i) => some (.variable depth i)
  | none =>
    match a.routineIndex? x with
    | some i => some (.routine i)
    | none => (a.primitiveIndex? x).map .primitive

def program (a : Assembly) : Program := ⟨a.code, a.consts, a.scopes, a.routines⟩

end Assembly

namespace CompileM

/-- A result that may be a fault of the data. -/
def ofFault {α : Type} (r : Except Fault α) : CompileM α :=
  match r with
  | .ok a => pure a
  | .error f => throw (.fault f)

/-- The address that the next word will have. -/
def nextAddress : CompileM Nat := do return (← get).code.size

/-- Appends an operation word and its operands, and gives its address. -/
def emitWord (word : Int) (first second : Option Int) : CompileM Nat := do
  let address ← nextAddress
  modify fun a => { a with code := a.code ++ (word :: (first.toList ++ second.toList)).toArray }
  return address

def emit (op : Opcode) : CompileM Unit := discard (emitWord op.word none none)

def emit1 (op : Opcode) (operand : Int) : CompileM Nat := emitWord op.word (some operand) none

def emit2 (op : Opcode) (first second : Int) : CompileM Unit :=
  discard (emitWord op.word (some first) (some second))

/-- Replaces a word of the code. -/
def setWord (offset word : Int) : CompileM Unit := do
  let code ← ofFault (setItemAt (← get).code offset word)
  modify fun a => { a with code := code }

/-- Replaces the operands of the instruction at an address. -/
def patchWords (address : Int) (first second : Option Int) : CompileM Unit := do
  if let some w := first then setWord (address + 1) w
  if let some w := second then setWord (address + 2) w

/-- Lets the instruction at an address refer to the next one. -/
def patchHere (address : Nat) : CompileM Unit := do
  let here ← nextAddress
  patchWords address (some here) none

/-- The index of a constant; equal constants share one. -/
def addConst (c : Datum) : CompileM Nat := do
  let a ← get
  match a.consts.findIdx? fun d => d.eq c with
  | some i => return i
  | none =>
    set { a with consts := a.consts.push c }
    return a.consts.size

/-- Loads a constant. -/
def emitConst (c : Datum) : CompileM Unit := do
  let i ← addConst c
  discard (emit1 .loadConst i)

/-- Opens a scope inside the others. -/
def openScope : CompileM Unit :=
  modify fun a => { a with scopes := a.scopes.push #[], chain := a.scopes.size :: a.chain }

/-- How many names the innermost scope has. -/
def scopeSize : CompileM Nat := do
  match (← get).openScopes with
  | [] => throw (.fault .noItem)
  | names :: _ => return names.size

def closeScope : CompileM Unit := do
  match (← get).chain with
  | [] => throw (.fault .emptyPop)
  | _ :: outer => modify fun a => { a with chain := outer }

/-- Adds a name to the innermost scope and gives its index there. -/
def declare (x : Datum) : CompileM Nat := do
  let a ← get
  match a.chain with
  | [] => throw (.fault .noItem)
  | i :: _ =>
    let names := a.scopes.getD i #[]
    match nameIndex? names x with
    | some _ => throw (.redefined (← ofFault x.display))
    | none =>
      set { a with scopes := a.scopes.setIfInBounds i (names.push x) }
      return names.size

/-- What a name refers to; an unknown name is an error. -/
def lookup (x : Datum) : CompileM Place := do
  match (← get).place? x with
  | some place => return place
  | none => throw (.undefinedName (← ofFault x.display))

/-- Adds a function whose body has no address yet. -/
def addRoutine (x : Datum) (params : List Datum) : CompileM Nat := do
  let a ← get
  set { a with routines := a.routines.push ⟨x, params, some (-1)⟩ }
  return a.routines.size

def setEntry (id : Nat) (address : Nat) : CompileM Unit :=
  modify fun a => { a with routines := a.routines.modify id fun r => { r with entry := some (address : Int) } }

end CompileM

end Cilly
