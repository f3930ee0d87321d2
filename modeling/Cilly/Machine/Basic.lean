import Cilly.Program.Basic
import Cilly.Machine.Stack

/-!
# The machine

A machine runs a program on a stack of values. Variables live in scopes: lists of cells in a store, which
the chain of open scopes refers to by index, innermost first. The store starts with the scopes of the
program, holding names, and the first of them make up the chain a run starts with; a call looks through
the same scopes for the one that has the names of its parameters. So a variable stored in one of them
replaces a name there.

Names that the machine provides are signals: calling one adds it to the log with its arguments. A signal
may take a real number, and then its argument is made one.

An instruction that fails leaves behind what it had done up to then.
-/

namespace Cilly

inductive MachineError where
  | scopeOutOfReach (depth : Int)
  | indexOutOfRange (index : Int)
  | notUnary (word : Int)
  | notBinary (word : Int)
  | noRoutine (id : Int)
  | noCaller
  | unknownSignal (name : String)
  | illegalOpcode (word : Int)
  | stepLimit
  | fault (f : Fault)
  deriving DecidableEq, Repr

namespace MachineError

def category : MachineError → Category
  | .stepLimit => .stepLimit
  | .fault f => f.category
  | _ => .reported

/-- The numeral of a whole number of any size. -/
def number (i : Int) : String := (if i < 0 then "-" else "") ++ Decimal.numeral i.natAbs

def message : MachineError → String
  | .scopeOutOfReach i => "cilly vm : 作用域索引超出访问: " ++ number i
  | .indexOutOfRange i => "cilly vm : load_var变量索引超出范围:" ++ number i
  | .notUnary w => "cilly vm : 非法一元opcode: " ++ number w
  | .notBinary w => "cilly vm : 非法二元opcode:" ++ number w
  | .noRoutine i => "cilly vm : 非法函数ID: " ++ number i
  | .noCaller => "cilly vm : 函数返回栈为空"
  | .unknownSignal x => "cilly vm : 未知的 primitive 信号: " ++ x
  | .illegalOpcode w => "cilly vm : 非法opcode: " ++ number w
  | .stepLimit => ""
  | .fault f => f.message

end MachineError

/-- A name that the machine provides. -/
structure Signal where
  name : String
  /-- Whether its argument is made a real number. -/
  real : Bool := false
  deriving DecidableEq, Repr

/-- A call that has not returned yet: where it goes on, and the scopes that are open there. -/
structure Frame where
  back : Int
  chain : List Nat
  deriving DecidableEq, Repr

structure Machine where
  program : Program
  signals : List Signal
  /-- Every scope there has been; those of the program come first. -/
  store : Array (Array Datum)
  /-- The open scopes, innermost first. -/
  chain : List Nat
  frames : List Frame := []
  stack : CountedStack Datum := {}
  pc : Int := 0
  steps : Nat := 0
  printed : String := ""
  log : Array (String × List Datum) := #[]
  deriving Inhabited

namespace Machine

/-- A machine before its first step. -/
def start (program : Program) (signals : List Signal) : Machine :=
  { program := program, signals := signals, store := program.scopes,
    chain := (List.range program.scopes.size).reverse }

/-- The scopes of the program as they are now. -/
def names (m : Machine) : Array (Array Datum) := m.store.take m.program.scopes.size

/-- The open scopes, outermost first. -/
def openScopes (m : Machine) : List (Array Datum) := (m.chain.map fun i => m.store.getD i #[]).reverse

end Machine

/-- Steps of a machine. -/
abbrev MachineM := ExceptT MachineError (StateM Machine)

namespace MachineM

/-- What comes of steps on a machine, and the machine after them. -/
def outcome {α : Type} (x : MachineM α) (m : Machine) : Except MachineError α × Machine :=
  StateT.run (ExceptT.run x) m

def ofFault {α : Type} (r : Except Fault α) : MachineM α :=
  match r with
  | .ok a => pure a
  | .error f => throw (.fault f)

/-- An error that shows a number; a number too long to be written is a fault of its own. -/
def refuse {α : Type} (e : Int → MachineError) (i : Int) : MachineM α := do
  discard (ofFault (Datum.intText i))
  throw (e i)

def push (v : Datum) : MachineM Unit := modify fun m => { m with stack := m.stack.push v }

def pop : MachineM Datum := do
  let popped ← modifyGet fun m =>
    let (top, rest) := m.stack.pop
    (top, { m with stack := rest })
  match popped with
  | some v => return v
  | none => throw (.fault .emptyPop)

/-- The payload of the value on top. -/
def popPayload : MachineM Datum := do
  let v ← pop
  ofFault v.payload

/-- The word at an address; a negative address counts from the end. -/
def word (address : Int) : MachineM Int := do ofFault (itemAt (← get).program.code address)

def printText (s : String) : MachineM Unit := modify fun m => { m with printed := m.printed ++ s }

/-- Opens a new scope with the given cells. -/
def openScope (cells : Array Datum) : MachineM Unit :=
  modify fun m => { m with store := m.store.push cells, chain := m.store.size :: m.chain }

/-- The open scope at a depth, as an index of the store. Negative depths count from the outermost. -/
def scopeAt (depth : Int) : MachineM Nat := do
  let chain := (← get).chain
  if (chain.length : Int) ≤ depth then refuse .scopeOutOfReach depth
  else ofFault (itemAt chain.reverse.toArray (-depth - 1))

end MachineM

end Cilly
