import Cilly.Datum.Arithmetic
import Cilly.Datum.Value

/-!
# Compiled programs

Code is a sequence of whole numbers: operation words, each followed by its operands. A program is its code,
its constants, the names of every scope in the order in which the scopes were opened, and its routines.
-/

namespace Cilly

inductive Opcode where
  | loadConst
  | loadNull
  | loadTrue
  | loadFalse
  | loadVar
  | storeVar
  | printItem
  | printNewline
  | jump
  | jumpTrue
  | jumpFalse
  | pop
  | enterScope
  | leaveScope
  | call
  | return
  | returnValue
  | callPrimitive
  | unary (op : UnaryOp)
  | binary (op : BinaryOp)
  deriving DecidableEq, Repr

namespace Opcode

/-- The word that stands for an operation in code. -/
def word : Opcode → Int
  | .loadConst => 1
  | .loadNull => 2
  | .loadTrue => 3
  | .loadFalse => 4
  | .loadVar => 5
  | .storeVar => 6
  | .printItem => 7
  | .printNewline => 8
  | .jump => 9
  | .jumpTrue => 10
  | .jumpFalse => 11
  | .pop => 12
  | .enterScope => 13
  | .leaveScope => 14
  | .call => 15
  | .return => 16
  | .returnValue => 17
  | .callPrimitive => 18
  | .unary .neg => 101
  | .unary .not => 102
  | .binary .add => 111
  | .binary .sub => 112
  | .binary .mul => 113
  | .binary .div => 114
  | .binary .mod => 115
  | .binary .pow => 116
  | .binary .eq => 117
  | .binary .ne => 118
  | .binary .lt => 119
  | .binary .ge => 120

def all : List Opcode :=
  [.loadConst, .loadNull, .loadTrue, .loadFalse, .loadVar, .storeVar, .printItem, .printNewline, .jump,
    .jumpTrue, .jumpFalse, .pop, .enterScope, .leaveScope, .call, .return, .returnValue, .callPrimitive,
    .unary .neg, .unary .not, .binary .add, .binary .sub, .binary .mul, .binary .div, .binary .mod,
    .binary .pow, .binary .eq, .binary .ne, .binary .lt, .binary .ge]

/-- The operation that a word stands for. -/
def ofWord? (w : Int) : Option Opcode := all.find? fun op => op.word = w

def mnemonic : Opcode → String
  | .loadConst => "LOAD_CONST"
  | .loadNull => "LOAD_NULL"
  | .loadTrue => "LOAD_TRUE"
  | .loadFalse => "LOAD_FALSE"
  | .loadVar => "LOAD_VAR"
  | .storeVar => "STORE_VAR"
  | .printItem => "PRINT_ITEM"
  | .printNewline => "PRINT_NEWLINE"
  | .jump => "JMP"
  | .jumpTrue => "JMP_TRUE"
  | .jumpFalse => "JMP_FALSE"
  | .pop => "POP"
  | .enterScope => "ENTER_SCOPE"
  | .leaveScope => "LEAVE_SCOPE"
  | .call => "CALL"
  | .return => "RETURN"
  | .returnValue => "RETURN_VALUE"
  | .callPrimitive => "CALL_PRIMITIVE"
  | .unary .neg => "UNARY_NEG"
  | .unary .not => "UNARY_NOT"
  | .binary .add => "BINARY_ADD"
  | .binary .sub => "BINARY_SUB"
  | .binary .mul => "BINARY_MUL"
  | .binary .div => "BINARY_DIV"
  | .binary .mod => "BINARY_MOD"
  | .binary .pow => "BINARY_POW"
  | .binary .eq => "BINARY_EQ"
  | .binary .ne => "BINARY_NE"
  | .binary .lt => "BINARY_LT"
  | .binary .ge => "BINARY_GE"

/-- How many words an instruction takes, its operation word included. -/
def size : Opcode → Nat
  | .loadVar | .storeVar => 3
  | .loadConst | .enterScope | .jump | .jumpTrue | .jumpFalse | .call | .callPrimitive => 2
  | _ => 1

@[simp] theorem ofWord?_word (op : Opcode) : ofWord? op.word = some op := by
  cases op <;> (try rename_i o; cases o) <;> rfl

theorem word_of_ofWord? {w : Int} {op : Opcode} (h : ofWord? w = some op) : op.word = w := by
  have := List.find?_some h
  simpa using this

end Opcode

/-- An entry of the table of functions. Its index in the table identifies it. -/
structure Routine where
  name : Datum
  params : List Datum
  /-- Where its body starts, if that is known. -/
  entry : Option Int
  deriving Inhabited, Repr

structure Program where
  code : Array Int := #[]
  consts : Array Datum := #[]
  scopes : Array (Array Datum) := #[#[]]
  routines : Array Routine := #[]
  deriving Inhabited, Repr

/-- The item at an offset of an array, counted from the back if negative. -/
def itemAt {α : Type} (xs : Array α) (offset : Int) : Except Fault α :=
  match (Datum.position? xs.size offset).bind (xs[·]?) with
  | some a => .ok a
  | none => .error .noItem

/-- Replaces the item at an offset. -/
def setItemAt {α : Type} (xs : Array α) (offset : Int) (a : α) : Except Fault (Array α) :=
  match Datum.position? xs.size offset with
  | some i => .ok (xs.setIfInBounds i a)
  | none => .error .noSlot

end Cilly
