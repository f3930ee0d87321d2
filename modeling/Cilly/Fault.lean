/-!
# Faults of data

What can go wrong when untyped data is indexed, iterated, compared, computed with or written as text. A
fault is a cause; its wording is in `Fault.message`, and `Fault.category` says which family it belongs to.
-/

namespace Cilly

/-- The kinds of data. -/
inductive Kind where
  | null
  | bool
  | int
  | float
  | text
  | list
  deriving DecidableEq, Repr

def Kind.name : Kind → String
  | .null => "NoneType"
  | .bool => "bool"
  | .int => "int"
  | .float => "float"
  | .text => "str"
  | .list => "list"

inductive Fault where
  /-- Popping from an empty stack or scope chain. -/
  | emptyPop
  /-- Reading a list outside its bounds. -/
  | noItem
  /-- Writing a list outside its bounds. -/
  | noSlot
  /-- Reading a text outside its bounds. -/
  | noCharacter
  | unsupportedOperands (operator : String) (left right : Kind)
  | incomparable (operator : String) (left right : Kind)
  | notNegatable (kind : Kind)
  /-- Joining a text or list to something of another kind. -/
  | notConcatenable (sequence other : Kind)
  | notRepeatable (count : Kind)
  /-- A format takes fewer values than there are. -/
  | valuesLeftOver
  /-- A format takes more values than there are. -/
  | valuesMissing
  | realRequired (conversion : Char) (kind : Kind)
  | integerRequired (conversion : Char) (kind : Kind)
  | characterRequired
  | mappingRequired
  | incompleteFormat
  | unknownConversion (conversion : Char) (index : Nat)
  | notFinite (text : String) (infinite : Bool)
  | unhashable (kind : Kind)
  | noLength (kind : Kind)
  | notSubscriptable (kind : Kind)
  | notIterable (kind : Kind)
  | notReversible (kind : Kind)
  /-- Joining texts when the item at an index is none. -/
  | notJoinable (index : Nat) (kind : Kind)
  | nothingToJoin
  | tooFewFields (expected got : Nat)
  | tooManyFields (expected : Nat)
  /-- A whole number with more digits than may be read (with their count) or written. -/
  | digitLimit (digits : Option Nat)
  | notWhole (text : String)
  | notReal (text : String)
  | realFrom (kind : Kind)
  | wholeFrom (kind : Kind)
  | division
  | modulo
  | floatDivision
  | floatModulo
  | negativePowerOfZero
  | integerTooLarge
  | quotientTooLarge
  | powerTooLarge
  | missingKey (key : String)
  deriving DecidableEq, Repr

/-- The families of failures that a user can tell apart. -/
inductive Category where
  | reported
  | index
  | type
  | value
  | zeroDivision
  | overflow
  | key
  /-- The machine used up its budget of steps. -/
  | stepLimit
  /-- Reading the text never ends. -/
  | endless
  deriving DecidableEq, Repr

/-- The name under which a family is shown. -/
def Category.label : Category → String
  | .reported => "Exception"
  | .index => "IndexError"
  | .type => "TypeError"
  | .value => "ValueError"
  | .zeroDivision => "ZeroDivisionError"
  | .overflow => "OverflowError"
  | .key => "KeyError"
  | .stepLimit => "StepLimit"
  | .endless => "LexerHang"

namespace Fault

def category : Fault → Category
  | .emptyPop | .noItem | .noSlot | .noCharacter => .index
  | .tooFewFields .. | .tooManyFields .. | .digitLimit .. | .notWhole .. | .notReal .. | .incompleteFormat
  | .unknownConversion .. => .value
  | .notFinite _ infinite => if infinite then .overflow else .value
  | .division | .modulo | .floatDivision | .floatModulo | .negativePowerOfZero => .zeroDivision
  | .integerTooLarge | .quotientTooLarge | .powerTooLarge => .overflow
  | .missingKey .. => .key
  | _ => .type

/-- A kind between single quotes. -/
def shown (k : Kind) : String := "'" ++ k.name ++ "'"

def message : Fault → String
  | .emptyPop => "pop from empty list"
  | .noItem => "list index out of range"
  | .noSlot => "list assignment index out of range"
  | .noCharacter => "string index out of range"
  | .unsupportedOperands op l r =>
    "unsupported operand type(s) for " ++ op ++ ": " ++ shown l ++ " and " ++ shown r
  | .incomparable op l r =>
    "'" ++ op ++ "' not supported between instances of " ++ shown l ++ " and " ++ shown r
  | .notNegatable k => "bad operand type for unary -: " ++ shown k
  | .notConcatenable s k =>
    "can only concatenate " ++ s.name ++ " (not \"" ++ k.name ++ "\") to " ++ s.name
  | .notRepeatable k => "can't multiply sequence by non-int of type " ++ shown k
  | .valuesLeftOver => "not all arguments converted during string formatting"
  | .valuesMissing => "not enough arguments for format string"
  | .realRequired c k => "%" ++ c.toString ++ " format: a real number is required, not " ++ k.name
  | .integerRequired c k => "%" ++ c.toString ++ " format: an integer is required, not " ++ k.name
  | .characterRequired => "%c requires int or char"
  | .mappingRequired => "format requires a mapping"
  | .incompleteFormat => "incomplete format"
  | .unknownConversion c i =>
    "unsupported format character '" ++ c.toString ++ "' (0x" ++
      String.ofList (Nat.toDigits 16 c.toNat) ++ ") at index " ++ String.ofList (Nat.toDigits 10 i)
  | .notFinite text _ => "cannot convert float " ++ text ++ " to integer"
  | .unhashable k => "unhashable type: " ++ shown k
  | .noLength k => "object of type " ++ shown k ++ " has no len()"
  | .notSubscriptable k => shown k ++ " object is not subscriptable"
  | .notIterable k => shown k ++ " object is not iterable"
  | .notReversible k => shown k ++ " object is not reversible"
  | .notJoinable i k =>
    "sequence item " ++ String.ofList (Nat.toDigits 10 i) ++ ": expected str instance, " ++ k.name ++ " found"
  | .nothingToJoin => "can only join an iterable"
  | .tooFewFields expected got =>
    "not enough values to unpack (expected " ++ String.ofList (Nat.toDigits 10 expected) ++ ", got " ++
      String.ofList (Nat.toDigits 10 got) ++ ")"
  | .tooManyFields expected =>
    "too many values to unpack (expected " ++ String.ofList (Nat.toDigits 10 expected) ++ ")"
  | .digitLimit none =>
    "Exceeds the limit (4300 digits) for integer string conversion; " ++
      "use sys.set_int_max_str_digits() to increase the limit"
  | .digitLimit (some n) =>
    "Exceeds the limit (4300 digits) for integer string conversion: value has " ++
      String.ofList (Nat.toDigits 10 n) ++
      " digits; use sys.set_int_max_str_digits() to increase the limit"
  | .notWhole text => "invalid literal for int() with base 10: " ++ text
  | .notReal text => "could not convert string to float: " ++ text
  | .realFrom k => "float() argument must be a string or a real number, not " ++ shown k
  | .wholeFrom k =>
    "int() argument must be a string, a bytes-like object or a real number, not " ++ shown k
  | .division => "division by zero"
  | .modulo => "integer modulo by zero"
  | .floatDivision => "float division by zero"
  | .floatModulo => "float modulo"
  | .negativePowerOfZero => "0.0 cannot be raised to a negative power"
  | .integerTooLarge => "int too large to convert to float"
  | .quotientTooLarge => "integer division result too large for a float"
  | .powerTooLarge => "(34, 'Numerical result out of range')"
  | .missingKey key => "'" ++ key ++ "'"

end Fault

end Cilly
