import Cilly.Fault
import Cilly.Number.Decimal
import Cilly.Text.Quoted

/-!
# Untyped data

Token values, constants, stack cells and tree fields are all `Datum`: nothing, a truth value, a whole
number, a floating-point number, a text, or a list of data. This module has the questions that every
stage asks of a datum: its kind, its truth, equality across the number kinds, and the two texts of it.
`display` is the text a program prints, `literal` the text inside a list, where texts are quoted.
-/

namespace Cilly

inductive Datum where
  | null
  | bool (b : Bool)
  | int (i : Int)
  | float (x : Float)
  | text (s : String)
  | list (items : List Datum)
  deriving Inhabited, Repr

/-- A number as arithmetic sees it: truth values count as 0 and 1. -/
inductive Numeric where
  | int (i : Int)
  | float (x : Float)

namespace Datum

/-- A list of a tag and a value: the shape of tokens and of values at run time. -/
def tagged (tag : String) (value : Datum) : Datum := .list [.text tag, value]

def kind : Datum → Kind
  | .null => .null
  | .bool _ => .bool
  | .int _ => .int
  | .float _ => .float
  | .text _ => .text
  | .list _ => .list

def numeric? : Datum → Option Numeric
  | .bool b => some (.int (if b then 1 else 0))
  | .int i => some (.int i)
  | .float x => some (.float x)
  | _ => none

/-- Nothing, zero, and empty texts and lists are false. -/
def truthy : Datum → Bool
  | .null => false
  | .bool b => b
  | .int i => i ≠ 0
  | .float x => x != 0
  | .text s => s ≠ ""
  | .list items => !items.isEmpty

end Datum

namespace Numeric

/-- Exact, also between the kinds; NaN equals nothing. -/
def eq : Numeric → Numeric → Bool
  | .int i, .int j => i = j
  | .float x, .float y => x == y
  | .int i, .float y => (Binary.ofFloat? y).any fun b => Binary.compareInt i b == .eq
  | .float x, .int j => (Binary.ofFloat? x).any fun b => Binary.compareInt j b == .eq

/-- How an integer compares with a float, if at all. -/
def compareFloat? (i : Int) (y : Float) : Option Ordering :=
  match Binary.ofFloat? y with
  | some b => some (Binary.compareInt i b)
  | none => if y.isNaN then none else some (if y < 0 then .gt else .lt)

def lt : Numeric → Numeric → Bool
  | .int i, .int j => i < j
  | .float x, .float y => x < y
  | .int i, .float y => compareFloat? i y == some .lt
  | .float x, .int j => compareFloat? j x == some .gt

def ge : Numeric → Numeric → Bool
  | .int i, .int j => j ≤ i
  | .float x, .float y => y ≤ x
  | .int i, .float y => compareFloat? i y == some .gt || compareFloat? i y == some .eq
  | .float x, .int j => compareFloat? j x == some .lt || compareFloat? j x == some .eq

end Numeric

namespace Datum

/-- Equality of scalars: numbers by value, whatever their kind. -/
def scalarEq : Datum → Datum → Bool
  | .null, .null => true
  | .text s, .text t => s = t
  | a, b =>
    match a.numeric?, b.numeric? with
    | some x, some y => x.eq y
    | _, _ => false

mutual

/-- Equality by value: numbers across their kinds, lists item by item. -/
def eq : Datum → Datum → Bool
  | .list xs, .list ys => eqItems xs ys
  | a, b => scalarEq a b

def eqItems : List Datum → List Datum → Bool
  | [], [] => true
  | x :: xs, y :: ys => eq x y && eqItems xs ys
  | _, _ => false

end

/-- Whole numbers with more digits are not written. -/
def digitBound : Nat := 4300

def intText (i : Int) : Except Fault String :=
  if 10 ^ digitBound ≤ i.natAbs then .error (.digitLimit none)
  else .ok ((if i < 0 then "-" else "") ++ Decimal.numeral i.natAbs)

mutual

/-- The text of a datum inside a list. -/
def literal : Datum → Except Fault String
  | .null => .ok "None"
  | .bool b => .ok (if b then "True" else "False")
  | .int i => intText i
  | .float x => .ok (floatText x)
  | .text s => .ok (Text.quoted s)
  | .list items => do
    let parts ← literalItems items
    return "[" ++ String.intercalate ", " parts ++ "]"

def literalItems : List Datum → Except Fault (List String)
  | [] => .ok []
  | x :: xs => do
    let head ← literal x
    let tail ← literalItems xs
    return head :: tail

end

/-- The text a datum is printed as: as inside a list, but a text stands for itself. -/
def display : Datum → Except Fault String
  | .text s => .ok s
  | d => literal d

mutual

/-- The text of a datum in a script: truth values in lower case, texts in double quotes. -/
def scripted : Datum → Except Fault String
  | .null => .ok "null"
  | .bool b => .ok (if b then "true" else "false")
  | .int i => intText i
  | .float x =>
    .ok (if x.isNaN then "NaN" else if x.isInf then (if x < 0 then "-Infinity" else "Infinity")
      else floatText x)
  | .text s => .ok (Text.escaped s)
  | .list items => do
    let parts ← scriptedItems items
    return "[" ++ String.intercalate ", " parts ++ "]"

def scriptedItems : List Datum → Except Fault (List String)
  | [] => .ok []
  | x :: xs => do
    let head ← scripted x
    let tail ← scriptedItems xs
    return head :: tail

end

/-- The position an offset names in `n` places: from the front if it is not negative, else from the
back. -/
def position? (n : Nat) (offset : Int) : Option Nat :=
  let i := if offset < 0 then offset + n else offset
  if 0 ≤ i ∧ i < n then some i.toNat else none

/-- The item at an offset of a list or text. -/
def item (d : Datum) (offset : Int) : Except Fault Datum :=
  match d with
  | .list items =>
    match (position? items.length offset).bind (items[·]?) with
    | some x => .ok x
    | none => .error .noItem
  | .text s =>
    match (position? s.length offset).bind (s.toList[·]?) with
    | some c => .ok (.text c.toString)
    | none => .error .noCharacter
  | d => .error (.notSubscriptable d.kind)

/-- The payload of a value at run time: its second item. -/
def payload (d : Datum) : Except Fault Datum := d.item 1

/-- The items that iteration over a datum gives. -/
def items? : Datum → Option (List Datum)
  | .list items => some items
  | .text s => some (s.toList.map fun c => .text c.toString)
  | _ => none

end Datum

end Cilly
