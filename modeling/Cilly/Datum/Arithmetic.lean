import Cilly.Datum.Template

/-!
# Arithmetic on untyped data

The operators of the language on data of every kind. Whole numbers are unbounded; truth values count as
0 and 1; a whole number meets a float as the nearest float, except in comparisons, which are exact; a
quotient is always a float, correctly rounded; the remainder has the sign of the divisor. Texts and lists
can be joined, repeated and compared.
-/

namespace Cilly

inductive UnaryOp where
  | neg
  | not
  deriving DecidableEq, Repr

inductive BinaryOp where
  | add
  | sub
  | mul
  | div
  | mod
  | pow
  | eq
  | ne
  | lt
  | ge
  deriving DecidableEq, Repr

namespace Numeric

/-- The float that stands for a number; a whole number may be too large for one. -/
def toFloat : Numeric → Except Fault Float
  | .float x => .ok x
  | .int i =>
    let x := Binary.nearestInt i
    if x.isInf then .error .integerTooLarge else .ok x

/-- Whole numbers by one rule, all else by the other, as floats. -/
def combine (whole : Int → Int → Except Fault Datum) (real : Float → Float → Except Fault Datum) :
    Numeric → Numeric → Except Fault Datum
  | .int i, .int j => whole i j
  | a, b => do
    let x ← a.toFloat
    let y ← b.toFloat
    real x y

/-- The correctly rounded quotient of two whole numbers. -/
def quotient (i j : Int) : Except Fault Datum :=
  if j = 0 then .error .division
  else
    let x := Binary.nearest ((i < 0) != (j < 0)) i.natAbs j.natAbs
    if x.isInf then .error .quotientTooLarge else .ok (.float x)

/-- The remainder with the sign of the dividend. -/
def truncatedRemainder (x y : Float) : Float :=
  match Binary.ofFloat? x, Binary.ofFloat? y with
  | some a, some b => Binary.remainder a b
  | some _, none => if y.isNaN then y else x
  | none, _ => 0 / 0

/-- The remainder with the sign of the divisor, also where it is zero. -/
def floorRemainder (x y : Float) : Except Fault Datum :=
  if y == 0 then .error .floatModulo
  else
    let r := truncatedRemainder x y
    if r == 0 then .ok (.float (if y < 0 then -0.0 else 0.0))
    else if (y < 0) != (r < 0) then .ok (.float (r + y))
    else .ok (.float r)

/-- Whether a float is an odd whole number. -/
def isOdd (x : Float) : Bool :=
  match Binary.ofFloat? x with
  | some b => b.num % b.den = 0 ∧ b.num / b.den % 2 = 1
  | none => false

/-- The power of two floats. A negative base takes whole exponents only. -/
def floatPower (x y : Float) : Except Fault Datum :=
  if y == 0 then .ok (.float 1)
  else if x.isNaN then .ok (.float x)
  else if y.isNaN then .ok (.float (if x == 1 then 1 else y))
  else if y.isInf then
    let a := x.abs
    .ok (.float (if a == 1 then 1 else if (0 < y) == (1 < a) then y.abs else 0))
  else if x.isInf then
    let odd := isOdd y
    .ok (.float (if 0 < y then (if odd then x else x.abs) else if odd ∧ x < 0 then -0.0 else 0.0))
  else if x == 0 then
    if y < 0 then .error .negativePowerOfZero
    else .ok (.float (if isOdd y then x else 0.0))
  else
    let a := x.abs
    let p := if a == 1 then (if x < 0 ∧ y.floor != y then 0 / 0 else 1)
      else if x < 0 ∧ y.floor != y then 0 / 0 else Float.pow a y
    if p.isInf then .error .powerTooLarge
    else .ok (.float (if x < 0 ∧ isOdd y then -p else p))

/-- The power of two whole numbers, a float for a negative exponent. -/
def power (i j : Int) : Except Fault Datum :=
  if 0 ≤ j then
    let magnitude : Int := (i.natAbs ^ j.toNat : Nat)
    .ok (.int (if i < 0 ∧ j % 2 = 1 then -magnitude else magnitude))
  else do
    let x ← (Numeric.int i).toFloat
    let y ← (Numeric.int j).toFloat
    floatPower x y

end Numeric

namespace Datum

/-- Both operands as numbers, or the complaint that an operator does not take their kinds. -/
def onNumbers (op : String) (rule : Numeric → Numeric → Except Fault Datum) (a b : Datum) :
    Except Fault Datum :=
  match a.numeric?, b.numeric? with
  | some x, some y => rule x y
  | _, _ => .error (.unsupportedOperands op a.kind b.kind)

def add (a b : Datum) : Except Fault Datum :=
  match a, b with
  | .text s, .text t => .ok (.text (s ++ t))
  | .list xs, .list ys => .ok (.list (xs ++ ys))
  | .text _, b => .error (.notConcatenable .text b.kind)
  | .list _, b => .error (.notConcatenable .list b.kind)
  | a, b =>
    onNumbers "+" (Numeric.combine (fun i j => .ok (.int (i + j))) fun x y => .ok (.float (x + y))) a b

def sub (a b : Datum) : Except Fault Datum :=
  onNumbers "-" (Numeric.combine (fun i j => .ok (.int (i - j))) fun x y => .ok (.float (x - y))) a b

/-- A text or list repeated, not at all if the count is negative. -/
def repeated (a : Datum) (count : Int) : Datum :=
  match a with
  | .text s => .text (String.join (List.replicate count.toNat s))
  | .list xs => .list (List.replicate count.toNat xs).flatten
  | d => d

def isSequence : Datum → Bool
  | .text _ | .list _ => true
  | _ => false

def mul (a b : Datum) : Except Fault Datum :=
  if a.isSequence then
    match b.numeric? with
    | some (.int n) => .ok (a.repeated n)
    | _ => .error (.notRepeatable b.kind)
  else if b.isSequence then
    match a.numeric? with
    | some (.int n) => .ok (b.repeated n)
    | _ => .error (.notRepeatable a.kind)
  else
    onNumbers "*" (Numeric.combine (fun i j => .ok (.int (i * j))) fun x y => .ok (.float (x * y))) a b

def div (a b : Datum) : Except Fault Datum :=
  onNumbers "/"
    (Numeric.combine Numeric.quotient fun x y =>
      if y == 0 then .error .floatDivision else .ok (.float (x / y))) a b

def mod (a b : Datum) : Except Fault Datum :=
  match a with
  | .text s => format s b
  | a =>
    onNumbers "%"
      (Numeric.combine (fun i j => if j = 0 then .error .modulo else .ok (.int (i.fmod j)))
        Numeric.floorRemainder) a b

def pow (a b : Datum) : Except Fault Datum :=
  onNumbers "** or pow()" (Numeric.combine Numeric.power Numeric.floatPower) a b

/-- The two orders that the machine asks for. -/
inductive Order where
  | lt
  | ge
  deriving DecidableEq, Repr

namespace Order

def symbol : Order → String
  | .lt => "<"
  | .ge => ">="

def numbers : Order → Numeric → Numeric → Bool
  | .lt => Numeric.lt
  | .ge => Numeric.ge

def texts : Order → String → String → Bool
  | .lt, s, t => s < t
  | .ge, s, t => !(s < t)

def lengths : Order → Nat → Nat → Bool
  | .lt, m, n => m < n
  | .ge, m, n => n ≤ m

end Order

mutual

/-- Numbers by value, texts by code points, lists by the first items that differ. -/
def compareBy (order : Order) : Datum → Datum → Except Fault Bool
  | .list xs, .list ys => compareItems order xs ys
  | .text s, .text t => .ok (order.texts s t)
  | a, b =>
    match a.numeric?, b.numeric? with
    | some x, some y => .ok (order.numbers x y)
    | _, _ => .error (.incomparable order.symbol a.kind b.kind)

def compareItems (order : Order) : List Datum → List Datum → Except Fault Bool
  | x :: xs, y :: ys => if eq x y then compareItems order xs ys else compareBy order x y
  | xs, ys => .ok (order.lengths xs.length ys.length)

end

def neg (a : Datum) : Except Fault Datum :=
  match a.numeric? with
  | some (.int i) => .ok (.int (-i))
  | some (.float x) => .ok (.float (-x))
  | none => .error (.notNegatable a.kind)

end Datum

/-- What an operator makes of two payloads, and the tag of the result. -/
def BinaryOp.apply (op : BinaryOp) (a b : Datum) : Except Fault Datum :=
  match op with
  | .add => return .tagged "num" (← a.add b)
  | .sub => return .tagged "num" (← a.sub b)
  | .mul => return .tagged "num" (← a.mul b)
  | .div => return .tagged "num" (← a.div b)
  | .mod => return .tagged "num" (← a.mod b)
  | .pow => return .tagged "num" (← a.pow b)
  | .eq => return .tagged "bool" (.bool (a.eq b))
  | .ne => return .tagged "bool" (.bool !(a.eq b))
  | .lt => return .tagged "bool" (.bool (← Datum.compareBy .lt a b))
  | .ge => return .tagged "bool" (.bool (← Datum.compareBy .ge a b))

def UnaryOp.apply (op : UnaryOp) (a : Datum) : Except Fault Datum :=
  match op with
  | .neg => return .tagged "num" (← a.neg)
  | .not => return .tagged "bool" (.bool !a.truthy)

end Cilly
