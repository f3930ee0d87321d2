import Cilly.Number.Binary

/-!
# Reading numbers

Numbers written in decimal: whole numbers, and real numbers with a point, an exponent, or the words for
infinity and NaN. An underscore may stand between two digits. A real number becomes the float nearest to
it.
-/

namespace Cilly.Numeral

def isDigit (c : Char) : Bool := '0' ≤ c && c ≤ '9'

/-- The number that decimal digits denote. -/
def digitsValue (digits : List Char) : Nat :=
  digits.foldl (fun n d => 10 * n + (d.toNat - '0'.toNat)) 0

/-- The text without its underscores, if each stands between two digits. -/
def ungrouped? (afterDigit : Bool) : List Char → Option (List Char)
  | [] => some []
  | '_' :: d :: rest =>
    if afterDigit && isDigit d then (ungrouped? true rest).map (d :: ·) else none
  | '_' :: [] => none
  | c :: rest => (ungrouped? (isDigit c) rest).map (c :: ·)

/-- Splits a sign off; whether it is a minus. -/
def signed : List Char → Bool × List Char
  | '-' :: rest => (true, rest)
  | '+' :: rest => (false, rest)
  | rest => (false, rest)

/-- The digits of a whole number and whether it is negative. -/
def wholeDigits? (cs : List Char) : Option (Bool × List Char) := do
  let (negative, digits) := signed (← ungrouped? false cs)
  if digits ≠ [] ∧ digits.all isDigit then some (negative, digits) else none

/-- The exponent after a mantissa: none at all, or a mark, a sign and digits. -/
def exponent? : List Char → Option Int
  | [] => some 0
  | c :: rest =>
    let (negative, digits) := signed rest
    if (c = 'e' ∨ c = 'E') ∧ digits ≠ [] ∧ digits.all isDigit then
      let n : Int := digitsValue digits
      some (if negative then -n else n)
    else none

/-- The float nearest to `digits · 10 ^ exp`. Beyond 400 places it is infinite or zero anyway. -/
def scaled (negative : Bool) (digits : List Char) (exp : Int) : Float :=
  let n := digitsValue digits
  let bounded : Int := max (-400 - digits.length) (min 400 exp)
  Binary.nearest negative (n * 10 ^ bounded.toNat) (10 ^ (-bounded).toNat)

/-- A number with an optional point and an optional exponent. -/
def decimal? (negative : Bool) (cs : List Char) : Option Float :=
  let whole := cs.takeWhile isDigit
  let (places, rest) :=
    match cs.dropWhile isDigit with
    | '.' :: rest => (rest.takeWhile isDigit, rest.dropWhile isDigit)
    | rest => ([], rest)
  if whole = [] ∧ places = [] then none
  else (exponent? rest).map fun e => scaled negative (whole ++ places) (e - places.length)

def real? (cs : List Char) : Option Float := do
  let (negative, body) := signed (← ungrouped? false cs)
  let small := body.map Char.toLower
  if small = "inf".toList ∨ small = "infinity".toList then
    some (if negative then -(1 / 0) else 1 / 0)
  else if small = "nan".toList then some (0 / 0)
  else decimal? negative body

end Cilly.Numeral
