import Cilly.Number.Decimal
import Cilly.Number.Numeral
import Cilly.Text.Quoted

/-!
# Stamps

Values that stand for themselves by a written form: dates, times, spans of time, exact numbers, paths and
identifiers. Each is brought into its normal form before it is written.
-/

namespace Cilly

inductive Stamp where
  | date (year month day : Int)
  | time (hour minute second : Int)
  | span (days seconds : Int)
  | decimal (text : String)
  | fraction (num den : Int)
  | path (text : String)
  | identifier (hex : String)
  deriving DecidableEq, Repr

namespace Stamp

def whole (i : Int) : String := (if i < 0 then "-" else "") ++ Decimal.numeral i.natAbs

def commaList (is : List Int) : String := String.intercalate ", " (is.map whole)

/-- Days and seconds, each left out if it is zero. -/
def spanText (days seconds : Int) : String :=
  let d := days + seconds.fdiv 86400
  let s := seconds.fmod 86400
  let parts := (if d = 0 then [] else ["days=" ++ whole d]) ++ (if s = 0 then [] else ["seconds=" ++ whole s])
  if parts.isEmpty then "0" else String.intercalate ", " parts

/-- Splits a decimal number into its digits and the exponent of the last one. -/
def digitsOf? (cs : List Char) : Option (List Char × Int) :=
  let front := cs.takeWhile Numeral.isDigit
  let (places, rest) :=
    match cs.dropWhile Numeral.isDigit with
    | '.' :: rest => (rest.takeWhile Numeral.isDigit, rest.dropWhile Numeral.isDigit)
    | rest => ([], rest)
  if front.isEmpty && places.isEmpty then none
  else (Numeral.exponent? rest).map fun e => (front ++ places, e - places.length)

/-- A number by its significant digits: positional unless it has a positive exponent or more than six
zeros after the point. -/
def decimalText (s : String) : String :=
  let (negative, body) := Numeral.signed s.toList
  let sign := if negative then "-" else ""
  match digitsOf? body with
  | none => s
  | some (digits, exp) =>
    let ds := Decimal.numeral (Numeral.digitsValue digits)
    let lead : Int := exp + ds.length - 1
    if exp ≤ 0 ∧ -6 ≤ lead then
      let n := (-exp).toNat
      let padded := Decimal.zeros (n + 1 - ds.length) ++ ds
      let front := String.ofList (padded.toList.take (padded.length - n))
      if n = 0 then sign ++ ds
      else sign ++ front ++ "." ++ String.ofList (padded.toList.drop (padded.length - n))
    else
      let point := if ds.length = 1 then "" else "."
      sign ++ String.ofList (ds.toList.take 1) ++ point ++ String.ofList (ds.toList.drop 1) ++ "E" ++
        (if lead < 0 then "-" else "+") ++ Decimal.numeral lead.natAbs

/-- Lowest terms, with a positive denominator. -/
def fractionText (num den : Int) : String :=
  let g : Int := Nat.gcd num.natAbs den.natAbs
  let s : Int := if den < 0 then -1 else 1
  commaList [s * num / g, s * den / g]

/-- A path without empty and idle parts. Two slashes at the front are kept, more count as one. -/
def pathText (s : String) : String :=
  let slashes := (s.toList.takeWhile (· = '/')).length
  let root := if slashes = 2 then "//" else if slashes = 0 then "" else "/"
  let parts := (s.splitOn "/").filter fun p => p ≠ "" ∧ p ≠ "."
  let joined := root ++ String.intercalate "/" parts
  if joined = "" then "." else joined

/-- Thirty-two digits in groups of 8, 4, 4, 4 and 12. -/
def identifierText (s : String) : String :=
  let cs := ((s.toList.filter fun c => c.isAlphanum)).map Char.toLower
  let group (start width : Nat) : String := String.ofList ((cs.drop start).take width)
  String.intercalate "-" [group 0 8, group 8 4, group 12 4, group 16 4, group 20 12]

/-- The written form. -/
def shown : Stamp → String
  | .date y m d => "datetime.date(" ++ commaList [y, m, d] ++ ")"
  | .time h m s => "datetime.time(" ++ commaList (if s = 0 then [h, m] else [h, m, s]) ++ ")"
  | .span d s => "datetime.timedelta(" ++ spanText d s ++ ")"
  | .decimal s => "Decimal('" ++ decimalText s ++ "')"
  | .fraction n d => "Fraction(" ++ fractionText n d ++ ")"
  | .path s => "PurePosixPath(" ++ Text.quoted (pathText s) ++ ")"
  | .identifier s => "UUID('" ++ identifierText s ++ "')"

end Stamp

end Cilly
