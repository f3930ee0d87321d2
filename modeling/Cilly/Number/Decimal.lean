import Cilly.Number.Binary

/-!
# Decimal texts of numbers

The text of a `Float` has the fewest digits that read back to the same number, and of those the digits
nearest to it. The digits are found by trying one decimal grid after the other, in exact arithmetic.
They are laid out positionally for decimal exponents from -4 to 15 and scientifically otherwise.

A fixed number of places rounds the exact value of the binary fraction, a half to the even neighbour.
-/

namespace Cilly

/-- The number `digits * 10^exp`. -/
structure Decimal where
  digits : Nat
  exp : Int
  deriving DecidableEq, Repr

namespace Decimal

/-- Compares `a * 10^i` with `n * 2^j`. -/
def compareScaled (a : Nat) (i : Int) (n : Nat) (j : Int) : Ordering :=
  compare (a * 10 ^ i.toNat * 2 ^ (-j).toNat) (n * 2 ^ j.toNat * 10 ^ (-i).toNat)

/-- The decimal lies among the reals that round to the fraction: between the middles to its two
neighbours, the middles included if the last bit is zero. Below a power of two the lower neighbour
is nearer. -/
def ReadsBack (d : Decimal) (b : Binary) : Bool :=
  let narrow := b.m = 2 ^ 52 ∧ b.q ≠ -1074
  let lo := if narrow then 4 * b.m - 1 else 4 * b.m - 2
  let hi := 4 * b.m + 2
  let closed := b.m % 2 = 0
  let below := compareScaled d.digits d.exp lo (b.q - 2)
  let above := compareScaled d.digits d.exp hi (b.q - 2)
  (below == .gt || (closed && below == .eq)) && (above == .lt || (closed && above == .eq))

/-- The least `k` with `num / den < 10^k`, sought upward from an estimate that is not above it. -/
def scaleFrom (num den : Nat) : Nat → Int → Int
  | 0, k => k
  | fuel + 1, k =>
    if num * 10 ^ (-k).toNat < den * 10 ^ k.toNat then k else scaleFrom num den fuel (k + 1)

/-- The least `k` with `num / den < 10^k`, for a positive quotient. -/
def scale (num den : Nat) : Int :=
  let bits : Int := (num.log2 : Int) - den.log2 - 1
  scaleFrom num den 8 (bits * 30103 / 100000 - 1)

/-- The neighbour of the fraction on the grid `10^exp` that reads back, the nearer one if both do. -/
def onGrid (b : Binary) (exp : Int) : Option Decimal :=
  let num := b.num * 10 ^ (-exp).toNat
  let den := b.den * 10 ^ exp.toNat
  let lower : Decimal := ⟨num / den, exp⟩
  let upper : Decimal := ⟨num / den + 1, exp⟩
  match lower.ReadsBack b, upper.ReadsBack b with
  | true, true => some ⟨roundDiv num den, exp⟩
  | true, false => some lower
  | false, true => some upper
  | false, false => none

/-- Moves trailing zeros of the digits into the exponent. -/
def strip : Nat → Decimal → Decimal
  | 0, d => d
  | fuel + 1, d => if d.digits % 10 = 0 then strip fuel ⟨d.digits / 10, d.exp + 1⟩ else d

/-- The exact value of the fraction. -/
def exact (b : Binary) : Decimal :=
  ⟨b.num * 5 ^ (-b.q).toNat, min b.q 0⟩

/-- The shortest decimal that reads back to a fraction that is not zero. -/
def shortest (b : Binary) : Decimal :=
  let k := scale b.num b.den
  let found := (List.range 17).findSome? fun (n : Nat) => onGrid b (k - 1 - n)
  strip 400 (found.getD (exact b))

/-- Digits of a natural number, most significant first. -/
def numeral (n : Nat) : String := String.ofList (Nat.toDigits 10 n)

def zeros (n : Nat) : String := String.ofList (List.replicate n '0')

/-- Digits with zeros in front up to a width. -/
def padded (width n : Nat) : String :=
  let s := numeral n
  zeros (width - s.length) ++ s

/-- The decimal in positional or scientific layout. -/
def layout (d : Decimal) : String :=
  let s := numeral d.digits
  let lead : Int := d.exp + s.length - 1
  if -4 ≤ lead ∧ lead < 16 then
    if 0 ≤ d.exp then s ++ zeros d.exp.toNat ++ ".0"
    else if 0 ≤ lead then
      String.ofList (s.toList.take (lead.toNat + 1)) ++ "." ++ String.ofList (s.toList.drop (lead.toNat + 1))
    else "0." ++ zeros (-lead - 1).toNat ++ s
  else
    let point := if s.length = 1 then "" else "."
    String.ofList (s.toList.take 1) ++ point ++ String.ofList (s.toList.drop 1) ++ "e" ++
      (if lead < 0 then "-" else "+") ++ padded 2 lead.natAbs

end Decimal

/-- The shortest text that reads back. -/
def floatText (x : Float) : String :=
  match Binary.ofFloat? x with
  | none => if x.isNaN then "nan" else if x < 0 then "-inf" else "inf"
  | some b =>
    let sign := if b.negative then "-" else ""
    sign ++ if b.m = 0 then "0.0" else (Decimal.shortest b).layout

/-- The magnitude of the fraction in units of `10^-places`, rounded. -/
def Binary.scaled (b : Binary) (places : Nat) : Nat := roundDiv (b.num * 10 ^ places) b.den

/-- The text with a fixed number of places. -/
def floatFixed (places : Nat) (x : Float) : String :=
  match Binary.ofFloat? x with
  | none => floatText x
  | some b =>
    let n := b.scaled places
    let whole := Decimal.numeral (n / 10 ^ places)
    let sign := if b.negative then "-" else ""
    if places = 0 then sign ++ whole
    else sign ++ whole ++ "." ++ Decimal.padded places (n % 10 ^ places)

/-- The number rounded to a fixed number of places. -/
def floatRound (places : Nat) (x : Float) : Float :=
  match Binary.ofFloat? x with
  | none => x
  | some b => Binary.nearest b.negative (b.scaled places) (10 ^ places)

end Cilly
