/-!
# Binary fractions

A finite floating-point number is a signed binary fraction `± m * 2^q`, and everything here is exact
arithmetic on such fractions: reading one off the bits of a `Float`, rounding a quotient of naturals to
the nearest `Float`, comparing with an integer, and the remainder of a division.
-/

namespace Cilly

/-- Powers are those of `Nat.pow`, whatever else is imported. -/
@[default_instance 20000]
instance (priority := 20000) natPower : Pow Nat Nat := ⟨Nat.pow⟩

/-- Rounds `num / den` to an integer; a half goes to the even neighbour. -/
def roundDiv (num den : Nat) : Nat :=
  let q := num / den
  let r := num % den
  if 2 * r < den then q
  else if den < 2 * r then q + 1
  else if q % 2 = 0 then q else q + 1

/-- The number `m * 2^q`, negated if `negative`. -/
structure Binary where
  negative : Bool
  m : Nat
  q : Int
  deriving DecidableEq, Repr

namespace Binary

/-- The fraction that a finite `Float` stands for; infinities and NaN have none. -/
def ofFloat? (x : Float) : Option Binary :=
  let bits := x.toBits.toNat
  let sign : Bool := bits / 2 ^ 63 = 1
  let e : Nat := bits / 2 ^ 52 % 2 ^ 11
  let f : Nat := bits % 2 ^ 52
  if e = 2047 then none
  else if e = 0 then some ⟨sign, f, -1074⟩
  else some ⟨sign, 2 ^ 52 + f, (e : Int) - 1075⟩

/-- Numerator over the denominator `den`. -/
def num (b : Binary) : Nat := b.m * 2 ^ b.q.toNat

def den (b : Binary) : Nat := 2 ^ (-b.q).toNat

/-- The exponent of the last place that a `Float` near `num / den` has: 53 bits are kept, fewer
below the normal range. -/
def lastPlace (num den : Nat) : Int :=
  let q : Int := (num.log2 : Int) - den.log2 - 52
  let q := if num * 2 ^ (-(q + 52)).toNat < den * 2 ^ (q + 52).toNat then q - 1 else q
  max q (-1074)

/-- The `Float` nearest to `num / den`, negated if `negative`; a half goes to the even neighbour, and
what lies beyond the largest finite value is infinite. -/
def nearest (negative : Bool) (num den : Nat) : Float :=
  let sign : Nat := if negative then 2 ^ 63 else 0
  if num = 0 then Float.ofBits (UInt64.ofNat sign)
  else
    let q := lastPlace num den
    let m := roundDiv (num * 2 ^ (-q).toNat) (den * 2 ^ q.toNat)
    let magnitude := min ((q + 1074).toNat * 2 ^ 52 + m) (2047 * 2 ^ 52)
    Float.ofBits (UInt64.ofNat (sign + magnitude))

/-- The `Float` nearest to an integer. -/
def nearestInt (i : Int) : Float := nearest (i < 0) i.natAbs 1

/-- The integer part, toward zero. -/
def truncate (b : Binary) : Int :=
  let n : Nat := b.num / b.den
  if b.negative then -n else n

/-- How an integer compares with the fraction. -/
def compareInt (i : Int) (b : Binary) : Ordering :=
  let n : Int := if b.negative then -b.num else b.num
  compare (i * b.den) n

/-- The remainder of the magnitudes, with the sign of the dividend. It is representable, so nothing
is rounded. -/
def remainder (a b : Binary) : Float :=
  let q := min a.q b.q
  let x := a.m * 2 ^ (a.q - q).toNat
  let y := b.m * 2 ^ (b.q - q).toNat
  let r := x % y
  nearest a.negative (r * 2 ^ q.toNat) (2 ^ (-q).toNat)

end Binary

end Cilly
