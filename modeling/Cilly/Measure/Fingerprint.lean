import Cilly.Datum.Basic
import Cilly.Digest
import Cilly.Measure.Stamp

/-!
# Fingerprints

The fingerprint of a result is the digest of the bytes that it is walked into. Real numbers count by their
first digits only, so that a different order of summation leaves the fingerprint alone. The entries of a
mapping are walked in the order of their keys' fingerprints, and a set by the sorted fingerprints of its
members, so neither depends on the order in which it was built. What lies too deep counts as one mark, and of
a long list only the two ends count.
-/

namespace Cilly

/-- A result that can be fingerprinted. -/
inductive Value where
  | nothing
  | truth (b : Bool)
  | whole (i : Int)
  | real (x : Float)
  | complex (re im : Float)
  | text (s : String)
  | bytes (bs : List UInt8)
  | stamp (s : Stamp)
  | list (items : List Value)
  | mapping (entries : List (Value × Value))
  | set (members : List Value)
  /-- An instance of a class with named fields. -/
  | record (fields : List (String × Value))
  /-- An instance of any other class, of which only the name counts. -/
  | foreign (name : String)
  deriving Inhabited

namespace Value

mutual

def ofDatum : Datum → Value
  | .null => .nothing
  | .bool b => .truth b
  | .int i => .whole i
  | .float x => .real x
  | .text s => .text s
  | .list xs => .list (ofItems xs)

def ofItems : List Datum → List Value
  | [] => []
  | x :: xs => ofDatum x :: ofItems xs

end

def numeric? : Value → Option Numeric
  | .truth b => some (.int (if b then 1 else 0))
  | .whole i => some (.int i)
  | .real x => some (.float x)
  | _ => none

mutual

/-- Whether two values are one as members or keys: numbers by value, the rest by their parts. -/
def same : Value → Value → Bool
  | .nothing, .nothing => true
  | .text s, .text t => s = t
  | .bytes s, .bytes t => s = t
  | .stamp s, .stamp t => s = t
  | .complex a b, .complex c d => a == c && b == d
  | .list xs, .list ys => sameItems xs ys
  | .set xs, .set ys => sameItems xs ys
  | .foreign s, .foreign t => s = t
  | a, b =>
    match a.numeric?, b.numeric? with
    | some x, some y => x.eq y
    | _, _ => false

def sameItems : List Value → List Value → Bool
  | [], [] => true
  | x :: xs, y :: ys => same x y && sameItems xs ys
  | _, _ => false

end

/-- The set of values: of members that are one, the first counts. -/
def ofMembers (vs : List Value) : Value :=
  .set (vs.foldl (fun acc v => if acc.any (same v) then acc else acc ++ [v]) [])

/-- Puts a value under a key: in place if the key is there, else at the end. -/
def insert (key value : Value) : List (Value × Value) → List (Value × Value)
  | [] => [(key, value)]
  | (k, v) :: rest => if same k key then (k, value) :: rest else (k, v) :: insert key value rest

/-- The mapping that arises entry by entry. -/
def ofEntries (es : List (Value × Value)) : Value :=
  .mapping (es.foldl (fun acc e => insert e.1 e.2 acc) [])

end Value

/-- A real number rounded to so many significant digits; zero loses its sign. -/
def significant (digits : Nat) (x : Float) : Float :=
  match Binary.ofFloat? x with
  | none => x
  | some b =>
    if b.m = 0 then 0
    else
      let places : Int := digits - Decimal.scale b.num b.den
      let unit := 10 ^ (-places).toNat
      Binary.nearest b.negative (roundDiv (b.num * 10 ^ places.toNat) (b.den * unit) * unit) (10 ^ places.toNat)

namespace Fingerprint

/-- As many digits of a real number count. -/
def digits : Nat := 6

/-- Values nested deeper count as one mark. -/
def depthBound : Nat := 8

/-- Of longer lists only the first and the last items count, half of this number at each end. -/
def listBound : Nat := 2000

def ascii (s : String) : List UInt8 := s.toUTF8.data.toList

def rounded (x : Float) : Float := significant digits x

def realBytes (x : Float) : List UInt8 := ascii (floatText (rounded x))

def sorted {α : Type} (xs : List (String × α)) : List (String × α) :=
  xs.mergeSort fun a b => !(b.1 < a.1)

/-- The walks that count of a long list. -/
def ends (walks : List (List UInt8)) : List UInt8 :=
  if walks.length ≤ listBound then walks.flatten
  else (walks.take (listBound / 2)).flatten ++ (walks.drop (walks.length - listBound / 2)).flatten

/-- A mark with the number of parts. -/
def header (mark : String) (n : Nat) : List UInt8 := ascii (mark ++ Decimal.numeral n)

mutual

/-- The bytes of a value at a depth. -/
def walk (depth : Nat) (v : Value) : List UInt8 :=
  if depthBound < depth then ascii "..."
  else
    match v with
    | .nothing => ascii "None"
    | .truth b => ascii (if b then "True" else "False")
    | .whole i => ascii (Stamp.whole i)
    | .real x => realBytes x
    | .complex re im => ascii "c" ++ realBytes re ++ realBytes im
    | .text s => ascii "s" ++ ascii s
    | .bytes bs => ascii "b" ++ bs
    | .stamp s => ascii s.shown
    | .list items => header "L" items.length ++ ends (walkItems (depth + 1) items)
    | .mapping entries =>
      header "D" entries.length ++ ((sorted (walkEntries (depth + 1) entries)).map Prod.snd).flatten
    | .set members =>
      let prints := (walkItems (depth + 1) members).map fun bs => (Digest.hex bs, ())
      header "S" members.length ++ ((sorted prints).map fun p => ascii p.1).flatten
    | .record fields =>
      if depthBound < depth + 1 then ascii "..."
      else header "D" fields.length ++ ((sorted (walkFields (depth + 2) fields)).map Prod.snd).flatten
    | .foreign name => ascii ("<" ++ name ++ ">")

def walkItems (depth : Nat) : List Value → List (List UInt8)
  | [] => []
  | v :: vs => walk depth v :: walkItems depth vs

/-- Each entry of a mapping as its bytes, under the fingerprint of its key. -/
def walkEntries (depth : Nat) : List (Value × Value) → List (String × List UInt8)
  | [] => []
  | (k, v) :: rest =>
    let key := walk depth k
    (Digest.hex key, key ++ walk depth v) :: walkEntries depth rest

/-- The same for named fields. -/
def walkFields (depth : Nat) : List (String × Value) → List (String × List UInt8)
  | [] => []
  | (name, v) :: rest =>
    let key := if depthBound < depth then ascii "..." else ascii "s" ++ ascii name
    (Digest.hex key, key ++ walk depth v) :: walkFields depth rest

end

end Fingerprint

namespace Value

def fingerprint (v : Value) : String := Digest.hex (Fingerprint.walk 0 v)

end Value

end Cilly
