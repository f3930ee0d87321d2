import Cilly.Document.Basic
import Cilly.Number.Numeral

/-!
# Reading documents

The document that a JSON text stands for. Blanks may stand between its parts. Of two fields with one key the
later counts, at the place of the earlier. The words for NaN and infinity are numbers.

Each reader takes characters off the front and gives what it read with the rest.
-/

namespace Cilly.Document

def isSpace (c : Char) : Bool := c = ' ' || c = '\t' || c = '\n' || c = '\r'

def skip (cs : List Char) : List Char := cs.dropWhile isSpace

/-- The rest of a text after a word at its front. -/
def after? (word : List Char) (cs : List Char) : Option (List Char) :=
  if word.isPrefixOf cs then some (cs.drop word.length) else none

def hexDigit? (c : Char) : Option Nat :=
  if '0' ≤ c ∧ c ≤ '9' then some (c.toNat - '0'.toNat)
  else if 'a' ≤ c ∧ c ≤ 'f' then some (c.toNat - 'a'.toNat + 10)
  else if 'A' ≤ c ∧ c ≤ 'F' then some (c.toNat - 'A'.toNat + 10)
  else none

/-- A 16-bit unit of four hexadecimal digits. -/
def unit? : List Char → Option (Nat × List Char)
  | a :: b :: c :: d :: rest => do
    return (((← hexDigit? a) * 16 + (← hexDigit? b)) * 256 + (← hexDigit? c) * 16 + (← hexDigit? d), rest)
  | _ => none

/-- The character of an escape after its backslash. Two units make one character if they are a pair. -/
def escape? : List Char → Option (Char × List Char)
  | '"' :: rest => some ('"', rest)
  | '\\' :: rest => some ('\\', rest)
  | '/' :: rest => some ('/', rest)
  | 'b' :: rest => some ('\x08', rest)
  | 'f' :: rest => some ('\x0c', rest)
  | 'n' :: rest => some ('\n', rest)
  | 'r' :: rest => some ('\r', rest)
  | 't' :: rest => some ('\t', rest)
  | 'u' :: rest => do
    let (high, rest) ← unit? rest
    if 0xD800 ≤ high ∧ high < 0xDC00 then
      match rest with
      | '\\' :: 'u' :: more =>
        match unit? more with
        | some (low, more) =>
          if 0xDC00 ≤ low ∧ low < 0xE000 then
            some (Char.ofNat (0x10000 + (high - 0xD800) * 0x400 + (low - 0xDC00)), more)
          else some ('�', rest)
        | none => none
      | _ => some ('�', rest)
    else some (if 0xDC00 ≤ high ∧ high < 0xE000 then '�' else Char.ofNat high, rest)
  | _ => none

/-- The characters of a string after its opening quote, up to the closing one. -/
def string? : Nat → List Char → Option (List Char × List Char)
  | 0, _ => none
  | _ + 1, [] => none
  | _ + 1, '"' :: rest => some ([], rest)
  | fuel + 1, '\\' :: rest => do
    let (c, rest) ← escape? rest
    let (cs, rest) ← string? fuel rest
    return (c :: cs, rest)
  | fuel + 1, c :: rest => do
    if c.toNat < 32 then none
    let (cs, rest) ← string? fuel rest
    return (c :: cs, rest)

/-- The digits of a fraction after its point, if there is one. -/
def places (cs : List Char) : List Char × List Char :=
  match cs with
  | '.' :: rest =>
    if (rest.takeWhile Numeral.isDigit).isEmpty then ([], cs)
    else ('.' :: rest.takeWhile Numeral.isDigit, rest.dropWhile Numeral.isDigit)
  | _ => ([], cs)

/-- The exponent with its mark, if there is one. -/
def exponent (cs : List Char) : List Char × List Char :=
  match cs with
  | c :: rest =>
    let sign := if rest.head? = some '+' ∨ rest.head? = some '-' then rest.take 1 else []
    let digits := (rest.drop sign.length).takeWhile Numeral.isDigit
    if (c = 'e' ∨ c = 'E') ∧ !digits.isEmpty then
      (c :: sign ++ digits, rest.drop (sign.length + digits.length))
    else ([], cs)
  | [] => ([], cs)

/-- A number: whole unless it has a fraction or an exponent. A leading zero stands alone. -/
def number? (cs : List Char) : Option (Document × List Char) :=
  let negative := cs.head? = some '-'
  let body := if negative then cs.drop 1 else cs
  let digits :=
    match body with
    | '0' :: _ => ['0']
    | _ => body.takeWhile Numeral.isDigit
  if digits.isEmpty then none
  else
    let (fraction, rest) := places (body.drop digits.length)
    let (power, rest) := exponent rest
    if fraction.isEmpty && power.isEmpty then
      let n : Int := Numeral.digitsValue digits
      some (.whole (if negative then -n else n), rest)
    else
      (Numeral.decimal? negative (digits ++ fraction ++ power)).map fun x => (.real x, rest)

/-- The words of the format. -/
def words : List (String × Document) :=
  [("null", .null), ("true", .bool true), ("false", .bool false), ("NaN", .real (0 / 0)),
    ("Infinity", .real (1 / 0)), ("-Infinity", .real (-(1 / 0)))]

/-- A word or a number. -/
def scalar? (cs : List Char) : Option (Document × List Char) :=
  let word := words.findSome? fun (w, d) => (after? w.toList cs).map fun rest => (d, rest)
  word <|> number? cs

mutual

def value? : Nat → List Char → Option (Document × List Char)
  | 0, _ => none
  | fuel + 1, '"' :: rest => do
    let (s, rest) ← string? (fuel + 1) rest
    return (.text (String.ofList s), rest)
  | fuel + 1, '[' :: rest =>
    match skip rest with
    | ']' :: rest => some (.list [], rest)
    | rest => do
      let (ds, rest) ← items? fuel rest
      return (.list ds, rest)
  | fuel + 1, '\x7b' :: rest =>
    match skip rest with
    | '\x7d' :: rest => some (.fields [], rest)
    | rest => do
      let (es, rest) ← entries? fuel rest
      return (.fields (es.foldl (fun acc e => put e.1 e.2 acc) []), rest)
  | _ + 1, cs => scalar? cs

/-- Items up to the closing bracket. -/
def items? : Nat → List Char → Option (List Document × List Char)
  | 0, _ => none
  | fuel + 1, cs => do
    let (d, rest) ← value? fuel (skip cs)
    match skip rest with
    | ',' :: rest =>
      let (ds, rest) ← items? fuel rest
      return (d :: ds, rest)
    | ']' :: rest => return ([d], rest)
    | _ => none

/-- Fields up to the closing brace. -/
def entries? : Nat → List Char → Option (List (String × Document) × List Char)
  | 0, _ => none
  | fuel + 1, cs => do
    let '"' :: rest := skip cs | none
    let (key, rest) ← string? (fuel + 1) rest
    let ':' :: rest := skip rest | none
    let (d, rest) ← value? fuel (skip rest)
    let e := (String.ofList key, d)
    match skip rest with
    | ',' :: rest =>
      let (es, rest) ← entries? fuel rest
      return (e :: es, rest)
    | '\x7d' :: rest => return ([e], rest)
    | _ => none

end

/-- The document of a text, if it is one. -/
def ofText? (s : String) : Option Document := do
  let cs := s.toList
  let (d, rest) ← value? (2 * cs.length + 2) (skip cs)
  if (skip rest).isEmpty then some d else none

end Cilly.Document
