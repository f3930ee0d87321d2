import Cilly.Text.Printable

/-!
# Quoted texts

Two ways to write a text between quotes. `quoted` shows a text to a reader: single quotes unless the text
has a single quote and no double one, printable characters as they are. `escaped` writes a text for a
script: double quotes, and every character outside printable ASCII as one or two 16-bit escapes.
-/

namespace Cilly.Text

/-- Hexadecimal digits with zeros in front up to a width. -/
def hex (width n : Nat) : String :=
  let digits := Nat.toDigits 16 n
  String.ofList (List.replicate (width - digits.length) '0' ++ digits)

/-- An unprintable character by its number, in the shortest of three widths. -/
def hexEscape (c : Char) : String :=
  let n := c.toNat
  if n < 0x100 then "\\x" ++ hex 2 n
  else if n < 0x10000 then "\\u" ++ hex 4 n
  else "\\U" ++ hex 8 n

def quotedChar (quote c : Char) : String :=
  if c = quote ∨ c = '\\' then String.ofList ['\\', c]
  else if c = '\t' then "\\t"
  else if c = '\n' then "\\n"
  else if c = '\r' then "\\r"
  else if isPrintable c then c.toString
  else hexEscape c

/-- Single quotes are the rule, double ones serve a text with single quotes only. -/
def quoteMark (s : String) : Char :=
  if '\'' ∈ s.toList ∧ '"' ∉ s.toList then '"' else '\''

def quoted (s : String) : String :=
  let quote := quoteMark s
  quote.toString ++ String.join (s.toList.map (quotedChar quote)) ++ quote.toString

/-- The 16-bit units of a character. -/
def units (c : Char) : List Nat :=
  let n := c.toNat
  if n < 0x10000 then [n]
  else [0xD800 + (n - 0x10000) / 0x400, 0xDC00 + (n - 0x10000) % 0x400]

def escapedChar (c : Char) : String :=
  if c = '"' then "\\\""
  else if c = '\\' then "\\\\"
  else if c = '\n' then "\\n"
  else if c = '\r' then "\\r"
  else if c = '\t' then "\\t"
  else if c = '\x0c' then "\\f"
  else if c = '\x08' then "\\b"
  else if 32 ≤ c.toNat ∧ c.toNat < 127 then c.toString
  else String.join ((units c).map fun u => "\\u" ++ hex 4 u)

def escaped (s : String) : String :=
  "\"" ++ String.join (s.toList.map escapedChar) ++ "\""

end Cilly.Text
