import Cilly.Datum.Basic

/-!
# Data over several lines

A datum that fits on a line is written on it. A list that does not fit has each item on lines of its own,
one column further in. What closes the lists around an item has to fit behind it as well: that is the
allowance.
-/

namespace Cilly.Datum

/-- How many characters a line has. -/
def lineWidth : Nat := 80

mutual

/-- A datum that starts in column `indent` and has `allowance` characters after it. -/
def laidOut (indent allowance : Nat) : Datum → Except Fault String
  | .list items => do
    let short ← literal (.list items)
    if short.length + indent + allowance ≤ lineWidth then return short
    let inner ← laidOutItems (indent + 1) (allowance + 1) items
    return "[" ++ inner ++ "]"
  | d => literal d

def laidOutItems (indent allowance : Nat) : List Datum → Except Fault String
  | [] => return ""
  | [d] => laidOut indent allowance d
  | d :: e :: rest => do
    let head ← laidOut indent 1 d
    let tail ← laidOutItems indent allowance (e :: rest)
    return head ++ ",\n" ++ String.ofList (List.replicate indent ' ') ++ tail

end

/-- The text of a datum in a view. -/
def pretty (d : Datum) : Except Fault String := d.laidOut 0 0

end Cilly.Datum
