import Cilly.Datum.Basic

/-!
# Format templates

A text on the left of a remainder is a template: each conversion in it, introduced by a percent sign, takes
a value and writes it. A single datum is the only value; a conversion may carry flags, a width and a
precision.
-/

namespace Cilly

/-- One conversion of a template. -/
structure Conversion where
  leftAlign : Bool := false
  plus : Bool := false
  blank : Bool := false
  alternate : Bool := false
  zero : Bool := false
  width : Nat := 0
  precision : Option Nat := none
  letter : Char

namespace Conversion

/-- Flags in any order in front of the width. -/
def takeFlags (c : Conversion) : List Char → Conversion × List Char
  | '-' :: cs => takeFlags { c with leftAlign := true } cs
  | '+' :: cs => takeFlags { c with plus := true } cs
  | ' ' :: cs => takeFlags { c with blank := true } cs
  | '#' :: cs => takeFlags { c with alternate := true } cs
  | '0' :: cs => takeFlags { c with zero := true } cs
  | cs => (c, cs)

def number (digits : List Char) : Nat :=
  digits.foldl (fun n d => 10 * n + (d.toNat - '0'.toNat)) 0

def takeWidth (c : Conversion) (cs : List Char) : Conversion × List Char :=
  ({ c with width := number (cs.takeWhile Char.isDigit) }, cs.dropWhile Char.isDigit)

def takePrecision (c : Conversion) : List Char → Conversion × List Char
  | '.' :: cs =>
    ({ c with precision := some (number (cs.takeWhile Char.isDigit)) }, cs.dropWhile Char.isDigit)
  | cs => (c, cs)

/-- A size letter is allowed and means nothing. -/
def skipSize : List Char → List Char
  | 'h' :: cs | 'l' :: cs | 'L' :: cs => cs
  | cs => cs

/-- The conversion after a percent sign and the text after it. -/
def read (cs : List Char) : Except Fault (Conversion × List Char) :=
  let (c, cs) := takeFlags { letter := '%' } cs
  let (c, cs) := c.takeWidth cs
  let (c, cs) := c.takePrecision cs
  match skipSize cs with
  | [] => .error .incompleteFormat
  | letter :: cs => .ok ({ c with letter := letter }, cs)

theorem length_takeFlags (c : Conversion) (cs : List Char) :
    (c.takeFlags cs).2.length ≤ cs.length := by
  fun_induction takeFlags c cs <;> simp_all <;> omega

theorem length_takeWidth (c : Conversion) (cs : List Char) :
    (c.takeWidth cs).2.length ≤ cs.length :=
  (List.dropWhile_sublist Char.isDigit).length_le

theorem length_takePrecision (c : Conversion) (cs : List Char) :
    (c.takePrecision cs).2.length ≤ cs.length := by
  unfold takePrecision
  split
  · rename_i rest
    have := (List.dropWhile_sublist Char.isDigit (l := rest)).length_le
    simp; omega
  · exact Nat.le_refl _

theorem length_skipSize (cs : List Char) : (skipSize cs).length ≤ cs.length := by
  unfold skipSize
  split <;> simp

/-- Reading a conversion consumes at least its letter. -/
theorem length_read {cs rest : List Char} {c : Conversion} (h : read cs = .ok (c, rest)) :
    rest.length < cs.length := by
  have h1 := length_takeFlags { letter := '%' } cs
  have h2 := length_takeWidth (takeFlags { letter := '%' } cs).1 (takeFlags { letter := '%' } cs).2
  simp only [read] at h
  generalize takeFlags { letter := '%' } cs = p at *
  have h3 := length_takePrecision (p.1.takeWidth p.2).1 (p.1.takeWidth p.2).2
  generalize p.1.takeWidth p.2 = w at *
  have h4 := length_skipSize (w.1.takePrecision w.2).2
  split at h
  · contradiction
  · rename_i heq
    simp only [Except.ok.injEq, Prod.mk.injEq] at h
    obtain ⟨-, rfl⟩ := h
    rw [heq] at h4
    simp at h4
    omega

/-- Fills up to the width, with zeros between sign and digits if asked for. -/
def pad (c : Conversion) (numeric : Bool) (sign body : String) : String :=
  let fill := c.width - (sign.length + body.length)
  if c.leftAlign then sign ++ body ++ String.ofList (List.replicate fill ' ')
  else if numeric ∧ c.zero then sign ++ String.ofList (List.replicate fill '0') ++ body
  else String.ofList (List.replicate fill ' ') ++ sign ++ body

def signOf (c : Conversion) (negative : Bool) : String :=
  if negative then "-" else if c.plus then "+" else if c.blank then " " else ""

/-- A whole number in a base. -/
def whole (c : Conversion) (base : Nat) (mark : String) (upper : Bool) (i : Int) : String :=
  let digits := Nat.toDigits base i.natAbs
  let digits := if upper then digits.map Char.toUpper else digits
  let zeros := List.replicate ((c.precision.getD 0) - digits.length) '0'
  c.pad true (c.signOf (i < 0) ++ if c.alternate then mark else "") (String.ofList (zeros ++ digits))

/-- The whole number that a decimal conversion writes; a float loses its fraction. -/
def wholeValue (c : Conversion) (d : Datum) : Except Fault Int :=
  match d.numeric? with
  | some (.int i) => .ok i
  | some (.float x) =>
    match Binary.ofFloat? x with
    | some b => .ok b.truncate
    | none => .error (if x.isNaN then .notFinite "NaN" false else .notFinite "infinity" true)
  | none => .error (.realRequired c.letter d.kind)

def indexValue (c : Conversion) (d : Datum) : Except Fault Int :=
  match d.numeric? with
  | some (.int i) => .ok i
  | _ => .error (.integerRequired c.letter d.kind)

/-- The value written by the conversion that stands at an index of the template. -/
def apply (c : Conversion) (index : Nat) (d : Datum) : Except Fault String := do
  match c.letter with
  | 's' =>
    let s ← d.display
    return c.pad false "" (match c.precision with | some n => String.ofList (s.toList.take n) | none => s)
  | 'r' =>
    let s ← d.literal
    return c.pad false "" (match c.precision with | some n => String.ofList (s.toList.take n) | none => s)
  | 'd' | 'i' | 'u' =>
    let i ← c.wholeValue d
    let _ ← Datum.intText i
    return c.whole 10 "" false i
  | 'x' => return c.whole 16 "0x" false (← c.indexValue d)
  | 'X' => return c.whole 16 "0X" true (← c.indexValue d)
  | 'o' => return c.whole 8 "0o" false (← c.indexValue d)
  | 'f' | 'F' =>
    match d.numeric? with
    | some n =>
      let x := match n with
        | .int i => Binary.nearestInt i
        | .float x => x
      let s := floatFixed (c.precision.getD 6) x
      let negative := s.startsWith "-"
      return c.pad true (c.signOf negative) (if negative then (s.drop 1).toString else s)
    | none => .error (.realRequired c.letter d.kind)
  | 'c' =>
    match d with
    | .int i => return c.pad false "" (Char.ofNat i.toNat).toString
    | .text s => if s.length = 1 then return c.pad false "" s else .error .characterRequired
    | _ => .error .characterRequired
  | letter => .error (.unknownConversion letter index)

end Conversion

namespace Template

/-- Fills the template `cs`, of whose text `done` characters are already read; `value` is taken by the
first conversion. Gives the text and the value if it is still there. -/
def fill (value : Option Datum) (done : Nat) (cs : List Char) : Except Fault (String × Option Datum) :=
  match cs with
  | [] => .ok ("", value)
  | '%' :: '%' :: cs' => do
    let (s, v) ← fill value (done + 2) cs'
    return ("%" ++ s, v)
  | '%' :: '(' :: _ => .error .mappingRequired
  | '%' :: cs' =>
    match hr : Conversion.read cs' with
    | .error e => .error e
    | .ok (c, rest) =>
      have := Conversion.length_read hr
      let next := done + 1 + (cs'.length - rest.length)
      match value with
      | none => .error .valuesMissing
      | some d => do
        let shown ← c.apply (next - 1) d
        let (s, v) ← fill none next rest
        return (shown ++ s, v)
  | c :: cs' => do
    let (s, v) ← fill value (done + 1) cs'
    return (c.toString ++ s, v)
termination_by cs.length
decreasing_by all_goals simp_wf <;> omega

end Template

/-- A template filled with one value, which must be used; a list may stay unused. -/
def Datum.format (template : String) (value : Datum) : Except Fault Datum := do
  let (s, left) ← Template.fill (some value) 0 template.toList
  match left, value with
  | some _, .list _ => return .text s
  | some _, _ => .error .valuesLeftOver
  | none, _ => return .text s

end Cilly
