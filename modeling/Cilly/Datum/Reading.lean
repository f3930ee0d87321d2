import Cilly.Datum.Basic
import Cilly.Number.Numeral
import Cilly.Text.Blank

/-!
# Data as numbers

Making a real or a whole number of any datum: a number is converted, a text is read, with blanks at its
ends left out.
-/

namespace Cilly.Datum

def toReal : Datum → Except Fault Float
  | .bool b => .ok (if b then 1 else 0)
  | .int i =>
    let x := Binary.nearestInt i
    if x.isInf then .error .integerTooLarge else .ok x
  | .float x => .ok x
  | .text s =>
    match Numeral.real? (Text.stripped s.toList) with
    | some x => .ok x
    | none => .error (.notReal (Text.quoted s))
  | d => .error (.realFrom d.kind)

/-- A float loses its fraction. -/
def toWhole : Datum → Except Fault Int
  | .bool b => .ok (if b then 1 else 0)
  | .int i => .ok i
  | .float x =>
    match Binary.ofFloat? x with
    | some b => .ok b.truncate
    | none => .error (if x.isNaN then .notFinite "NaN" false else .notFinite "infinity" true)
  | .text s =>
    match Numeral.wholeDigits? (Text.stripped s.toList) with
    | none => .error (.notWhole (String.ofList ((Text.quoted s).toList.take 200)))
    | some (negative, digits) =>
      if digitBound < digits.length then .error (.digitLimit (some digits.length))
      else .ok (if negative then -(Numeral.digitsValue digits) else Numeral.digitsValue digits)
  | d => .error (.wholeFrom d.kind)

end Cilly.Datum
