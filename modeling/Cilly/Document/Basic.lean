import Cilly.Number.Decimal
import Cilly.Text.Quoted

/-!
# Documents

A document is JSON data whose fields keep their order. Whole and real numbers are told apart, and a real
number is written with the fewest digits that read back.
-/

namespace Cilly

inductive Document where
  | null
  | bool (b : Bool)
  | whole (i : Int)
  | real (x : Float)
  | text (s : String)
  | list (items : List Document)
  | fields (entries : List (String × Document))
  deriving Inhabited

namespace Document

def wholeText (i : Int) : String := (if i < 0 then "-" else "") ++ Decimal.numeral i.natAbs

def realText (x : Float) : String :=
  if x.isNaN then "NaN" else if x.isInf then (if x < 0 then "-Infinity" else "Infinity") else floatText x

mutual

/-- The text of a document, on one line and in ASCII. -/
def render : Document → String
  | .null => "null"
  | .bool b => if b then "true" else "false"
  | .whole i => wholeText i
  | .real x => realText x
  | .text s => Text.escaped s
  | .list items => "[" ++ String.intercalate ", " (renderItems items) ++ "]"
  | .fields entries => "\x7b" ++ String.intercalate ", " (renderEntries entries) ++ "\x7d"

def renderItems : List Document → List String
  | [] => []
  | d :: rest => render d :: renderItems rest

def renderEntries : List (String × Document) → List String
  | [] => []
  | (key, d) :: rest => (Text.escaped key ++ ": " ++ render d) :: renderEntries rest

end

/-- Puts a value under a key: in place if the key is there, else at the end. -/
def put {α : Type} (key : String) (value : α) : List (String × α) → List (String × α)
  | [] => [(key, value)]
  | (k, v) :: rest => if k = key then (k, value) :: rest else (k, v) :: put key value rest

/-- The fields of a document; other documents have none. -/
def entries : Document → List (String × Document)
  | .fields es => es
  | _ => []

/-- The items of a document; other documents have none. -/
def items : Document → List Document
  | .list ds => ds
  | _ => []

/-- The value under a key, or null. -/
def get (d : Document) (key : String) : Document := (d.entries.lookup key).getD .null

/-- The document with a value under a key. -/
def set (d : Document) (key : String) (value : Document) : Document := .fields (put key value d.entries)

theorem keys_put {α : Type} (key : String) (value : α) (es : List (String × α)) :
    (put key value es).map Prod.fst =
      if key ∈ es.map Prod.fst then es.map Prod.fst else es.map Prod.fst ++ [key] := by
  induction es with
  | nil => simp [put]
  | cons e rest ih =>
    obtain ⟨k, v⟩ := e
    by_cases h : k = key
    · simp [put, h]
    · have h' : ¬ key = k := fun e => h e.symm
      by_cases m : key ∈ rest.map Prod.fst <;> simp_all [put]

end Document

end Cilly
