import Cilly.Datum.Basic

/-!
# Values at run time

A value at run time is a datum with a tag in front of it. The tag says how the value came about; what a
program prints and computes with is the payload.
-/

namespace Cilly.Datum

def number (d : Datum) : Datum := tagged "num" d

def string (d : Datum) : Datum := tagged "str" d

def yes : Datum := tagged "bool" (.bool true)

def no : Datum := tagged "bool" (.bool false)

/-- The truth value that a datum stands for. -/
def truth (d : Datum) : Datum := if d.truthy then yes else no

def nothing : Datum := tagged "null" .null

/-- A function as a value: its parameters, body and surroundings. -/
def procedure (params body surroundings : Datum) : Datum := .list [.text "proc", params, body, surroundings]

/-- A function that is provided from outside. -/
def primitive (f : Datum) : Datum := tagged "primitive" f

/-- The text of an error: who reports it, and what. -/
def report (source what : Datum) : Except Fault String := do
  return (← source.display) ++ " : " ++ (← what.display)

@[simp] theorem payload_tagged (tag : String) (d : Datum) : (tagged tag d).payload = .ok d := rfl

end Cilly.Datum
