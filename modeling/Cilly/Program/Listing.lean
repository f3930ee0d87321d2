import Cilly.Program.Basic

/-!
# Listings

A listing shows a program with one line per instruction: the address, the mnemonic, the operands, and in
parentheses what an operand refers to. The names of variables come from the scopes that are open at the
instruction when the code is read from front to back: entering a scope opens the next recorded one.
-/

namespace Cilly

/-- The scopes that are open at a point of the listing, outermost first, and the next one to be opened. -/
structure OpenScopes where
  names : Array (Array Datum)
  next : Nat

namespace OpenScopes

/-- The first scope is open from the start. -/
def initial (scopes : Array (Array Datum)) : OpenScopes := ⟨scopes.take 1, 1⟩

def enter (scopes : Array (Array Datum)) (s : OpenScopes) : OpenScopes :=
  match scopes[s.next]? with
  | some names => ⟨s.names.push names, s.next + 1⟩
  | none => s

/-- The outermost scope stays open. -/
def leave (s : OpenScopes) : OpenScopes := if 1 < s.names.size then { s with names := s.names.pop } else s

/-- The name of a variable so many scopes out; a place that does not exist is marked. -/
def nameAt (s : OpenScopes) (depth index : Int) : Datum :=
  match itemAt s.names (-depth - 1) with
  | .error _ => .text "Error:OOB"
  | .ok names => (itemAt names index).toOption.getD (.text "Error:OOB")

end OpenScopes

namespace Program

/-- The words after an address. -/
def operands (p : Program) (address count : Nat) : Except Fault (List Int) :=
  (List.range count).mapM fun k => itemAt p.code ((address + k + 1 : Nat) : Int)

/-- What the operands of an instruction refer to. -/
def referent (p : Program) (s : OpenScopes) : Opcode → List Int → Except Fault (Option String)
  | .loadConst, [i] => do
    let c ← itemAt p.consts i
    return some (← c.display)
  | .callPrimitive, [i] => do
    let c ← itemAt p.consts i
    let x ← c.payload
    return some (← x.display)
  | .loadVar, [depth, i] => return some (← (s.nameAt depth i).display)
  | .storeVar, [depth, i] => return some (← (s.nameAt depth i).display)
  | _, _ => return none

/-- The line of the instruction at an address. -/
def line (p : Program) (s : OpenScopes) (address : Nat) (op : Opcode) : Except Fault String := do
  let words ← p.operands address (op.size - 1)
  let note ← p.referent s op words
  let shown ← words.mapM Datum.intText
  let parts := op.mnemonic :: shown ++ (note.map fun n => "(" ++ n ++ ")").toList
  return Decimal.padded 4 address ++ "\t" ++ String.intercalate " " parts

/-- The scopes that are open after an instruction. -/
def scopesAfter (p : Program) (s : OpenScopes) : Opcode → OpenScopes
  | .enterScope => s.enter p.scopes
  | .leaveScope => s.leave
  | _ => s

/-- The lines from an address on. A word that is no operation is a line of its own. -/
def linesFrom (p : Program) (address : Nat) (s : OpenScopes) : Except Fault (List String) :=
  if h : address < p.code.size then
    match Opcode.ofWord? p.code[address] with
    | some op => do
      let head ← p.line s address op
      let tail ← linesFrom p (address + (op.size - 1) + 1) (p.scopesAfter s op)
      return head :: tail
    | none => do
      let word ← Datum.intText p.code[address]
      let tail ← linesFrom p (address + 1) s
      return (Decimal.padded 4 address ++ "\tUNKNOWN " ++ word) :: tail
  else return []
termination_by p.code.size - address

/-- The whole program, line by line. -/
def listing (p : Program) : Except Fault String := do
  let lines ← p.linesFrom 0 (.initial p.scopes)
  return String.intercalate "\n" lines

end Program

end Cilly
