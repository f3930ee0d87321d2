import Cilly.Machine.Step

/-!
# Running

A run performs the instruction at the current address as long as there is one, within a budget of steps.
What then is left on the stack is printed, and after it the statistics of the stack. A trace is the same
run, seen instruction by instruction.
-/

namespace Cilly

namespace MachineM

/-- Counts a step unless the budget is used up. -/
def countStep (budget : Nat) : MachineM Unit := do
  if budget ≤ (← get).steps then throw .stepLimit
  modify fun m => { m with steps := m.steps + 1 }

/-- Performs the instruction at the current address, and gives its word. -/
def step (budget : Nat) : MachineM Int := do
  let pc := (← get).pc
  let w ← word pc
  countStep budget
  match Opcode.ofWord? w with
  | none => refuse .illegalOpcode w
  | some op =>
    let next ← perform op pc
    modify fun m => { m with pc := next }
    return w

/-- Whether the machine has come to the end of its code. -/
def halted : MachineM Bool := do
  let m ← get
  return (m.program.code.size : Int) ≤ m.pc

/-- Steps until the end of the code; the first argument bounds the number of steps. -/
def steps (budget : Nat) : Nat → MachineM Unit
  | 0 => do
    if ← halted then return
    discard (step budget)
  | fuel + 1 => do
    if ← halted then return
    discard (step budget)
    steps budget fuel

/-- Prints what is left on the stack, from the top. -/
def drain : Nat → MachineM Unit
  | 0 => return
  | depth + 1 => do
    let v ← popPayload
    let s ← ofFault v.display
    printText (s ++ " ")
    drain depth

def leftovers : MachineM Unit := do
  let depth := (← get).stack.depth
  if depth = 0 then return
  printText "\nValues left on stack:\n"
  drain depth
  printText "\n"

end MachineM

/-- The statistics of a stack as they are printed. -/
def CountedStack.summary {α : Type} (s : CountedStack α) : String :=
  "\nStack Statistics:\n" ++
  "Push operations: " ++ Decimal.numeral s.pushes ++ "\n" ++
  "Pop operations: " ++ Decimal.numeral s.pops ++ "\n" ++
  "Current stack depth: " ++ Decimal.numeral s.depth ++ "\n" ++
  "Maximum stack depth: " ++ Decimal.numeral s.maxDepth ++ "\n"

namespace MachineM

/-- A whole run: every step, what is left, and the statistics. -/
def execute (budget : Nat) : MachineM Unit := do
  steps budget budget
  leftovers
  printText (← get).stack.summary

end MachineM

/-- An instruction of a run, and the machine after it. -/
structure TraceRow where
  pc : Int
  word : Int
  after : Machine

namespace Machine

/-- Runs and gives the outcome together with the machine as it is then. -/
def run (budget : Nat) (m : Machine) : Except MachineError Unit × Machine :=
  (MachineM.execute budget).outcome m

/-- The instructions of a run that succeed. -/
def rows (budget : Nat) : Nat → Machine → List TraceRow
  | 0, _ => []
  | fuel + 1, m =>
    if (m.program.code.size : Int) ≤ m.pc then []
    else
      match (MachineM.step budget).outcome m with
      | (.error _, _) => []
      | (.ok w, m') => ⟨m.pc, w, m'⟩ :: rows budget fuel m'

end Machine

end Cilly
