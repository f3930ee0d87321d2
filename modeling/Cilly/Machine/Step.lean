import Cilly.Datum.Reading
import Cilly.Machine.Basic

/-!
# Instructions

What each instruction does to the machine. Each definition takes the address of the instruction and gives
the address to go on with.
-/

namespace Cilly

/-- How many arguments a signal takes from the stack. -/
def Signal.arity : String → Nat
  | "forward" | "backward" | "left" | "right" | "pencolor" | "pensize" | "speed" => 1
  | _ => 0

namespace MachineM

def loadConst (pc : Int) : MachineM Int := do
  let i ← word (pc + 1)
  let v ← ofFault (itemAt (← get).program.consts i)
  push v
  return pc + 2

def loadNull (pc : Int) : MachineM Int := do
  push .nothing
  return pc + 1

def loadTrue (pc : Int) : MachineM Int := do
  push .yes
  return pc + 1

def loadFalse (pc : Int) : MachineM Int := do
  push .no
  return pc + 1

def loadVar (pc : Int) : MachineM Int := do
  let depth ← word (pc + 1)
  let id ← scopeAt depth
  let cells := (← get).store.getD id #[]
  let i ← word (pc + 2)
  if (cells.size : Int) ≤ i then refuse .indexOutOfRange i
  let v ← ofFault (itemAt cells i)
  push v
  return pc + 3

/-- A scope that is too short for the variable is made longer first. -/
def storeVar (pc : Int) : MachineM Int := do
  let depth ← word (pc + 1)
  let id ← scopeAt depth
  let i ← word (pc + 2)
  modify fun m =>
    { m with store := m.store.modify id fun cells => cells ++ Array.replicate (i + 1 - cells.size).toNat .nothing }
  let v ← pop
  match Datum.position? ((← get).store.getD id #[]).size i with
  | some k => modify fun m => { m with store := m.store.modify id fun cells => cells.setIfInBounds k v }
  | none => throw (.fault .noSlot)
  return pc + 3

def enterScope (pc : Int) : MachineM Int := do
  let count ← word (pc + 1)
  openScope (Array.replicate count.toNat .nothing)
  return pc + 2

def leaveScope (pc : Int) : MachineM Int := do
  match (← get).chain with
  | [] => throw (.fault .emptyPop)
  | _ :: outer => modify fun m => { m with chain := outer }
  return pc + 1

def printItem (pc : Int) : MachineM Int := do
  let v ← popPayload
  let s ← ofFault v.display
  printText (s ++ " ")
  return pc + 1

def printNewline (pc : Int) : MachineM Int := do
  printText "\n"
  return pc + 1

def popItem (pc : Int) : MachineM Int := do
  discard pop
  return pc + 1

def jump (pc : Int) : MachineM Int := word (pc + 1)

/-- Jumps if the value on top equals the given one. -/
def jumpOn (expected : Datum) (pc : Int) : MachineM Int := do
  let target ← word (pc + 1)
  let v ← pop
  return if v.eq expected then target else pc + 2

def jumpTrue : Int → MachineM Int := jumpOn .yes

def jumpFalse : Int → MachineM Int := jumpOn .no

def applyUnary (pc : Int) : MachineM Int := do
  let v ← popPayload
  let w ← word pc
  match Opcode.ofWord? w with
  | some (.unary op) => push (← ofFault (op.apply v))
  | _ => refuse .notUnary w
  return pc + 1

def applyBinary (pc : Int) : MachineM Int := do
  let right ← popPayload
  let left ← popPayload
  let w ← word pc
  match Opcode.ofWord? w with
  | some (.binary op) => push (← ofFault (op.apply left right))
  | _ => refuse .notBinary w
  return pc + 1

/-- Lists stand in no set of names. -/
def checkNames (names : List Datum) : Except Fault Unit :=
  if names.any fun x => x.kind = .list then .error (.unhashable .list) else .ok ()

/-- The same names, whatever their order and number. -/
def sameNames (xs ys : List Datum) : Bool :=
  (xs.all fun x => ys.any (Datum.eq x)) && (ys.all fun y => xs.any (Datum.eq y))

/-- How many cells the first scope with the names of the parameters has. -/
def frameSize (params : List Datum) : List (Array Datum) → Except Fault Nat
  | [] => .error (.noLength .null)
  | names :: rest => do
    checkNames names.toList
    checkNames params
    if sameNames names.toList params then return names.size else frameSize params rest

/-- Takes the arguments off the stack; the first parameter gets the value on top. -/
def takeArguments (size : Nat) : (count : Nat) → MachineM (Array Datum)
  | 0 => return Array.replicate size .nothing
  | count + 1 => do
    let cells ← takeArguments size count
    let v ← pop
    if count < size then return cells.setIfInBounds count v else throw (.fault .noSlot)

def callRoutine (pc : Int) : MachineM Int := do
  let id ← word (pc + 1)
  let m ← get
  if (m.program.routines.size : Int) ≤ id then refuse .noRoutine id
  let routine ← ofFault (itemAt m.program.routines id)
  let size ← ofFault (frameSize routine.params m.names.toList)
  let cells ← takeArguments size routine.params.length
  modify fun m => { m with frames := ⟨pc + 2, m.chain⟩ :: m.frames }
  openScope cells
  match routine.entry with
  | some entry => return entry
  | none => throw (.fault (.missingKey "entry_point"))

/-- Goes back to the innermost call with a result. -/
def goBack (result : Datum) : MachineM Int := do
  match (← get).frames with
  | [] => throw .noCaller
  | frame :: outer =>
    modify fun m => { m with frames := outer, chain := frame.chain }
    push result
    return frame.back

def returnNothing (_ : Int) : MachineM Int := goBack .nothing

def returnValue (_ : Int) : MachineM Int := do
  if (← get).frames.isEmpty then throw .noCaller
  let v ← pop
  goBack v

def popArguments : Nat → MachineM (List Datum)
  | 0 => return []
  | n + 1 => do
    let v ← popPayload
    let rest ← popArguments n
    return rest ++ [v]

/-- The signal with a name. -/
def signalFor (x : Datum) : MachineM Signal := do
  if x.kind = .list then throw (.fault (.unhashable .list))
  match (← get).signals.find? fun s => (Datum.text s.name).eq x with
  | some s => return s
  | none => throw (.unknownSignal (← ofFault x.display))

/-- The arguments of a signal as they are sent. -/
def Signal.prepare (s : Signal) (args : List Datum) : Except Fault (List Datum) :=
  if s.real then args.mapM fun a => Datum.float <$> a.toReal else .ok args

def callSignal (pc : Int) : MachineM Int := do
  let i ← word (pc + 1)
  let c ← ofFault (itemAt (← get).program.consts i)
  let s ← signalFor (← ofFault c.payload)
  let args ← popArguments (Signal.arity s.name)
  let sent ← ofFault (Signal.prepare s args)
  modify fun m => { m with log := m.log.push (s.name, sent) }
  push .nothing
  return pc + 2

/-- The effect of the instruction with an operation at an address. -/
def perform : Opcode → Int → MachineM Int
  | .loadConst => loadConst
  | .loadNull => loadNull
  | .loadTrue => loadTrue
  | .loadFalse => loadFalse
  | .loadVar => loadVar
  | .storeVar => storeVar
  | .printItem => printItem
  | .printNewline => printNewline
  | .jump => jump
  | .jumpTrue => jumpTrue
  | .jumpFalse => jumpFalse
  | .pop => popItem
  | .enterScope => enterScope
  | .leaveScope => leaveScope
  | .call => callRoutine
  | .return => returnNothing
  | .returnValue => returnValue
  | .callPrimitive => callSignal
  | .unary _ => applyUnary
  | .binary _ => applyBinary

end MachineM

end Cilly
