import Cilly.Node.Basic
import Cilly.Program.Assembly

/-!
# Compiling trees

Compilation goes over the tree twice. `register` enters the functions that are defined directly in the
program or in its blocks, so that they can be called before their definition; `visit` then emits code for
every node. A loop remembers where it starts for `continue`; the jump of a `break` keeps the operand -1.
Arguments are compiled from the last to the first, and so are the operands of `>` and `<=`, which become
the two orders that the machine knows.
-/

namespace Cilly

namespace Node

/-- How many items a node with a tag is taken apart into. -/
def arity? : String → Option Nat
  | "program" | "block" | "print" | "return" | "expr_stat" | "id" => some 2
  | "define" | "assign" | "while" | "unary" | "call" => some 3
  | "if" | "binary" => some 4
  | _ => none

/-- Taking `got` items apart into another number of them. -/
def fieldFault (expected got : Nat) : Fault :=
  if got < expected then .tooFewFields expected got else .tooManyFields expected

/-- Taking the first item of a datum. -/
def headOf (raw : Datum) : Except Fault Datum := raw.item 0

/-- The complaint about a tag that is none of a node. -/
def illegalTag (tag : Datum) : CompileError :=
  match tag with
  | .list _ => .fault (.unhashable .list)
  | tag =>
    match tag.display with
    | .ok s => .illegalNode s
    | .error f => .fault f

/-- What is wrong with a datum that is compiled as a node and is none. -/
def oddError (raw : Datum) : CompileError :=
  match headOf raw with
  | .error f => .fault f
  | .ok tag =>
    match raw, tag with
    | .list items, .text t =>
      if t = "fun" then .anonymousFunction
      else
        match arity? t with
        | some n => .fault (fieldFault n items.length)
        | none => .illegalNode t
    | _, tag => illegalTag tag

/-- What is wrong with a datum that is looked through for functions. -/
def oddRegistration (raw : Datum) : Except Fault Unit :=
  match headOf raw, raw with
  | .error f, _ => .error f
  | .ok (.text t), .list items =>
    if t = "define" then .error (fieldFault 3 items.length)
    else if t = "program" ∨ t = "block" then .error (fieldFault 2 items.length)
    else .ok ()
  | _, _ => .ok ()

/-- What is wrong with the value of a definition before it is compiled: it may be no node at all, or a
function that cannot be taken apart. -/
def oddValue (raw : Datum) : Except Fault Unit :=
  match headOf raw, raw with
  | .error f, _ => .error f
  | .ok (.text "fun"), .list items =>
    if items.length = 3 then .ok () else .error (fieldFault 3 items.length)
  | _, _ => .ok ()

/-- The parameters of a function that cannot be listed. -/
def unlistedParams? : Datum → Option Datum
  | .list [.text "fun", params, _] => some params
  | _ => none

end Node

namespace CompileM

open Node (form headOf fieldFault oddError oddRegistration oddValue unlistedParams?)

mutual

/-- Enters the functions defined directly in programs and blocks. -/
def register : Node → CompileM Unit
  | .define x value =>
    match value with
    | .function params _ => discard (addRoutine x params)
    | .odd raw => do
      ofFault (oddValue raw)
      if (unlistedParams? raw).isSome then discard (addRoutine x [])
    | _ => pure ()
  | .program body => registerAll body
  | .block body => registerAll body
  | .procedure .. => throw (.fault (.tooManyFields 3))
  | .surplus (.program _) _ => throw (.fault (.tooManyFields 2))
  | .surplus (.block _) _ => throw (.fault (.tooManyFields 2))
  | .nonSequence raw => throw (.fault (.notIterable raw.kind))
  | .odd raw => ofFault (oddRegistration raw)
  | _ => pure ()

def registerAll : List Node → CompileM Unit
  | [] => pure ()
  | n :: ns => do
    register n
    registerAll ns

end

/-- The operation of a sign in front of an operand. -/
def unaryOf? : Datum → Option UnaryOp
  | .text "-" => some .neg
  | .text "!" => some .not
  | _ => none

/-- The operation of an infix operator that takes its operands from left to right. -/
def binaryOf? : Datum → Option BinaryOp
  | .text "+" => some .add
  | .text "-" => some .sub
  | .text "*" => some .mul
  | .text "/" => some .div
  | .text "%" => some .mod
  | .text "^" => some .pow
  | .text "==" => some .eq
  | .text "!=" => some .ne
  | .text "<" => some .lt
  | .text ">=" => some .ge
  | _ => none

/-- The operation of an infix operator that takes its operands from right to left. -/
def swappedOf? : Datum → Option BinaryOp
  | .text ">" => some .lt
  | .text "<=" => some .ge
  | _ => none

/-- The instructions of `&&` and `||`: the jump that skips the right operand, and the value if it does. -/
def shortcutOf? : Datum → Option (Opcode × Opcode)
  | .text "&&" => some (.jumpFalse, .loadFalse)
  | .text "||" => some (.jumpTrue, .loadTrue)
  | _ => none

def emitLiteral (kind : LiteralKind) (fields : List Datum) : CompileM Unit :=
  match kind with
  | .null => emit .loadNull
  | .true => emit .loadTrue
  | .false => emit .loadFalse
  | .num => emitConst (form "num" fields)
  | .str => emitConst (form "str" fields)

/-- Loads what a name stands for: a function stands for its index. -/
def emitName (x : Datum) : CompileM Unit := do
  match ← lookup x with
  | .routine id => emitConst (.number (.int id))
  | place => emit2 .loadVar place.operands.1 place.operands.2

def emitAssign (x : Datum) : CompileM Unit := do
  match ← lookup x with
  | .routine _ => throw (.assignedFunction (← ofFault x.display))
  | place => emit2 .storeVar place.operands.1 place.operands.2

/-- Enters the parameters of a function into its scope. -/
def declareAll : List Datum → CompileM Unit
  | [] => pure ()
  | x :: xs => do
    discard (declare x)
    declareAll xs

/-- The function that a definition is about: the first of its name, or a new one. -/
def routineFor (x : Datum) (params : List Datum) : CompileM Nat := do
  match (← get).routineIndex? x with
  | some id => return id
  | none => addRoutine x params

/-- Ends a body that does not end in a return. -/
def emitFinalReturn : CompileM Unit := do
  let last := (← get).code.back?
  if last ≠ some Opcode.return.word ∧ last ≠ some Opcode.returnValue.word then emit .return

/-- How a call by name is compiled. -/
inductive Callee where
  | routine (id : Nat)
  | primitive (name : String)
  | none

/-- The function or primitive that a name calls; functions come first, even before variables. -/
def calleeOf (x : Datum) : CompileM Callee := do
  match (← get).routineIndex? x with
  | some id => return .routine id
  | none =>
    match ← lookup x, x with
    | .primitive _, .text name => return .primitive name
    | _, _ => return .none

/-- A call is refused with its tree as a literal. -/
def refuseCall (callee : Node) (args : List Node) : CompileM Unit := do
  let shown ← ofFault (Node.call callee args).toDatum.literal
  throw (.unsupportedCall shown)

mutual

/-- Emits the code of a node. -/
def visit : Node → CompileM Unit
  | .program body => visitBlock body
  | .block body => visitBlock body
  | .exprStat expr => do
    visit expr
    emit .pop
  | .print args => do
    visitPrinted args
    emit .printNewline
  | .literal kind fields => emitLiteral kind fields
  | .unary op operand => do
    visit operand
    match unaryOf? op with
    | some o => emit (.unary o)
    | none => throw (.illegalUnary (← ofFault op.display))
  | .binary op left right =>
    match shortcutOf? op with
    | some (skip, skipped) => do
      visit left
      let exit ← emit1 skip (-1)
      visit right
      let done ← emit1 .jump (-1)
      patchHere exit
      emit skipped
      patchHere done
    | none =>
      match swappedOf? op with
      | some o => do
        visit right
        visit left
        emit (.binary o)
      | none => do
        visit left
        visit right
        match binaryOf? op with
        | some o => emit (.binary o)
        | none => throw (.illegalBinary (← ofFault op.display))
  | .ifThen cond yes => do
    visit cond
    let skip ← emit1 .jumpFalse (-1)
    visit yes
    patchHere skip
  | .ifElse cond yes no => do
    visit cond
    let skip ← emit1 .jumpFalse (-1)
    visit yes
    let done ← emit1 .jump (-1)
    patchHere skip
    visit no
    patchHere done
  | .loop cond body => do
    let start ← nextAddress
    visit cond
    let exit ← emit1 .jumpFalse (-1)
    let outer ← get
    modify fun a => { a with breaks := #[exit], continues := #[start] }
    visit body
    discard (emit1 .jump start)
    patchHere exit
    modify fun a => { a with breaks := outer.breaks, continues := outer.continues }
  | .breakLoop => do
    if (← get).breaks.isEmpty then throw .breakOutsideLoop
    let address ← emit1 .jump (-1)
    modify fun a => { a with breaks := a.breaks.push (address + 1) }
  | .continueLoop => do
    match (← get).continues.back? with
    | none => throw .continueOutsideLoop
    | some start => discard (emit1 .jump start)
  | .define x value =>
    match value with
    | .function params body => do
      let id ← routineFor x params
      let skip ← emit1 .jump (-1)
      let entry ← nextAddress
      setEntry id entry
      let outer ← get
      modify fun a =>
        { a with current := some id, scopes := a.scopes.push #[], chain := [a.scopes.size] }
      declareAll params
      visit body
      emitFinalReturn
      modify fun a => { a with chain := outer.chain, current := outer.current }
      patchHere skip
      let index ← declare x
      emitConst (.number (.int id))
      emit2 .storeVar 0 index
    | value => do
      if let .odd raw := value then
        ofFault (oddValue raw)
        if let some params := unlistedParams? raw then throw (.fault (.notIterable params.kind))
      visit value
      let index ← declare x
      emit2 .storeVar 0 index
  | .assign x value => do
    visit value
    emitAssign x
  | .name x => emitName x
  | .function .. => throw .anonymousFunction
  | .return => do
    if (← get).current.isNone then throw .returnOutsideFunction
    emit .return
  | .returnValue value => do
    if (← get).current.isNone then throw .returnOutsideFunction
    visit value
    emit .returnValue
  | .call callee args =>
    match callee with
    | .name x => do
      match ← calleeOf x with
      | .routine id => do
        visitArguments args
        discard (emit1 .call id)
      | .primitive name => do
        visitArguments args
        let i ← addConst (.string (.text name))
        discard (emit1 .callPrimitive i)
      | .none => refuseCall callee args
    | .surplus (.name _) _ => throw (.fault (.tooManyFields 2))
    | .odd raw => do
      let tag ← ofFault (headOf raw)
      match tag, raw with
      | .text "id", .list items => throw (.fault (fieldFault 2 items.length))
      | _, _ => refuseCall callee args
    | callee => refuseCall callee args
  | .procedure .. => throw (.fault (.tooManyFields 3))
  | .statements _ => throw (.illegalNode "statements")
  | .quote _ => throw (.illegalNode "string")
  | .surplus node _ =>
    match node with
    | .breakLoop => do
      if (← get).breaks.isEmpty then throw .breakOutsideLoop
      let address ← emit1 .jump (-1)
      modify fun a => { a with breaks := a.breaks.push (address + 1) }
    | .continueLoop => do
      match (← get).continues.back? with
      | none => throw .continueOutsideLoop
      | some start => discard (emit1 .jump start)
    | .statements _ => throw (.illegalNode "statements")
    | _ => throw (.fault (.tooManyFields 2))
  | .nonSequence raw => throw (.fault (.notIterable raw.kind))
  | .odd raw => throw (oddError raw)

/-- A block is its statements between entering and leaving a scope. -/
def visitBlock (body : List Node) : CompileM Unit := do
  openScope
  let enter ← emit1 .enterScope (-1)
  visitAll body
  emit .leaveScope
  let size ← scopeSize
  patchWords enter (some (size : Int)) none
  closeScope

def visitAll : List Node → CompileM Unit
  | [] => pure ()
  | n :: ns => do
    visit n
    visitAll ns

def visitPrinted : List Node → CompileM Unit
  | [] => pure ()
  | n :: ns => do
    visit n
    emit .printItem
    visitPrinted ns

/-- Arguments from the last to the first. -/
def visitArguments : List Node → CompileM Unit
  | [] => pure ()
  | [.nonSequence raw] => throw (.fault (.notReversible raw.kind))
  | n :: ns => do
    visitArguments ns
    visit n

end

/-- Compiles a tree on top of what is already assembled. -/
def compile (node : Node) : CompileM Unit := do
  register node
  visit node

end CompileM

/-- The program that a tree compiles to, for primitives with the given names. -/
def Program.ofNode (primitives : List String) (node : Node) : Except CompileError Program :=
  match (CompileM.compile node).run.run { primitives := primitives } with
  | (.ok (), a) => .ok a.program
  | (.error e, _) => .error e

end Cilly
