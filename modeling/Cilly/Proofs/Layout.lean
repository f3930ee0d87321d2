import Cilly.Program.Compile

/-!
# The layout of compiled code

Compilation emits an operand before it is known and patches it later, so nothing it does shows the code
that comes out. Here the code is laid out directly. A `Point` is all that the layout of a statement
depends on: the next address, and what names stand for there, which is all that expressions need. `next` is
the point after a statement, and `statement` lists its instructions with their addresses, every target
already known.

What is not compiled, such as a name that stands for nothing, is laid out as an instruction that is
`refused`: no code has one, so that code which follows a layout is code of a tree that compiles.

Each instruction comes with what lies around it, innermost first: blocks, loops with their first address
and the address after them, and functions. `loose` stands in front where a statement has just ended that
may have left scopes open; nothing is known there about how many.
-/

namespace Cilly

/-- What names stand for at some place of a program. -/
structure Names where
  /-- The names of the open scopes, innermost first. -/
  visible : List (Array Datum)
  routines : Array Routine

namespace Names

variable (c : Names)

def routineIndex? (x : Datum) : Option Nat := c.routines.findIdx? fun r => r.name.eq x

/-- What a name refers to: variables come first, then functions, then primitives. -/
def place? (primitives : List String) (x : Datum) : Option Place :=
  match Assembly.find? x c.visible with
  | some (depth, i) => some (.variable depth i)
  | none =>
    match c.routineIndex? x with
    | some i => some (.routine i)
    | none => (primitives.findIdx? fun p => (Datum.text p).eq x).map .primitive

/-- The names of the innermost scope. -/
def innermost : Array Datum := c.visible.headD #[]

/-- The index that the next variable of the innermost scope gets. -/
def slot : Nat := c.innermost.size

/-- The index of the function that a definition is about. -/
def routineFor (x : Datum) : Nat := (c.routineIndex? x).getD c.routines.size

/-- The table with a function of that name in it, whose entry is known now. -/
def define (x : Datum) (params : List Datum) (entry : Nat) : Array Routine :=
  let known :=
    match c.routineIndex? x with
    | some _ => c.routines
    | none => c.routines.push ⟨x, params, some (-1)⟩
  known.modify (c.routineFor x) fun r => { r with entry := some (entry : Int) }

end Names

/-- Where compilation stands. -/
structure Point extends Names where
  here : Nat

namespace Point

variable (s : Point)

def skip (n : Nat) : Point := { s with here := s.here + n }

/-- A variable more in the innermost scope. -/
def declare (x : Datum) : Point :=
  match s.visible with
  | [] => s
  | names :: outer => { s with visible := names.push x :: outer }

/-- Inside a block that starts here. -/
def inBlock : Point := { s with here := s.here + 2, visible := #[] :: s.visible }

/-- Inside the function that is defined here. -/
def inFunction (x : Datum) (params : List Datum) : Point :=
  { here := s.here + 2, visible := [params.toArray], routines := s.define x params (s.here + 2) }

@[simp] theorem skip_here (n : Nat) : (s.skip n).here = s.here + n := rfl

@[simp] theorem skip_toNames (n : Nat) : (s.skip n).toNames = s.toNames := rfl

@[simp] theorem skip_skip (m n : Nat) : (s.skip m).skip n = s.skip (m + n) := by
  simp [skip, Nat.add_assoc]

@[simp] theorem declare_here (x : Datum) : (s.declare x).here = s.here := by
  unfold declare
  cases s.visible <;> rfl

@[simp] theorem declare_routines (x : Datum) : (s.declare x).routines = s.routines := by
  unfold declare
  cases s.visible <;> rfl

theorem declare_skip (x : Datum) (n : Nat) : (s.declare x).skip n = (s.skip n).declare x := by
  unfold declare skip
  cases s.visible <;> rfl

end Point

/-- What lies around an instruction. -/
inductive Mark where
  | block
  /-- A statement has ended. -/
  | loose
  | loop (start stop : Nat)
  | function
  deriving DecidableEq, Repr

/-- The first and the last address of the innermost loop, whichever function it is in. -/
def innermost? : List Mark → Option (Nat × Nat)
  | [] => none
  | .loop start stop :: _ => some (start, stop)
  | _ :: shape => innermost? shape

/-- Operations without operands that only touch the stack and the output. -/
def Opcode.isPlain : Opcode → Bool
  | .loadNull | .loadTrue | .loadFalse | .printItem | .printNewline | .pop | .unary _ | .binary _ => true
  | _ => false

/-- Jumps on `true` or on `false`. -/
def Opcode.isBranch : Opcode → Bool
  | .jumpTrue | .jumpFalse => true
  | _ => false

/-- Instructions whose operands are known. -/
inductive Instr where
  | const (c : Datum)
  | plain (op : Opcode)
  | load (depth index : Int)
  | store (depth index : Int)
  | jump (target : Nat)
  | branch (op : Opcode) (target : Nat)
  /-- The jump of a `break`. -/
  | breakLoop
  /-- The jump of a `continue`. -/
  | continueLoop (target : Nat)
  | enter (count : Nat)
  | leave
  | call (id : Nat)
  | primitive (name : Datum)
  | return
  | returnValue
  /-- What is not compiled. -/
  | refused

/-- The constant that an instruction refers to. -/
def Instr.constant? : Instr → Option Datum
  | .const c => some c
  | .primitive x => some (.string x)
  | _ => none

structure Spot where
  address : Nat
  instr : Instr
  shape : List Mark

namespace Names

variable (c : Names)

/-- What loads a name: a function stands for its index. -/
def loading (primitives : List String) (x : Datum) : Instr :=
  match c.place? primitives x with
  | some (.routine id) => .const (.number (.int id))
  | some place => .load place.operands.1 place.operands.2
  | none => .refused

/-- What gives a variable its first value. -/
def storing (x : Datum) : Instr :=
  match nameIndex? c.innermost x with
  | none => .store 0 c.slot
  | some _ => .refused

/-- What gives a variable another value. -/
def assigning (primitives : List String) (x : Datum) : Instr :=
  match c.place? primitives x with
  | some (.routine _) | none => .refused
  | some place => .store place.operands.1 place.operands.2

/-- What calls a function or primitive. Functions come first, even before variables. -/
def calling (primitives : List String) : Node → Instr
  | .name x =>
    match c.routineIndex? x with
    | some id => .call id
    | none =>
      match c.place? primitives x with
      | some (.primitive _) => .primitive x
      | _ => .refused
  | _ => .refused

theorem calling_cases (prims : List String) (callee : Node) : (∃ id, c.calling prims callee = .call id) ∨
    (∃ x, c.calling prims callee = .primitive x) ∨ c.calling prims callee = .refused := by
  unfold calling
  split
  · split
    · exact Or.inl ⟨_, rfl⟩
    · split
      · exact Or.inr (Or.inl ⟨_, rfl⟩)
      · exact Or.inr (Or.inr rfl)
  · exact Or.inr (Or.inr rfl)

end Names

namespace Layout

open CompileM (unaryOf? binaryOf? swappedOf? shortcutOf?)

variable (primitives : List String)

/-! ## Expressions -/

mutual

/-- How many words the code of an expression takes. -/
def width (c : Names) : Node → Nat
  | .literal kind _ =>
    match kind with
    | .num | .str => 2
    | _ => 1
  | .name x =>
    match c.place? primitives x with
    | some (.routine _) => 2
    | _ => 3
  | .unary _ e => width c e + 1
  | .binary op l r =>
    match shortcutOf? op with
    | some _ => width c l + width c r + 5
    | none => width c l + width c r + 1
  | .call _ args => widths c args + 2
  | _ => 1

def widths (c : Names) : List Node → Nat
  | [] => 0
  | e :: es => widths c es + width c e

end

theorem shortcutOf?_isPlain {op : Datum} {skip skipped : Opcode}
    (h : shortcutOf? op = some (skip, skipped)) : skip.isBranch = true ∧ skipped.isPlain = true := by
  unfold shortcutOf? at h
  split at h <;> cases h <;> exact ⟨rfl, rfl⟩

/-- What loads a literal. -/
def loadingLiteral (kind : LiteralKind) (fields : List Datum) : Instr :=
  match kind with
  | .null => .plain .loadNull
  | .true => .plain .loadTrue
  | .false => .plain .loadFalse
  | .num => .const (Node.form "num" fields)
  | .str => .const (Node.form "str" fields)

def applyingUnary (op : Datum) : Instr :=
  match unaryOf? op with
  | some o => .plain (.unary o)
  | none => .refused

def applyingBinary (op : Datum) : Instr :=
  match binaryOf? op with
  | some o => .plain (.binary o)
  | none => .refused

mutual

/-- The instructions of an expression from an address on. -/
def expression (shape : List Mark) (c : Names) (start : Nat) : Node → List Spot
  | .literal kind fields => [⟨start, loadingLiteral kind fields, shape⟩]
  | .name x => [⟨start, c.loading primitives x, shape⟩]
  | .unary op e =>
    expression shape c start e ++ [⟨start + width primitives c e, applyingUnary op, shape⟩]
  | .binary op l r =>
    match shortcutOf? op with
    | some (skip, skipped) =>
      let middle := start + width primitives c l
      let last := middle + 2 + width primitives c r
      expression shape c start l ++ ⟨middle, .branch skip (last + 2), shape⟩ ::
        (expression shape c (middle + 2) r ++
          [⟨last, .jump (last + 3), shape⟩, ⟨last + 2, .plain skipped, shape⟩])
    | none =>
      match swappedOf? op with
      | some o =>
        let middle := start + width primitives c r
        expression shape c start r ++ (expression shape c middle l ++
          [⟨middle + width primitives c l, .plain (.binary o), shape⟩])
      | none =>
        let middle := start + width primitives c l
        expression shape c start l ++ (expression shape c middle r ++
          [⟨middle + width primitives c r, applyingBinary op, shape⟩])
  | .call callee args =>
    arguments shape c start args ++ [⟨start + widths primitives c args, c.calling primitives callee, shape⟩]
  | _ => [⟨start, .refused, shape⟩]

/-- Arguments from the last to the first. -/
def arguments (shape : List Mark) (c : Names) (start : Nat) : List Node → List Spot
  | [] => []
  | e :: es =>
    arguments shape c start es ++ expression shape c (start + widths primitives c es) e

end

/-- How many words the code of printed arguments takes. -/
def printedWidth (c : Names) : List Node → Nat
  | [] => 0
  | e :: es => width primitives c e + 1 + printedWidth c es

def printed (shape : List Mark) (c : Names) (start : Nat) : List Node → List Spot
  | [] => []
  | e :: es =>
    let middle := start + width primitives c e
    expression primitives shape c start e ++ ⟨middle, .plain .printItem, shape⟩ ::
      printed shape c (middle + 1) es

/-! ## Statements -/

mutual

/-- The point after a statement. -/
def next (s : Point) : Node → Point
  | .exprStat e => s.skip (width primitives s.toNames e + 1)
  | .print args => s.skip (printedWidth primitives s.toNames args + 1)
  | .ifThen cond yes => next (s.skip (width primitives s.toNames cond + 2)) yes
  | .ifElse cond yes no => next ((next (s.skip (width primitives s.toNames cond + 2)) yes).skip 2) no
  | .loop cond body => (next (s.skip (width primitives s.toNames cond + 2)) body).skip 2
  | .breakLoop | .continueLoop => s.skip 2
  | .block body =>
    let last := nextAll s.inBlock body
    { here := last.here + 1, visible := s.visible, routines := last.routines }
  | .define x value =>
    match value with
    | .function params body =>
      let last := next (s.inFunction x params) body
      ({ here := last.here + 6, visible := s.visible, routines := last.routines } : Point).declare x
    | value => (s.skip (width primitives s.toNames value + 3)).declare x
  | .assign _ value => s.skip (width primitives s.toNames value + 3)
  | .return => s.skip 1
  | .returnValue value => s.skip (width primitives s.toNames value + 1)
  | _ => s

def nextAll (s : Point) : List Node → Point
  | [] => s
  | n :: ns => nextAll (next s n) ns

end

mutual

/-- The instructions of a statement. -/
def statement (shape : List Mark) (s : Point) : Node → List Spot
  | .exprStat e =>
    expression primitives shape s.toNames s.here e ++
      [⟨s.here + width primitives s.toNames e, .plain .pop, shape⟩]
  | .print args =>
    printed primitives shape s.toNames s.here args ++
      [⟨s.here + printedWidth primitives s.toNames args, .plain .printNewline, shape⟩]
  | .ifThen cond yes =>
    let inside := s.skip (width primitives s.toNames cond + 2)
    let last := next primitives inside yes
    expression primitives shape s.toNames s.here cond ++
      ⟨s.here + width primitives s.toNames cond, .branch .jumpFalse last.here, shape⟩ ::
        statement shape inside yes
  | .ifElse cond yes no =>
    let inside := s.skip (width primitives s.toNames cond + 2)
    let middle := next primitives inside yes
    let last := next primitives (middle.skip 2) no
    expression primitives shape s.toNames s.here cond ++
      ⟨s.here + width primitives s.toNames cond, .branch .jumpFalse (middle.here + 2), shape⟩ ::
        (statement shape inside yes ++
          ⟨middle.here, .jump last.here, .loose :: shape⟩ :: statement shape (middle.skip 2) no)
  | .loop cond body =>
    let inside := s.skip (width primitives s.toNames cond + 2)
    let last := next primitives inside body
    let around := .loop s.here (last.here + 2) :: shape
    expression primitives around s.toNames s.here cond ++
      ⟨s.here + width primitives s.toNames cond, .branch .jumpFalse (last.here + 2), around⟩ ::
        (statement around inside body ++ [⟨last.here, .jump s.here, .loose :: around⟩])
  | .breakLoop =>
    match innermost? shape with
    | some _ => [⟨s.here, .breakLoop, shape⟩]
    | none => [⟨s.here, .refused, shape⟩]
  | .continueLoop =>
    match innermost? shape with
    | some (start, _) => [⟨s.here, .continueLoop start, shape⟩]
    | none => [⟨s.here, .refused, shape⟩]
  | .block body =>
    let last := nextAll primitives s.inBlock body
    ⟨s.here, .enter last.slot, shape⟩ ::
      (statements (.block :: shape) s.inBlock body ++ [⟨last.here, .leave, .block :: shape⟩])
  | .define x value =>
    match value with
    | .function params body =>
      let last := next primitives (s.inFunction x params) body
      ⟨s.here, .jump (last.here + 1), shape⟩ ::
        (statement (.function :: shape) (s.inFunction x params) body ++
          [⟨last.here, .return, .loose :: .function :: shape⟩,
            ⟨last.here + 1, .const (.number (.int (s.routineFor x))), shape⟩,
            ⟨last.here + 3, s.storing x, shape⟩])
    | value =>
      expression primitives shape s.toNames s.here value ++
        [⟨s.here + width primitives s.toNames value, s.storing x, shape⟩]
  | .assign x value =>
    expression primitives shape s.toNames s.here value ++
      [⟨s.here + width primitives s.toNames value, s.assigning primitives x, shape⟩]
  | .return => [⟨s.here, if .function ∈ shape then .return else .refused, shape⟩]
  | .returnValue value =>
    expression primitives shape s.toNames s.here value ++
      [⟨s.here + width primitives s.toNames value, if .function ∈ shape then .returnValue else .refused, shape⟩]
  | _ => []

def statements (shape : List Mark) (s : Point) : List Node → List Spot
  | [] => []
  | n :: ns => statement shape s n ++ statements shape (next primitives s n) ns

end

theorem next_function (s : Point) (x : Datum) (params : List Datum) (body : Node) :
    next primitives s (.define x (.function params body)) =
      ({ here := (next primitives (s.inFunction x params) body).here + 6, visible := s.visible,
         routines := (next primitives (s.inFunction x params) body).routines } : Point).declare x := by
  rw [next]

theorem statement_function (shape : List Mark) (s : Point) (x : Datum) (params : List Datum) (body : Node) :
    statement primitives shape s (.define x (.function params body)) =
      ⟨s.here, .jump ((next primitives (s.inFunction x params) body).here + 1), shape⟩ ::
        (statement primitives (.function :: shape) (s.inFunction x params) body ++
          [⟨(next primitives (s.inFunction x params) body).here, .return, .loose :: .function :: shape⟩,
            ⟨(next primitives (s.inFunction x params) body).here + 1,
              .const (.number (.int (s.routineFor x))), shape⟩,
            ⟨(next primitives (s.inFunction x params) body).here + 3, s.storing x, shape⟩]) := by
  rw [statement]

section Variable

variable {value : Node} (h : ∀ params body, value ≠ .function params body)

include h

theorem next_variable (s : Point) (x : Datum) :
    next primitives s (.define x value) =
      (s.skip (width primitives s.toNames value + 3)).declare x := by
  rw [next]
  exact h

theorem statement_variable (shape : List Mark) (s : Point) (x : Datum) :
    statement primitives shape s (.define x value) =
      expression primitives shape s.toNames s.here value ++
        [⟨s.here + width primitives s.toNames value, s.storing x, shape⟩] := by
  rw [statement]
  exact h

end Variable

/-! ## Programs -/

mutual

/-- The functions that are entered into the table before anything is compiled. -/
def registered : Node → List Routine
  | .define x value =>
    match value with
    | .function params _ => [⟨x, params, some (-1)⟩]
    | _ => []
  | .block body => registeredAll body
  | _ => []

def registeredAll : List Node → List Routine
  | [] => []
  | n :: ns => registered n ++ registeredAll ns

end

/-- Where the compilation of a program starts. -/
def origin (body : List Node) : Point :=
  { here := 0, visible := [#[]], routines := (registeredAll body).toArray }

/-- The point after a whole program. -/
def finish (body : List Node) : Point := next primitives (origin body) (.block body)

/-- The instructions of a whole program. -/
def program (body : List Node) : List Spot := statement primitives [] (origin body) (.block body)

end Layout

/-! ## Code that follows a layout -/

/-- The words stand in the code from an address on. -/
def Program.Holds (p : Program) (address : Nat) (words : List Int) : Prop :=
  ∀ i w, words[i]? = some w → p.code[address + i]? = some w

/-- A constant that is the given one, or equal to it. -/
def Program.HasConst (p : Program) (i : Nat) (c : Datum) : Prop :=
  ∃ d, p.consts[i]? = some d ∧ (d = c ∨ d.eq c = true)

/-- The instruction stands at an address. -/
def Instr.In (p : Program) (address : Nat) : Instr → Prop
  | .const c => ∃ i : Nat, p.Holds address [Opcode.loadConst.word, i] ∧ p.HasConst i c
  | .plain op => op.isPlain = true ∧ p.Holds address [op.word]
  | .load depth index => p.Holds address [Opcode.loadVar.word, depth, index]
  | .store depth index => p.Holds address [Opcode.storeVar.word, depth, index]
  | .jump target => p.Holds address [Opcode.jump.word, target]
  | .branch op target => op.isBranch = true ∧ p.Holds address [op.word, target]
  | .breakLoop => p.Holds address [Opcode.jump.word, -1]
  | .continueLoop target => p.Holds address [Opcode.jump.word, target]
  | .enter count => p.Holds address [Opcode.enterScope.word, count]
  | .leave => p.Holds address [Opcode.leaveScope.word]
  | .call id => p.Holds address [Opcode.call.word, id]
  | .primitive x =>
    ∃ i : Nat, p.Holds address [Opcode.callPrimitive.word, i] ∧ p.HasConst i (.string x)
  | .return => p.Holds address [Opcode.return.word]
  | .returnValue => p.Holds address [Opcode.returnValue.word]
  | .refused => False

/-- Every instruction of a layout stands where it should. -/
def Program.Follows (p : Program) (spots : List Spot) : Prop :=
  ∀ spot ∈ spots, spot.instr.In p spot.address

section

variable {p : Program} {spots more : List Spot} {spot : Spot}

@[simp] theorem Program.Follows.nil : p.Follows [] := List.forall_mem_nil _

@[simp] theorem follows_cons : p.Follows (spot :: spots) ↔ spot.instr.In p spot.address ∧ p.Follows spots := List.forall_mem_cons

@[simp] theorem follows_append : p.Follows (spots ++ more) ↔ p.Follows spots ∧ p.Follows more := List.forall_mem_append

end

end Cilly
