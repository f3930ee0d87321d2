import Cilly.Proofs.Compiling
import Cilly.Proofs.Magnitudes
import Mathlib

/-!
# Well-formed code

Code is a sequence of words, and only reading it from the front tells operations from operands: `decode` does so, and
fails at a word that is no operation and at an instruction that the code is too short for. Compiled code can be decoded to its
end, and the operands of its instructions refer to what there is (`ofNode_wellFormed`): constants, functions with the
entries of their bodies, as many variables as a block declares, and instructions or the end of the code. Only the jump of a
`break` leads nowhere.
-/

namespace Cilly

open Node List

variable {address : Nat} {e : Node} {instr : Instr} {line : Line} {operands : List Int} {p : Program} {x : Spot}

/-! ## Decoding -/

/-- An instruction as it is read from code. -/
structure Line where
  address : Nat
  op : Opcode
  operands : List Int
  deriving DecidableEq, Repr

theorem Opcode.size_pos (op : Opcode) : 0 < op.size := by cases op <;> simp [size]

namespace Program

variable (p : Program)

/-- The instruction at an address, if the word there is an operation. -/
def lineAt (address : Nat) (op : Opcode) : Line :=
  ⟨address, op, (p.code.extract (address + 1) (address + op.size)).toList⟩

/-- The instructions from an address on. -/
def decodeFrom (address : Nat) : Option (List Line) :=
  if h : address < p.code.size then
    match Opcode.ofWord? p.code[address] with
    | none => none
    | some op =>
      if address + op.size ≤ p.code.size then (decodeFrom (address + op.size)).map (p.lineAt address op :: ·)
      else none
  else some []
termination_by p.code.size - address
decreasing_by
  have := op.size_pos
  omega

def decode : Option (List Line) := p.decodeFrom 0

end Program

/-- The operation of an instruction. -/
def Instr.op : Instr → Opcode
  | .const _ => .loadConst
  | .plain op | .branch op _ => op
  | .load .. => .loadVar
  | .store .. => .storeVar
  | .jump _ | .breakLoop | .continueLoop _ => .jump
  | .enter _ => .enterScope
  | .leave => .leaveScope
  | .call _ => .call
  | .primitive _ => .callPrimitive
  | .return => .return
  | .returnValue => .returnValue
  | .refused => .pop

/-- The operands that an instruction stands in the code with. -/
def Instr.Reads (p : Program) (operands : List Int) : Instr → Prop
  | .const c => ∃ i : Nat, operands = [(i : Int)] ∧ p.HasConst i c
  | .primitive x => ∃ i : Nat, operands = [(i : Int)] ∧ p.HasConst i (.string x)
  | .plain op => op.isPlain = true ∧ operands = []
  | .branch op target => op.isBranch = true ∧ operands = [(target : Int)]
  | .load depth index | .store depth index => operands = [depth, index]
  | .jump target | .continueLoop target => operands = [(target : Int)]
  | .breakLoop => operands = [-1]
  | .enter count => operands = [(count : Int)]
  | .call id => operands = [(id : Int)]
  | .leave | .return | .returnValue => operands = []
  | .refused => False

theorem Instr.In.words (h : instr.In p address) :
    ∃ operands, instr.Reads p operands ∧ p.Holds address (instr.op.word :: operands) ∧
      instr.op.size = operands.length + 1 ∧ instr.size = instr.op.size := by
  cases instr with
  | const c =>
    obtain ⟨i, hholds, hconst⟩ := h
    exact ⟨[(i : Int)], ⟨i, rfl, hconst⟩, hholds, rfl, rfl⟩
  | primitive x =>
    obtain ⟨i, hholds, hconst⟩ := h
    exact ⟨[(i : Int)], ⟨i, rfl, hconst⟩, hholds, rfl, rfl⟩
  | plain op =>
    obtain ⟨hplain, hholds⟩ := h
    refine ⟨[], ⟨hplain, rfl⟩, hholds, ?_⟩
    cases op with
    | loadConst | loadVar | storeVar | jump | jumpTrue | jumpFalse | enterScope | leaveScope | call
      | «return» | returnValue | callPrimitive => cases hplain
    | _ => exact ⟨rfl, rfl⟩
  | branch op target =>
    obtain ⟨hbranch, hholds⟩ := h
    refine ⟨[(target : Int)], ⟨hbranch, rfl⟩, hholds, ?_⟩
    cases op with
    | jumpTrue | jumpFalse => exact ⟨rfl, rfl⟩
    | _ => cases hbranch
  | load depth index => exact ⟨[depth, index], rfl, h, rfl, rfl⟩
  | store depth index => exact ⟨[depth, index], rfl, h, rfl, rfl⟩
  | jump target => exact ⟨[(target : Int)], rfl, h, rfl, rfl⟩
  | breakLoop => exact ⟨[-1], rfl, h, rfl, rfl⟩
  | continueLoop target => exact ⟨[(target : Int)], rfl, h, rfl, rfl⟩
  | enter count => exact ⟨[(count : Int)], rfl, h, rfl, rfl⟩
  | leave => exact ⟨[], rfl, h, rfl, rfl⟩
  | call id => exact ⟨[(id : Int)], rfl, h, rfl, rfl⟩
  | «return» => exact ⟨[], rfl, h, rfl, rfl⟩
  | returnValue => exact ⟨[], rfl, h, rfl, rfl⟩
  | refused => exact h.elim

/-- The instruction that follows stands right behind the operands. -/
theorem Instr.In.middle {middle : Nat} (h : instr.In p address)
    (hspans : instr.Spans address middle) : middle = address + instr.op.size := by
  obtain ⟨operands, -, -, -, hsize⟩ := h.words
  rcases hspans.2 with hrefused | hmiddle
  · rw [hrefused] at h
    exact h.elim
  · rw [hmiddle, hsize]

theorem Program.Holds.lineAt {op : Opcode} {w : Int}
    (h : p.Holds address (w :: operands)) (hsize : op.size = operands.length + 1) :
    p.lineAt address op = ⟨address, op, operands⟩ := by
  have hoperands : (p.code.extract (address + 1) (address + op.size)).toList = operands := by
    refine ext_getElem? fun i => ?_
    rw [Array.getElem?_toList, Array.getElem?_extract, hsize]
    by_cases hi : i < operands.length
    · have hget : operands[i]? = some operands[i] := getElem?_eq_getElem hi
      have hword := h (i + 1) operands[i] hget
      have hlt : address + (i + 1) < p.code.size := (Array.getElem?_eq_some_iff.mp hword).1
      rw [if_pos (by omega), show address + 1 + i = address + (i + 1) by omega, hword, hget]
    · rw [if_neg (by omega), getElem?_eq_none (by omega)]
  rw [Program.lineAt, hoperands]

section

variable {p : Program} {lo hi : Nat} {spots : List Spot}

theorem Program.decodeFrom_cons {op : Opcode}
    (h : p.Holds address (op.word :: operands)) (hfit : address + op.size ≤ p.code.size) :
    p.decodeFrom address = (p.decodeFrom (address + op.size)).map (p.lineAt address op :: ·) := by
  have hfirst : p.code[address]? = some op.word := h 0 op.word rfl
  obtain ⟨hlt, hword⟩ := Array.getElem?_eq_some_iff.mp hfirst
  rw [Program.decodeFrom, dif_pos hlt, hword, Opcode.ofWord?_word]
  simp only [hfit, if_true]

/-- **Code that follows a layout is decoded to its instructions.** -/
theorem Ordered.decodeFrom (h : Ordered lo hi spots) (hfollows : p.Follows spots) (hend : hi = p.code.size) :
    p.decodeFrom lo = some (spots.map fun x => p.lineAt x.address x.instr.op) := by
  induction h with
  | nil address =>
    rw [Program.decodeFrom, dif_neg (by omega)]
    rfl
  | @cons address middle hi instr shape spots hspans hrest ih =>
    obtain ⟨hin, hfollows⟩ := follows_cons.mp hfollows
    dsimp only at hin
    obtain ⟨operands, -, hholds, -⟩ := hin.words
    have hmiddle := hin.middle hspans
    have hle := hrest.le
    rw [Program.decodeFrom_cons hholds (by omega), ← hmiddle, ih hfollows hend]
    rfl

end

/-! ## Blocks and breaks -/

/-- The number of variables that a block is entered with. -/
def Instr.entered? : Instr → Option Nat
  | .enter count => some count
  | _ => none

/-- Whether a jump out of the normal order is that of a `break`. -/
def Instr.exit? : Instr → Option Bool
  | .breakLoop => some true
  | .continueLoop _ => some false
  | _ => none

/-- Whether a statement out of the normal order is a `break`. -/
def Exit.isBreak : Exit → Bool
  | .breaks => true
  | .continues _ => false

/-- Instructions that enter blocks of so many variables, and leave the normal order in those ways. -/
structure Tallied (spots : List Spot) (blocks : List Nat) (exits : List Exit) : Prop where
  blocks : spots.filterMap (·.instr.entered?) = blocks
  exits : spots.filterMap (·.instr.exit?) = exits.map Exit.isBreak

namespace Tallied

variable {spots more : List Spot} {blocks blocks' : List Nat} {exits exits' : List Exit}

theorem append (h : Tallied spots blocks exits) (h' : Tallied more blocks' exits') :
    Tallied (spots ++ more) (blocks ++ blocks') (exits ++ exits') :=
  ⟨by rw [filterMap_append, h.blocks, h'.blocks], by rw [filterMap_append, h.exits, h'.exits, map_append]⟩

/-- Instructions of neither kind. -/
def Idle (instr : Instr) : Prop := instr.entered? = none ∧ instr.exit? = none

theorem idle (h : ∀ x ∈ spots, Idle x.instr) : Tallied spots [] [] :=
  ⟨filterMap_eq_nil_iff.mpr fun x hx => (h x hx).1, filterMap_eq_nil_iff.mpr fun x hx => (h x hx).2⟩

theorem behind (h : Tallied spots blocks exits) (hmore : ∀ x ∈ more, Idle x.instr) :
    Tallied (more ++ spots) blocks exits := by
  have hall := (idle hmore).append h
  rwa [nil_append, nil_append] at hall

theorem cons {x : Spot} (h : Tallied spots blocks exits) (hx : Idle x.instr) : Tallied (x :: spots) blocks exits :=
  h.behind (forall_mem_singleton.mpr hx)

theorem before (h : Tallied spots blocks exits) (hmore : ∀ x ∈ more, Idle x.instr) :
    Tallied (spots ++ more) blocks exits := by
  have hall := h.append (idle hmore)
  rwa [append_nil, append_nil] at hall

theorem snoc (h : Tallied spots blocks exits) (hx : Idle x.instr) :
    Tallied (spots ++ [x]) blocks exits := h.before (forall_mem_singleton.mpr hx)

end Tallied

/-- A property of every instruction that an expression may have. -/
structure Instr.EveryOperand (P : Instr → Prop) : Prop where
  const : ∀ c, P (.const c)
  load : ∀ depth index, P (.load depth index)
  plain : ∀ op, P (.plain op)
  branch : ∀ op target, P (.branch op target)
  jump : ∀ target, P (.jump target)
  call : ∀ id, P (.call id)
  primitive : ∀ x, P (.primitive x)
  refused : P .refused

namespace Instr.EveryOperand

variable {P : Instr → Prop} {prims : List String} {c : Names} {shape : List Mark}

theorem every (h : EveryOperand P) {tokens : List Token} : c.Every prims tokens P where
  loading x := by
    unfold Names.loading
    split
    · exact h.const _
    · exact h.load _ _
    · exact h.refused
  literal {kind d} _ := by
    cases kind with
    | num | str => exact h.const _
    | null | «true» | «false» => exact h.plain _
  calling {callee} _ := by
    rcases c.calling_cases prims callee with ⟨id, hinstr⟩ | ⟨x, hinstr⟩ | hinstr
    · exact hinstr ▸ h.call id
    · exact hinstr ▸ h.primitive x
    · exact hinstr ▸ h.refused
  plain := h.plain
  branch := h.branch
  jump := h.jump
  refused := h.refused

theorem expression (h : EveryOperand P) (he : IsExpr e) (start : Nat) :
    ∀ x ∈ Layout.expression prims shape c start e, P x.instr :=
  h.every.expression he (Subset.refl _) start

theorem printed (h : EveryOperand P) {es : List Node} (hes : AreExprs es) (start : Nat) :
    ∀ x ∈ Layout.printed prims shape c start es, P x.instr :=
  h.every.printed hes (Subset.refl _) start

end Instr.EveryOperand

namespace Layout

open Tallied (Idle)

variable (prims : List String)

section

variable (c : Names)

theorem storing_idle (x : Datum) : Idle (c.storing x) := by
  unfold Names.storing
  split <;> exact ⟨rfl, rfl⟩

theorem assigning_idle (x : Datum) : Idle (c.assigning prims x) := by
  unfold Names.assigning
  split <;> exact ⟨rfl, rfl⟩

theorem idle_operands : Instr.EveryOperand Idle := by
  constructor <;> intros <;> exact ⟨rfl, rfl⟩

variable (shape : List Mark)

theorem expression_idle (he : IsExpr e) (start : Nat) :
    ∀ x ∈ expression prims shape c start e, Idle x.instr :=
  idle_operands.expression he start

theorem printed_idle {es : List Node} (hes : AreExprs es) (start : Nat) :
    ∀ x ∈ printed prims shape c start es, Idle x.instr :=
  idle_operands.printed hes start

end

/-- The numbers of variables of the blocks among scopes. -/
def blockSizes (scopes : List Scope) : List Nat := (scopes.filterMap Scope.block?).map List.length

theorem blockSizes_append (xs ys : List Scope) : blockSizes (xs ++ ys) = blockSizes xs ++ blockSizes ys := by
  rw [blockSizes, filterMap_append, map_append]
  rfl

section

variable {p : Program}

theorem expression_then_tallied {c : Names} {shape shape' : List Mark} (he : IsExpr e) {start last : Nat}
    (h : Idle instr) :
    Tallied (expression prims shape c start e ++ [⟨last, instr, shape'⟩]) [] [] :=
  (Tallied.idle (expression_idle prims c shape he start)).snoc h

theorem block_tallied {body : List Node} (hbody : AreStats body) (shape : List Mark) (s : Point) {exits : List Exit}
    (h : Tallied (statements prims (.block :: shape) s.inBlock body) (blockSizes (scopesAll body)) exits) :
    Tallied (statement prims shape s (.block body)) (blockSizes (scopes (.block body))) exits := by
  have hcount : (nextAll prims s.inBlock body).slot = (declaresAll body).length := by
    rw [Names.slot, nextAll_innermost prims hbody]
    rfl
  have hinside := h.snoc (x := ⟨(nextAll prims s.inBlock body).here, .leave, .block :: shape⟩) ⟨rfl, rfl⟩
  rw [statement, scopes]
  refine ⟨?_, ?_⟩
  · rw [filterMap_cons_some (b := (declaresAll body).length) (by rw [← hcount]; rfl), hinside.blocks]
    rfl
  · rw [filterMap_cons_none rfl, hinside.exits]

mutual

/-- The blocks of a statement are entered in the order of the text, each with its variables, and it has a jump for each of
its breaks. -/
theorem statement_tallied : ∀ {n : Node}, IsStat n → ∀ (inside : Bool) {shape : List Mark} {s : Point},
    p.Follows (statement prims shape s n) →
    Tallied (statement prims shape s n) (blockSizes (scopes n)) (exits inside n)
  | _, .exprStat he, inside, shape, s, _ => by
    simp only [statement, scopes, exits]
    exact expression_then_tallied prims he ⟨rfl, rfl⟩
  | _, .print hargs, inside, shape, s, _ => by
    simp only [statement, scopes, exits]
    exact (Tallied.idle (printed_idle prims _ shape hargs _)).snoc ⟨rfl, rfl⟩
  | _, .ifThen hcond hyes, inside, shape, s, hfollows => by
    simp only [statement, follows_append, follows_cons] at hfollows
    simp only [statement, scopes, exits]
    exact ((statement_tallied hyes inside hfollows.2.2).cons ⟨rfl, rfl⟩).behind
      (expression_idle prims _ shape hcond _)
  | _, .ifElse hcond hyes hno, inside, shape, s, hfollows => by
    simp only [statement, follows_append, follows_cons] at hfollows
    obtain ⟨-, -, hyesFollows, -, hnoFollows⟩ := hfollows
    simp only [statement, scopes, exits, blockSizes_append]
    exact (((statement_tallied hyes inside hyesFollows).append
      ((statement_tallied hno inside hnoFollows).cons ⟨rfl, rfl⟩)).cons ⟨rfl, rfl⟩).behind
        (expression_idle prims _ shape hcond _)
  | _, .loop hcond hbody, inside, shape, s, hfollows => by
    simp only [statement, follows_append, follows_cons] at hfollows
    simp only [statement, scopes, exits]
    exact (((statement_tallied hbody true hfollows.2.2.1).snoc ⟨rfl, rfl⟩).cons ⟨rfl, rfl⟩).behind
      (expression_idle prims _ _ hcond _)
  | _, .breakLoop, inside, shape, s, hfollows => by
    rw [statement] at hfollows ⊢
    simp only [scopes, exits]
    cases hloop : innermost? shape with
    | none =>
      rw [hloop] at hfollows
      exact (hfollows _ (mem_singleton_self _)).elim
    | some loop => exact ⟨rfl, rfl⟩
  | _, .continueLoop, inside, shape, s, hfollows => by
    rw [statement]
    simp only [scopes, exits]
    rw [statement] at hfollows
    cases hloop : innermost? shape with
    | none =>
      rw [hloop] at hfollows
      exact (hfollows _ (mem_singleton_self _)).elim
    | some loop => exact ⟨rfl, rfl⟩
  | _, .block hbody, inside, shape, s, hfollows => by
    simp only [statement, follows_append, follows_cons] at hfollows
    rw [exits]
    exact block_tallied prims hbody shape s (statements_tallied hbody inside hfollows.2.1)
  | _, .function x xs hbody, inside, shape, s, hfollows => by
    simp only [statement, follows_append, follows_cons] at hfollows
    have hinside := block_tallied prims hbody (.function :: shape) (s.inFunction x xs)
      (statements_tallied hbody false hfollows.2.1.2.1)
    rw [statement_function, scopes, exits, exits]
    exact (hinside.before (forall_mem_cons.mpr ⟨⟨rfl, rfl⟩, forall_mem_cons.mpr ⟨⟨rfl, rfl⟩,
      forall_mem_singleton.mpr (storing_idle s.toNames x)⟩⟩)).cons ⟨rfl, rfl⟩
  | _, .define x hvalue hne, inside, shape, s, _ => by
    rw [statement_variable _ hne, scopes_variable hne, exits]
    · exact expression_then_tallied prims hvalue (storing_idle s.toNames x)
    · exact hne
  | _, .assign x hvalue, inside, shape, s, _ => by
    simp only [statement, scopes, exits]
    exact expression_then_tallied prims hvalue (assigning_idle prims s.toNames x)
  | _, .return, inside, shape, s, _ => by
    simp only [statement, scopes, exits]
    split <;> exact ⟨rfl, rfl⟩
  | _, .returnValue hvalue, inside, shape, s, _ => by
    simp only [statement, scopes, exits]
    refine expression_then_tallied prims hvalue ?_
    split <;> exact ⟨rfl, rfl⟩

theorem statements_tallied : ∀ {ns : List Node}, AreStats ns → ∀ (inside : Bool) {shape : List Mark} {s : Point},
    p.Follows (statements prims shape s ns) →
    Tallied (statements prims shape s ns) (blockSizes (scopesAll ns)) (exitsAll inside ns)
  | _, .nil, inside, shape, s, _ => by
    simp only [Layout.statements, scopesAll, exitsAll]
    exact ⟨rfl, rfl⟩
  | _, .cons hn hns, inside, shape, s, hfollows => by
    simp only [Layout.statements, follows_append] at hfollows
    simp only [Layout.statements, scopesAll, exitsAll, blockSizes_append]
    exact (statement_tallied hn inside hfollows.1).append (statements_tallied hns inside hfollows.2)

end

end

end Layout

/-! ## Programs -/

/-- The operands of an instruction that enters a block. -/
def Line.entered? (line : Line) : Option (List Int) := if line.op = .enterScope then some line.operands else none

/-- A jump that leads nowhere. -/
def Line.isBreak (line : Line) : Bool := line.op = .jump ∧ line.operands = [-1]

def Opcode.isJump : Opcode → Bool
  | .jump | .jumpTrue | .jumpFalse => true
  | _ => false

/-- The instructions of a program refer to what there is. -/
structure Program.WellFormed (p : Program) (primitives : List String) (body : List Node) (lines : List Line) :
    Prop where
  consts : ∀ line ∈ lines, line.op = .loadConst ∨ line.op = .callPrimitive →
    ∃ i : Nat, line.operands = [(i : Int)] ∧ i < p.consts.size
  calls : ∀ line ∈ lines, line.op = .call → ∃ (id : Nat) (r : Routine) (entry : Line),
    line.operands = [(id : Int)] ∧ p.routines[id]? = some r ∧ entry ∈ lines ∧ r.entry = some (entry.address : Int)
  /-- The scopes of the program are those of its blocks and parameters, in the order of the text. -/
  scopes : p.scopes.toList = #[] :: (Node.scopes (.block body)).map fun scope => scope.names.toArray
  /-- The blocks are entered in that order, each with as many variables as its scope has names. -/
  blocks : lines.filterMap Line.entered? =
    (Layout.blockSizes (Node.scopes (.block body))).map fun size : Nat => [(size : Int)]
  jumps : ∀ line ∈ lines, line.op.isJump = true →
    (line.isBreak = true ∧ ∃ shape, ⟨line.address, .breakLoop, shape⟩ ∈ Layout.program primitives body) ∨
      ∃ target : Nat, line.operands = [(target : Int)] ∧
        (target = p.code.size ∨ ∃ y ∈ lines, y.address = target)
  /-- As many jumps lead nowhere as there are breaks. -/
  breaks : lines.countP Line.isBreak = (exitsAll false body).count .breaks

section

variable {prims : List String} {body : List Node} {p : Program}

/-- The instructions of a compiled program, as they are decoded. -/
def Program.lines (p : Program) (primitives : List String) (body : List Node) : List Line :=
  (Layout.program primitives body).map fun x => p.lineAt x.address x.instr.op

theorem Program.LaidOut.decode (h : p.LaidOut prims body) (hbody : AreStats body) :
    p.decode = some (p.lines prims body) :=
  (Layout.program_laid prims hbody).ordered.decodeFrom h.follows h.size.symm

theorem Program.LaidOut.lineAt (h : p.LaidOut prims body) (hx : x ∈ Layout.program prims body) :
    ∃ operands, x.instr.Reads p operands ∧ p.lineAt x.address x.instr.op = ⟨x.address, x.instr.op, operands⟩ := by
  obtain ⟨operands, hreads, hholds, hsize, -⟩ := (h.follows x hx).words
  exact ⟨operands, hreads, hholds.lineAt hsize⟩

theorem Program.LaidOut.mem_lines (h : p.LaidOut prims body) (hline : line ∈ p.lines prims body) :
    ∃ x ∈ Layout.program prims body, ∃ operands, x.instr.Reads p operands ∧
      line = ⟨x.address, x.instr.op, operands⟩ := by
  obtain ⟨x, hx, rfl⟩ := mem_map.mp hline
  exact ⟨x, hx, h.lineAt hx⟩

/-- An instruction that something leads to is a line, or it is the end of the code. -/
theorem Program.LaidOut.stands (h : p.LaidOut prims body) {P : Spot → Prop}
    (hstands : Stands (Layout.extent prims body) address P) :
    address = p.code.size ∨ ∃ y ∈ p.lines prims body, y.address = address := by
  obtain ⟨y, hy, rfl, -⟩ := hstands
  rcases mem_append.mp hy with hy | hy
  · exact Or.inr ⟨_, mem_map_of_mem hy, rfl⟩
  · rw [mem_singleton.mp hy, h.size]
    exact Or.inl rfl

theorem Instr.Reads.entered? (h : instr.Reads p operands) (address : Nat) :
    Line.entered? ⟨address, instr.op, operands⟩ = instr.entered?.map fun size : Nat => [(size : Int)] := by
  cases instr with
  | plain op =>
    cases op with
    | enterScope => cases h.1
    | _ => rfl
  | branch op target =>
    cases op with
    | enterScope => cases h.1
    | _ => rfl
  | enter count =>
    have h : operands = [(count : Int)] := h
    rw [h]
    rfl
  | _ => rfl

theorem Instr.Reads.isBreak (h : instr.Reads p operands) (address : Nat) :
    Line.isBreak ⟨address, instr.op, operands⟩ = (instr.exit? == some true) := by
  have hfound : ∀ {target : Nat}, operands = [(target : Int)] → operands ≠ [-1] := by
    rintro target rfl heq
    have htarget : (target : Int) = -1 := (List.cons.inj heq).1
    omega
  cases instr with
  | plain op =>
    cases op with
    | jump => cases h.1
    | _ => rfl
  | branch op target =>
    cases op with
    | jump => cases h.1
    | _ => rfl
  | jump target => simp [Line.isBreak, Instr.op, Instr.exit?, hfound h]
  | continueLoop target => simp [Line.isBreak, Instr.op, Instr.exit?, hfound h]
  | breakLoop =>
    have h : operands = [-1] := h
    rw [h]
    rfl
  | _ => rfl

namespace Program.LaidOut

theorem const_lt {i : Nat} {c : Datum} (h : p.HasConst i c) : i < p.consts.size := by
  obtain ⟨d, hd, -⟩ := h
  exact (Array.getElem?_eq_some_iff.mp hd).1

theorem line_consts (h : p.LaidOut prims body) (hline : line ∈ p.lines prims body)
    (hop : line.op = .loadConst ∨ line.op = .callPrimitive) :
    ∃ i : Nat, line.operands = [(i : Int)] ∧ i < p.consts.size := by
  obtain ⟨⟨address, instr, shape⟩, -, operands, hreads, rfl⟩ := h.mem_lines hline
  cases instr with
  | const c | primitive x =>
    obtain ⟨i, hoperands, hconst⟩ := hreads
    exact ⟨i, hoperands, const_lt hconst⟩
  | plain op | branch op =>
    rcases hop with rfl | rfl <;> cases hreads.1
  | _ => rcases hop with hop | hop <;> cases hop

theorem line_calls (h : p.LaidOut prims body) (hbody : AreStats body)
    (hline : line ∈ p.lines prims body) (hop : line.op = .call) :
    ∃ (id : Nat) (r : Routine) (entry : Line), line.operands = [(id : Int)] ∧ p.routines[id]? = some r ∧
      entry ∈ p.lines prims body ∧ r.entry = some (entry.address : Int) := by
  obtain ⟨⟨address, instr, shape⟩, hspot, operands, hreads, rfl⟩ := h.mem_lines hline
  cases instr with
  | call id =>
    rw [← Layout.program_toSpot prims hbody] at hspot
    obtain ⟨x, hx, hspot⟩ := mem_map.mp hspot
    have hinstr : x.instr = .call id := by rw [show x.instr = x.toSpot.instr from rfl, hspot]
    have hfits := Layout.program_fits prims hbody x hx
    rw [Scene.Fits, hinstr] at hfits
    obtain ⟨c, start, y, args, -, hindex, -⟩ := hfits
    obtain ⟨r, hr, site, hsite, hentry, -⟩ := Layout.site_of_routineIndex? prims hbody hindex
    obtain ⟨z, hz, haddress, -⟩ := Layout.site_stands prims hbody hsite
    refine ⟨id, r, _, hreads, by rw [h.routines]; exact hr, mem_map_of_mem hz, ?_⟩
    rw [hentry, ← haddress]
    rfl
  | plain op | branch op =>
    cases hop
    cases hreads.1
  | _ => cases hop

theorem line_jumps (h : p.LaidOut prims body) (hbody : AreStats body)
    (hline : line ∈ p.lines prims body) (hop : line.op.isJump = true) :
    (line.isBreak = true ∧ ∃ shape, ⟨line.address, .breakLoop, shape⟩ ∈ Layout.program prims body) ∨
      ∃ target : Nat, line.operands = [(target : Int)] ∧
        (target = p.code.size ∨ ∃ y ∈ p.lines prims body, y.address = target) := by
  obtain ⟨⟨address, instr, shape⟩, hspot, operands, hreads, rfl⟩ := h.mem_lines hline
  have hlinks := (Layout.program_linked prims hbody).links _ hspot
  cases instr with
  | jump target => exact Or.inr ⟨target, hreads, h.stands hlinks⟩
  | branch op target => exact Or.inr ⟨target, hreads.2, h.stands hlinks.1⟩
  | continueLoop target =>
    obtain ⟨-, inner, stop, outer, -, -, hstands⟩ := hlinks
    exact Or.inr ⟨target, hreads, h.stands hstands⟩
  | breakLoop => exact Or.inl ⟨hreads.isBreak address, shape, hspot⟩
  | plain op =>
    cases op with
    | jump | jumpTrue | jumpFalse => cases hreads.1
    | _ => cases hop
  | _ => cases hop

theorem tallied (h : p.LaidOut prims body) (hbody : AreStats body) :
    Tallied (Layout.program prims body) (Layout.blockSizes (Node.scopes (.block body))) (exitsAll false body) :=
  Layout.block_tallied prims hbody [] (Layout.origin body)
    (Layout.statements_tallied prims hbody false (p := p) fun x hx => h.follows x (by
      rw [Layout.program, Layout.statement]
      exact mem_cons_of_mem _ (mem_append_left _ hx)))

theorem wellFormed (h : p.LaidOut prims body) (hbody : AreStats body) :
    p.WellFormed prims body (p.lines prims body) := by
  have htallied := h.tallied hbody
  refine ⟨fun line => h.line_consts, fun line => h.line_calls hbody, h.scopes, ?_, fun line => h.line_jumps hbody, ?_⟩
  · have hentered : ∀ x ∈ Layout.program prims body, Line.entered? (p.lineAt x.address x.instr.op) =
        x.instr.entered?.map fun size : Nat => [(size : Int)] := by
      intro x hx
      obtain ⟨operands, hreads, hline⟩ := h.lineAt hx
      rw [hline, hreads.entered?]
    rw [Program.lines, filterMap_map, ← htallied.blocks, map_filterMap]
    exact filterMap_congr hentered
  · have hbreak : ∀ x ∈ Layout.program prims body,
        (Line.isBreak (p.lineAt x.address x.instr.op) = true ↔ (x.instr.exit?.map (· == true)).getD false = true) := by
      intro x hx
      obtain ⟨operands, hreads, hline⟩ := h.lineAt hx
      rw [hline, hreads.isBreak]
      cases x.instr.exit? with
      | none => simp
      | some exit => simp
    have hexits : ((exitsAll false body).map Exit.isBreak).count true = (exitsAll false body).count .breaks := by
      rw [count_eq_countP, countP_map, count_eq_countP]
      refine countP_congr fun e _ => ?_
      cases e with
      | breaks => simp [Exit.isBreak]
      | continues own => simp [Exit.isBreak]
    rw [Program.lines, countP_map, ← hexits, ← htallied.exits, count_eq_countP, countP_filterMap]
    exact countP_congr hbreak

end Program.LaidOut

end

/-- **Compiled code is well-formed.** Whatever tokens a tree was read from and whatever primitives there are, the code
that the tree is compiled to can be decoded to its end, and its instructions refer to what there is. -/
theorem Program.ofNode_wellFormed {tokens : List Token} {ast : Node} {primitives : List String} {p : Program}
    (hparse : Node.parse tokens = .ok ast) (hp : Program.ofNode primitives ast = .ok p) :
    ∃ body lines, ast = .program body ∧ p.decode = some lines ∧ p.WellFormed primitives body lines := by
  obtain ⟨body, rfl⟩ := Node.exists_program_of_parse hparse
  have hbody := (Node.areStats_of_parse hparse).1
  have hlaid := Program.laidOut hbody hp
  exact ⟨body, _, rfl, hlaid.decode hbody, hlaid.wellFormed hbody⟩

theorem Program.wellFormed_of_break_in_function :
    ∃ (p : Program) (body : List Node) (lines : List Line), p.code.size = 31 ∧ p.decode = some lines ∧
      p.WellFormed [] body lines := by
  let sign (tag : String) : Token := ⟨tag, .null⟩
  let f : Token := ⟨"id", .text "f"⟩
  let x : Token := ⟨"id", .text "x"⟩
  let tokens : List Token :=
    [f, sign "(", ⟨"num", .int 1⟩, sign ")", sign ";", sign "var", f, sign "=", sign "fun", sign "(", x, sign ")",
      sign "\x7b", sign "while", sign "(", x, sign ")", sign "\x7b", sign "break", sign ";", sign "\x7d", sign "\x7d",
      sign ";"]
  let body : List Node :=
    [.exprStat (.call (.name (.text "f")) [.literal .num [.int 1]]),
      .define (.text "f") (.function [.text "x"] (.block [.loop (.name (.text "x")) (.block [.breakLoop])]))]
  let p : Program :=
    { code := #[13, 1, 1, 0, 15, 0, 12, 9, 25, 13, 0, 5, 1, 0, 11, 23, 13, 0, 9, -1, 14, 9, 11, 14, 16, 1, 1, 6, 0, 0, 14]
      consts := #[.number (.int 1), .number (.int 0)]
      scopes := #[#[], #[.text "f"], #[.text "x"], #[], #[]]
      routines := #[⟨.text "f", [.text "x"], some 9⟩] }
  have hparse : Node.parse tokens = .ok (.program body) := by cbv
  have hp : Program.ofNode [] (.program body) = .ok p := by cbv
  obtain ⟨body', lines, -, hdecode, hwell⟩ := ofNode_wellFormed hparse hp
  exact ⟨p, body', lines, rfl, hdecode, hwell⟩

end Cilly
