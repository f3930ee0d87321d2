import Cilly.Proofs.Scopes

/-!
# What is at hand at each instruction

An instruction of a layout finds operands on the stack, scopes that are open and a function that it belongs to, and
the text says which. A `Scene` is an instruction with its `View`: for each operand the address at which its code
ended, for each open scope the address at which it was opened and its names, and the entry of the function. Only what
the function has put there itself is listed. `scenes` lists those of a program, one for each instruction of its layout
(`program_toSpot`).

The code of an expression is a `Strand`: it is worked through from its start to its end, but for what an operator of two
sides skips, and changes nothing but the operands. What holds of all expressions is proved of strands.
-/

namespace Cilly

open Node Instr
open List hiding set

/-- A scope that is open: the address of the first instruction in it, and its names. -/
structure Open where
  inside : Nat
  names : List Datum

/-- What a function has at hand at an instruction. -/
structure View where
  /-- Where the code of the operands ended, the topmost first. -/
  ends : List Nat
  /-- The open scopes, innermost first. -/
  scopes : List Open
  /-- The entry of the function. -/
  home : Option Nat

/-- What an instruction is about. -/
inductive Subject where
  | none
  | variable (x : Datum)
  /-- A call, with the address of its first argument and what names stand for there. -/
  | call (c : Names) (start : Nat) (callee : Node) (args : List Node)

structure Scene extends Spot where
  view : View
  subject : Subject

/-- What lies around a statement. -/
structure Setting where
  shape : List Mark
  scopes : List Open
  home : Option Nat

namespace Setting

variable (set : Setting)

def view (ends : List Nat) : View := ⟨ends, set.scopes, set.home⟩

def scene (address : Nat) (instr : Instr) (ends : List Nat) (subject : Subject) : Scene :=
  ⟨⟨address, instr, set.shape⟩, set.view ends, subject⟩

/-- Behind a statement that may have left scopes open. -/
def loose : Setting := { set with shape := .loose :: set.shape }

def inLoop (start stop : Nat) : Setting := { set with shape := .loop start stop :: set.shape }

/-- In a block whose first instruction has that address. -/
def inBlock (inside : Nat) (names : List Datum) : Setting :=
  { set with shape := .block :: set.shape, scopes := ⟨inside, names⟩ :: set.scopes }

/-- In a function with that entry. -/
def inFunction (entry : Nat) (params : List Datum) : Setting :=
  ⟨.function :: set.shape, [⟨entry, params⟩], some entry⟩

end Setting

namespace Layout

open CompileM (unaryOf? binaryOf? swappedOf? shortcutOf?)

variable (primitives : List String)

/-- Where the code of each argument ends. -/
def ends (c : Names) (start : Nat) : List Node → List Nat
  | [] => []
  | e :: es => (start + widths primitives c (e :: es)) :: ends c start es

@[simp] theorem length_ends (c : Names) (start : Nat) (es : List Node) : (ends primitives c start es).length = es.length := by
  induction es with
  | nil => rfl
  | cons e es ih => rw [ends, List.length_cons, ih, List.length_cons]

mutual

/-- The scenes of an expression, with operands below its own. -/
def expressionScenes (set : Setting) (c : Names) (below : List Nat) (start : Nat) : Node → List Scene
  | .literal kind fields => [set.scene start (loadingLiteral kind fields) below .none]
  | .name x => [set.scene start (c.loading primitives x) below (.variable x)]
  | .unary op e =>
    let last := start + width primitives c e
    expressionScenes set c below start e ++ [set.scene last (applyingUnary op) (last :: below) .none]
  | .binary op l r =>
    match shortcutOf? op with
    | some (skip, skipped) =>
      let middle := start + width primitives c l
      let last := middle + 2 + width primitives c r
      expressionScenes set c below start l ++ set.scene middle (.branch skip (last + 2)) (middle :: below) .none ::
        (expressionScenes set c below (middle + 2) r ++
          [set.scene last (.jump (last + 3)) (last :: below) .none,
            set.scene (last + 2) (.plain skipped) below .none])
    | none =>
      match swappedOf? op with
      | some o =>
        let middle := start + width primitives c r
        let last := middle + width primitives c l
        expressionScenes set c below start r ++ (expressionScenes set c (middle :: below) middle l ++
          [set.scene last (.plain (.binary o)) (last :: middle :: below) .none])
      | none =>
        let middle := start + width primitives c l
        let last := middle + width primitives c r
        expressionScenes set c below start l ++ (expressionScenes set c (middle :: below) middle r ++
          [set.scene last (applyingBinary op) (last :: middle :: below) .none])
  | .call callee args =>
    argumentScenes set c below start args ++
      [set.scene (start + widths primitives c args) (c.calling primitives callee)
        (ends primitives c start args ++ below) (.call c start callee args)]
  | _ => [set.scene start .refused below .none]

def argumentScenes (set : Setting) (c : Names) (below : List Nat) (start : Nat) : List Node → List Scene
  | [] => []
  | e :: es =>
    argumentScenes set c below start es ++
      expressionScenes set c (ends primitives c start es ++ below) (start + widths primitives c es) e

end

def printedScenes (set : Setting) (c : Names) (start : Nat) : List Node → List Scene
  | [] => []
  | e :: es =>
    let middle := start + width primitives c e
    expressionScenes primitives set c [] start e ++ set.scene middle (.plain .printItem) [middle] .none ::
      printedScenes set c (middle + 1) es

mutual

/-- The scenes of a statement. -/
def statementScenes (set : Setting) (s : Point) : Node → List Scene
  | .exprStat e =>
    let last := s.here + width primitives s.toNames e
    expressionScenes primitives set s.toNames [] s.here e ++ [set.scene last (.plain .pop) [last] .none]
  | .print args =>
    printedScenes primitives set s.toNames s.here args ++
      [set.scene (s.here + printedWidth primitives s.toNames args) (.plain .printNewline) [] .none]
  | .ifThen cond yes =>
    let inside := s.skip (width primitives s.toNames cond + 2)
    let test := s.here + width primitives s.toNames cond
    expressionScenes primitives set s.toNames [] s.here cond ++
      set.scene test (.branch .jumpFalse (next primitives inside yes).here) [test] .none ::
        statementScenes set inside yes
  | .ifElse cond yes no =>
    let inside := s.skip (width primitives s.toNames cond + 2)
    let test := s.here + width primitives s.toNames cond
    let middle := next primitives inside yes
    let last := next primitives (middle.skip 2) no
    expressionScenes primitives set s.toNames [] s.here cond ++
      set.scene test (.branch .jumpFalse (middle.here + 2)) [test] .none ::
        (statementScenes set inside yes ++
          set.loose.scene middle.here (.jump last.here) [] .none :: statementScenes set (middle.skip 2) no)
  | .loop cond body =>
    let inside := s.skip (width primitives s.toNames cond + 2)
    let test := s.here + width primitives s.toNames cond
    let last := next primitives inside body
    let around := set.inLoop s.here (last.here + 2)
    expressionScenes primitives around s.toNames [] s.here cond ++
      around.scene test (.branch .jumpFalse (last.here + 2)) [test] .none ::
        (statementScenes around inside body ++ [around.loose.scene last.here (.jump s.here) [] .none])
  | .breakLoop =>
    match innermost? set.shape with
    | some _ => [set.scene s.here .breakLoop [] .none]
    | none => [set.scene s.here .refused [] .none]
  | .continueLoop =>
    match innermost? set.shape with
    | some (start, _) => [set.scene s.here (.continueLoop start) [] .none]
    | none => [set.scene s.here .refused [] .none]
  | .block body =>
    let last := nextAll primitives s.inBlock body
    let inside := set.inBlock (s.here + 2) (declaresAll body)
    set.scene s.here (.enter last.slot) [] .none ::
      (statementsScenes inside s.inBlock body ++ [inside.scene last.here .leave [] .none])
  | .define x value =>
    match value with
    | .function params body =>
      let last := next primitives (s.inFunction x params) body
      let inside := set.inFunction (s.here + 2) params
      set.scene s.here (.jump (last.here + 1)) [] .none ::
        (statementScenes inside (s.inFunction x params) body ++
          [inside.loose.scene last.here .return [] .none,
            set.scene (last.here + 1) (.const (.number (.int (s.routineFor x)))) [] .none,
            set.scene (last.here + 3) (s.storing x) [last.here + 3] (.variable x)])
    | value =>
      let last := s.here + width primitives s.toNames value
      expressionScenes primitives set s.toNames [] s.here value ++
        [set.scene last (s.storing x) [last] (.variable x)]
  | .assign x value =>
    let last := s.here + width primitives s.toNames value
    expressionScenes primitives set s.toNames [] s.here value ++
      [set.scene last (s.assigning primitives x) [last] (.variable x)]
  | .return => [set.scene s.here (if .function ∈ set.shape then .return else .refused) [] .none]
  | .returnValue value =>
    let last := s.here + width primitives s.toNames value
    expressionScenes primitives set s.toNames [] s.here value ++
      [set.scene last (if .function ∈ set.shape then .returnValue else .refused) [last] .none]
  | _ => []

def statementsScenes (set : Setting) (s : Point) : List Node → List Scene
  | [] => []
  | n :: ns => statementScenes set s n ++ statementsScenes set (next primitives s n) ns

end

/-- The scenes of a program. -/
def scenes (body : List Node) : List Scene := statementScenes primitives ⟨[], [], none⟩ (origin body) (.block body)

theorem statementScenes_function (set : Setting) (s : Point) (x : Datum) (params : List Datum) (body : Node) :
    statementScenes primitives set s (.define x (.function params body)) =
      set.scene s.here (.jump ((next primitives (s.inFunction x params) body).here + 1)) [] .none ::
        (statementScenes primitives (set.inFunction (s.here + 2) params) (s.inFunction x params) body ++
          [(set.inFunction (s.here + 2) params).loose.scene (next primitives (s.inFunction x params) body).here
              .return [] .none,
            set.scene ((next primitives (s.inFunction x params) body).here + 1)
              (.const (.number (.int (s.routineFor x)))) [] .none,
            set.scene ((next primitives (s.inFunction x params) body).here + 3) (s.storing x)
              [(next primitives (s.inFunction x params) body).here + 3] (.variable x)]) := by
  rw [statementScenes]

theorem statementScenes_variable {value : Node} (h : ∀ params body, value ≠ .function params body)
    (set : Setting) (s : Point) (x : Datum) :
    statementScenes primitives set s (.define x value) =
      expressionScenes primitives set s.toNames [] s.here value ++
        [set.scene (s.here + width primitives s.toNames value) (s.storing x)
          [s.here + width primitives s.toNames value] (.variable x)] := by
  rw [statementScenes]
  exact h

/-! ## Scenes and instructions -/

mutual

theorem expressionScenes_toSpot (set : Setting) (c : Names) : ∀ {e : Node}, IsExpr e → ∀ (below : List Nat) (start : Nat),
    (expressionScenes primitives set c below start e).map (·.toSpot) = expression primitives set.shape c start e
  | _, .name x, below, start => by rw [expressionScenes, expression]; rfl
  | _, .literal kind d, below, start => by rw [expressionScenes, expression]; rfl
  | _, .unary he, below, start => by
    rw [expressionScenes, expression, map_append, expressionScenes_toSpot set c he]
    rfl
  | _, @IsExpr.binary op l r hl hr, below, start => by
    rw [expressionScenes, expression]
    cases shortcutOf? op with
    | some pair =>
      simp only [map_append, map_cons, map_nil, expressionScenes_toSpot set c hl,
        expressionScenes_toSpot set c hr]
      rfl
    | none =>
      cases swappedOf? op with
      | some o =>
        simp only [map_append, map_cons, map_nil, expressionScenes_toSpot set c hl,
          expressionScenes_toSpot set c hr]
        rfl
      | none =>
        simp only [map_append, map_cons, map_nil, expressionScenes_toSpot set c hl,
          expressionScenes_toSpot set c hr]
        rfl
  | _, .call _ hargs, below, start => by
    rw [expressionScenes, expression, map_append, argumentScenes_toSpot set c hargs]
    rfl
  | _, .function _ _, below, start => by
    rw [expressionScenes, expression]
    · rfl
    all_goals simp

theorem argumentScenes_toSpot (set : Setting) (c : Names) : ∀ {es : List Node}, AreExprs es →
    ∀ (below : List Nat) (start : Nat),
    (argumentScenes primitives set c below start es).map (·.toSpot) = arguments primitives set.shape c start es
  | _, .nil, below, start => by rw [argumentScenes, arguments]; rfl
  | _, .cons he hes, below, start => by
    rw [argumentScenes, arguments, map_append, argumentScenes_toSpot set c hes, expressionScenes_toSpot set c he]

end

theorem printedScenes_toSpot (set : Setting) (c : Names) : ∀ {es : List Node}, AreExprs es → ∀ start : Nat,
    (printedScenes primitives set c start es).map (·.toSpot) = printed primitives set.shape c start es := by
  intro es
  induction es with
  | nil =>
    intro _ start
    rw [printedScenes, printed]
    rfl
  | cons e es ih =>
    rintro (_ | ⟨he, hes⟩) start
    rw [printedScenes, printed, map_append, map_cons, ih hes, expressionScenes_toSpot primitives set c he]
    rfl

mutual

theorem statementScenes_toSpot : ∀ {n : Node}, IsStat n → ∀ (set : Setting) (s : Point),
    (statementScenes primitives set s n).map (·.toSpot) = statement primitives set.shape s n
  | _, .exprStat he, set, s => by
    rw [statementScenes, statement, map_append, expressionScenes_toSpot primitives set _ he]
    rfl
  | _, .print hargs, set, s => by
    rw [statementScenes, statement, map_append, printedScenes_toSpot primitives set _ hargs]
    rfl
  | _, .ifThen hcond hyes, set, s => by
    rw [statementScenes, statement, map_append, map_cons, expressionScenes_toSpot primitives set _ hcond,
      statementScenes_toSpot hyes]
    rfl
  | _, .ifElse hcond hyes hno, set, s => by
    rw [statementScenes, statement, map_append, map_cons, map_append, map_cons,
      expressionScenes_toSpot primitives set _ hcond, statementScenes_toSpot hyes, statementScenes_toSpot hno]
    rfl
  | _, .loop hcond hbody, set, s => by
    rw [statementScenes, statement, map_append, map_cons, map_append,
      expressionScenes_toSpot primitives _ _ hcond, statementScenes_toSpot hbody]
    rfl
  | _, .breakLoop, set, s => by
    rw [statementScenes, statement]
    cases innermost? set.shape <;> rfl
  | _, .continueLoop, set, s => by
    rw [statementScenes, statement]
    cases innermost? set.shape <;> rfl
  | _, .block hbody, set, s => by
    rw [statementScenes, statement, map_cons, map_append, statementsScenes_toSpot hbody]
    rfl
  | _, @IsStat.function x xs body hbody, set, s => by
    have hinside : (statementScenes primitives (set.inFunction (s.here + 2) xs) (s.inFunction x xs)
        (.block body)).map (·.toSpot) = statement primitives (.function :: set.shape) (s.inFunction x xs)
          (.block body) := by
      rw [statementScenes, statement, map_cons, map_append, statementsScenes_toSpot hbody]
      rfl
    rw [statementScenes_function, statement_function, map_cons, map_append, hinside]
    rfl
  | _, .define x hvalue hne, set, s => by
    rw [statementScenes_variable _ hne, statement_variable _ hne, map_append,
      expressionScenes_toSpot primitives set _ hvalue]
    rfl
  | _, .assign x hvalue, set, s => by
    rw [statementScenes, statement, map_append, expressionScenes_toSpot primitives set _ hvalue]
    rfl
  | _, .return, set, s => by rw [statementScenes, statement]; rfl
  | _, .returnValue hvalue, set, s => by
    rw [statementScenes, statement, map_append, expressionScenes_toSpot primitives set _ hvalue]
    rfl

theorem statementsScenes_toSpot : ∀ {ns : List Node}, AreStats ns → ∀ (set : Setting) (s : Point),
    (statementsScenes primitives set s ns).map (·.toSpot) = statements primitives set.shape s ns
  | _, .nil, set, s => by rw [statementsScenes, Layout.statements]; rfl
  | _, .cons hn hns, set, s => by
    rw [statementsScenes, Layout.statements, map_append, statementScenes_toSpot hn, statementsScenes_toSpot hns]

end

theorem program_toSpot {body : List Node} (h : AreStats body) :
    (scenes primitives body).map (·.toSpot) = program primitives body :=
  statementScenes_toSpot primitives (.block h) _ _

end Layout

/-- A scene that lies in a setting. -/
structure Scene.Of (set : Setting) (x : Scene) : Prop where
  shape : x.shape = set.shape
  scopes : x.view.scopes = set.scopes
  home : x.view.home = set.home

theorem Setting.scene_of (set : Setting) (address : Nat) (instr : Instr) (ends : List Nat) (subject : Subject) :
    (set.scene address instr ends subject).Of set := ⟨rfl, rfl, rfl⟩

/-! ## Straight code -/

/-- How many values an operation without operands takes from the stack. -/
def Opcode.takes : Opcode → Nat
  | .printItem | .pop | .unary _ => 1
  | .binary _ => 2
  | _ => 0

/-- Whether an operation without operands leaves a value on the stack. -/
def Opcode.gives : Opcode → Bool
  | .loadNull | .loadTrue | .loadFalse | .unary _ | .binary _ => true
  | _ => false

/-- How many arguments are passed. -/
def Subject.count : Subject → Nat
  | .call _ _ _ args => args.length
  | _ => 0

namespace Scene

variable (x : Scene)

/-- How many values the instruction takes from the stack. -/
def takes : Nat :=
  match x.instr with
  | .plain op => op.takes
  | .store .. | .branch .. | .returnValue => 1
  | .call _ | .primitive _ => x.subject.count
  | _ => 0

/-- Whether there is a value more on the stack in the end. -/
def gives : Bool :=
  match x.instr with
  | .const _ | .load .. | .call _ | .primitive _ => true
  | .plain op => op.gives
  | _ => false

/-- What is at hand after the instruction, at the address where it goes on. -/
def after (address : Nat) : View :=
  { x.view with ends := (if x.gives then [address] else []) ++ x.view.ends.drop x.takes }

end Scene

/-- How many words an instruction takes. -/
def Instr.size : Instr → Nat
  | .plain _ | .leave | .return | .returnValue => 1
  | .load .. | .store .. => 3
  | _ => 2

/-- An instruction takes the words from one address up to another. What is refused may take any number of them. -/
def Instr.Spans (instr : Instr) (lo hi : Nat) : Prop := lo < hi ∧ (instr = .refused ∨ hi = lo + instr.size)

theorem Instr.size_pos (instr : Instr) : 0 < instr.size := by cases instr <;> simp [size]

theorem Instr.spans {instr : Instr} {lo hi : Nat} (h : hi = lo + instr.size) : instr.Spans lo hi :=
  ⟨by have := instr.size_pos; omega, Or.inr h⟩

/-- Whether an instruction goes on with the one behind it, in the same scopes and the same function. -/
def Instr.isStraight : Instr → Bool
  | .const _ | .plain _ | .load .. | .store .. | .call _ | .primitive _ => true
  | _ => false

/-- Whether an instruction carries out a call. -/
def Instr.isCall : Instr → Bool
  | .call _ | .primitive _ => true
  | _ => false

/-- An instruction that goes on at an address with those operands, unless it is refused. -/
structure Scene.Passes (x : Scene) (stop : Nat) (ends : List Nat) : Prop where
  spans : x.instr.Spans x.address stop
  goes : x.instr = .refused ∨
    x.instr.isStraight = true ∧ x.takes ≤ x.view.ends.length ∧ (x.after stop).ends = ends

/-- Code that leads from an address and operands to others. What a jump of it skips is a part of it. -/
inductive Strand (set : Setting) : List Nat → Nat → List Nat → Nat → List Scene → Prop
  | nil (ends : List Nat) (start : Nat) : Strand set ends start ends start []
  | single {ends ends' : List Nat} {start stop : Nat} {instr : Instr} {subject : Subject} :
      (set.scene start instr ends subject).Passes stop ends' →
      Strand set ends start ends' stop [set.scene start instr ends subject]
  | append {ends between ends' : List Nat} {start middle stop : Nat} {scenes more : List Scene} :
      Strand set ends start between middle scenes → Strand set between middle ends' stop more →
      Strand set ends start ends' stop (scenes ++ more)
  | skipping {below : List Nat} {start last : Nat} {skip skipped : Opcode} {scenes : List Scene} :
      skipped.takes = 0 → skipped.gives = true → Strand set below (start + 2) (last :: below) last scenes →
      Strand set (start :: below) start ((last + 3) :: below) (last + 3)
        (set.scene start (.branch skip (last + 2)) (start :: below) .none :: (scenes ++
          [set.scene last (.jump (last + 3)) (last :: below) .none,
            set.scene (last + 2) (.plain skipped) below .none]))

theorem Strand.of {set : Setting} {ends ends' : List Nat} {start stop : Nat} {scenes : List Scene}
    (h : Strand set ends start ends' stop scenes) : ∀ x ∈ scenes, x.Of set := by
  induction h with
  | nil => exact forall_mem_nil _
  | single => exact forall_mem_singleton.mpr (set.scene_of ..)
  | append _ _ ih ih' => exact forall_mem_append.mpr ⟨ih, ih'⟩
  | skipping _ _ _ ih =>
    exact forall_mem_cons.mpr ⟨set.scene_of .., forall_mem_append.mpr
      ⟨ih, forall_mem_cons.mpr ⟨set.scene_of .., forall_mem_singleton.mpr (set.scene_of ..)⟩⟩⟩

namespace Node

/-- Statements that lead from their start to what is behind them. -/
inductive Straight : Node → Prop
  | exprStat {e : Node} : IsExpr e → Straight (.exprStat e)
  | print {args : List Node} : AreExprs args → Straight (.print args)
  | define (x : Datum) {value : Node} : IsExpr value → (∀ params body, value ≠ .function params body) →
      Straight (.define x value)
  | assign (x : Datum) {value : Node} : IsExpr value → Straight (.assign x value)

theorem Straight.isStat {n : Node} : n.Straight → IsStat n
  | .exprStat he => .exprStat he
  | .print hargs => .print hargs
  | .define x hvalue hne => .define x hvalue hne
  | .assign x hvalue => .assign x hvalue

end Node

namespace Layout

open CompileM (swappedOf? shortcutOf?)

variable (prims : List String)

section

variable (set : Setting) (below : List Nat) {c : Names} {start stop : Nat}

theorem refused_passes {set : Setting} {ends ends' : List Nat} {subject : Subject} (h : start < stop) :
    (set.scene start .refused ends subject).Passes stop ends' := ⟨⟨h, Or.inl rfl⟩, Or.inl rfl⟩

theorem loading_passes (x : Datum) : (set.scene start (c.loading prims x) below (.variable x)).Passes
    (start + width prims c (.name x)) ((start + width prims c (.name x)) :: below) := by
  unfold Names.loading
  rw [width]
  cases c.place? prims x with
  | none => exact refused_passes (by simp)
  | some place => cases place <;> exact ⟨spans rfl, Or.inr ⟨rfl, Nat.zero_le _, rfl⟩⟩

theorem loadingLiteral_passes (kind : LiteralKind) (fields : List Datum) :
    (set.scene start (loadingLiteral kind fields) below .none).Passes
      (start + width prims c (.literal kind fields)) ((start + width prims c (.literal kind fields)) :: below) := by
  cases kind <;> simp only [width] <;> exact ⟨spans rfl, Or.inr ⟨rfl, Nat.zero_le _, rfl⟩⟩

theorem applyingUnary_passes (last : Nat) (op : Datum) :
    (set.scene start (applyingUnary op) (last :: below) .none).Passes (start + 1) ((start + 1) :: below) := by
  unfold applyingUnary
  split
  · exact ⟨spans rfl, Or.inr ⟨rfl, Nat.le_add_left .., rfl⟩⟩
  · exact refused_passes (Nat.lt_succ_self _)

theorem binary_passes (last middle : Nat) (op : BinaryOp) :
    (set.scene start (.plain (.binary op)) (last :: middle :: below) .none).Passes (start + 1) ((start + 1) :: below) :=
  ⟨spans rfl, Or.inr ⟨rfl, Nat.le_add_left .., rfl⟩⟩

theorem applyingBinary_passes (last middle : Nat) (op : Datum) :
    (set.scene start (applyingBinary op) (last :: middle :: below) .none).Passes (start + 1) ((start + 1) :: below) := by
  unfold applyingBinary
  split
  · exact binary_passes set below last middle _
  · exact refused_passes (Nat.lt_succ_self _)

theorem calling_passes (first : Nat) (callee : Node) (args : List Node) :
    (set.scene start (c.calling prims callee) (ends prims c first args ++ below)
      (.call c first callee args)).Passes (start + 2) ((start + 2) :: below) := by
  have htakes : args.length ≤ (ends prims c first args ++ below).length := by simp
  have hends : (start + 2) :: (ends prims c first args ++ below).drop args.length = (start + 2) :: below := by
    rw [drop_left' (length_ends prims c first args)]
  rcases c.calling_cases prims callee with ⟨id, hinstr⟩ | ⟨x, hinstr⟩ | hinstr
  · exact hinstr ▸ ⟨spans rfl, Or.inr ⟨rfl, htakes, hends⟩⟩
  · exact hinstr ▸ ⟨spans rfl, Or.inr ⟨rfl, htakes, hends⟩⟩
  · exact hinstr ▸ refused_passes (Nat.lt_add_of_pos_right (by decide))

theorem storing_passes (last : Nat) (x : Datum) :
    (set.scene start (c.storing x) [last] (.variable x)).Passes (start + 3) [] := by
  unfold Names.storing
  split
  · exact ⟨spans rfl, Or.inr ⟨rfl, Nat.le_refl 1, rfl⟩⟩
  · exact refused_passes (Nat.lt_add_of_pos_right (by decide))

theorem isCall_storing (x : Datum) : (c.storing x).isCall = false := by
  unfold Names.storing
  split <;> rfl

theorem assigning_passes (last : Nat) (x : Datum) :
    (set.scene start (c.assigning prims x) [last] (.variable x)).Passes (start + 3) [] := by
  unfold Names.assigning
  split
  · exact refused_passes (Nat.lt_add_of_pos_right (by decide))
  · exact refused_passes (Nat.lt_add_of_pos_right (by decide))
  · exact ⟨spans rfl, Or.inr ⟨rfl, Nat.le_refl 1, rfl⟩⟩

end

section

variable (set : Setting) (c : Names)

mutual

theorem expression_strand : ∀ {e : Node}, IsExpr e → ∀ (below : List Nat) (start : Nat),
    Strand set below start ((start + width prims c e) :: below) (start + width prims c e)
      (expressionScenes prims set c below start e)
  | _, .name x, below, start => by
    rw [expressionScenes]
    exact .single (loading_passes prims set below x)
  | _, .literal kind d, below, start => by
    rw [expressionScenes]
    exact .single (loadingLiteral_passes prims set below kind [d])
  | _, .unary he, below, start => by
    rw [expressionScenes, width, ← Nat.add_assoc]
    exact (expression_strand he below start).append (.single (applyingUnary_passes set below _ _))
  | _, @IsExpr.binary op l r hl hr, below, start => by
    rw [expressionScenes, width]
    cases hshort : shortcutOf? op with
    | some pair =>
      dsimp only
      rw [show start + (width prims c l + width prims c r + 5) =
        start + width prims c l + 2 + width prims c r + 3 by omega]
      obtain ⟨htakes, hgives⟩ : pair.2.takes = 0 ∧ pair.2.gives = true := by
        unfold shortcutOf? at hshort
        split at hshort <;> cases hshort <;> exact ⟨rfl, rfl⟩
      exact (expression_strand hl below start).append (.skipping htakes hgives (expression_strand hr below _))
    | none =>
      dsimp only
      cases swappedOf? op with
      | some o =>
        rw [Nat.add_comm (width prims c l), ← Nat.add_assoc, ← Nat.add_assoc]
        exact (expression_strand hr below start).append ((expression_strand hl _ _).append (.single (binary_passes set below _ _ o)))
      | none =>
        rw [← Nat.add_assoc, ← Nat.add_assoc]
        exact (expression_strand hl below start).append
          ((expression_strand hr _ _).append (.single (applyingBinary_passes set below _ _ op)))
  | _, @IsExpr.call callee args _ hargs, below, start => by
    rw [expressionScenes, width, ← Nat.add_assoc]
    exact (arguments_strand hargs below start).append (.single (calling_passes prims set below _ callee args))
  | _, .function _ _, below, start => by
    rw [expressionScenes, width]
    · exact .single (refused_passes (Nat.lt_succ_self _))
    all_goals simp

theorem arguments_strand : ∀ {es : List Node}, AreExprs es → ∀ (below : List Nat) (start : Nat),
    Strand set below start (ends prims c start es ++ below) (start + widths prims c es)
      (argumentScenes prims set c below start es)
  | _, .nil, below, start => by
    rw [argumentScenes, widths]
    exact .nil below start
  | _, .cons he hes, below, start => by
    rw [argumentScenes, ends, widths, ← Nat.add_assoc]
    exact (arguments_strand hes below start).append (expression_strand he _ _)

end

theorem printed_strand {es : List Node} (hes : AreExprs es) (start : Nat) :
    Strand set [] start [] (start + printedWidth prims c es) (printedScenes prims set c start es) := by
  induction es generalizing start with
  | nil =>
    rw [printedScenes, printedWidth]
    exact .nil [] start
  | cons e es ih =>
    obtain _ | ⟨he, hes⟩ := hes
    rw [printedScenes, printedWidth, ← Nat.add_assoc, ← Nat.add_assoc]
    have hprint : (set.scene (start + width prims c e) (.plain .printItem) [start + width prims c e]
        .none).Passes (start + width prims c e + 1) [] := ⟨spans rfl, Or.inr ⟨rfl, Nat.le_refl 1, rfl⟩⟩
    exact (expression_strand prims set c he [] start).append ((Strand.single hprint).append (ih hes _))

end

/-- The last instruction of a straight statement is none that calls. -/
theorem straight_cases {n : Node} (h : n.Straight) (set : Setting) (s : Point) :
    ∃ front ends last instr subject,
      statementScenes prims set s n = front ++ [set.scene last instr ends subject] ∧
      Strand set [] s.here ends last front ∧
      (set.scene last instr ends subject).Passes (next prims s n).here [] ∧ instr.isCall = false := by
  cases h with
  | exprStat he =>
    rw [statementScenes, next, Point.skip_here, ← Nat.add_assoc]
    exact ⟨_, _, _, _, _, rfl, expression_strand prims set s.toNames he [] s.here,
      ⟨spans rfl, Or.inr ⟨rfl, Nat.le_refl 1, rfl⟩⟩, rfl⟩
  | print hargs =>
    rw [statementScenes, next, Point.skip_here, ← Nat.add_assoc]
    exact ⟨_, _, _, _, _, rfl, printed_strand prims set s.toNames hargs s.here,
      ⟨spans rfl, Or.inr ⟨rfl, Nat.zero_le _, rfl⟩⟩, rfl⟩
  | define x hvalue hne =>
    rw [statementScenes_variable _ hne, next_variable _ hne, Point.declare_here, Point.skip_here, ← Nat.add_assoc]
    exact ⟨_, _, _, _, _, rfl, expression_strand prims set s.toNames hvalue [] s.here, storing_passes set _ x,
      isCall_storing x⟩
  | assign x hvalue =>
    rw [statementScenes, next, Point.skip_here, ← Nat.add_assoc]
    refine ⟨_, _, _, _, _, rfl, expression_strand prims set s.toNames hvalue [] s.here,
      assigning_passes prims set _ x, ?_⟩
    unfold Names.assigning
    split <;> rfl

theorem straight_strand {n : Node} (h : n.Straight) (set : Setting) (s : Point) :
    Strand set [] s.here [] (next prims s n).here (statementScenes prims set s n) := by
  obtain ⟨front, ends, last, instr, subject, hscenes, hfront, hlast, -⟩ := straight_cases prims h set s
  rw [hscenes]
  exact hfront.append (.single hlast)

end Layout

end Cilly
