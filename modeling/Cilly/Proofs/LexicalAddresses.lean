import Cilly.Proofs.Acceptance
import Cilly.Proofs.WellFormed
import Mathlib.Data.List.Forall2

/-!
# Variables are lexical addresses

A compiled program refers to a variable by two numbers: how many scopes lie further in than the scope of the variable, and where in
that scope it stands. Instructions that do so and mentions of variables in the tree go together one by one, in order
(`Paired`), and each instruction has the address that the name has at its mention (`Serves`).

The name of a primitive is taken for a variable where no variable or function has that name. Its address is not one in a
scope: the first of the numbers is -2, and the second is the place of the primitive in the list of primitives.
-/

namespace Cilly

open Node List

variable {c : Context} {index : Nat} {names : Names} {shape : List Mark}

/-! ## Mentions of variables -/

namespace Context

/-- Where a name stands in the scopes around a place: there, and in no scope further in. -/
structure Locates (c : Context) (x : Datum) (depth index : Nat) : Prop where
  held : ∃ names y, c.scopes[depth]? = some names ∧ names[index]? = some y ∧ y.eq x = true
  nearest : ∀ d < depth, ∀ names, c.scopes[d]? = some names → (names.any fun y => y.eq x) = false

end Context

/-- Whether what is mentioned is taken for a variable. -/
def Mention.touches (m : Mention) : Bool :=
  match m.use with
  | .read x => m.context.sees x || !m.context.knows x
  | .assign _ | .define _ => true
  | _ => false

/-- Whether an operation reads or writes a variable. -/
def Opcode.isAccess : Opcode → Bool
  | .loadVar | .storeVar => true
  | _ => false

/-- An instruction reads or writes what is mentioned. -/
inductive Line.Serves (primitives : List String) : Line → Mention → Prop
  | read {address : Nat} {c : Context} {x : Datum} {depth index : Nat} :
      c.Locates x depth index → Serves primitives ⟨address, .loadVar, [(depth : Int), (index : Int)]⟩ ⟨c, .read x⟩
  | assign {address : Nat} {c : Context} {x : Datum} {depth index : Nat} :
      c.Locates x depth index → Serves primitives ⟨address, .storeVar, [(depth : Int), (index : Int)]⟩ ⟨c, .assign x⟩
  /-- A new variable is one of the scope that it is added to. -/
  | define {address : Nat} {c : Context} {x : Datum} {names : List Datum} {index : Nat} :
      c.declared x = false → (c.declare [x]).scopes[0]? = some names → names[index]? = some x →
      Serves primitives ⟨address, .storeVar, [0, (index : Int)]⟩ ⟨c, .define x⟩
  | readPrimitive {address : Nat} {c : Context} {x : Datum} {text : String} {index : Nat} :
      c.sees x = false → c.knows x = false → primitives[index]? = some text → x = .text text →
      Serves primitives ⟨address, .loadVar, [-2, (index : Int)]⟩ ⟨c, .read x⟩
  | assignPrimitive {address : Nat} {c : Context} {x : Datum} {text : String} {index : Nat} :
      c.sees x = false → c.knows x = false → primitives[index]? = some text → x = .text text →
      Serves primitives ⟨address, .storeVar, [-2, (index : Int)]⟩ ⟨c, .assign x⟩

namespace Context

variable {c : Context} {names : Names} {x : Datum} {prims : List String}

theorem Locates.sees {depth : Nat} (h : c.Locates x depth index) : c.sees x = true := by
  obtain ⟨names, y, hnames, hy, heq⟩ := h.held
  exact any_eq_true.mpr ⟨names, mem_of_getElem? hnames, any_eq_true.mpr ⟨y, mem_of_getElem? hy, heq⟩⟩

theorem find?_nearest {x : Datum} : ∀ {visible : List (Array Datum)} {depth index : Nat},
    Assembly.find? x visible = some (depth, index) →
    ∀ d < depth, ∀ names, visible[d]? = some names → (names.any fun y => y.eq x) = false
  | [], _, _, h => by simp [Assembly.find?] at h
  | names :: outer, depth, index, h => by
    rw [Assembly.find?] at h
    intro d hd names' hnames'
    cases hindex : nameIndex? names x with
    | some j =>
      rw [hindex] at h
      cases h
      omega
    | none =>
      rw [hindex] at h
      obtain ⟨⟨depth', index'⟩, hfind, heq⟩ := Option.map_eq_some_iff.mp h
      cases heq
      cases d with
      | zero =>
        cases hnames'
        rw [← Array.findIdx?_isSome]
        exact congrArg Option.isSome hindex
      | succ d => exact find?_nearest hfind d (by omega) names' (by simpa using hnames')

namespace Reflects

theorem locates (h : c.Reflects names) {depth : Nat} (hplace : names.place? prims x = some (.variable depth index)) :
    c.Locates x depth index := by
  rcases Names.place?_cases hplace with ⟨_, _, ⟨⟩, hfind⟩ | ⟨-, ⟨_, ⟨⟩, -⟩ | ⟨-, _, ⟨⟩, -⟩⟩
  constructor
  · obtain ⟨held, y, hheld, hy, heq⟩ := find?_eq_some hfind
    refine ⟨held.toList, y, ?_, by rwa [Array.getElem?_toList], heq⟩
    rw [← h.scopes, getElem?_map, hheld]
    rfl
  · intro d hd held hheld
    rw [← h.scopes, getElem?_map] at hheld
    obtain ⟨held', hheld', rfl⟩ := Option.map_eq_some_iff.mp hheld
    rw [Array.any_toList]
    exact find?_nearest hfind d hd held' hheld'

theorem known_of_routine (h : c.Reflects names) {id : Nat} (hplace : names.place? prims x = some (.routine id)) :
    c.sees x = false ∧ c.knows x = true := by
  rcases Names.place?_cases hplace with ⟨_, _, ⟨⟩, -⟩ | ⟨hfind, ⟨_, ⟨⟩, hindex⟩ | ⟨-, _, ⟨⟩, -⟩⟩
  rw [h.sees, h.known, hfind, hindex]
  exact ⟨rfl, rfl⟩

theorem text_of_primitive (h : c.Reflects names) (hplace : names.place? prims x = some (.primitive index)) :
    c.sees x = false ∧ c.knows x = false ∧ ∃ text, prims[index]? = some text ∧ x = .text text := by
  rcases Names.place?_cases hplace with ⟨_, _, ⟨⟩, -⟩ | ⟨hfind, ⟨_, ⟨⟩, -⟩ | ⟨hindex, _, ⟨⟩, hprovided⟩⟩
  obtain ⟨hlt, hfound, -⟩ := findIdx?_eq_some_iff_getElem.mp hprovided
  rw [h.sees, h.known, hfind, hindex]
  exact ⟨rfl, rfl, _, getElem?_eq_getElem hlt, Datum.text_eq_iff.mp hfound⟩

end Reflects

end Context

/-! ## Pairs -/

/-- Instructions and mentions of variables go together one by one. -/
def Paired (primitives : List String) (lines : List Line) (ms : List Mention) : Prop :=
  Forall₂ (Line.Serves primitives) (lines.filter (·.op.isAccess)) (ms.filter Mention.touches)

namespace Line.Serves

variable {prims : List String} {line : Line} {m : Mention}

theorem isAccess (h : line.Serves prims m) : line.op.isAccess = true := by
  cases h <;> rfl

theorem touches (h : line.Serves prims m) : m.touches = true := by
  cases h with
  | read hlocates => simp [Mention.touches, hlocates.sees]
  | readPrimitive _ hknows _ _ => simp [Mention.touches, hknows]
  | assign | define | assignPrimitive => rfl

end Line.Serves

namespace Layout

/-- What is laid out goes together with what is mentioned. -/
def Pairs (p : Program) (primitives : List String) (spots : List Spot) (ms : List Mention) : Prop :=
  Paired primitives (spots.map fun x => p.lineAt x.address x.instr.op) ms

variable {p : Program} {prims : List String}

namespace Pairs

variable {spots more : List Spot} {ms ns : List Mention} {x : Spot}

theorem append (h : Pairs p prims spots ms) (h' : Pairs p prims more ns) :
    Pairs p prims (spots ++ more) (ms ++ ns) := by
  unfold Pairs Paired at *
  rw [map_append, filter_append, filter_append]
  exact rel_append h h'

theorem idle (hspots : ∀ x ∈ spots, x.instr.op.isAccess = false) (hms : ∀ m ∈ ms, m.touches = false) :
    Pairs p prims spots ms := by
  have hlines : (spots.map fun x => p.lineAt x.address x.instr.op).filter (·.op.isAccess) = [] := by
    rw [filter_eq_nil_iff]
    intro line hline
    obtain ⟨x, hx, rfl⟩ := mem_map.mp hline
    simpa [Program.lineAt] using hspots x hx
  have hmentions : ms.filter Mention.touches = [] := by
    rw [filter_eq_nil_iff]
    intro m hm
    simpa using hms m hm
  unfold Pairs Paired
  rw [hlines, hmentions]
  exact .nil

theorem cons (h : Pairs p prims spots ms) (hx : x.instr.op.isAccess = false) : Pairs p prims (x :: spots) ms :=
  (idle (forall_mem_singleton.mpr hx) (forall_mem_nil _)).append h

theorem before (h : Pairs p prims spots ms) (hmore : ∀ x ∈ more, x.instr.op.isAccess = false) :
    Pairs p prims (spots ++ more) ms := by
  have hidle : Pairs p prims more [] := idle hmore (forall_mem_nil _)
  have hall := h.append hidle
  rwa [append_nil] at hall

theorem single {m : Mention} (h : (p.lineAt x.address x.instr.op).Serves prims m) : Pairs p prims [x] [m] := by
  have haccess : x.instr.op.isAccess = true := h.isAccess
  unfold Pairs Paired
  simpa [haccess, h.touches, Program.lineAt] using h

variable {address : Nat} {depth index : Int} {shape : List Mark} {m : Mention}

theorem load (hin : (Instr.load depth index).In p address)
    (h : Line.Serves prims ⟨address, .loadVar, [depth, index]⟩ m) :
    Pairs p prims [⟨address, .load depth index, shape⟩] [m] := by
  have hline : p.lineAt address .loadVar = ⟨address, .loadVar, [depth, index]⟩ := Program.Holds.lineAt hin rfl
  exact single (hline ▸ h)

theorem store (hin : (Instr.store depth index).In p address)
    (h : Line.Serves prims ⟨address, .storeVar, [depth, index]⟩ m) :
    Pairs p prims [⟨address, .store depth index, shape⟩] [m] := by
  have hline : p.lineAt address .storeVar = ⟨address, .storeVar, [depth, index]⟩ := Program.Holds.lineAt hin rfl
  exact single (hline ▸ h)

end Pairs

section

variable {c : Context} {names : Names} {x : Datum} {address : Nat} {shape : List Mark}

theorem loading_pairs (h : c.Reflects names) (hin : (names.loading prims x).In p address) :
    Pairs p prims [⟨address, names.loading prims x, shape⟩] [⟨c, .read x⟩] := by
  unfold Names.loading at hin ⊢
  cases hplace : names.place? prims x with
  | none =>
    rw [hplace] at hin
    exact hin.elim
  | some place =>
    rw [hplace] at hin
    cases place with
    | «variable» depth index => exact .load hin (.read (h.locates hplace))
    | primitive index =>
      obtain ⟨hsees, hknows, text, htext, hx⟩ := h.text_of_primitive hplace
      exact .load hin (.readPrimitive hsees hknows htext hx)
    | routine id =>
      -- a function is loaded as a constant
      obtain ⟨hsees, hknows⟩ := h.known_of_routine hplace
      refine .idle (forall_mem_singleton.mpr rfl) (forall_mem_singleton.mpr ?_)
      simp [Mention.touches, hsees, hknows]

theorem assigning_pairs (h : c.Reflects names) (hin : (names.assigning prims x).In p address) :
    Pairs p prims [⟨address, names.assigning prims x, shape⟩] [⟨c, .assign x⟩] := by
  unfold Names.assigning at hin ⊢
  cases hplace : names.place? prims x with
  | none =>
    rw [hplace] at hin
    exact hin.elim
  | some place =>
    rw [hplace] at hin
    cases place with
    | routine id => exact hin.elim
    | «variable» depth index => exact .store hin (.assign (h.locates hplace))
    | primitive index =>
      obtain ⟨hsees, hknows, text, htext, hx⟩ := h.text_of_primitive hplace
      exact .store hin (.assignPrimitive hsees hknows htext hx)

theorem storing_pairs (h : c.Reflects names) (hopen : c.scopes ≠ []) (hin : (names.storing x).In p address) :
    Pairs p prims [⟨address, names.storing x, shape⟩] [⟨c, .define x⟩] := by
  have hdeclared : c.declared x = _ := h.declared
  unfold Names.storing at hin ⊢
  cases hindex : nameIndex? names.innermost x with
  | some i =>
    rw [hindex] at hin
    exact hin.elim
  | none =>
    rw [hindex] at hin hdeclared
    refine .store hin ?_
    cases hvisible : names.visible with
    | nil =>
      rw [← h.scopes, hvisible] at hopen
      exact absurd rfl hopen
    | cons top outer =>
      have hscopes : c.scopes = top.toList :: outer.map Array.toList := by rw [← h.scopes, hvisible, map_cons]
      have hslot : names.slot = top.toList.length := by simp [Names.slot, Names.innermost, hvisible]
      have hadded : (c.declare [x]).scopes[0]? = some (top.toList ++ [x]) := by simp [Context.declare, hscopes]
      rw [hslot]
      exact .define hdeclared hadded (by simp)

end

theorem isAccess_loadingLiteral (kind : LiteralKind) (fields : List Datum) :
    (loadingLiteral kind fields).op.isAccess = false := by
  cases kind <;> rfl

theorem isAccess_of_isPlain {op : Opcode} (h : op.isPlain = true) : op.isAccess = false := by
  cases op <;> first | rfl | cases h

theorem isAccess_of_isBranch {op : Opcode} (h : op.isBranch = true) : op.isAccess = false := by
  cases op <;> first | rfl | cases h

theorem isAccess_applyingUnary (op : Datum) : (applyingUnary op).op.isAccess = false := by
  unfold applyingUnary
  split <;> rfl

theorem isAccess_applyingBinary (op : Datum) : (applyingBinary op).op.isAccess = false := by
  unfold applyingBinary
  split <;> rfl

theorem isAccess_calling (names : Names) (callee : Node) : (names.calling prims callee).op.isAccess = false := by
  rcases names.calling_cases prims callee with ⟨id, hinstr⟩ | ⟨x, hinstr⟩ | hinstr <;> rw [hinstr] <;> rfl

mutual

theorem expression_pairs (h : c.Reflects names) : ∀ {e : Node}, IsExpr e →
    ∀ {start : Nat}, p.Follows (expression prims shape names start e) →
      Pairs p prims (expression prims shape names start e) (mentions c e)
  | _, .name x, start, hfollows => by
    rw [expression] at hfollows ⊢
    rw [mentions]
    exact loading_pairs h (hfollows _ (mem_singleton_self _))
  | _, .literal kind d, start, _ => by
    rw [expression]
    refine .idle (forall_mem_singleton.mpr (isAccess_loadingLiteral kind [d])) ?_
    simp [mentions]
  | _, .unary he, start, hfollows => by
    rw [expression] at hfollows ⊢
    rw [mentions]
    obtain ⟨hfollows, -⟩ := follows_append.mp hfollows
    exact (expression_pairs h he hfollows).before (forall_mem_singleton.mpr (isAccess_applyingUnary _))
  | _, @IsExpr.binary op l r hl hr, start, hfollows => by
    rw [expression] at hfollows ⊢
    cases hshort : CompileM.shortcutOf? op with
    | some pair =>
      obtain ⟨skip, skipped⟩ := pair
      obtain ⟨hskip, hskipped⟩ := shortcutOf?_isPlain hshort
      rw [hshort] at hfollows
      simp only [follows_append, follows_cons] at hfollows
      rw [mentions_shortcut hshort]
      refine (expression_pairs h hl hfollows.1).append (.cons (.before (expression_pairs h hr hfollows.2.2.1) ?_) ?_)
      · exact forall_mem_cons.mpr ⟨rfl, forall_mem_singleton.mpr (isAccess_of_isPlain hskipped)⟩
      · exact isAccess_of_isBranch hskip
    | none =>
      rw [hshort] at hfollows
      rw [mentions]
      dsimp only at hfollows ⊢
      cases hswap : CompileM.swappedOf? op with
      | some o =>
        rw [hswap] at hfollows
        simp only [follows_append] at hfollows
        exact (expression_pairs h hr hfollows.1).append ((expression_pairs h hl hfollows.2.1).before
          (forall_mem_singleton.mpr rfl))
      | none =>
        rw [hswap] at hfollows
        simp only [follows_append] at hfollows
        exact (expression_pairs h hl hfollows.1).append ((expression_pairs h hr hfollows.2.1).before
          (forall_mem_singleton.mpr (isAccess_applyingBinary op)))
  | _, @IsExpr.call callee args hcallee hargs, start, hfollows => by
    rw [expression] at hfollows ⊢
    obtain ⟨hinside, hcalling⟩ := follows_append.mp hfollows
    cases hcallee with
    | name x =>
      have hargs := arguments_pairs h hargs hinside
      have hcall : Pairs p prims [] [⟨c, .call x⟩] := .idle (forall_mem_nil _) (forall_mem_singleton.mpr rfl)
      have hidle : (names.calling prims (.name x)).op.isAccess = false := isAccess_calling names (.name x)
      rw [mentions]
      exact (hcall.append hargs).before (forall_mem_singleton.mpr hidle)
    | literal | unary | binary | call | function => exact (hcalling _ (mem_singleton_self _)).elim
  | _, .function xs _, start, hfollows => by
    rw [expression] at hfollows
    · exact (hfollows _ (mem_singleton_self _)).elim
    all_goals simp

theorem arguments_pairs (h : c.Reflects names) : ∀ {es : List Node},
    AreExprs es → ∀ {start : Nat}, p.Follows (arguments prims shape names start es) →
      Pairs p prims (arguments prims shape names start es) (argumentMentions c es)
  | _, .nil, start, _ => by
    rw [arguments, argumentMentions]
    exact .idle (forall_mem_nil _) (forall_mem_nil _)
  | _, .cons he hes, start, hfollows => by
    rw [arguments] at hfollows ⊢
    rw [argumentMentions]
    obtain ⟨hrest, hfirst⟩ := follows_append.mp hfollows
    exact (arguments_pairs h hes hrest).append (expression_pairs h he hfirst)

end

theorem printed_pairs (h : c.Reflects names) : ∀ {es : List Node},
    AreExprs es → ∀ {start : Nat}, p.Follows (printed prims shape names start es) →
      Pairs p prims (printed prims shape names start es) (mentionsEach c es) := by
  intro es
  induction es with
  | nil =>
    intro _ start _
    rw [printed, mentionsEach]
    exact .idle (forall_mem_nil _) (forall_mem_nil _)
  | cons e es ih =>
    rintro (_ | ⟨he, hes⟩) start hfollows
    rw [printed] at hfollows ⊢
    rw [mentionsEach]
    simp only [follows_append, follows_cons] at hfollows
    exact (expression_pairs h he hfollows.1).append ((ih hes hfollows.2.2).cons rfl)

theorem touches_parameters : ∀ (c : Context) (xs : List Datum), ∀ m ∈ parameterMentions c xs, m.touches = false
  | _, [] => forall_mem_nil _
  | c, x :: xs => forall_mem_cons.mpr ⟨rfl, touches_parameters (c.declare [x]) xs⟩

theorem scopes_declare_ne_nil (h : c.scopes ≠ []) (xs : List Datum) : (c.declare xs).scopes ≠ [] := by
  simpa [Context.declare] using h

theorem block_pairs {s : Point} {body : List Node}
    (hbody : p.Follows (statements prims (.block :: shape) s.inBlock body) →
      Pairs p prims (statements prims (.block :: shape) s.inBlock body) (mentionsAll c.inBlock body))
    (hfollows : p.Follows (statement prims shape s (.block body))) :
    Pairs p prims (statement prims shape s (.block body)) (mentions c (.block body)) := by
  rw [statement] at hfollows ⊢
  rw [mentions]
  simp only [follows_append, follows_cons] at hfollows
  exact ((hbody hfollows.2.1).before (forall_mem_singleton.mpr rfl)).cons rfl

mutual

theorem statement_pairs : ∀ {n : Node}, IsStat n → ∀ {c : Context} {shape : List Mark} {s : Point}, c.Reflects s.toNames →
    c.scopes ≠ [] → p.Follows (statement prims shape s n) →
      Pairs p prims (statement prims shape s n) (mentions c n)
  | _, .exprStat he, c, shape, s, h, _, hfollows => by
    rw [statement] at hfollows ⊢
    rw [mentions]
    exact (expression_pairs h he (follows_append.mp hfollows).1).before (forall_mem_singleton.mpr rfl)
  | _, .print hargs, c, shape, s, h, _, hfollows => by
    rw [statement] at hfollows ⊢
    rw [mentions]
    exact (printed_pairs h hargs (follows_append.mp hfollows).1).before (forall_mem_singleton.mpr rfl)
  | _, .ifThen hcond hyes, c, shape, s, h, hopen, hfollows => by
    rw [statement] at hfollows ⊢
    rw [mentions]
    simp only [follows_append, follows_cons] at hfollows
    exact (expression_pairs h hcond hfollows.1).append ((statement_pairs hyes (s := s.skip _) h hopen hfollows.2.2).cons rfl)
  | _, @IsStat.ifElse cond yes no hcond hyes hno, c, shape, s, h, hopen, hfollows => by
    rw [statement] at hfollows ⊢
    rw [mentions]
    simp only [follows_append, follows_cons] at hfollows
    obtain ⟨hcondFollows, -, hyesFollows, -, hnoFollows⟩ := hfollows
    have hinside : c.Reflects (s.skip (width prims s.toNames cond + 2)).toNames := h
    have hyesPairs := statement_pairs hyes hinside hopen hyesFollows
    have hbehind : (c.after yes).Reflects (next prims (s.skip (width prims s.toNames cond + 2)) yes).toNames :=
      hinside.after hyes
    have hnoPairs := statement_pairs hno (s := .skip _ 2) hbehind (scopes_declare_ne_nil hopen _) hnoFollows
    exact (expression_pairs h hcond hcondFollows).append ((hyesPairs.append (hnoPairs.cons rfl)).cons rfl)
  | _, .loop hcond hbody, c, shape, s, h, hopen, hfollows => by
    rw [statement] at hfollows ⊢
    rw [mentions]
    simp only [follows_append, follows_cons] at hfollows
    obtain ⟨hcondFollows, -, hbodyFollows, -⟩ := hfollows
    have hinside : c.inLoop.Reflects s.toNames := h.of_scopes h.scopes rfl rfl
    have hbodyPairs := statement_pairs hbody (s := s.skip _) hinside hopen hbodyFollows
    exact (expression_pairs h hcond hcondFollows).append ((hbodyPairs.before (forall_mem_singleton.mpr rfl)).cons rfl)
  | _, .breakLoop, c, shape, s, _, _, _ => by
    rw [statement, mentions]
    refine .idle ?_ (forall_mem_singleton.mpr rfl)
    split <;> exact forall_mem_singleton.mpr rfl
  | _, .continueLoop, c, shape, s, _, _, _ => by
    rw [statement, mentions]
    refine .idle ?_ (forall_mem_singleton.mpr rfl)
    split <;> exact forall_mem_singleton.mpr rfl
  | _, .block hbody, c, shape, s, h, hopen, hfollows =>
    block_pairs (fun hinside => statements_pairs hbody h.inBlock (cons_ne_nil _ _) hinside) hfollows
  | _, .function x xs hbody, c, shape, s, h, hopen, hfollows => by
    rw [statement_function] at hfollows ⊢
    rw [mentions]
    simp only [follows_append, follows_cons] at hfollows
    obtain ⟨-, hbodyFollows, -, -, hstore, -⟩ := hfollows
    have hinside := block_pairs (fun hblock => statements_pairs hbody (h.inFunction x xs).inBlock (cons_ne_nil _ _) hblock)
      hbodyFollows
    have hparams : Pairs p prims [] (parameterMentions (c.know [x]).inFunction xs) :=
      .idle (forall_mem_nil _) (touches_parameters _ xs)
    exact (hparams.append (hinside.append (((storing_pairs h hopen hstore).cons rfl).cons rfl))).cons rfl
  | _, .define x hvalue hne, c, shape, s, h, hopen, hfollows => by
    rw [statement_variable _ hne] at hfollows ⊢
    rw [mentions_variable hne]
    obtain ⟨hvalueFollows, hstore⟩ := follows_append.mp hfollows
    exact (expression_pairs h hvalue hvalueFollows).append (storing_pairs h hopen (hstore _ (mem_singleton_self _)))
  | _, .assign x hvalue, c, shape, s, h, _, hfollows => by
    rw [statement] at hfollows ⊢
    rw [mentions]
    obtain ⟨hvalueFollows, hstore⟩ := follows_append.mp hfollows
    exact (expression_pairs h hvalue hvalueFollows).append (assigning_pairs h (hstore _ (mem_singleton_self _)))
  | _, .return, c, shape, s, _, _, _ => by
    rw [statement, mentions]
    refine .idle (forall_mem_singleton.mpr ?_) (forall_mem_singleton.mpr rfl)
    split <;> rfl
  | _, .returnValue hvalue, c, shape, s, h, _, hfollows => by
    rw [statement] at hfollows ⊢
    rw [mentions]
    have hreturn : Pairs p prims [] [⟨c, .return⟩] := .idle (forall_mem_nil _) (forall_mem_singleton.mpr rfl)
    refine (hreturn.append (expression_pairs h hvalue (follows_append.mp hfollows).1)).before ?_
    refine forall_mem_singleton.mpr ?_
    split <;> rfl

theorem statements_pairs : ∀ {ns : List Node}, AreStats ns → ∀ {c : Context} {shape : List Mark} {s : Point},
    c.Reflects s.toNames → c.scopes ≠ [] → p.Follows (statements prims shape s ns) →
      Pairs p prims (statements prims shape s ns) (mentionsAll c ns)
  | _, .nil, c, shape, s, _, _, _ => by
    rw [Layout.statements, mentionsAll]
    exact .idle (forall_mem_nil _) (forall_mem_nil _)
  | _, .cons hn hns, c, shape, s, h, hopen, hfollows => by
    rw [Layout.statements] at hfollows ⊢
    rw [mentionsAll]
    obtain ⟨hfirst, hrest⟩ := follows_append.mp hfollows
    exact (statement_pairs hn h hopen hfirst).append (statements_pairs hns (h.after hn) (scopes_declare_ne_nil hopen _) hrest)

end

theorem program_pairs {body : List Node} (hbody : AreStats body) (hfollows : p.Follows (program prims body)) :
    Pairs p prims (program prims body) (programMentions body) := by
  have houtset : (outset body).Reflects (origin body).toNames := .outset hbody
  rw [programMentions_eq]
  exact block_pairs (fun hinside => statements_pairs hbody houtset.inBlock (cons_ne_nil _ _) hinside) hfollows

end Layout

/-- **Variables are lexical addresses.** The instructions of a compiled program that read or write variables are those that its
mentions of variables ask for, in order. Only the name of a primitive that is neither a visible variable nor a known function is
given an address outside all scopes. What is assigned to is never a function. -/
theorem Program.variables_at_lexical_addresses {tokens : List Token} {ast : Node} {primitives : List String} {p : Program}
    (hparse : Node.parse tokens = .ok ast) (hp : Program.ofNode primitives ast = .ok p) :
    ∃ body lines, ast = .program body ∧ p.decode = some lines ∧ Paired primitives lines (programMentions body) ∧
      ∀ m ∈ programMentions body, ∀ x, m.use = .assign x → m.context.sees x = false →
        provided primitives x = true ∧ m.context.knows x = false := by
  obtain ⟨body, rfl⟩ := Node.exists_program_of_parse hparse
  have hbody := (Node.areStats_of_parse hparse).1
  have hlaid := Program.laidOut hbody hp
  refine ⟨body, _, rfl, hlaid.decode hbody, Layout.program_pairs hbody hlaid.follows, ?_⟩
  intro m hm x huse hsees
  have hfine := Program.wrong_eq_false hparse hp m hm
  simpa [Mention.wrong, huse, hsees] using hfine

/-- `var a = b; { a = a; }` with a primitive `b`: the name of the primitive is read as if it were a variable. -/
theorem Program.primitive_read_as_variable :
    ∃ (body : List Node) (p : Program) (lines : List Line), Program.ofNode ["b"] (.program body) = .ok p ∧
      p.decode = some lines ∧ Paired ["b"] lines (programMentions body) ∧
      lines.filter (·.op.isAccess) =
        [⟨2, .loadVar, [-2, 0]⟩, ⟨5, .storeVar, [0, 0]⟩, ⟨10, .loadVar, [1, 0]⟩, ⟨13, .storeVar, [1, 0]⟩] := by
  let sign (tag : String) : Token := ⟨tag, .null⟩
  let a : Token := ⟨"id", .text "a"⟩
  let b : Token := ⟨"id", .text "b"⟩
  let tokens : List Token :=
    [sign "var", a, sign "=", b, sign ";", sign "\x7b", a, sign "=", a, sign ";", sign "\x7d"]
  let body : List Node :=
    [.define (.text "a") (.name (.text "b")), .block [.assign (.text "a") (.name (.text "a"))]]
  let p : Program :=
    { code := #[13, 1, 5, -2, 0, 6, 0, 0, 13, 0, 5, 1, 0, 6, 1, 0, 14, 14]
      consts := #[]
      scopes := #[#[], #[.text "a"], #[]]
      routines := #[] }
  have hparse : Node.parse tokens = .ok (.program body) := by cbv
  have hp : Program.ofNode ["b"] (.program body) = .ok p := by cbv
  obtain ⟨body', lines, hbody', hdecode, hpaired, -⟩ := Program.variables_at_lexical_addresses hparse hp
  cases hbody'
  have hlines : p.decode.map (·.filter (·.op.isAccess)) =
      some [⟨2, .loadVar, [-2, 0]⟩, ⟨5, .storeVar, [0, 0]⟩, ⟨10, .loadVar, [1, 0]⟩, ⟨13, .storeVar, [1, 0]⟩] := by cbv
  rw [hdecode] at hlines
  exact ⟨body, p, lines, hp, hdecode, hpaired, Option.some.inj hlines⟩

end Cilly
