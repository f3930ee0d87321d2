import Cilly.Proofs.FunctionTable

/-!
# What is mentioned in a tree

A tree mentions names, and statements that need a loop or a function around them. A `Mention` is one such place with its
`Context`: the variables that are visible there, the functions that are known there, and what lies around it. Whether a
mention is wrong (`Mention.wrong`) can be told from the context alone, without any code.

A variable is visible if it is a parameter, or is defined earlier in a block around the place, up to the innermost function. A
function is known everywhere if its definition lies in nothing but blocks (`upfront`), and otherwise from the start of its
definition on, whatever lies around that. Mentions are listed in the order in which they are compiled.
-/

namespace Cilly

open List Layout

/-- What may be referred to at some place of a tree. -/
structure Context where
  /-- The names of the variables of the blocks around the place, and of the parameters, innermost first. -/
  scopes : List (List Datum)
  /-- The names of the functions that are known. -/
  known : List Datum
  withinFunction : Bool
  /-- Whether a loop lies around, be it around the innermost function as well. -/
  withinLoop : Bool
  /-- Whether a loop lies around inside the innermost function, or around what is in no function. -/
  withinOwnLoop : Bool

namespace Context

variable (c : Context)

/-- A variable of that name is visible. -/
def sees (x : Datum) : Bool := c.scopes.any fun names => names.any fun y => y.eq x

/-- A function of that name is known. -/
def knows (x : Datum) : Bool := c.known.any fun y => y.eq x

/-- The innermost scope has that name already. -/
def declared (x : Datum) : Bool := (c.scopes.headD []).any fun y => y.eq x

/-- Variables more in the innermost scope. -/
def declare (xs : List Datum) : Context := { c with scopes := c.scopes.modifyHead (· ++ xs) }

/-- Functions more that are known. -/
def know (fs : List Datum) : Context := { c with known := c.known ++ fs }

def inBlock : Context := { c with scopes := [] :: c.scopes }

def inLoop : Context := { c with withinLoop := true, withinOwnLoop := true }

/-- In front of the parameters of a function. Nothing of what is visible around it is visible inside. -/
def inFunction : Context := { c with scopes := [[]], withinFunction := true, withinOwnLoop := false }

/-- Behind a statement. -/
def after (n : Node) : Context := (c.declare n.declares).know (n.functions.map (·.name))

end Context

/-- What a mention is about. -/
inductive Use where
  | read (x : Datum)
  | assign (x : Datum)
  | define (x : Datum)
  | parameter (x : Datum)
  | call (x : Datum)
  /-- A call of something that is not a name. -/
  | callOther
  /-- A function that is not the value of a definition. -/
  | anonymous
  | return
  | breakLoop
  | continueLoop

structure Mention where
  context : Context
  use : Use

/-- A primitive has that name. -/
def provided (primitives : List String) (x : Datum) : Bool := primitives.any fun p => (Datum.text p).eq x

/-- What must not be compiled, for the given primitives. -/
def Mention.wrong (primitives : List String) (m : Mention) : Bool :=
  match m.use with
  | .read x => !(m.context.sees x || m.context.knows x || provided primitives x)
  | .assign x => !(m.context.sees x || (provided primitives x && !m.context.knows x))
  | .define x | .parameter x => m.context.declared x
  | .call x => !(m.context.knows x || (provided primitives x && !m.context.sees x))
  | .callOther | .anonymous => true
  | .return => !m.context.withinFunction
  | .breakLoop | .continueLoop => !m.context.withinLoop

namespace Node

mutual

/-- The names of the functions whose definition lies in nothing but blocks. -/
def upfront : Node → List Datum
  | .define x value =>
    match value with
    | .function _ _ => [x]
    | _ => []
  | .block body => upfrontAll body
  | _ => []

def upfrontAll : List Node → List Datum
  | [] => []
  | n :: ns => upfront n ++ upfrontAll ns

end

/-- The parameters of a function. -/
def parameterMentions (c : Context) : List Datum → List Mention
  | [] => []
  | x :: xs => ⟨c, .parameter x⟩ :: parameterMentions (c.declare [x]) xs

mutual

def mentions (c : Context) : Node → List Mention
  | .program body => mentionsAll c.inBlock body
  | .block body => mentionsAll c.inBlock body
  | .exprStat e => mentions c e
  | .print args => mentionsEach c args
  | .ifThen cond yes => mentions c cond ++ mentions c yes
  | .ifElse cond yes no => mentions c cond ++ (mentions c yes ++ mentions (c.after yes) no)
  | .loop cond body => mentions c cond ++ mentions c.inLoop body
  | .breakLoop => [⟨c, .breakLoop⟩]
  | .continueLoop => [⟨c, .continueLoop⟩]
  | .define x value =>
    match value with
    | .function params body =>
      let inside := (c.know [x]).inFunction
      parameterMentions inside params ++ (mentions (inside.declare params) body ++ [⟨c, .define x⟩])
    | value => mentions c value ++ [⟨c, .define x⟩]
  | .assign x value => mentions c value ++ [⟨c, .assign x⟩]
  | .return => [⟨c, .return⟩]
  | .returnValue value => ⟨c, .return⟩ :: mentions c value
  | .name x => [⟨c, .read x⟩]
  | .unary _ e => mentions c e
  | .binary op l r =>
    match CompileM.swappedOf? op with
    | some _ => mentions c r ++ mentions c l
    | none => mentions c l ++ mentions c r
  | .call callee args =>
    match callee with
    | .name x => ⟨c, .call x⟩ :: argumentMentions c args
    | callee => ⟨c, .callOther⟩ :: (mentions c callee ++ argumentMentions c args)
  | .function params body =>
    ⟨c, .anonymous⟩ :: (parameterMentions c.inFunction params ++ mentions (c.inFunction.declare params) body)
  | _ => []

/-- One statement after the other. -/
def mentionsAll (c : Context) : List Node → List Mention
  | [] => []
  | n :: ns => mentions c n ++ mentionsAll (c.after n) ns

def mentionsEach (c : Context) : List Node → List Mention
  | [] => []
  | e :: es => mentions c e ++ mentionsEach c es

/-- Arguments from the last to the first. -/
def argumentMentions (c : Context) : List Node → List Mention
  | [] => []
  | e :: es => argumentMentions c es ++ mentions c e

end

/-- The context of a whole program: there is a scope around its own that stays empty. -/
def outset (body : List Node) : Context :=
  { scopes := [[]], known := upfrontAll body, withinFunction := false, withinLoop := false, withinOwnLoop := false }

/-- All that a program mentions. -/
def programMentions (body : List Node) : List Mention := mentions (outset body) (.program body)

theorem programMentions_eq (body : List Node) : programMentions body = mentions (outset body) (.block body) := by
  rw [programMentions, mentions, mentions]

theorem mentions_variable {value : Node} (h : ∀ params body, value ≠ .function params body) (c : Context) (x : Datum) :
    mentions c (.define x value) = mentions c value ++ [⟨c, .define x⟩] := by
  rw [mentions]
  exact h

/-- The operands of what may skip its right operand are not swapped. -/
theorem mentions_shortcut {op : Datum} {pair : Opcode × Opcode} (h : CompileM.shortcutOf? op = some pair) (c : Context)
    (l r : Node) : mentions c (.binary op l r) = mentions c l ++ mentions c r := by
  have hswap : CompileM.swappedOf? op = none := by
    unfold CompileM.shortcutOf? at h
    split at h
    · rfl
    · rfl
    · cases h
  rw [mentions, hswap]

mutual

theorem upfront_eq : ∀ {n : Node}, IsStat n → upfront n = (registered n).map (·.name)
  | _, .block hbody => by rw [upfront, registered, upfrontAll_eq hbody]
  | _, .function x xs _ => by simp [upfront, registered]
  | _, .define x _ hne => by
    rw [upfront, registered]
    · rfl
    all_goals exact hne
  | _, .exprStat _ | _, .print _ | _, .ifThen _ _ | _, .ifElse _ _ _ | _, .loop _ _ | _, .breakLoop | _, .continueLoop
  | _, .assign _ _ | _, .return | _, .returnValue _ => by simp [upfront, registered]

theorem upfrontAll_eq : ∀ {ns : List Node}, AreStats ns → upfrontAll ns = (registeredAll ns).map (·.name)
  | _, .nil => by simp [upfrontAll, registeredAll]
  | _, .cons hn hns => by
    rw [upfrontAll, registeredAll, map_append, upfront_eq hn, upfrontAll_eq hns]

end

end Node

/-! ## Contexts and tables of names -/

namespace DefinitionSite

/-- A name is found in a table if something in it has that name. -/
theorem isSome_routineIndex? (t : Array Routine) (x : Datum) :
    (Names.routineIndex? ⟨[], t⟩ x).isSome = (t.map (·.name)).any fun y => y.eq x := by
  rw [routineIndex?_eq, Array.findIdx?_isSome]

theorem knows_enter (site : DefinitionSite) (t : Array Routine) (x : Datum) :
    (Names.routineIndex? ⟨[], site.enter t⟩ x).isSome =
      ((Names.routineIndex? ⟨[], t⟩ x).isSome || site.function.name.eq x) := by
  rw [isSome_routineIndex?, names_enter, isSome_routineIndex?]
  cases hindex : Names.routineIndex? ⟨[], t⟩ site.function.name with
  | none => simp
  | some i =>
    dsimp only
    cases hx : site.function.name.eq x with
    | false => rw [Bool.or_false]
    | true =>
      -- what has the name of the function has every name that is equal to it
      have hsome := isSome_routineIndex? t site.function.name
      rw [hindex, Option.isSome_some, eq_comm, Array.any_eq_true'] at hsome
      obtain ⟨y, hy, heq⟩ := hsome
      rw [Bool.or_true, Array.any_eq_true']
      exact ⟨y, hy, Datum.eq_trans heq hx⟩

theorem knows_enterAll : ∀ (sites : List DefinitionSite) (t : Array Routine) (x : Datum),
    (Names.routineIndex? ⟨[], enterAll sites t⟩ x).isSome =
      ((Names.routineIndex? ⟨[], t⟩ x).isSome || sites.any fun site => site.function.name.eq x)
  | [], t, x => by rw [any_nil, Bool.or_false, enterAll, foldl_nil]
  | site :: sites, t, x => by
    rw [any_cons, ← Bool.or_assoc, ← knows_enter]
    exact knows_enterAll sites (site.enter t) x

end DefinitionSite

namespace Context

/-- The names at some place of a layout are those of the context. -/
structure Reflects (c : Context) (s : Names) : Prop where
  scopes : s.visible.map Array.toList = c.scopes
  known : ∀ x, c.knows x = (s.routineIndex? x).isSome

variable {c : Context} {s : Point} {names : Names} {x : Datum} {prims : List String}

theorem isSome_find? (x : Datum) : ∀ visible : List (Array Datum),
    (Assembly.find? x visible).isSome = (visible.map Array.toList).any fun names => names.any fun y => y.eq x
  | [] => rfl
  | names :: outer => by
    rw [Assembly.find?, map_cons, any_cons, Array.any_toList, ← Array.findIdx?_isSome, ← isSome_find? x outer]
    unfold nameIndex?
    cases names.findIdx? fun y => y.eq x with
    | some i => rfl
    | none => simp

theorem knows_know (c : Context) (fs : List Datum) (x : Datum) :
    (c.know fs).knows x = (c.knows x || fs.any fun y => y.eq x) := any_append

namespace Reflects

theorem sees (h : c.Reflects names) : c.sees x = (Assembly.find? x names.visible).isSome := by
  rw [isSome_find?, h.scopes, Context.sees]

theorem declared (h : c.Reflects names) : c.declared x = (nameIndex? names.innermost x).isSome := by
  rw [Context.declared, ← h.scopes, nameIndex?, Array.findIdx?_isSome, Names.innermost]
  cases names.visible with
  | nil => simp
  | cons top outer => exact Array.any_toList

theorem place? (h : c.Reflects names) (prims : List String) (x : Datum) :
    (∃ depth i, names.place? prims x = some (.variable depth i) ∧ c.sees x = true) ∨
      (∃ i, names.place? prims x = some (.routine i) ∧ c.sees x = false ∧ c.knows x = true) ∨
      (∃ i, names.place? prims x = some (.primitive i) ∧ c.sees x = false ∧ c.knows x = false ∧
        provided prims x = true) ∨
      (names.place? prims x = none ∧ c.sees x = false ∧ c.knows x = false ∧ provided prims x = false) := by
  have hprovided : (prims.findIdx? fun p => (Datum.text p).eq x).isSome = provided prims x := findIdx?_isSome
  rw [h.sees, h.known, ← hprovided]
  unfold Names.place?
  cases Assembly.find? x names.visible with
  | some place => exact Or.inl ⟨place.1, place.2, rfl, rfl⟩
  | none =>
    cases names.routineIndex? x with
    | some i => exact Or.inr (Or.inl ⟨i, rfl, rfl, rfl⟩)
    | none =>
      cases prims.findIdx? fun p => (Datum.text p).eq x with
      | some i => exact Or.inr (Or.inr (Or.inl ⟨i, rfl, rfl, rfl, rfl⟩))
      | none => exact Or.inr (Or.inr (Or.inr ⟨rfl, rfl, rfl, rfl⟩))

theorem of_scopes {c' : Context} {names' : Names} (h : c.Reflects names) (hscopes : names'.visible.map Array.toList = c'.scopes)
    (hroutines : names'.routines = names.routines) (hknown : c'.known = c.known) : c'.Reflects names' := by
  refine ⟨hscopes, fun x => ?_⟩
  rw [Context.knows, hknown, Names.routineIndex?, hroutines]
  exact h.known x

theorem inBlock (h : c.Reflects s.toNames) : c.inBlock.Reflects s.inBlock.toNames :=
  h.of_scopes (congrArg (_ :: ·) h.scopes) rfl rfl

theorem map_extended (visible : List (Array Datum)) (xs : List Datum) :
    (extended visible xs).map Array.toList = (visible.map Array.toList).modifyHead (· ++ xs) := by
  cases visible with
  | nil => rfl
  | cons top outer => simp [extended]

theorem declare (h : c.Reflects names) {names' : Names} {xs : List Datum} (hvisible : names'.visible = extended names.visible xs)
    (hroutines : names'.routines = names.routines) : (c.declare xs).Reflects names' :=
  h.of_scopes (by rw [hvisible, map_extended, h.scopes, Context.declare]) hroutines rfl

theorem inFunction (h : c.Reflects s.toNames) (x : Datum) (params : List Datum) :
    ((c.know [x]).inFunction.declare params).Reflects (s.inFunction x params).toNames := by
  refine ⟨by simp [Point.inFunction, Context.declare, Context.inFunction], fun y => ?_⟩
  have hknows := DefinitionSite.knows_enter ⟨[], s, ⟨x, params, .return⟩⟩ s.routines y
  have hdefined : ((s.inFunction x params).toNames.routineIndex? y).isSome = _ := hknows
  rw [hdefined]
  show (c.know [x]).knows y = _
  rw [knows_know, h.known y]
  simp only [any_cons, any_nil, Bool.or_false]
  rfl

theorem after (h : c.Reflects s.toNames) {n : Node} (hn : n.IsStat) :
    (c.after n).Reflects (next prims s n).toNames := by
  obtain ⟨hfunctions, htable, -⟩ := statement_sited prims hn [] s
  refine ⟨?_, fun x => ?_⟩
  · rw [next_visible prims hn, map_extended, h.scopes]
    rfl
  · have hknows := DefinitionSite.knows_enterAll (sites prims [] s n) s.routines x
    rw [← htable] at hknows
    have hnext : ((next prims s n).toNames.routineIndex? x).isSome = _ := hknows
    rw [hnext, Context.after, knows_know, ← hfunctions, map_map, any_map]
    exact congrArg (· || _) (h.known x)

theorem outset {body : List Node} (hbody : Node.AreStats body) : (Node.outset body).Reflects (origin body).toNames := by
  refine ⟨rfl, fun x => ?_⟩
  have hknown := DefinitionSite.isSome_routineIndex? (registeredAll body).toArray x
  have horigin : ((origin body).toNames.routineIndex? x).isSome = _ := hknown
  rw [horigin, map_toArray, any_toArray, ← Node.upfrontAll_eq hbody]
  rfl

end Reflects

end Context

end Cilly
