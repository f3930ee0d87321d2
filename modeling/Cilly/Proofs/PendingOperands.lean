import Cilly.Proofs.CallFrames
import Cilly.Proofs.OperandStack
import Mathlib

/-!
# The operands of a caller

A call is made in the middle of an expression, with operands on the stack that were pushed before its first argument
and are taken after it has returned. Nothing compares the number of arguments with what the function or the primitive
takes: the code of the arguments pushes one value for each of them, and the call takes off as many as there are
parameters. So the operands of the caller are as they were, below the result, exactly if the numbers agree; else
arguments are left over, or operands are gone (`operands_after_call`).

This holds of every program. The code of a call and its arguments can be looked at by itself, with nothing below
(`above`), and what is on the stack at the start of it stays there until the call is carried out. A `break` or `continue`
that leaves its function does no harm: it leads to the start of a statement, where the function has no values on the
stack, and the pending calls are kept.
-/

namespace Cilly

open Acting Node
open List hiding set

/-! ## Operands further down -/

/-- The scene, with more operands below. -/
def Scene.above (below : List Nat) (x : Scene) : Scene := { x with view := { x.view with ends := x.view.ends ++ below } }

namespace Layout

open CompileM (swappedOf? shortcutOf?)

variable (prims : List String)

mutual

theorem expressionScenes_above (set : Setting) (c : Names) : ∀ {e : Node}, IsExpr e →
    ∀ (own below : List Nat) (start : Nat), expressionScenes prims set c (own ++ below) start e =
      (expressionScenes prims set c own start e).map (·.above below)
  | _, .name x, own, below, start => by rw [expressionScenes, expressionScenes]; rfl
  | _, .literal kind d, own, below, start => by rw [expressionScenes, expressionScenes]; rfl
  | _, .unary he, own, below, start => by
    rw [expressionScenes, expressionScenes, map_append, expressionScenes_above set c he]
    rfl
  | _, @IsExpr.binary op l r hl hr, own, below, start => by
    rw [expressionScenes, expressionScenes]
    cases shortcutOf? op with
    | some pair =>
      simp only [map_append, map_cons, map_nil, expressionScenes_above set c hl,
        expressionScenes_above set c hr]
      rfl
    | none =>
      cases swappedOf? op with
      | some o =>
        simp only [map_append, map_cons, map_nil, ← cons_append, expressionScenes_above set c hl,
          expressionScenes_above set c hr]
        rfl
      | none =>
        simp only [map_append, map_cons, map_nil, ← cons_append, expressionScenes_above set c hl,
          expressionScenes_above set c hr]
        rfl
  | _, .call _ hargs, own, below, start => by
    rw [expressionScenes, expressionScenes, map_append, argumentScenes_above set c hargs, ← append_assoc]
    rfl
  | _, .function _ _, own, below, start => by
    rw [expressionScenes, expressionScenes]
    · rfl
    all_goals simp

theorem argumentScenes_above (set : Setting) (c : Names) : ∀ {es : List Node}, AreExprs es →
    ∀ (own below : List Nat) (start : Nat), argumentScenes prims set c (own ++ below) start es =
      (argumentScenes prims set c own start es).map (·.above below)
  | _, .nil, own, below, start => by rw [argumentScenes, argumentScenes]; rfl
  | _, .cons he hes, own, below, start => by
    rw [argumentScenes, argumentScenes, map_append, argumentScenes_above set c hes, ← append_assoc,
      expressionScenes_above set c he]

end

end Layout

/-! ## Calls and their arguments -/

/-- What carries out a call whose arguments are on the stack. -/
def Layout.callScene (primitives : List String) (set : Setting) (c : Names) (below : List Nat) (start : Nat) (callee : Node)
    (args : List Node) : Scene :=
  set.scene (start + widths primitives c args) (c.calling primitives callee) (ends primitives c start args ++ below)
    (.call c start callee args)

/-- Whether an instruction carries out a call. -/
def Subject.isCall : Subject → Bool
  | .call .. => true
  | _ => false

/-- With each call, the code of its arguments is among the scenes. -/
def Whole (primitives : List String) (scenes : List Scene) : Prop :=
  ∀ x ∈ scenes, ∀ {c : Names} {start : Nat} {callee : Node} {args : List Node}, x.subject = .call c start callee args →
    AreExprs args ∧ ∃ set below, x = Layout.callScene primitives set c below start callee args ∧
      ∀ y ∈ Layout.argumentScenes primitives set c below start args, y ∈ scenes

namespace Whole

variable {prims : List String} {scenes more : List Scene} {x : Scene}

theorem append (h : Whole prims scenes) (h' : Whole prims more) : Whole prims (scenes ++ more) := by
  intro x hx c start callee args hcall
  rcases mem_append.mp hx with hx | hx
  · obtain ⟨hargs, set, below, hlast, hall⟩ := h x hx hcall
    exact ⟨hargs, set, below, hlast, fun y hy => mem_append_left _ (hall y hy)⟩
  · obtain ⟨hargs, set, below, hlast, hall⟩ := h' x hx hcall
    exact ⟨hargs, set, below, hlast, fun y hy => mem_append_right _ (hall y hy)⟩

theorem single (h : x.subject.isCall = false) : Whole prims [x] := by
  intro y hy c start callee args hcall
  rw [mem_singleton.mp hy] at hcall
  rw [hcall] at h
  cases h

theorem cons (h : x.subject.isCall = false) (h' : Whole prims scenes) : Whole prims (x :: scenes) :=
  (single h).append h'

end Whole

namespace Layout

open CompileM (swappedOf? shortcutOf?)

variable (prims : List String)

mutual

theorem expression_whole (set : Setting) (c : Names) : ∀ {e : Node}, IsExpr e → ∀ (below : List Nat) (start : Nat),
    Whole prims (expressionScenes prims set c below start e)
  | _, .name x, below, start => by
    rw [expressionScenes]
    exact .single rfl
  | _, .literal kind d, below, start => by
    rw [expressionScenes]
    exact .single rfl
  | _, .unary he, below, start => by
    rw [expressionScenes]
    exact (expression_whole set c he below start).append (.single rfl)
  | _, @IsExpr.binary op l r hl hr, below, start => by
    have hl := expression_whole set c hl
    have hr := expression_whole set c hr
    rw [expressionScenes]
    cases shortcutOf? op with
    | some pair => exact (hl below start).append (.cons rfl ((hr below _).append (.cons rfl (.single rfl))))
    | none =>
      cases swappedOf? op with
      | some o => exact (hr below start).append ((hl _ _).append (.single rfl))
      | none => exact (hl below start).append ((hr _ _).append (.single rfl))
  | _, @IsExpr.call callee args _ hargs, below, start => by
    have hwhole := arguments_whole set c hargs below start
    rw [expressionScenes]
    intro x hx c' start' callee' args' hcall
    rcases mem_append.mp hx with hinside | hlast
    · obtain ⟨hargs', set', below', hlast, hall⟩ := hwhole x hinside hcall
      exact ⟨hargs', set', below', hlast, fun y hy => mem_append_left _ (hall y hy)⟩
    · rw [mem_singleton.mp hlast] at hcall ⊢
      cases hcall
      exact ⟨hargs, set, below, rfl, fun y hy => mem_append_left _ hy⟩
  | _, .function _ _, below, start => by
    rw [expressionScenes]
    · exact .single rfl
    all_goals simp

theorem arguments_whole (set : Setting) (c : Names) : ∀ {es : List Node}, AreExprs es → ∀ (below : List Nat) (start : Nat),
    Whole prims (argumentScenes prims set c below start es)
  | _, .nil, below, start => by
    rw [argumentScenes]
    intro x hx
    cases hx
  | _, .cons he hes, below, start => by
    rw [argumentScenes]
    exact (arguments_whole set c hes below start).append (expression_whole set c he _ _)

end

theorem printed_whole (set : Setting) (c : Names) : ∀ {es : List Node}, AreExprs es → ∀ start : Nat,
    Whole prims (printedScenes prims set c start es) := by
  intro es
  induction es with
  | nil =>
    intro _ start x hx
    rw [printedScenes] at hx
    cases hx
  | cons e es ih =>
    rintro (_ | ⟨he, hes⟩) start
    rw [printedScenes]
    exact (expression_whole prims set c he [] start).append (.cons rfl (ih hes _))

mutual

theorem statement_whole : ∀ {n : Node}, IsStat n → ∀ (set : Setting) (s : Point),
    Whole prims (statementScenes prims set s n)
  | _, .exprStat he, set, s => by
    rw [statementScenes]
    exact (expression_whole prims set _ he [] _).append (.single rfl)
  | _, .print hargs, set, s => by
    rw [statementScenes]
    exact (printed_whole prims set _ hargs _).append (.single rfl)
  | _, .ifThen hcond hyes, set, s => by
    rw [statementScenes]
    exact (expression_whole prims set _ hcond [] _).append (.cons rfl (statement_whole hyes set _))
  | _, .ifElse hcond hyes hno, set, s => by
    rw [statementScenes]
    exact (expression_whole prims set _ hcond [] _).append
      (.cons rfl ((statement_whole hyes set _).append (.cons rfl (statement_whole hno set _))))
  | _, .loop hcond hbody, set, s => by
    rw [statementScenes]
    exact (expression_whole prims _ _ hcond [] _).append
      (.cons rfl ((statement_whole hbody _ _).append (.single rfl)))
  | _, .breakLoop, set, s => by
    rw [statementScenes]
    split <;> exact .single rfl
  | _, .continueLoop, set, s => by
    rw [statementScenes]
    split <;> exact .single rfl
  | _, .block hbody, set, s => by
    rw [statementScenes]
    exact .cons rfl ((statements_whole hbody _ _).append (.single rfl))
  | _, .function _ _ hbody, set, s => by
    rw [statementScenes_function, statementScenes]
    exact .cons rfl (.append (.cons rfl ((statements_whole hbody _ _).append (.single rfl)))
      (.cons rfl (.cons rfl (.single rfl))))
  | _, .define x hvalue hne, set, s => by
    rw [statementScenes_variable _ hne]
    exact (expression_whole prims set _ hvalue [] _).append (.single rfl)
  | _, .assign x hvalue, set, s => by
    rw [statementScenes]
    exact (expression_whole prims set _ hvalue [] _).append (.single rfl)
  | _, .return, set, s => by
    rw [statementScenes]
    exact .single rfl
  | _, .returnValue hvalue, set, s => by
    rw [statementScenes]
    exact (expression_whole prims set _ hvalue [] _).append (.single rfl)

theorem statements_whole : ∀ {ns : List Node}, AreStats ns → ∀ (set : Setting) (s : Point),
    Whole prims (statementsScenes prims set s ns)
  | _, .nil, set, s => by
    rw [statementsScenes]
    intro x hx
    cases hx
  | _, .cons hn hns, set, s => by
    rw [statementsScenes]
    exact (statement_whole hn set s).append (statements_whole hns set _)

end

end Layout

/-! ## The code of a call by itself -/

/-- The scenes of the arguments of a call and of the call itself, as if there were no operands below. -/
structure CallCode (primitives : List String) (body : List Node) (below : List Nat) (start : Nat) (x : Scene)
    (code : List Scene) : Prop where
  first : ∃ y ∈ code, y.address = start ∧ y.view.ends = []
  last : x ∈ code
  instr : (∃ id, x.instr = .call id) ∨ (∃ name, x.instr = .primitive name) ∨ x.instr = .refused
  operands : x.view.ends.length = x.subject.count
  bound : ∀ y ∈ code, y.address ≤ x.address
  sound : ∀ y ∈ code, y ≠ x → y.Sound code
  stays : ∀ y ∈ code, y.instr ≠ .return ∧ y.instr ≠ .returnValue
  placed : ∀ y ∈ code, y.above below ∈ Layout.scenes primitives body

theorem Layout.callCode {prims : List String} {body : List Node} (h : AreStats body) {x : Scene}
    (hx : x ∈ scenes prims body) {c : Names} {start : Nat} {callee : Node} {args : List Node}
    (hcall : x.subject = .call c start callee args) :
    ∃ below y code, x = y.above below ∧ CallCode prims body below start y code := by
  obtain ⟨hargs, set, below, rfl, hall⟩ := statement_whole prims (.block h) _ _ x hx hcall
  let last := callScene prims set c [] start callee args
  let inside := argumentScenes prims set c [] start args
  have habove : callScene prims set c below start callee args = last.above below := by
    simp [last, callScene, Scene.above, Setting.scene, Setting.view]
  have hspot : ∀ y ∈ inside, y.toSpot ∈ arguments prims set.shape c start args := by
    intro y hy
    rw [← argumentScenes_toSpot prims set c hargs []]
    exact mem_map_of_mem hy
  have hstrand := arguments_strand prims set c hargs [] start
  have hled : Led (inside ++ [last]) start (set.view []) inside :=
    hstrand.led (fun y hy => mem_append_left _ hy) ⟨last, mem_append_right _ (mem_singleton_self _), rfl, rfl⟩
  have hstays : Instr.EveryOperand fun instr => instr ≠ .return ∧ instr ≠ .returnValue := by
    constructor <;> intros <;> simp
  refine ⟨below, last, inside ++ [last], habove,
    { first := ?_, last := mem_append_right _ (mem_singleton_self _),
      instr := c.calling_cases prims callee, operands := ?_, bound := ?_, sound := ?_, stays := ?_, placed := ?_ }⟩
  · obtain ⟨y, hy, haddress, hview⟩ := hled.first
    exact ⟨y, hy, haddress, by rw [hview]; rfl⟩
  · show (ends prims c start args ++ []).length = args.length
    rw [append_nil, length_ends]
  · exact forall_mem_append.mpr
      ⟨fun y hy => Nat.le_of_lt (hstrand.bounds y hy).2,
        forall_mem_singleton.mpr (Nat.le_refl _)⟩
  · intro y hy hne
    rcases mem_append.mp hy with hy | hy
    · exact hled.sound y hy
    · exact absurd (mem_singleton.mp hy) hne
  · exact forall_mem_append.mpr
      ⟨fun y hy => hstays.every.arguments hargs (Subset.refl _) start _ (hspot y hy),
        forall_mem_singleton.mpr (hstays.every.calling (Subset.refl (leaves callee)))⟩
  · refine forall_mem_append.mpr ⟨fun y hy => hall _ ?_, forall_mem_singleton.mpr (habove ▸ hx)⟩
    rw [← nil_append below, argumentScenes_above prims set c hargs]
    exact mem_map_of_mem hy

/-! ## Steps -/

namespace Machine

section

variable {prims : List String} {body : List Node} {p : Program} {m m' : Machine} {w : Int} {x : Scene}
  {all : List Scene} {rest : List Datum}

/-- On top of other values, there are as many as there are operands where the machine stands. -/
def Above (all : List Scene) (rest : List Datum) (m : Machine) : Prop :=
  ∃ y ∈ all, m.pc = y.address ∧ ∃ own, own.length = y.view.ends.length ∧ m.stack.items = own ++ rest

/-- A step of a function that has its values on top of others. -/
inductive Turn (all : List Scene) (x : Scene) (rest : List Datum) (m m' : Machine) : Prop
  | onward : m'.program = m.program → m'.frames = m.frames → Above all rest m' → Turn all x rest m m'
  /-- A result is to come on top of what the call leaves. -/
  | call {y : Scene} {id : Nat} {r : Routine} {own : List Datum} : y ∈ all → Calls x y id r m m' →
      own.length + 1 = y.view.ends.length → m'.stack.items = own ++ rest → Turn all x rest m m'
  /-- The result comes on top of what the function has found. -/
  | back {f : Frame} {v : Datum} : Returns x f m m' → m'.stack.items = v :: rest → Turn all x rest m m'

theorem turn_of_sound {own results : List Datum} (hsound : x.Sound all) (hmoves : x.instr.Moves x.address m m')
    (hown : own.length = x.view.ends.length) (hitems : m.stack.items = own ++ rest) (hresults : results.length = x.pushed)
    (hitems' : m'.stack.items = results ++ m.stack.items.drop x.takes) : Turn all x rest m m' := by
  have henough := hsound.enough
  have hkept : m'.stack.items = (results ++ own.drop x.takes) ++ rest := by
    rw [hitems', hitems, drop_append_of_le_length (by omega), append_assoc]
  have hlength : (results ++ own.drop x.takes).length + x.takes = x.view.ends.length + x.pushed := by
    rw [length_append, length_drop]
    omega
  cases passage_of_moves hsound hmoves with
  | @onward y hy hpc honward =>
    have hends := honward.length_ends henough
    exact .onward honward.program honward.frames ⟨y, hy, hpc, _, by omega, hkept⟩
  | @call y id r hy hcalls =>
    have hends := Scene.length_after henough y.address
    obtain ⟨hpushed, hgives⟩ := hcalls.pushed
    rw [← hcalls.view, hgives, if_pos rfl] at hends
    exact .call hy hcalls (by omega) hkept
  | back hreturns =>
    obtain ⟨v, rfl⟩ := length_eq_one_iff.mp (hresults.trans hreturns.pushed)
    have hnone : own.drop x.takes = [] := drop_eq_nil_of_le (Nat.le_of_eq (hown.trans hreturns.ends))
    rw [hnone] at hkept
    exact .back hreturns hkept

/-- A machine that runs compiled code, with the values of its function on top of others. Between a `break` and the start
of the program it stands before the code. -/
def Rests (primitives : List String) (body : List Node) (p : Program) (rest : List Datum) (m : Machine) : Prop :=
  m.program = p ∧ (Above (Layout.stage primitives body) rest m ∨ m.pc = -1 ∧ m.stack.items = rest)

variable (hbody : AreStats body) (hlaid : p.LaidOut prims body)

include hbody hlaid

theorem rests_of_entry (hx : x ∈ Layout.scenes prims body) {id : Nat} {r : Routine} (hinstr : x.instr = .call id)
    (hr : p.routines[id]? = some r) (hentry : r.entry = some m.pc) (hprogram : m.program = p) :
    Rests prims body p m.stack.items m := by
  obtain ⟨r', hr', site, hsite, hentry', -⟩ := called_site hbody hlaid hx hinstr
  cases hr.symm.trans hr'
  obtain ⟨y, hy, haddress, hview⟩ := (Layout.program_framed prims hbody).entries site hsite
  have hpc : m.pc = site.entry := Option.some.inj (hentry.symm.trans hentry')
  refine ⟨hprogram, Or.inl ⟨y, hy, by rw [hpc, haddress], [], ?_, rfl⟩⟩
  rw [hview]
  rfl

/-- **A step of any program.** -/
theorem Rests.next (h : Rests prims body p rest m)
    (hpasses : ∀ x ∈ Layout.scenes prims body, m.pc = x.address → x.passes p.routines = true)
    (hnext : m.next = (.ok w, m')) : m'.frames = m.frames ∧ Rests prims body p rest m' ∨
      ∃ x ∈ Layout.scenes prims body, Turn (Layout.stage prims body) x rest m m' := by
  obtain ⟨hprogram, ⟨x, hx, hpc, own, hown, hitems⟩ | ⟨hpc, hitems⟩⟩ := h
  · have hx := mem_scenes_of_next hlaid hprogram hx hpc hnext
    have hmoves := moves_of_scene hbody hlaid hprogram hx hpc hnext
    obtain ⟨-, results, hresults, hitems'⟩ := items_of_next hbody hlaid hprogram hx hpc hnext
    rw [taken_eq_takes hbody hlaid hx (hpasses x hx hpc)] at hitems'
    -- a `break` and a `continue` have nothing on the stack and leave it alone
    have hidle : x.view.ends = [] → x.takes = 0 → x.pushed = 0 → m'.stack.items = rest := by
      intro hends htakes hpushed
      rw [hends] at hown
      rw [hpushed] at hresults
      rw [hitems', htakes, hitems, length_eq_zero_iff.mp hown, length_eq_zero_iff.mp hresults]
      rfl
    rcases (Layout.program_framed prims hbody).sound x hx with hsound | hexits
    · exact Or.inr ⟨x, hx, turn_of_sound hsound hmoves hown hitems hresults hitems'⟩
    · left
      cases hexits with
      | breaks hinstr hends _ =>
        rw [hinstr] at hmoves
        obtain ⟨hpc', hsame⟩ := hmoves
        exact ⟨hsame.frames, hsame.program.trans hprogram, Or.inr ⟨hpc',
          hidle hends (by rw [Scene.takes, hinstr]) (by simp [Scene.pushed, Scene.gives, hinstr])⟩⟩
      | continues hinstr hends _ hfinds _ =>
        rw [hinstr] at hmoves
        obtain ⟨hpc', hsame⟩ := hmoves
        obtain ⟨y, hy, rfl, hview⟩ := hfinds
        exact ⟨hsame.frames, hsame.program.trans hprogram, Or.inl ⟨y, hy, hpc', [], by rw [hview]; rfl,
          hidle hends (by rw [Scene.takes, hinstr]) (by simp [Scene.pushed, Scene.gives, hinstr])⟩⟩
  · have hfetch : itemAt m.program.code m.pc = .ok Opcode.leaveScope.word := by
      rw [hpc, hprogram]
      exact itemAt_neg_one hlaid.back?
    obtain ⟨hpc', hprogram', -, hframes⟩ := moves_leave hfetch hnext
    obtain ⟨y, hy, haddress, hview⟩ := (Layout.program_framed prims hbody).first
    have huses : Uses m.counted (MachineM.leaveScope m.pc) 0 0 := .leaveScope
    have hkept : m'.stack.items = m.stack.items := by
      obtain ⟨pc, n, hperform, rfl⟩ := performed hfetch hnext
      obtain ⟨-, results, hlength, hsame⟩ := huses.taken pc (congrArg Prod.fst hperform)
      rw [show outcome (MachineM.leaveScope m.pc) m.counted = _ from hperform, length_eq_zero_iff.mp hlength] at hsame
      exact hsame
    exact Or.inl ⟨hframes, hprogram'.trans hprogram, Or.inl ⟨y, hy, by rw [hpc', hpc, haddress]; rfl, [],
      by rw [hview]; rfl, hkept.trans hitems⟩⟩

end

/-! ## Runs -/

/-- The machine that carries out a call, so many steps later at most: the values of the arguments are on top of what was
there. -/
structure CarriesOut (x : Scene) (routines : Array Routine) (n : Nat) (m₀ m : Machine) (values : List Datum) : Prop where
  reached : ∃ k ≤ n, m₀.after? k = some m
  pc : m.pc = x.address
  frames : m.frames = m₀.frames
  items : m.stack.items = values ++ m₀.stack.items
  count : values.length = x.subject.count
  enough : x.taken routines ≤ m.stack.depth

section

variable (primitives : List String) (body : List Node) (p : Program) (x : Scene) (code : List Scene) (n : Nat)
  (m₀ : Machine)

/-- What lies below the values of the function that was called last, while a call is evaluated that began at `m₀`. -/
inductive Beneath : List Frame → List Datum → Prop
  /-- A call in the arguments comes back to them. -/
  | argument {f : Frame} {y : Scene} {own : List Datum} : y ∈ code → f.back = y.address →
      own.length + 1 = y.view.ends.length → Beneath (f :: m₀.frames) (own ++ m₀.stack.items)
  /-- The call itself comes back behind it. -/
  | call {f : Frame} {m : Machine} {values : List Datum} : f.back = x.address + 2 → CarriesOut x p.routines n m₀ m values →
      Beneath (f :: m₀.frames) (m.stack.items.drop (x.taken p.routines))
  | inner {f : Frame} {frames : List Frame} {y : Scene} {own rest : List Datum} : y ∈ Layout.stage primitives body →
      f.back = y.address → own.length + 1 = y.view.ends.length → Beneath frames rest → Beneath (f :: frames) (own ++ rest)

/-- How far the evaluation of a call has come. -/
inductive Calling (m' : Machine) : Prop
  | arguments : m'.program = p → m'.frames = m₀.frames → Above code m₀.stack.items m' → Calling m'
  | inside {rest : List Datum} : Rests primitives body p rest m' →
      Beneath primitives body p x code n m₀ m'.frames rest → Calling m'
  | done {m : Machine} {values : List Datum} {v : Datum} : m'.pc = x.address + 2 → m'.frames = m₀.frames →
      CarriesOut x p.routines n m₀ m values → m'.stack.items = v :: m.stack.items.drop (x.taken p.routines) → Calling m'

variable {primitives body p x code n m₀} {below : List Nat} {start k : Nat} {m m' : Machine} {w : Int} {rest : List Datum}

theorem Beneath.lt_length {frames : List Frame} (h : Beneath primitives body p x code n m₀ frames rest) :
    m₀.frames.length < frames.length := by
  induction h with
  | argument | call => exact Nat.lt_succ_self _
  | inner _ _ _ _ ih => exact Nat.lt_succ_of_lt ih

theorem Beneath.back {f : Frame} {v : Datum} (h : Beneath primitives body p x code n m₀ (f :: m'.frames) rest)
    (hprogram : m'.program = p) (hpc : m'.pc = f.back) (hitems : m'.stack.items = v :: rest) :
    Calling primitives body p x code n m₀ m' := by
  generalize hframes : f :: m'.frames = frames at h
  cases h with
  | @argument f y own hy hback hlength =>
    obtain ⟨rfl, hsame⟩ := List.cons.inj hframes
    exact .arguments hprogram hsame ⟨y, hy, hpc.trans hback, v :: own, hlength, hitems⟩
  | call hback hcarries =>
    obtain ⟨rfl, hsame⟩ := List.cons.inj hframes
    exact .done (hpc.trans hback) hsame hcarries hitems
  | @inner f frames y own rest hy hback hlength hbeneath =>
    obtain ⟨rfl, rfl⟩ := List.cons.inj hframes
    exact .inside ⟨hprogram, Or.inl ⟨y, hy, hpc.trans hback, v :: own, hlength, hitems⟩⟩ hbeneath

variable (hbody : AreStats body) (hlaid : p.LaidOut primitives body)

include hbody hlaid

theorem Beneath.next (h : Beneath primitives body p x code n m₀ m.frames rest) (hrests : Rests primitives body p rest m)
    (hpasses : ∀ x ∈ Layout.scenes primitives body, m.pc = x.address → x.passes p.routines = true)
    (hnext : m.next = (.ok w, m')) : Calling primitives body p x code n m₀ m' := by
  have hprogram := hrests.1
  rcases hrests.next hbody hlaid hpasses hnext with ⟨hframes, hrests'⟩ | ⟨y, hy, hturn⟩
  · exact .inside hrests' (hframes ▸ h)
  · cases hturn with
    | onward hprogram' hframes habove => exact .inside ⟨hprogram'.trans hprogram, Or.inl habove⟩ (hframes ▸ h)
    | @call z id r own hz hcalls hlength hitems =>
      have hrests' := rests_of_entry hbody hlaid hy hcalls.instr (hprogram ▸ hcalls.routine) hcalls.entry
        (hcalls.program.trans hprogram)
      refine .inside hrests' ?_
      rw [hcalls.frames, hitems]
      exact .inner hz rfl hlength h
    | back hreturns hitems =>
      rw [hreturns.frames] at h
      exact h.back (hreturns.program.trans hprogram) hreturns.pc hitems

variable (hcode : CallCode primitives body below start x code)

include hcode

theorem next_of_call {own : List Datum} (hafter : m₀.after? k = some m) (hk : k ≤ n) (hprogram : m.program = p)
    (hpc : m.pc = x.address) (hframes : m.frames = m₀.frames) (hown : own.length = x.view.ends.length)
    (hitems : m.stack.items = own ++ m₀.stack.items) (hnext : m.next = (.ok w, m')) :
    Calling primitives body p x code n m₀ m' := by
  have hx := hcode.placed x hcode.last
  have hmoves : x.instr.Moves x.address m m' :=
    moves_of_scene (x := x.above below) hbody hlaid hprogram hx hpc hnext
  obtain ⟨henough, results, hresults, hitems'⟩ := items_of_next hbody hlaid hprogram hx hpc hnext
  have hcarries : CarriesOut x p.routines n m₀ m own :=
    ⟨⟨k, hk, hafter⟩, hpc, hframes, hitems, hown.trans hcode.operands, henough⟩
  have hresults : results.length = x.pushed := hresults
  rcases hcode.instr with ⟨id, hinstr⟩ | ⟨name, hinstr⟩ | hinstr
  · rw [hinstr] at hmoves
    obtain ⟨⟨r, hr, hentry⟩, hprogram', -, hframes'⟩ := hmoves
    rw [Scene.pushed, hinstr] at hresults
    rw [length_eq_zero_iff.mp hresults, nil_append] at hitems'
    have hrests := rests_of_entry hbody hlaid hx hinstr (hprogram ▸ hr) hentry (hprogram'.trans hprogram)
    refine .inside hrests ?_
    rw [hframes', hitems', hframes]
    exact .call rfl hcarries
  · rw [hinstr] at hmoves
    rw [Scene.pushed, Scene.gives, hinstr] at hresults
    obtain ⟨v, rfl⟩ := length_eq_one_iff.mp hresults
    exact .done hmoves.1 (hmoves.2.frames.trans hframes) hcarries hitems'
  · rw [hinstr] at hmoves
    exact hmoves.elim

theorem next_of_above (hafter : m₀.after? k = some m) (hk : k ≤ n) (hprogram : m.program = p)
    (hframes : m.frames = m₀.frames) (habove : Above code m₀.stack.items m)
    (hpasses : ∀ y ∈ Layout.scenes primitives body, m.pc = y.address → y.address ≠ x.address → y.passes p.routines = true)
    (hnext : m.next = (.ok w, m')) : Calling primitives body p x code n m₀ m' := by
  obtain ⟨y, hy, hpc, own, hown, hitems⟩ := habove
  have hplaced := hcode.placed y hy
  by_cases haddress : y.address = x.address
  · -- no two scenes have one address, so there are as many values as at the call
    have hsame := Layout.stage_unique primitives hbody (mem_append_left _ hplaced)
      (mem_append_left _ (hcode.placed x hcode.last)) haddress
    have hends : (y.view.ends ++ below).length = (x.view.ends ++ below).length :=
      congrArg (fun z : Scene => z.view.ends.length) hsame
    rw [length_append, length_append] at hends
    exact next_of_call hbody hlaid hcode hafter hk hprogram (by rw [hpc, haddress]) hframes (by omega) hitems hnext
  · have hmoves : y.instr.Moves y.address m m' :=
      moves_of_scene (x := y.above below) hbody hlaid hprogram hplaced hpc hnext
    obtain ⟨-, results, hresults, hitems'⟩ := items_of_next hbody hlaid hprogram hplaced hpc hnext
    rw [taken_eq_takes hbody hlaid hplaced (hpasses _ hplaced hpc haddress)] at hitems'
    have hsound := hcode.sound y hy fun h => haddress (by rw [h])
    cases turn_of_sound hsound hmoves hown hitems hresults hitems' with
    | onward hprogram' hframes' habove => exact .arguments (hprogram'.trans hprogram) (hframes'.trans hframes) habove
    | @call z id r own hz hcalls hlength hitems =>
      have hrests := rests_of_entry hbody hlaid hplaced hcalls.instr (hprogram ▸ hcalls.routine) hcalls.entry
        (hcalls.program.trans hprogram)
      refine .inside hrests ?_
      rw [hcalls.frames, hitems, hframes]
      exact .argument hz rfl hlength
    | back hreturns _ =>
      rcases hreturns.instr with hinstr | hinstr
      · exact absurd hinstr (hcode.stays y hy).1
      · exact absurd hinstr (hcode.stays y hy).2

end

/-- From the start of its first argument, a call completes: the machine is behind it for the first time, with as many calls
pending. -/
structure Completes (x : Scene) (n : Nat) (m₀ m₁ : Machine) : Prop where
  reached : m₀.after? (n + 1) = some m₁
  pc : m₁.pc = x.address + 2
  frames : m₁.frames.length = m₀.frames.length
  first : ∀ k ≤ n, ∀ m ∈ m₀.after? k, m.pc = x.address + 2 → m.frames.length ≠ m₀.frames.length

/-- On the way, every other call that is carried out passes as many arguments as are taken. -/
def OthersPass (scenes : List Scene) (routines : Array Routine) (x : Scene) (n : Nat) (m₀ : Machine) : Prop :=
  ∀ k ≤ n, ∀ m ∈ m₀.after? k, ∀ y ∈ scenes, m.pc = y.address →
    y.passes routines = true ∨ y.address = x.address ∧ m.frames.length = m₀.frames.length

section

variable {prims : List String} {body : List Node} {p : Program} {x : Scene} {code : List Scene} {below : List Nat}
  {start n : Nat} {m₀ m₁ : Machine}

theorem Completes.calling (h : Completes x n m₀ m₁) (hbody : AreStats body) (hlaid : p.LaidOut prims body)
    (hcode : CallCode prims body below start x code) (hprogram : m₀.program = p) (hstart : m₀.pc = start)
    (hothers : OthersPass (Layout.scenes prims body) p.routines x n m₀) :
    ∀ {k : Nat} {m : Machine}, k ≤ n + 1 → m₀.after? k = some m → Calling prims body p x code n m₀ m := by
  intro k
  induction k with
  | zero =>
    rintro m - hm
    cases hm
    obtain ⟨y, hy, haddress, hends⟩ := hcode.first
    exact .arguments hprogram rfl ⟨y, hy, by rw [hstart, haddress], [], by rw [hends]; rfl, rfl⟩
  | succ k ih =>
    intro m' hle hm'
    have hk : k ≤ n := Nat.le_of_succ_le_succ hle
    obtain ⟨m, w, hm, hnext⟩ := after?_succ.mp hm'
    have hpasses := hothers k hk m hm
    cases ih (Nat.le_of_succ_le hle) hm with
    | arguments hprogram hframes habove =>
      exact next_of_above hbody hlaid hcode hm hk hprogram hframes habove
        (fun y hy hpc hne => (hpasses y hy hpc).resolve_right fun h => hne h.1) hnext
    | inside hrests hbeneath =>
      have hlength := hbeneath.lt_length
      exact hbeneath.next hbody hlaid hrests
        (fun y hy hpc => (hpasses y hy hpc).resolve_right fun h => by omega) hnext
    | done hpc hframes _ _ => exact absurd (by rw [hframes]) (h.first k hk m hm hpc)

end

/-- **What a call leaves of the operands below it.** Take any program that was read and compiled, and a call in it that
completes, from a machine that stands at its first argument; let every other call that is carried out on the way pass as
many arguments as are taken. When the call is carried out, there is one value for each argument, on top of what was on the
stack at first. Of all these it takes off as many as the function has parameters or the primitive asks for, and the result
comes on top of the rest. So the stack is what it was, with the result on top, exactly if as many arguments were passed. -/
theorem operands_after_call {text : String} {body : List Node} {primitives : List String} {p : Program} {x : Scene}
    {c : Names} {start : Nat} {callee : Node} {args : List Node} {n : Nat} {m₀ m₁ : Machine}
    (htext : Node.ofText text = .ok (.program body)) (hp : Program.ofNode primitives (.program body) = .ok p)
    (hx : x ∈ Layout.scenes primitives body) (hcall : x.subject = .call c start callee args) (hprogram : m₀.program = p)
    (hstart : m₀.pc = start) (hcompletes : Completes x n m₀ m₁)
    (hothers : OthersPass (Layout.scenes primitives body) p.routines x n m₀) :
    ∃ (m : Machine) (values : List Datum) (result : Datum), CarriesOut x p.routines n m₀ m values ∧
      values.length = args.length ∧
      m₁.stack.items = result :: (values ++ m₀.stack.items).drop (x.taken p.routines) ∧ m₁.frames = m₀.frames ∧
      ((∃ result, m₁.stack.items = result :: m₀.stack.items) ↔ args.length = x.taken p.routines) := by
  obtain ⟨_, ⟨⟩, hbody⟩ := areStats_of_text htext
  have hlaid := Program.laidOut hbody hp
  obtain ⟨below, y, code, rfl, hcode⟩ := Layout.callCode hbody hx hcall
  have hcompletes' : Completes y n m₀ m₁ := ⟨hcompletes.reached, hcompletes.pc, hcompletes.frames, hcompletes.first⟩
  have hframes := hcompletes.frames
  cases hcompletes'.calling hbody hlaid hcode hprogram hstart hothers (Nat.le_refl _) hcompletes.reached with
  | arguments _ _ habove =>
    obtain ⟨z, hz, hpc, -⟩ := habove
    have hbound := hcode.bound z hz
    have hbehind := hcompletes'.pc
    omega
  | inside _ hbeneath =>
    have hlength := hbeneath.lt_length
    omega
  | @done m values v _ hsame hcarries hitems =>
    have hcount : values.length = args.length := by
      rw [hcarries.count, show y.subject = _ from hcall]
      rfl
    have henough := hcarries.enough
    rw [CountedStack.depth, hcarries.items, List.length_append] at henough
    rw [hcarries.items] at hitems
    have hcarries' : CarriesOut (y.above below) p.routines n m₀ m values :=
      ⟨hcarries.reached, hcarries.pc, hcarries.frames, hcarries.items, hcarries.count, hcarries.enough⟩
    refine ⟨m, values, v, hcarries', hcount, hitems, hsame, ?_⟩
    show _ ↔ args.length = y.taken p.routines
    constructor
    · rintro ⟨result, hresult⟩
      have hlength := congrArg List.length (hitems.symm.trans hresult)
      rw [List.length_cons, List.length_cons, List.length_drop, List.length_append] at hlength
      omega
    · intro hagree
      rw [← hagree, List.drop_left' hcount] at hitems
      exact ⟨v, hitems⟩

/-- `var f=fun(){};print(9-f(f()));` where the inner call passes what is taken and the outer one an argument too much, which
stays on the stack between the result and the operand below. -/
theorem operands_after_surplus_argument :
    ∃ (p : Program) (x : Scene) (m₀ m₁ : Machine) (values : List Datum) (result : Datum), Completes x 7 m₀ m₁ ∧
      x.taken p.routines = 0 ∧ m₀.stack.items = [.number (.int 9)] ∧ values.length = 1 ∧
      m₁.stack.items = result :: (values ++ m₀.stack.items) ∧ ¬ ∃ result, m₁.stack.items = result :: m₀.stack.items := by
  let args : List Node := [.call (.name (.text "f")) []]
  let body : List Node :=
    [.define (.text "f") (.function [] (.block [])),
      .print [.binary (.text "-") (.literal .num [.int 9]) (.call (.name (.text "f")) args)]]
  let p : Program :=
    { code := #[13, 1, 9, 8, 13, 0, 14, 16, 1, 0, 6, 0, 0, 1, 1, 15, 0, 15, 0, 112, 7, 8, 14]
      consts := #[.number (.int 0), .number (.int 9)]
      scopes := #[#[], #[.text "f"], #[], #[]]
      routines := #[⟨.text "f", [], some 4⟩] }
  have htext : Node.ofText "var f=fun()\x7b\x7d;print(9-f(f()));" = .ok (.program body) := by cbv
  have hp : Program.ofNode [] (.program body) = .ok p := by cbv
  let x : Scene := (Layout.scenes [] body).get ⟨9, by decide +kernel⟩
  let m₀ : Machine := ((Machine.start p []).after? 5).get (by decide +kernel)
  let m₁ : Machine := (m₀.after? 8).get (by decide +kernel)
  have hm₀ : (Machine.start p []).after? 5 = some m₀ := (Option.some_get _).symm
  have hprogram : m₀.program = p := by
    obtain ⟨_, ⟨⟩, hbody⟩ := areStats_of_text htext
    exact ((after?_eq_some_iff.mp hm₀).standing hbody (Program.laidOut hbody hp)).program
  have hitems₀ : ((Machine.start p []).after? 5).map (·.stack.items) = some [.number (.int 9)] := by cbv
  rw [hm₀] at hitems₀
  have hcompletes : Completes x 7 m₀ m₁ :=
    ⟨(Option.some_get _).symm, by decide +kernel, by decide +kernel, by decide +kernel⟩
  have hothers : OthersPass (Layout.scenes [] body) p.routines x 7 m₀ := by
    unfold OthersPass
    decide +kernel
  have htaken : x.taken p.routines = 0 := by decide +kernel
  have hcall : x.subject = .call ⟨[#[.text "f"], #[]], #[⟨.text "f", [], some 4⟩]⟩ 15 (.name (.text "f")) args := by cbv
  obtain ⟨m, values, result, -, hcount, hitems, -, hiff⟩ :=
    operands_after_call htext hp (List.get_mem ..) hcall hprogram (by decide +kernel) hcompletes hothers
  rw [htaken] at hitems hiff
  exact ⟨p, x, m₀, m₁, values, result, hcompletes, htaken, Option.some.inj hitems₀, hcount, hitems,
    fun h => absurd (hiff.mp h) (by decide)⟩

/-- `var f=fun(){return 3;};print(10-f(1));` prints `1 - 3`, and the operand of the subtraction is left on the stack. -/
theorem argument_taken_for_operand :
    ∃ (body : List Node) (p : Program) (m₀ m₁ : Machine),
      Node.ofText "var f=fun()\x7breturn 3;\x7d;print(10-f(1));" = .ok (.program body) ∧
      Program.ofNode [] (.program body) = .ok p ∧ Runs 5 (Machine.start p []) m₀ ∧ m₀.pc = 18 ∧
      m₀.stack.items = [.number (.int 10)] ∧ Runs 5 m₀ m₁ ∧ m₁.pc = 22 ∧ m₁.frames.length = m₀.frames.length ∧
      m₁.stack.items = [.number (.int 3), .number (.int 1), .number (.int 10)] ∧
      (¬ ∃ result, m₁.stack.items = result :: m₀.stack.items) ∧
      ((Machine.start p []).run 100).2.printed = "-2 \n\nValues left on stack:\n10 \n\nStack Statistics:\n" ++
        "Push operations: 6\nPop operations: 6\nCurrent stack depth: 0\nMaximum stack depth: 3\n" := by
  let body : List Node :=
    [.define (.text "f") (.function [] (.block [.returnValue (.literal .num [.int 3])])),
      .print [.binary (.text "-") (.literal .num [.int 10]) (.call (.name (.text "f")) [.literal .num [.int 1]])]]
  let p : Program :=
    { code := #[13, 1, 9, 11, 13, 0, 1, 0, 17, 14, 16, 1, 1, 6, 0, 0, 1, 2, 1, 3, 15, 0, 112, 7, 8, 14]
      consts := #[.number (.int 3), .number (.int 0), .number (.int 10), .number (.int 1)]
      scopes := #[#[], #[.text "f"], #[], #[]]
      routines := #[⟨.text "f", [], some 4⟩] }
  have htext : Node.ofText "var f=fun()\x7breturn 3;\x7d;print(10-f(1));" = .ok (.program body) := by cbv
  have hp : Program.ofNode [] (.program body) = .ok p := by cbv
  have hruns : ((Machine.start p []).after? 5).bind (fun m => (m.after? 5).map fun m' =>
      (m.pc, m.stack.items, m'.pc, decide (m'.frames.length = m.frames.length), m'.stack.items)) =
        some (18, [.number (.int 10)], 22, true, [.number (.int 3), .number (.int 1), .number (.int 10)]) := by cbv
  obtain ⟨m₀, hm₀, hlater⟩ := Option.bind_eq_some_iff.mp hruns
  obtain ⟨m₁, hm₁, hfacts⟩ := Option.map_eq_some_iff.mp hlater
  simp only [Prod.mk.injEq] at hfacts
  obtain ⟨hpc₀, hitems₀, hpc₁, hframes, hitems₁⟩ := hfacts
  refine ⟨body, p, m₀, m₁, htext, hp, after?_eq_some_iff.mp hm₀, hpc₀, hitems₀, after?_eq_some_iff.mp hm₁, hpc₁,
    of_decide_eq_true hframes, hitems₁, ?_, by decide +kernel⟩
  rintro ⟨result, hresult⟩
  rw [hitems₀, hitems₁] at hresult
  have hlength := congrArg List.length hresult
  cases hlength

end Machine

end Cilly
