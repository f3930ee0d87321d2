import Cilly.Studio.Canvas
import Mathlib.Data.List.DropRight

/-!
# Commands on their way to the canvas

Commands wait in a queue until the timer takes them off, one at a time. A `Session` is a canvas with what has been carried
out on it since the turtle was last set up, and how the drawing looked then; any operation may follow any other, and some of
them fail. What was accepted is read off the operations alone (`accepted`).

`Session.Sound` is kept by every operation: nothing that was accepted is lost, doubled or overtaken on its way, the drawing
is what the commands that were carried out have made of it, and the timer runs as long as something is pending.
-/

namespace Cilly.Canvas

open List

/-! ## Operations -/

/-- What is done to a canvas from outside. -/
inductive Operation where
  | order (command : Command)
  | backward (distance : Datum)
  | setUp
  /-- The timer fires. -/
  | tick

namespace Operation

def isSetUp : Operation → Bool
  | .setUp => true
  | _ => false

/-- The command that is asked for. Moving back by what has no opposite is none. -/
def command? : Operation → Option Command
  | .order command => some command
  | .backward distance => distance.neg.toOption.map .forward
  | .setUp | .tick => none

end Operation

/-- What comes of an operation, and the canvas after it. -/
def apply (c : Canvas) : Operation → Except Fault Unit × Canvas
  | .order command => (.ok (), c.order command)
  | .backward distance =>
    match c.backward distance with
    | .ok c' => (.ok (), c')
    | .error f => (.error f, c)
  | .setUp => (.ok (), c.setUp)
  | .tick => c.advance

/-- The commands accepted since the turtle was last set up, in their order. Before it was set up at all no movement is. -/
def accepted (ops : List Operation) : List Command :=
  ((ops.rtakeWhile fun op => !op.isSetUp).filterMap Operation.command?).filter fun command =>
    ops.any Operation.isSetUp || !command.needsTurtle

section

variable (ops : List Operation)

theorem accepted_setUp : accepted (ops ++ [.setUp]) = [] := by
  rw [accepted, rtakeWhile_concat_neg]
  · rfl
  · simp [Operation.isSetUp]

theorem accepted_of_none {op : Operation} (hop : op.isSetUp = false) (hnone : op.command? = none) :
    accepted (ops ++ [op]) = accepted ops := by
  rw [accepted, rtakeWhile_concat_pos _ _ _ (by simp [hop]), filterMap_append]
  simp [hnone, hop, accepted]

theorem accepted_of_some {op : Operation} {command : Command} (hop : op.isSetUp = false)
    (hsome : op.command? = some command) : accepted (ops ++ [op]) = accepted ops ++
      if ops.any Operation.isSetUp || !command.needsTurtle then [command] else [] := by
  rw [accepted, rtakeWhile_concat_pos _ _ _ (by simp [hop]), filterMap_append, filter_append]
  simp [hsome, hop, accepted, filter_cons]

end

/-! ## Drawing -/

/-- The canvas without what is pending on it. -/
def drawing (c : Canvas) : Canvas := { c with queue := [], ticking := false }

/-- Carries out a command on a drawing. One that fails leaves it as it is. -/
def attempt (c : Canvas) (command : Command) : Canvas := (c.perform command).toOption.getD c

/-- **Carrying out a command neither looks at what is pending nor changes it**. -/
theorem perform_pending (c : Canvas) (command : Command) (queue : List Command) (ticking : Bool) :
    { c with queue := queue, ticking := ticking }.perform command =
      (c.perform command).map fun done => { done with queue := queue, ticking := ticking } := by
  obtain ⟨turtle, pen, strokes, _, _, visible, printed⟩ := c
  cases command with
  | forward distance =>
    cases turtle with
    | none => rfl
    | some t =>
      simp only [perform]
      cases t.ahead distance <;> rfl
  | left angle | right angle =>
    cases turtle with
    | none => rfl
    | some t =>
      simp only [perform, Bind.bind, Except.bind]
      split
      · rfl
      · split <;> rfl
  | penUp | penDown => rfl
  | penColor color =>
    simp only [perform]
    split
    · rfl
    · cases color.display <;> rfl
  | penSize width =>
    simp only [perform]
    cases width.toWhole <;> rfl

theorem drawing_attempt (c : Canvas) (command : Command) : (c.attempt command).drawing = c.drawing.attempt command := by
  have hpending := perform_pending c command [] false
  unfold attempt
  rw [show c.drawing.perform command = _ from hpending]
  cases c.perform command <;> rfl

theorem queue_perform {c done : Canvas} {command : Command} (h : c.perform command = .ok done) : done.queue = c.queue := by
  have hpending := perform_pending c command c.queue c.ticking
  rw [show { c with queue := c.queue, ticking := c.ticking } = c from rfl, h] at hpending
  have hdone : done = { done with queue := c.queue, ticking := c.ticking } := Except.ok.inj hpending
  rw [hdone]

/-- Carrying out a command brings no turtle and takes none away. -/
theorem isSome_turtle_perform {c done : Canvas} {command : Command} (h : c.perform command = .ok done) :
    done.turtle.isSome = c.turtle.isSome := by
  obtain ⟨turtle, pen, strokes, _, _, visible, printed⟩ := c
  cases command with
  | forward distance =>
    cases turtle with
    | none =>
      cases h
      rfl
    | some t =>
      simp only [perform] at h
      cases hahead : t.ahead distance <;> rw [hahead] at h <;> cases h
      rfl
  | left angle | right angle =>
    cases turtle with
    | none =>
      cases h
      rfl
    | some t =>
      simp only [perform, Bind.bind, Except.bind] at h
      split at h
      · cases h
      · split at h <;> cases h
        rfl
  | penUp | penDown =>
    cases h
    rfl
  | penColor color =>
    simp only [perform] at h
    split at h
    · cases h
      rfl
    · cases hshown : color.display <;> rw [hshown] at h <;> cases h
      rfl
  | penSize width =>
    simp only [perform] at h
    cases hwhole : width.toWhole <;> rw [hwhole] at h <;> cases h
    rfl

/-! ## Single operations -/

/-- **What the timer does**: the oldest command is off the queue and has been tried, and nothing else has. -/
theorem advance_eq (c : Canvas) : c.advance.2.queue = c.queue.tail ∧
    c.advance.2.drawing = c.queue.head?.toList.foldl attempt c.drawing ∧ c.advance.2.turtle.isSome = c.turtle.isSome := by
  unfold advance
  split
  · rename_i hqueue
    rw [hqueue]
    exact ⟨rfl, rfl, rfl⟩
  · rename_i command rest hqueue
    rw [hqueue]
    have htried := drawing_attempt { c with queue := rest } command
    dsimp only
    split
    · rename_i hfails
      rw [attempt, hfails] at htried
      exact ⟨rfl, htried, rfl⟩
    · rename_i done hdone
      rw [attempt, hdone] at htried
      have hturtle : done.turtle.isSome = ({ c with queue := rest } : Canvas).turtle.isSome := isSome_turtle_perform hdone
      exact ⟨queue_perform hdone, htried, hturtle⟩

/-- The timer goes on as long as something is pending, also after a failure. -/
theorem ticking_advance {c : Canvas} (h : c.queue ≠ [] → c.ticking = true) :
    c.advance.2.queue ≠ [] → c.advance.2.ticking = true := by
  unfold advance
  split
  · rename_i hqueue
    exact fun hpending => absurd hqueue hpending
  · rename_i command rest hqueue
    dsimp only
    split
    · exact fun _ => h (by simp [hqueue])
    · rename_i done hdone
      intro hpending
      have hrest : done.queue = rest := queue_perform hdone
      simpa [hrest] using hpending

theorem order_of_accepted {c : Canvas} {command : Command} (h : (c.turtle.isSome || !command.needsTurtle) = true) :
    c.order command = { c with queue := c.queue ++ [command], ticking := true } := by
  rw [order, if_neg]
  cases hturtle : c.turtle <;> simp_all

theorem order_of_dropped {c : Canvas} {command : Command} (h : (c.turtle.isSome || !command.needsTurtle) = false) :
    c.order command = c := by
  rw [order, if_pos]
  cases hturtle : c.turtle <;> simp_all

/-- An operation that asks for a command puts it into the queue, if it is accepted. -/
theorem apply_of_some {c : Canvas} {op : Operation} {command : Command} (h : op.command? = some command) :
    (c.apply op).2 = c.order command := by
  cases op with
  | order asked =>
    cases h
    rfl
  | backward distance =>
    rw [Operation.command?] at h
    simp only [apply, backward, Bind.bind, Except.bind]
    cases hneg : distance.neg with
    | error f =>
      rw [hneg] at h
      cases h
    | ok opposite =>
      rw [hneg] at h
      cases h
      rfl
  | setUp | tick => cases h

/-- One that asks for none, and is neither the timer nor a setting up, has failed and changes nothing. -/
theorem apply_of_none {c : Canvas} {op : Operation} (h : op.command? = none) (hop : op.isSetUp = false) :
    (c.apply op).2 = c ∨ op = .tick := by
  cases op with
  | order asked => cases h
  | backward distance =>
    left
    rw [Operation.command?] at h
    simp only [apply, backward, Bind.bind, Except.bind]
    cases hneg : distance.neg with
    | error f => rfl
    | ok opposite =>
      rw [hneg] at h
      cases h
  | setUp => cases hop
  | tick => exact .inr rfl

/-! ## Sessions -/

/-- A canvas together with its past. -/
structure Session where
  canvas : Canvas := {}
  /-- The drawing when the turtle was last set up. -/
  ground : Canvas := {}
  /-- What the timer has taken off the queue since then, oldest first. -/
  ran : List Command := []

namespace Session

def step (s : Session) (op : Operation) : Session where
  canvas := (s.canvas.apply op).2
  ground := if op.isSetUp then s.canvas.setUp.drawing else s.ground
  ran :=
    match op with
    | .setUp => []
    | .tick => s.ran ++ s.canvas.queue.head?.toList
    | _ => s.ran

/-- The session in which these operations follow one another on a new canvas. -/
def after (ops : List Operation) : Session := ops.foldl step {}

theorem after_concat (ops : List Operation) (op : Operation) : after (ops ++ [op]) = (after ops).step op := by
  simp [after]

/-- What holds of a session after the operations that led to it. -/
structure Sound (s : Session) (ops : List Operation) : Prop where
  accounted : s.ran ++ s.canvas.queue = accepted ops
  drawn : s.canvas.drawing = s.ran.foldl attempt s.ground
  ticking : s.canvas.queue ≠ [] → s.canvas.ticking = true
  hasTurtle : s.canvas.turtle.isSome = ops.any Operation.isSetUp

variable {s : Session} {ops : List Operation}

namespace Sound

theorem setUp (s : Session) (ops : List Operation) : (s.step .setUp).Sound (ops ++ [.setUp]) where
  accounted := (accepted_setUp ops).symm
  drawn := rfl
  ticking := fun h => absurd rfl h
  hasTurtle := by simp [step, apply, Canvas.setUp, Operation.isSetUp]

theorem tick (h : s.Sound ops) : (s.step .tick).Sound (ops ++ [.tick]) := by
  obtain ⟨hqueue, hdrawing, hturtle⟩ := advance_eq s.canvas
  constructor
  case accounted =>
    have hsplit : s.canvas.queue.head?.toList ++ s.canvas.queue.tail = s.canvas.queue := by
      cases s.canvas.queue <;> rfl
    calc s.ran ++ s.canvas.queue.head?.toList ++ s.canvas.advance.2.queue
        = s.ran ++ s.canvas.queue := by rw [hqueue, append_assoc, hsplit]
      _ = accepted (ops ++ [.tick]) := by rw [h.accounted, accepted_of_none ops rfl rfl]
  case drawn =>
    calc s.canvas.advance.2.drawing
        = s.canvas.queue.head?.toList.foldl attempt (s.ran.foldl attempt s.ground) := by rw [hdrawing, h.drawn]
      _ = (s.ran ++ s.canvas.queue.head?.toList).foldl attempt s.ground := foldl_append.symm
  case ticking => exact ticking_advance h.ticking
  case hasTurtle => simpa [Operation.isSetUp, Session.step, apply] using hturtle.trans h.hasTurtle

theorem command {op : Operation} {command : Command} (h : s.Sound ops) (hop : op.command? = some command) :
    (s.step op).Sound (ops ++ [op]) := by
  have hkept : op.isSetUp = false ∧ (s.step op).ran = s.ran ∧ (s.step op).ground = s.ground := by
    cases op with
    | order _ | backward _ => exact ⟨rfl, rfl, rfl⟩
    | setUp | tick => cases hop
  obtain ⟨hsetUp, hran, hground⟩ := hkept
  have hcanvas : (s.step op).canvas = s.canvas.order command := apply_of_some hop
  have haccepted := accepted_of_some ops hsetUp hop
  rw [← h.hasTurtle, ← h.accounted] at haccepted
  by_cases hasked : (s.canvas.turtle.isSome || !command.needsTurtle) = true
  · rw [order_of_accepted hasked] at hcanvas
    rw [if_pos hasked] at haccepted
    constructor
    case accounted => rw [hran, hcanvas, haccepted, append_assoc]
    case drawn => rw [hran, hground, hcanvas, ← h.drawn]; rfl
    case ticking => rw [hcanvas]; exact fun _ => rfl
    case hasTurtle => rw [hcanvas]; simpa [hsetUp] using h.hasTurtle
  · rw [order_of_dropped (by simpa using hasked)] at hcanvas
    rw [if_neg hasked, append_nil] at haccepted
    constructor
    case accounted => rw [hran, hcanvas, haccepted]
    case drawn => rw [hran, hground, hcanvas, h.drawn]
    case ticking => rw [hcanvas]; exact h.ticking
    case hasTurtle => rw [hcanvas]; simpa [hsetUp] using h.hasTurtle

/-- **Every operation leaves a sound session**, also one that fails. -/
theorem step (h : s.Sound ops) (op : Operation) : (s.step op).Sound (ops ++ [op]) := by
  cases hop : op.command? with
  | some command => exact h.command hop
  | none =>
    cases op with
    | setUp => exact setUp s ops
    | tick => exact h.tick
    | order command => cases hop
    | backward distance =>
      have hsame : s.step (.backward distance) = s := by
        obtain hcanvas | hfalse := apply_of_none (c := s.canvas) hop rfl
        · cases s
          simp_all [Session.step, Operation.isSetUp]
        · cases hfalse
      rw [hsame]
      constructor
      case accounted => rw [accepted_of_none ops rfl hop, h.accounted]
      case drawn => exact h.drawn
      case ticking => exact h.ticking
      case hasTurtle => simpa [Operation.isSetUp] using h.hasTurtle

end Sound

theorem sound_after (ops : List Operation) : (after ops).Sound ops := by
  induction ops using reverseRecOn with
  | nil => exact ⟨rfl, rfl, fun h => absurd rfl h, rfl⟩
  | append_singleton ops op ih =>
    rw [after_concat]
    exact ih.step op

/-- **No command is lost, doubled, overtaken or stranded**: after any operations, what was carried out and what is pending are
together the commands that were accepted, in their order. -/
theorem ran_append_queue (ops : List Operation) :
    (after ops).ran ++ (after ops).canvas.queue = accepted ops ∧
      (after ops).canvas.drawing = (after ops).ran.foldl attempt (after ops).ground ∧
      ((after ops).canvas.queue ≠ [] → (after ops).canvas.ticking = true) ∧
      (after (ops ++ [.tick])).canvas.queue = (after ops).canvas.queue.tail ∧
      (after (ops ++ [.tick])).canvas.drawing = (after ops).canvas.queue.head?.toList.foldl attempt (after ops).canvas.drawing := by
  obtain ⟨haccounted, hdrawn, hticking, -⟩ := sound_after ops
  obtain ⟨hqueue, hdrawing, -⟩ := advance_eq (after ops).canvas
  rw [after_concat]
  exact ⟨haccounted, hdrawn, hticking, hqueue, hdrawing⟩

end Session

end Cilly.Canvas
