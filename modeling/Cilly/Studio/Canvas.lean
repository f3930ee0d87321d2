import Cilly.Datum.Arithmetic
import Cilly.Datum.Reading

/-!
# The canvas

A turtle draws on the canvas. What it is told to do waits in a queue; a timer takes one command off the
queue at a time, oldest first, and runs as long as there is something in the queue. Movements are only
accepted once there is a turtle. Setting up the turtle clears the drawing and the queue, but leaves the pen
as it is.

Commands take any data; a command with data that it cannot use fails when it is carried out.
-/

namespace Cilly

structure Turtle where
  x : Float := 0
  y : Float := 0
  /-- In degrees; 0 is upwards. -/
  heading : Float := 0

structure Pen where
  down : Bool := true
  color : Datum := .text "black"
  width : Int := 1

/-- A line that was drawn. -/
structure Stroke where
  fromX : Float
  fromY : Float
  toX : Float
  toY : Float
  color : Datum
  width : Int

inductive Command where
  | forward (distance : Datum)
  | left (angle : Datum)
  | right (angle : Datum)
  | penUp
  | penDown
  | penColor (color : Datum)
  | penSize (width : Datum)

structure Canvas where
  turtle : Option Turtle := none
  pen : Pen := {}
  strokes : Array Stroke := #[]
  queue : List Command := []
  /-- Whether the timer is active. -/
  ticking : Bool := false
  visible : Bool := false
  printed : String := ""

namespace Command

/-- Movements need a turtle when they are given. -/
def needsTurtle : Command → Bool
  | .forward _ | .left _ | .right _ => true
  | _ => false

end Command

namespace Turtle

/-- Where the turtle gets to by moving a distance ahead. -/
def ahead (t : Turtle) (distance : Datum) : Except Fault Turtle := do
  let angle := t.heading * 3.14159 / 180.0
  let back ← distance.neg
  let dx ← (← back.mul (.float angle.sin)).toReal
  let dy ← (← back.mul (.float angle.cos)).toReal
  return { t with x := t.x + dx, y := t.y + dy }

def turned (t : Turtle) (heading : Datum) : Except Fault Turtle := do
  return { t with heading := ← heading.toReal }

end Turtle

namespace Canvas

def setUp (c : Canvas) : Canvas :=
  { c with turtle := some {}, strokes := #[], queue := [], ticking := false }

/-- Puts a command into the queue, unless it is a movement and there is no turtle. -/
def order (c : Canvas) (command : Command) : Canvas :=
  if command.needsTurtle && c.turtle.isNone then c
  else { c with queue := c.queue ++ [command], ticking := true }

/-- Moving back is moving ahead by the opposite distance. -/
def backward (c : Canvas) (distance : Datum) : Except Fault Canvas := do
  return c.order (.forward (← distance.neg))

/-- A color is a name; nothing and lists are no names. -/
def isColor : Datum → Bool
  | .null | .list _ => false
  | _ => true

/-- Carries out a command. -/
def perform (c : Canvas) : Command → Except Fault Canvas
  | .forward distance =>
    match c.turtle with
    | none => .ok c
    | some t => do
      let t' ← t.ahead distance
      let strokes :=
        if c.pen.down then c.strokes.push ⟨t.x, t.y, t'.x, t'.y, c.pen.color, c.pen.width⟩ else c.strokes
      return { c with turtle := some t', strokes := strokes }
  | .left angle =>
    match c.turtle with
    | none => .ok c
    | some t => do
      return { c with turtle := some (← t.turned (← (Datum.float t.heading).sub angle)) }
  | .right angle =>
    match c.turtle with
    | none => .ok c
    | some t => do
      return { c with turtle := some (← t.turned (← (Datum.float t.heading).add angle)) }
  | .penUp => .ok { c with pen := { c.pen with down := false } }
  | .penDown => .ok { c with pen := { c.pen with down := true } }
  | .penColor color =>
    if isColor color then .ok { c with pen := { c.pen with color := color } }
    else do
      let shown ← color.display
      return { c with
        pen := { c.pen with color := .text "black" }
        printed := c.printed ++ "警告: 无效的颜色名称 '" ++ shown ++ "'\n" }
  | .penSize width => do return { c with pen := { c.pen with width := ← width.toWhole } }

/-- Carries out the oldest command. If it fails it is off the queue all the same, and the timer goes on. -/
def advance (c : Canvas) : Except Fault Unit × Canvas :=
  match c.queue with
  | [] => (.ok (), { c with ticking := false })
  | command :: rest =>
    let taken := { c with queue := rest }
    match taken.perform command with
    | .error f => (.error f, taken)
    | .ok done => (.ok (), { done with ticking := !rest.isEmpty })

/-- Lets the timer fire so many times, if it is active; a failure ends it. -/
def tick (c : Canvas) : Nat → Except Fault Unit × Canvas
  | 0 => (.ok (), c)
  | n + 1 =>
    if c.ticking then
      match c.advance with
      | (.ok (), c) => c.tick n
      | failed => failed
    else (.ok (), c)

/-- A coordinate with six places, and no sign before zero. -/
def coordinate (x : Float) : String :=
  let s := floatFixed 6 x
  if s = "-0.000000" then "0.000000" else s

@[simp] theorem queue_setUp (c : Canvas) : c.setUp.queue = [] := rfl

end Canvas

end Cilly
