import Cilly.Number.Decimal

/-!
# The editor

A text with an area for the numbers of its lines. The area is as wide as the longest number needs, and the
text keeps a margin of that width. Painting a rectangle of the area fills it and writes the numbers of the
visible lines that reach into it.
-/

namespace Cilly

structure Rect where
  x : Int
  y : Int
  w : Int
  h : Int
  deriving DecidableEq, Repr

namespace Rect

/-- The last row that belongs to the rectangle. -/
def bottom (r : Rect) : Int := r.y + r.h - 1

def contains (r inner : Rect) : Bool :=
  r.x ≤ inner.x ∧ r.y ≤ inner.y ∧ inner.x + inner.w ≤ r.x + r.w ∧ inner.y + inner.h ≤ r.y + r.h

end Rect

/-- What is done to the area of line numbers. -/
inductive AreaAction where
  | scroll (dy : Int)
  | update (y h : Int)
  | geometry (r : Rect)
  | fill (r : Rect)
  | pen
  | number (top : Int) (text : String)
  deriving DecidableEq, Repr

/-- How the line of the cursor is marked. -/
inductive Marking where
  | never
  | off
  | on
  deriving DecidableEq, Repr

structure Editor where
  text : String := ""
  readOnly : Bool := false
  /-- The first line in view, from 0. -/
  firstLine : Int := 0
  /-- Where the text starts above or below the view. -/
  offset : Int := 0
  hidden : List Int := []
  box : Rect := ⟨0, 0, 200, 100⟩
  margin : Nat := 11
  marking : Marking := .never
  deriving Repr

namespace Editor

def digitWidth : Nat := 8

def lineHeight : Nat := 16

/-- The width of the area when it draws, whatever it needs. -/
def areaWidth : Nat := 30

def lineCount (e : Editor) : Nat := (e.text.toList.filter (· = '\n')).length + 1

/-- The width that the area needs for the numbers of so many lines. -/
def widthFor (lines : Nat) : Nat := 3 + digitWidth * (Decimal.numeral lines).length

/-- The width that the area needs for its longest number. -/
def numberWidth (e : Editor) : Nat := widthFor e.lineCount

/-- Marks the line of the cursor, or no line if the text cannot be changed. -/
def mark (e : Editor) : Editor := { e with marking := if e.readOnly then .off else .on }

def fitMargin (e : Editor) : Editor := { e with margin := e.numberWidth }

/-- Replaces the text; the margin is fitted if the number of lines changes. -/
def setText (e : Editor) (text : String) : Editor :=
  let next := { e with text := text }
  mark (if next.lineCount = e.lineCount then next else next.fitMargin)

/-- A part of the text has to be drawn anew, after scrolling by a distance. -/
def refresh (e : Editor) (r : Rect) (dy : Int) : List AreaAction × Editor :=
  let action := if dy = 0 then .update r.y r.h else .scroll dy
  ([action], if r.contains e.box then e.fitMargin else e)

def resize (e : Editor) : List AreaAction := [.geometry ⟨e.box.x, e.box.y, e.numberWidth, e.box.h⟩]

/-- Where a line starts. -/
def top (e : Editor) (line : Nat) : Int := lineHeight * line + e.offset

/-- The lines from the first one in view on. -/
def linesInView (e : Editor) : List Nat :=
  if e.firstLine < 0 then []
  else (List.range e.lineCount).drop e.firstLine.toNat

/-- The numbers that painting a rectangle writes. -/
def numbers (e : Editor) (r : Rect) : List Nat :=
  (e.linesInView.takeWhile fun n => e.top n ≤ r.bottom).filter fun n =>
    !e.hidden.contains (n : Int) && r.y ≤ e.top n + lineHeight

def paint (e : Editor) (r : Rect) : List AreaAction :=
  .fill r :: (e.numbers r).flatMap fun n => [.pen, .number (e.top n) (Decimal.numeral (n + 1))]

end Editor

end Cilly
