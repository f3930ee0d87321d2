import Cilly.Studio.Window
import Cilly.Workload.Figures

/-!
# A rehearsal of the window

A session that uses everything in the window once: warnings about an empty editor, a program that is run and
turned into JavaScript, the turtle, failures of every kind, the comparison, and the area of line numbers.
-/

namespace Cilly.Workload

/-- What is left at the end of a rehearsal. -/
structure Rehearsal where
  window : Window := {}
  /-- All warnings so far. -/
  warnings : List (String × String) := []
  /-- All that was done to the area of line numbers. -/
  area : List AreaAction := []
  /-- The length of the program's output. -/
  outputLength : Nat := 0

namespace Rehearsal

/-- Performs an action and keeps its warnings. -/
def act (a : Window.Act) (r : Rehearsal) : Rehearsal :=
  let (effects, w) := a r.window
  { r with window := w, warnings := r.warnings ++ effects.warnings }

/-- Every button, while there is nothing to act on. -/
def idle (r : Rehearsal) : Rehearsal :=
  ((r.act (Window.run amply)).act Window.transpile).act (Window.runScript .missing)

/-- Views of data are shortened in a rehearsal. -/
def shortenViews (r : Rehearsal) : Rehearsal :=
  { r with window := { r.window with tokens := "<list>", tree := "<list>" } }

/-- Runs a program and turns it into JavaScript. -/
def perform (text : String) (r : Rehearsal) : Rehearsal :=
  let ran := (r.act (Window.setText text)).act (Window.run amply)
  { (ran.act Window.transpile).shortenViews with outputLength := ran.window.output.length }

/-- The commands that the turtle is given. -/
def orders : List (String × List Datum) :=
  [("forward", [.int 10]), ("backward", [.int 5]), ("left", [.int 90]), ("right", [.int 45]), ("penup", []),
    ("pendown", []), ("pencolor", [.text "red"]), ("pensize", [.int 2])]

/-- Lets the turtle obey all commands, and clears the drawing. -/
def draw (r : Rehearsal) : Rehearsal :=
  let start := { r.window.canvas.setUp with visible := true }
  let (_, done) := (orders.foldl Window.obey start).tick orders.length
  { r with window := { r.window with canvas := done.setUp } }

/-- Compares the outputs of two runs that failed. -/
def compareFailures (r : Rehearsal) : Rehearsal :=
  let w := { r.window with lastOutput := "err", lastScriptOutput := ScriptRun.report (.exited 0 "Error: js-err" "") }
  { r with window := w }.act Window.compare

/-- Turns a text into JavaScript that is no program. -/
def misspell (r : Rehearsal) : Rehearsal := (r.act (Window.setText "var = 1;\n")).act Window.transpile

/-- As many lines as the area of line numbers is laid out for. -/
def lineCapacity : Nat := 100

/-- Scrolls, refreshes, resizes and paints the area of line numbers. -/
def layOut (r : Rehearsal) : Rehearsal :=
  let e := { r.window.editor with margin := Editor.widthFor lineCapacity }
  let top : Rect := ⟨0, 0, 30, 10⟩
  let area := (e.refresh top 5).1 ++ (e.refresh top 0).1 ++
    [.geometry ⟨e.box.x, e.box.y, e.margin, e.box.h⟩] ++ e.paint top
  { r with window := { r.window with editor := e }, area := r.area ++ area }

/-- The whole session, with so many blocks in the program. -/
def play (n : Nat) : Rehearsal :=
  let r : Rehearsal := {}
  let r := ((r.idle.perform (runnable n)).draw.compareFailures).misspell
  (r.act (Window.openSample Sample.arithmetic.title)).layOut.act
    (Window.runScript (.failed "OSError: nope\n"))

end Rehearsal

end Cilly.Workload
