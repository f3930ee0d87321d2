import Cilly.Failure

/-!
# Working through a program

From the text through all stages to the end of the run. The turtle's commands are signals of the machine;
those that move or turn it take real numbers. What the program prints is kept apart in a text of its own.
-/

namespace Cilly

/-- All that is to be shown of a program that ran to its end. -/
structure Findings where
  tokens : List Token
  tree : Node
  listing : String
  printed : String

/-- Texts that were printed to, and the one that printing goes to. -/
structure Streams where
  texts : List String := [""]
  current : Nat := 0
  current_lt : current < texts.length := by decide

namespace Streams

/-- One text, with nothing in it yet. -/
def initial : Streams := {}

/-- Printing goes to a new text, where this is printed. -/
def capture (s : Streams) (printed : String) : Streams where
  texts := s.texts ++ [printed]
  current := s.texts.length
  current_lt := by simp

/-- The same after printing has gone back to where it went. -/
def captured (s : Streams) (printed : String) : Streams where
  texts := s.texts ++ [printed]
  current := s.current
  current_lt := by simp [Nat.lt_succ_of_lt s.current_lt]

end Streams

/-- The signals that were sent, and the findings or what failed. -/
structure Work where
  sent : List (String × List Datum)
  outcome : Except Failure Findings

namespace Work

def signals : List Signal :=
  [⟨"forward", true⟩, ⟨"backward", true⟩, ⟨"left", true⟩, ⟨"right", true⟩, ⟨"penup", false⟩,
    ⟨"pendown", false⟩, ⟨"pencolor", false⟩, ⟨"pensize", false⟩, ⟨"reset", false⟩, ⟨"speed", false⟩]

/-- What is known of a program before it runs. -/
structure Prepared where
  tokens : List Token
  tree : Node
  program : Program
  listing : String

def prepare (text : String) : Except Failure Prepared := do
  let tokens ← Token.ofText text
  let tree ← Node.ofTokens tokens
  let program ← Program.ofTree (signals.map Signal.name) tree
  let listing ← program.toListing
  return ⟨tokens, tree, program, listing⟩

/-- Works through a program within a budget of steps. Printing goes back to where it went only if the
program runs to its end. -/
def runOn (budget : Nat) (text : String) (s : Streams) : Work × Streams :=
  match prepare text with
  | .error f => (⟨[], .error f⟩, s)
  | .ok p =>
    match (Machine.start p.program signals).run budget with
    | (.ok (), m) => (⟨m.log.toList, .ok ⟨p.tokens, p.tree, p.listing, m.printed⟩⟩, s.captured m.printed)
    | (.error e, m) => (⟨m.log.toList, .error (.machine e)⟩, s.capture m.printed)

def run (budget : Nat) (text : String) : Work := (runOn budget text .initial).1

/-- The text that is shown for a failure. -/
def failureText (f : Failure) : String := "发生错误:\n" ++ f.line

end Work

end Cilly
