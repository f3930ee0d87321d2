/-!
# The command line

Started with the word `gui` the program opens its window; without it there is nothing to do but to say so.
-/

namespace Cilly

/-- What a program printed, and the status it ended with, if it gave one. -/
structure Ending where
  printed : String
  status : Option Int
  deriving DecidableEq, Repr

/-- The window closes at once when nobody uses it. -/
def openWindow : Ending := ⟨"", some 0⟩

def launch : List String → Ending
  | "gui" :: _ => { openWindow with printed := "Starting GUI mode...\n" ++ openWindow.printed }
  | _ =>
    ⟨"Running command-line tests (currently disabled). Use 'python yufa.py gui' to start the IDE.\n", none⟩

end Cilly
