import Cilly.Machine.Run
import Cilly.Node.Parser
import Cilly.Program.Compile
import Cilly.Program.Listing
import Cilly.Script
import Cilly.Token.Lexer

/-!
# From text to programs

The stages one after the other, each on what the one before gave, and what can go wrong in any of them.
-/

namespace Cilly

/-- A failure of some stage. -/
inductive Failure where
  | lex (e : LexError)
  | parse (e : ParseError)
  | compile (e : CompileError)
  | machine (e : MachineError)
  | script (e : ScriptError)
  | fault (f : Fault)
  deriving DecidableEq, Repr

namespace Failure

def category : Failure → Category
  | .lex e => e.category
  | .parse e => e.category
  | .compile e => e.category
  | .machine e => e.category
  | .script e => e.category
  | .fault f => f.category

def message : Failure → String
  | .lex e => e.message
  | .parse e => e.message
  | .compile e => e.message
  | .machine e => e.message
  | .script e => e.message
  | .fault f => f.message

/-- One line on what failed: the family, and the message if there is one. -/
def line (f : Failure) : String :=
  f.category.label ++ (if f.message = "" then "" else ": " ++ f.message) ++ "\n"

end Failure

/-- The tokens of a text. -/
def Token.ofText (text : String) : Except Failure (List Token) := (Token.lex text).mapError .lex

namespace Node

/-- The tree of a list of tokens. -/
def ofTokens (tokens : List Token) : Except Failure Node := (Node.parse tokens).mapError .parse

/-- The tree of a text. -/
def ofText (text : String) : Except Failure Node := do ofTokens (← Token.ofText text)

/-- The JavaScript of a tree. -/
def toScript (n : Node) : Except Failure Datum := n.script.mapError .script

end Node

namespace Program

/-- The program of a tree. -/
def ofTree (primitives : List String) (n : Node) : Except Failure Program :=
  (Program.ofNode primitives n).mapError .compile

/-- The listing of a program. -/
def toListing (p : Program) : Except Failure String := p.listing.mapError .fault

end Program

end Cilly
