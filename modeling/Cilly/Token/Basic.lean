import Cilly.Datum.Basic

/-!
# Tokens

A token is a tag and a value. Operators and keywords are their own tags and carry nothing; names, numbers
and texts have the tags `id`, `num` and `str`. A sequence of tokens ends where it ends or at a token
tagged `eof`.
-/

namespace Cilly

structure Token where
  tag : String
  value : Datum := .null
  deriving Inhabited, Repr

namespace Token

/-- The mark at the end of every sequence of tokens. -/
def eof : Token := { tag := "eof" }

def toDatum (t : Token) : Datum := .tagged t.tag t.value

/-- The tag of the first token. -/
def peek : List Token → String
  | [] => "eof"
  | t :: _ => t.tag

/-- The first token, the end mark if there is none. -/
def current : List Token → Token
  | [] => eof
  | t :: _ => t

end Token

end Cilly
