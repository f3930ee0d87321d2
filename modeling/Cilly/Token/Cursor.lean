import Cilly.Token.Basic

/-!
# Reading heads

A cursor stands at one place of a text or of a sequence of tokens. One can look at a distance, step over
the current item, or demand that it be a certain one. Looking back beyond the front wraps around once, as
offsets of lists do; looking ahead beyond the end sees the end mark.
-/

namespace Cilly

structure Cursor (α : Type) where
  items : Array α
  pos : Nat := 0

inductive ReadError where
  /-- Another item was demanded than the current one. -/
  | expected (wanted shown : String)
  | expectedToken (wanted : String) (shown : String)
  | fault (f : Fault)

namespace ReadError

def category : ReadError → Category
  | .expected .. | .expectedToken .. => .reported
  | .fault f => f.category

def message : ReadError → String
  | .expected wanted shown => "reader : 期望" ++ wanted ++ ", 实际" ++ shown
  | .expectedToken wanted shown => "reader : 期望" ++ wanted ++ ",实际为" ++ shown
  | .fault f => f.message

end ReadError

namespace Cursor

variable {α : Type}

/-- The item at a distance from the current one: `none` at the end, an error before the front. -/
def look (c : Cursor α) (distance : Int) (outside : Fault) : Except ReadError (Option α) :=
  let i : Int := c.pos + distance
  if (c.items.size : Int) ≤ i then .ok none
  else
    match (Datum.position? c.items.size i).bind (c.items[·]?) with
    | some a => .ok (some a)
    | none => .error (.fault outside)

/-- The current item and the cursor after it; at the end the cursor steps on all the same. -/
def advance (c : Cursor α) : Option α × Cursor α := (c.items[c.pos]?, { c with pos := c.pos + 1 })

end Cursor

namespace Cursor.Text

def shown : Option Char → String
  | some c => c.toString
  | none => "eof"

def start (text : String) : Cursor Char := { items := text.toList.toArray }

def peek (c : Cursor Char) (distance : Int) : Except ReadError String :=
  (c.look distance .noCharacter).map shown

def next (c : Cursor Char) : String × Cursor Char :=
  let (a, c) := c.advance
  (shown a, c)

def expect (c : Cursor Char) (wanted : String) : Except ReadError (String × Cursor Char) :=
  let seen := shown c.items[c.pos]?
  if wanted = seen then .ok (next c) else .error (.expected wanted seen)

end Cursor.Text

namespace Cursor.Tokens

def shown (t : Option Token) : Token := t.getD Token.eof

def start (tokens : List Token) : Cursor Token := { items := tokens.toArray }

def peek (c : Cursor Token) (distance : Int) : Except ReadError String :=
  (c.look distance .noItem).map fun t => (shown t).tag

def next (c : Cursor Token) : Token × Cursor Token :=
  let (a, c) := c.advance
  (shown a, c)

def expect (c : Cursor Token) (wanted : String) : Except ReadError (Token × Cursor Token) :=
  let seen := shown c.items[c.pos]?
  if wanted = seen.tag then .ok (next c)
  else
    match seen.toDatum.literal with
    | .ok s => .error (.expectedToken wanted s)
    | .error f => .error (.fault f)

end Cursor.Tokens

end Cilly
