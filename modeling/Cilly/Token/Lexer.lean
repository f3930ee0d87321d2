import Cilly.Number.Numeral
import Cilly.Token.Basic

/-!
# Reading tokens from text

`Token.scan` splits a text into lexemes, longest first, between runs of blanks. Every lexeme is read off
the front of the remaining characters by `Token.lexeme`, which consumes at least one; so the scan recurses
on what is left. A name or keyword needs a character after it: where the text ends inside one, there is no
end to it.
-/

namespace Cilly

inductive LexError where
  | illegalCharacter (c : Char)
  | unclosedText
  | fault (f : Fault)
  /-- The text ends inside a name. -/
  | endless
  deriving DecidableEq, Repr

namespace LexError

def category : LexError → Category
  | .illegalCharacter _ | .unclosedText => .reported
  | .fault f => f.category
  | .endless => .endless

def message : LexError → String
  | .illegalCharacter c => "cilly lexer : 非法字符" ++ c.toString
  | .unclosedText => "cilly lexer : 期望\", 实际eof"
  | .fault f => f.message
  | .endless => ""

end LexError

namespace Token

def isBlank (c : Char) : Bool := c = ' ' || c = '\t' || c = '\r' || c = '\n'

def isDigit (c : Char) : Bool := '0' ≤ c && c ≤ '9'

def isLetter (c : Char) : Bool := ('a' ≤ c && c ≤ 'z') || ('A' ≤ c && c ≤ 'Z')

/-- What a name starts with. -/
def isNameStart (c : Char) : Bool := c = '_' || isLetter c

/-- What a name goes on with. -/
def isNamePart (c : Char) : Bool := c = '_' || isDigit c || isLetter c

def keywords : List String :=
  ["var", "print", "if", "else", "while", "break", "continue", "return", "fun", "true", "false", "null",
    "define"]

/-- Operators of one character that begin no other. -/
def singles : List Char := ['(', ')', '\x7b', '\x7d', ',', ';', '+', '-', '*', '/', '%']

/-- The second character that makes an operator of two. -/
def second? : Char → Option Char
  | '>' => some '='
  | '<' => some '='
  | '=' => some '='
  | '!' => some '='
  | '&' => some '&'
  | '|' => some '|'
  | _ => none

/-- The token of a whole number. -/
def wholeNumber (digits : List Char) : Except LexError Token :=
  if Datum.digitBound < digits.length then .error (.fault (.digitLimit (some digits.length)))
  else .ok ⟨"num", .int (Numeral.digitsValue digits)⟩

/-- The token of a number with a point: the float nearest to it. -/
def pointNumber (digits places : List Char) : Token :=
  ⟨"num", .float (Binary.nearest false (Numeral.digitsValue (digits ++ places)) (10 ^ places.length))⟩

def word (letters : List Char) : Token :=
  let s := String.ofList letters
  if s ∈ keywords then ⟨s, .null⟩ else ⟨"id", .text s⟩

/-- The lexeme that starts with a character, and the text after it. -/
def lexeme (c : Char) (cs : List Char) : Except LexError (Token × List Char) :=
  if isDigit c then
    let digits := c :: cs.takeWhile isDigit
    match cs.dropWhile isDigit with
    | '.' :: rest => .ok (pointNumber digits (rest.takeWhile isDigit), rest.dropWhile isDigit)
    | rest => (wholeNumber digits).map (·, rest)
  else if c = '"' then
    match cs.dropWhile (· ≠ '"') with
    | [] => .error .unclosedText
    | _ :: rest => .ok (⟨"str", .text (String.ofList (cs.takeWhile (· ≠ '"')))⟩, rest)
  else if isNameStart c then
    match cs.dropWhile isNamePart with
    | [] => .error .endless
    | rest => .ok (word (c :: cs.takeWhile isNamePart), rest)
  else if c ∈ singles then .ok (⟨c.toString, .null⟩, cs)
  else
    match second? c with
    | none => .error (.illegalCharacter c)
    | some d =>
      match cs with
      | c' :: rest => if c' = d then .ok (⟨String.ofList [c, d], .null⟩, rest) else .ok (⟨c.toString, .null⟩, cs)
      | [] => .ok (⟨c.toString, .null⟩, [])

theorem length_dropWhile_le (p : Char → Bool) (cs : List Char) : (cs.dropWhile p).length ≤ cs.length :=
  (List.dropWhile_sublist p).length_le

/-- The text after a lexeme is no longer than the text after its first character. -/
theorem length_lexeme {c : Char} {cs rest : List Char} {t : Token}
    (h : lexeme c cs = .ok (t, rest)) : rest.length ≤ cs.length := by
  unfold lexeme at h
  split at h
  · split at h
    · rename_i rest' heq
      have h1 := length_dropWhile_le isDigit cs
      have h2 := length_dropWhile_le isDigit rest'
      rw [heq] at h1
      simp at h h1
      rw [← h.2]
      omega
    · dsimp only at h
      cases hw : wholeNumber (c :: cs.takeWhile isDigit) <;> rw [hw] at h <;> simp [Except.map] at h
      rw [← h.2]
      exact length_dropWhile_le isDigit cs
  · split at h
    · split at h
      · contradiction
      · rename_i heq
        have h1 := length_dropWhile_le (fun x => decide (x ≠ '"')) cs
        rw [heq] at h1
        simp at h h1
        rw [← h.2]
        omega
    · split at h
      · split at h
        · contradiction
        · simp at h
          rw [← h.2]
          exact length_dropWhile_le isNamePart cs
      · split at h
        · simp at h
          obtain ⟨_, rfl⟩ := h
          exact Nat.le_refl _
        · split at h
          · contradiction
          · split at h
            · split at h
              · simp at h
                obtain ⟨_, rfl⟩ := h
                simp
              · simp at h
                obtain ⟨_, rfl⟩ := h
                exact Nat.le_refl _
            · simp at h
              obtain ⟨_, rfl⟩ := h
              exact Nat.le_refl _

/-- The tokens of a text. -/
def scan (cs : List Char) : Except LexError (List Token) :=
  match cs with
  | [] => .ok []
  | c :: rest =>
    if isBlank c then scan rest
    else
      match h : lexeme c rest with
      | .error e => .error e
      | .ok (t, rest') =>
        have := length_lexeme h
        match scan rest' with
        | .error e => .error e
        | .ok ts => .ok (t :: ts)
termination_by cs.length
decreasing_by all_goals simp_wf <;> omega

def lex (text : String) : Except LexError (List Token) := scan text.toList

end Token

end Cilly
