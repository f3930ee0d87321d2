import Cilly.Node.Basic
import Cilly.Token.Basic

/-!
# Parsing

Statements are read by their first token and expressions by binding powers: an operator takes what stands
to its left if it binds more tightly than what the expression was asked to stop at. Every reader takes
tokens off the front and gives the rest together with the fact that it is shorter, so that the readers,
which call each other on what is left, end on every input.
-/

namespace Cilly

inductive ParseError where
  /-- A token with a certain tag was required; the other is shown as a literal. -/
  | expected (tag found : String)
  /-- A tag that no expression starts with. -/
  | illegal (tag : String)
  | fault (f : Fault)
  deriving DecidableEq, Repr

namespace ParseError

def category : ParseError → Category
  | .expected .. | .illegal _ => .reported
  | .fault f => f.category

def message : ParseError → String
  | .expected tag found => "cilly parser : 期望" ++ tag ++ ",实际为" ++ found
  | .illegal tag => "cilly parser : 非法token: " ++ tag
  | .fault f => f.message

end ParseError

namespace Node

/-- What a reader makes of tokens: a result and fewer tokens, or an error. -/
abbrev Parsed (α : Type) (ts : List Token) : Type :=
  Except ParseError (α × { rest : List Token // rest.length < ts.length })

/-- The complaint that another tag was required. -/
def mismatch (tag : String) (ts : List Token) : ParseError :=
  match (Token.current ts).toDatum.literal with
  | .ok s => .expected tag s
  | .error f => .fault f

/-- The token with a tag in front. -/
def expect (tag : String) (ts : List Token) : Parsed Token ts :=
  match ts with
  | [] => .error (mismatch tag [])
  | t :: rest =>
    if t.tag = tag then .ok (t, ⟨rest, by simp⟩) else .error (mismatch tag (t :: rest))

/-- How tightly an infix operator binds to its left and to its right; a call binds most tightly. -/
def power? : String → Option (Nat × Nat)
  | "*" | "/" | "%" => some (80, 81)
  | "+" | "-" => some (70, 71)
  | ">" | ">=" | "<" | "<=" => some (60, 61)
  | "==" | "!=" => some (50, 51)
  | "&&" => some (40, 41)
  | "||" => some (30, 31)
  | "(" => some (90, 91)
  | _ => none

/-- How tightly a sign in front binds. -/
def signPower : Nat := 85

def literalKind? : String → Option LiteralKind
  | "num" => some .num
  | "str" => some .str
  | "true" => some .true
  | "false" => some .false
  | "null" => some .null
  | _ => none

/-- Parameters after the first: a comma and a name, any number of times. -/
def parameters (ts : List Token) : Except ParseError (List Datum × { rest : List Token // rest.length ≤ ts.length }) :=
  match ts with
  | [] => .ok ([], ⟨[], by simp⟩)
  | t :: ts' =>
    if t.tag = "," then
      match expect "id" ts' with
      | .error e => .error e
      | .ok (x, ⟨r, hr⟩) =>
        match parameters r with
        | .error e => .error e
        | .ok (xs, ⟨r', hr'⟩) => .ok (x.value :: xs, ⟨r', by simp; omega⟩)
    else .ok ([], ⟨t :: ts', by simp⟩)
termination_by ts.length
decreasing_by simp_wf; omega

/-- Parameters up to and with the closing parenthesis. -/
def parameterList (ts : List Token) : Parsed (List Datum) ts :=
  if Token.peek ts = ")" then
    match expect ")" ts with
    | .error e => .error e
    | .ok (_, r) => .ok ([], r)
  else
    match expect "id" ts with
    | .error e => .error e
    | .ok (x, ⟨r, hr⟩) =>
      match parameters r with
      | .error e => .error e
      | .ok (xs, ⟨r', hr'⟩) =>
        match expect ")" r' with
        | .error e => .error e
        | .ok (_, ⟨r'', hr''⟩) => .ok (x.value :: xs, ⟨r'', by omega⟩)

mutual

/-- An expression whose operators bind more tightly than `bp`. -/
def parseExpr (bp : Nat) (ts : List Token) : Parsed Node ts :=
  match parseOperand ts with
  | .error e => .error e
  | .ok (left, ⟨r, hr⟩) =>
    match parseInfix bp left r with
    | .error e => .error e
    | .ok (e, ⟨r', hr'⟩) => .ok (e, ⟨r', by omega⟩)
termination_by (ts.length, 2)
decreasing_by all_goals omega

/-- What an expression starts with. -/
def parseOperand (ts : List Token) : Parsed Node ts :=
  match ts with
  | [] => .error (.illegal "eof")
  | t :: r =>
    match literalKind? t.tag with
    | some kind => .ok (.literal kind [t.value], ⟨r, by simp⟩)
    | none =>
      if t.tag = "id" then .ok (.name t.value, ⟨r, by simp⟩)
      else if t.tag = "-" ∨ t.tag = "!" then
        match parseExpr signPower r with
        | .error e => .error e
        | .ok (e, ⟨r', hr'⟩) => .ok (.unary (.text t.tag) e, ⟨r', by simp; omega⟩)
      else if t.tag = "(" then
        match parseExpr 0 r with
        | .error e => .error e
        | .ok (e, ⟨r', hr'⟩) =>
          match expect ")" r' with
          | .error e => .error e
          | .ok (_, ⟨r'', hr''⟩) => .ok (e, ⟨r'', by simp; omega⟩)
      else if t.tag = "fun" then
        match expect "(" r with
        | .error e => .error e
        | .ok (_, ⟨r1, h1⟩) =>
          match parameterList r1 with
          | .error e => .error e
          | .ok (params, ⟨r2, h2⟩) =>
            match parseBlock r2 with
            | .error e => .error e
            | .ok (body, ⟨r3, h3⟩) => .ok (.function params body, ⟨r3, by simp; omega⟩)
      else .error (.illegal t.tag)
termination_by (ts.length, 1)
decreasing_by all_goals (simp_wf; omega)

/-- What follows an operand, as far as it binds more tightly than `bp`. -/
def parseInfix (bp : Nat) (left : Node) (ts : List Token) :
    Except ParseError (Node × { rest : List Token // rest.length ≤ ts.length }) :=
  match ts with
  | [] => .ok (left, ⟨[], by simp⟩)
  | t :: r =>
    match power? t.tag with
    | none => .ok (left, ⟨t :: r, by simp⟩)
    | some (lbp, rbp) =>
      if lbp ≤ bp then .ok (left, ⟨t :: r, by simp⟩)
      else if t.tag = "(" then
        match parseArguments r with
        | .error e => .error e
        | .ok (args, ⟨r', hr'⟩) =>
          match parseInfix bp (.call left args) r' with
          | .error e => .error e
          | .ok (e, ⟨r'', hr''⟩) => .ok (e, ⟨r'', by simp; omega⟩)
      else
        match parseExpr rbp r with
        | .error e => .error e
        | .ok (right, ⟨r', hr'⟩) =>
          match parseInfix bp (.binary (.text t.tag) left right) r' with
          | .error e => .error e
          | .ok (e, ⟨r'', hr''⟩) => .ok (e, ⟨r'', by simp; omega⟩)
termination_by (ts.length, 1)
decreasing_by all_goals (simp_wf; omega)

/-- Arguments up to and with the closing parenthesis. -/
def parseArguments (ts : List Token) : Parsed (List Node) ts :=
  if Token.peek ts = ")" then
    match expect ")" ts with
    | .error e => .error e
    | .ok (_, r) => .ok ([], r)
  else
    match parseExpr 0 ts with
    | .error e => .error e
    | .ok (e, ⟨r, hr⟩) =>
      match parseMore r with
      | .error e => .error e
      | .ok (es, ⟨r', hr'⟩) =>
        match expect ")" r' with
        | .error e => .error e
        | .ok (_, ⟨r'', hr''⟩) => .ok (e :: es, ⟨r'', by omega⟩)
termination_by (ts.length, 3)
decreasing_by all_goals omega

/-- Arguments after the first: a comma and an expression, any number of times. -/
def parseMore (ts : List Token) :
    Except ParseError (List Node × { rest : List Token // rest.length ≤ ts.length }) :=
  match ts with
  | [] => .ok ([], ⟨[], by simp⟩)
  | t :: r =>
    if t.tag = "," then
      match parseExpr 0 r with
      | .error e => .error e
      | .ok (e, ⟨r', hr'⟩) =>
        match parseMore r' with
        | .error e => .error e
        | .ok (es, ⟨r'', hr''⟩) => .ok (e :: es, ⟨r'', by simp; omega⟩)
    else .ok ([], ⟨t :: r, by simp⟩)
termination_by (ts.length, 0)
decreasing_by all_goals (simp_wf; omega)

/-- A block from its opening brace to its closing one. -/
def parseBlock (ts : List Token) : Parsed Node ts :=
  match expect "\x7b" ts with
  | .error e => .error e
  | .ok (_, ⟨r, hr⟩) =>
    match parseStatements r with
    | .error e => .error e
    | .ok (body, ⟨r', hr'⟩) => .ok (.block body, ⟨r', by omega⟩)
termination_by (ts.length, 0)
decreasing_by all_goals omega

/-- Statements up to and with the closing brace. -/
def parseStatements (ts : List Token) : Parsed (List Node) ts :=
  if Token.peek ts = "\x7d" then
    match expect "\x7d" ts with
    | .error e => .error e
    | .ok (_, r) => .ok ([], r)
  else
    match parseStatement ts with
    | .error e => .error e
    | .ok (s, ⟨r, hr⟩) =>
      match parseStatements r with
      | .error e => .error e
      | .ok (ss, ⟨r', hr'⟩) => .ok (s :: ss, ⟨r', by omega⟩)
termination_by (ts.length, 5)
decreasing_by all_goals omega

/-- A name, an equals sign, an expression and a semicolon: what definitions and assignments share. -/
def parseBinding (ts : List Token) : Parsed (Datum × Node) ts :=
  match expect "id" ts with
  | .error e => .error e
  | .ok (x, ⟨r1, h1⟩) =>
    match expect "=" r1 with
    | .error e => .error e
    | .ok (_, ⟨r2, h2⟩) =>
      match parseExpr 0 r2 with
      | .error e => .error e
      | .ok (e, ⟨r3, h3⟩) =>
        match expect ";" r3 with
        | .error e => .error e
        | .ok (_, ⟨r4, h4⟩) => .ok ((x.value, e), ⟨r4, by omega⟩)
termination_by (ts.length, 0)
decreasing_by all_goals omega

/-- A condition between parentheses. -/
def parseCondition (ts : List Token) : Parsed Node ts :=
  match expect "(" ts with
  | .error e => .error e
  | .ok (_, ⟨r1, h1⟩) =>
    match parseExpr 0 r1 with
    | .error e => .error e
    | .ok (e, ⟨r2, h2⟩) =>
      match expect ")" r2 with
      | .error e => .error e
      | .ok (_, ⟨r3, h3⟩) => .ok (e, ⟨r3, by omega⟩)
termination_by (ts.length, 0)
decreasing_by all_goals omega

def parseStatement (ts : List Token) : Parsed Node ts :=
  match ts with
  | [] => .error (.illegal "eof")
  | t :: r =>
    if t.tag = "define" ∨ t.tag = "var" then
      match parseBinding r with
      | .error e => .error e
      | .ok ((x, e), ⟨r', hr'⟩) => .ok (.define x e, ⟨r', by simp; omega⟩)
    else if t.tag = "id" ∧ Token.peek r = "=" then
      match parseBinding (t :: r) with
      | .error e => .error e
      | .ok ((x, e), ⟨r', hr'⟩) => .ok (.assign x e, ⟨r', hr'⟩)
    else if t.tag = "print" then
      match expect "(" r with
      | .error e => .error e
      | .ok (_, ⟨r1, h1⟩) =>
        match parseArguments r1 with
        | .error e => .error e
        | .ok (args, ⟨r2, h2⟩) =>
          match expect ";" r2 with
          | .error e => .error e
          | .ok (_, ⟨r3, h3⟩) => .ok (.print args, ⟨r3, by simp; omega⟩)
    else if t.tag = "if" then
      match parseCondition r with
      | .error e => .error e
      | .ok (cond, ⟨r1, h1⟩) =>
        match parseStatement r1 with
        | .error e => .error e
        | .ok (yes, ⟨r2, h2⟩) =>
          match r2, h2 with
          | [], _ => .ok (.ifThen cond yes, ⟨[], by simp⟩)
          | t' :: r3, h2 =>
            if t'.tag = "else" then
              match parseStatement r3 with
              | .error e => .error e
              | .ok (no, ⟨r4, h4⟩) => .ok (.ifElse cond yes no, ⟨r4, by simp at h2 ⊢; omega⟩)
            else .ok (.ifThen cond yes, ⟨t' :: r3, by simp at h2 ⊢; omega⟩)
    else if t.tag = "while" then
      match parseCondition r with
      | .error e => .error e
      | .ok (cond, ⟨r1, h1⟩) =>
        match parseStatement r1 with
        | .error e => .error e
        | .ok (body, ⟨r2, h2⟩) => .ok (.loop cond body, ⟨r2, by simp; omega⟩)
    else if t.tag = "break" then
      match expect ";" r with
      | .error e => .error e
      | .ok (_, ⟨r', hr'⟩) => .ok (.breakLoop, ⟨r', by simp; omega⟩)
    else if t.tag = "continue" then
      match expect ";" r with
      | .error e => .error e
      | .ok (_, ⟨r', hr'⟩) => .ok (.continueLoop, ⟨r', by simp; omega⟩)
    else if t.tag = "return" then
      if Token.peek r = ";" then
        match expect ";" r with
        | .error e => .error e
        | .ok (_, ⟨r', hr'⟩) => .ok (.return, ⟨r', by simp; omega⟩)
      else
        match parseExpr 0 r with
        | .error e => .error e
        | .ok (e, ⟨r1, h1⟩) =>
          match expect ";" r1 with
          | .error e => .error e
          | .ok (_, ⟨r2, h2⟩) => .ok (.returnValue e, ⟨r2, by simp; omega⟩)
    else if t.tag = "\x7b" then parseBlock (t :: r)
    else
      match parseExpr 0 (t :: r) with
      | .error e => .error e
      | .ok (e, ⟨r1, h1⟩) =>
        match expect ";" r1 with
        | .error e => .error e
        | .ok (_, ⟨r2, h2⟩) => .ok (.exprStat e, ⟨r2, by omega⟩)
termination_by (ts.length, 4)
decreasing_by all_goals (simp_wf; (try simp at *); omega)

end

/-- Statements up to the end of the tokens or an end mark. -/
def parseProgram (ts : List Token) : Except ParseError (List Node) :=
  if Token.peek ts = "eof" then .ok []
  else
    match parseStatement ts with
    | .error e => .error e
    | .ok (s, ⟨r, _⟩) =>
      match parseProgram r with
      | .error e => .error e
      | .ok ss => .ok (s :: ss)
termination_by ts.length

/-- The tree of a sequence of tokens. -/
def parse (ts : List Token) : Except ParseError Node := (parseProgram ts).map .program

end Node

end Cilly
