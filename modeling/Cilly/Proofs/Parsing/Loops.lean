import Cilly.Proofs.Parsing.Exact
import Cilly.Token.Cursor

/-!
# The parser as loops over a reading head

The readers of `Cilly.Node.Parser` end because each says how many tokens it has left. Here the same grammar is read the way
one would write it down without a thought of that: a head stands at a token, one looks at the token there or at the next
one, demands a certain one, or steps over it whatever it is, and at the end of the tokens the head sees end marks for as
long as one likes. Lists of statements, arguments, parameters and operators are loops that go on until the head sees the
right token. Nothing in the tokens bounds them: how many rounds they may take is a number of its own, and reading comes to
an end if it does so with all numbers from some number on (`Ends`).

The loops end, with what the parser makes of the tokens (`program_ends`): every round of a loop leaves the head further on,
and a head that sees an end mark is sent no further, because no expression starts with one and none is ever demanded.
`reading_ends` says so for all tokens, and for every single statement and expression.
-/

namespace Cilly

open List

/-- A complaint of the head as one of the parser. -/
def ParseError.ofRead : ReadError → ParseError
  | .expected wanted shown | .expectedToken wanted shown => .expected wanted shown
  | .fault f => .fault f

namespace Node

/-- Reading with a head that keeps its place, also in failure. There is no outcome if it is not over. -/
abbrev TokenReader (α : Type) : Type := ExceptT ParseError (StateT (Cursor Token) Option) α

namespace TokenReader

/-! ## The loops -/

/-- The tag that the head sees at a distance. -/
def peek (distance : Nat) : TokenReader String := do
  let c ← get
  return (Cursor.Tokens.shown c.items[c.pos + distance]?).tag

/-- Steps over the token at the head, or beyond the end. -/
def next : TokenReader Token := modifyGet Cursor.Tokens.next

def require (tag : String) : TokenReader Token := do
  match Cursor.Tokens.expect (← get) tag with
  | .ok (t, c) =>
    set c
    return t
  | .error e => throw (.ofRead e)

def unfinished {α : Type} : TokenReader α := ExceptT.mk fun _ => none

def moreParameters : Nat → TokenReader (List Datum)
  | 0 => unfinished
  | n + 1 => do
    if (← peek 0) = "," then
      let _ ← require ","
      let x ← require "id"
      let xs ← moreParameters n
      return x.value :: xs
    else return []

def parameterList (n : Nat) : TokenReader (List Datum) := do
  if (← peek 0) = ")" then
    let _ ← require ")"
    return []
  else
    let x ← require "id"
    let xs ← moreParameters n
    let _ ← require ")"
    return x.value :: xs

mutual

def statement : Nat → TokenReader Node
  | 0 => unfinished
  | n + 1 => do
    let t ← peek 0
    if t = "define" ∨ t = "var" then
      let _ ← require t
      let (x, e) ← binding n
      return .define x e
    else if t = "id" ∧ (← peek 1) = "=" then
      let (x, e) ← binding n
      return .assign x e
    else if t = "print" then
      let _ ← require "print"
      let _ ← require "("
      let args ← argumentList n
      let _ ← require ";"
      return .print args
    else if t = "if" then
      let _ ← require "if"
      let cond ← condition n
      let yes ← statement n
      if (← peek 0) = "else" then
        let _ ← require "else"
        let no ← statement n
        return .ifElse cond yes no
      else return .ifThen cond yes
    else if t = "while" then
      let _ ← require "while"
      let cond ← condition n
      let body ← statement n
      return .loop cond body
    else if t = "break" then
      let _ ← require "break"
      let _ ← require ";"
      return .breakLoop
    else if t = "continue" then
      let _ ← require "continue"
      let _ ← require ";"
      return .continueLoop
    else if t = "return" then
      let _ ← require "return"
      if (← peek 0) = ";" then
        let _ ← require ";"
        return .return
      else
        let e ← expr 0 n
        let _ ← require ";"
        return .returnValue e
    else if t = "\x7b" then block n
    else
      let e ← expr 0 n
      let _ ← require ";"
      return .exprStat e

/-- A name, an equals sign, an expression and a semicolon. -/
def binding : Nat → TokenReader (Datum × Node)
  | 0 => unfinished
  | n + 1 => do
    let x ← require "id"
    let _ ← require "="
    let e ← expr 0 n
    let _ ← require ";"
    return (x.value, e)

/-- Arguments up to and with the closing parenthesis. -/
def argumentList : Nat → TokenReader (List Node)
  | 0 => unfinished
  | n + 1 => do
    if (← peek 0) = ")" then
      let _ ← require ")"
      return []
    else
      let e ← expr 0 n
      let es ← moreArguments n
      let _ ← require ")"
      return e :: es

def moreArguments : Nat → TokenReader (List Node)
  | 0 => unfinished
  | n + 1 => do
    if (← peek 0) = "," then
      let _ ← require ","
      let e ← expr 0 n
      let es ← moreArguments n
      return e :: es
    else return []

/-- A condition between parentheses. -/
def condition : Nat → TokenReader Node
  | 0 => unfinished
  | n + 1 => do
    let _ ← require "("
    let e ← expr 0 n
    let _ ← require ")"
    return e

def block : Nat → TokenReader Node
  | 0 => unfinished
  | n + 1 => do
    let _ ← require "\x7b"
    let body ← statementsUntil "\x7d" n
    let _ ← require "\x7d"
    return .block body

/-- Statements until the head sees a tag. -/
def statementsUntil (stop : String) : Nat → TokenReader (List Node)
  | 0 => unfinished
  | n + 1 => do
    if (← peek 0) = stop then return []
    else
      let s ← statement n
      let ss ← statementsUntil stop n
      return s :: ss

def expr (bp : Nat) : Nat → TokenReader Node
  | 0 => unfinished
  | n + 1 => do
    let left ← operand n
    infixes bp left n

def operand : Nat → TokenReader Node
  | 0 => unfinished
  | n + 1 => do
    let t ← peek 0
    match literalKind? t with
    | some kind =>
      let literal ← next
      return .literal kind [literal.value]
    | none =>
      if t = "id" then
        let x ← next
        return .name x.value
      else if t = "-" ∨ t = "!" then
        let op ← next
        let e ← expr signPower n
        return .unary (.text op.tag) e
      else if t = "(" then
        let _ ← require "("
        let e ← expr 0 n
        let _ ← require ")"
        return e
      else if t = "fun" then
        let _ ← require "fun"
        let _ ← require "("
        let params ← parameterList n
        let body ← block n
        return .function params body
      else throw (.illegal t)

/-- Operators and calls behind an operand, as long as they bind more tightly than `bp`. -/
def infixes (bp : Nat) (left : Node) : Nat → TokenReader Node
  | 0 => unfinished
  | n + 1 => do
    let t ← peek 0
    match power? t with
    | none => return left
    | some (l, r) =>
      if l ≤ bp then return left
      else if t = "(" then
        let _ ← require "("
        let args ← argumentList n
        infixes bp (.call left args) n
      else
        let op ← next
        let right ← expr r n
        infixes bp (.binary (.text op.tag) left right) n

end

/-- The statements of a block and the brace that ends them. -/
def closed (n : Nat) : TokenReader (List Node) := do
  let body ← statementsUntil "\x7d" n
  let _ ← require "\x7d"
  return body

def program (n : Nat) : TokenReader Node := do
  let ss ← statementsUntil "eof" n
  return .program ss

end TokenReader

end Node

/-! ## Places of the head -/

namespace Cursor

/-- These are the tokens from the head on, and the head is not beyond their end. -/
structure At (c : Cursor Token) (ts : List Token) : Prop where
  inside : c.pos ≤ c.items.size
  ahead : c.items.toList.drop c.pos = ts

/-- The head has gone on, and not beyond the end. -/
structure Reaches (c c' : Cursor Token) : Prop where
  items : c'.items = c.items
  forward : c.pos ≤ c'.pos
  inside : c'.pos ≤ c.items.size

section

variable {c c' c'' : Cursor Token} {t : Token} {ts : List Token}

theorem Reaches.trans (h : c.Reaches c') (h' : c'.Reaches c'') : c.Reaches c'' where
  items := h'.items.trans h.items
  forward := Nat.le_trans h.forward h'.forward
  inside := h.items ▸ h'.inside

theorem At.refl (h : c.At ts) : c.Reaches c := ⟨rfl, Nat.le_refl _, h.inside⟩

theorem At.length (h : c.At ts) : ts.length + c.pos = c.items.size := by
  have hinside := h.inside
  rw [← h.ahead, length_drop, Array.length_toList]
  omega

theorem At.getElem? (h : c.At ts) (distance : Nat) : c.items[c.pos + distance]? = ts[distance]? := by
  rw [← h.ahead, getElem?_drop, Array.getElem?_toList]

theorem At.advance (h : c.At (t :: ts)) :
    c.Reaches { c with pos := c.pos + 1 } ∧ ({ c with pos := c.pos + 1 } : Cursor Token).At ts := by
  have hlength := h.length
  rw [length_cons] at hlength
  have hinside : c.pos + 1 ≤ c.items.size := by omega
  refine ⟨⟨rfl, Nat.le_succ _, hinside⟩, hinside, ?_⟩
  show c.items.toList.drop (c.pos + 1) = ts
  rw [← drop_drop, h.ahead]
  rfl

end

end Cursor

namespace Node.TokenReader

/-! ## Outcomes -/

section

variable {α β : Type} {p q : List Token → Prop} {x : Nat → TokenReader α} {f : Nat → α → TokenReader β} {c c' : Cursor Token}
  {ts : List Token} {r : Except ParseError (α × { rest // p rest })} {r' : Except ParseError (β × { rest // q rest })}

/-- With sufficiently many rounds, reading from a place comes to this. -/
def Ends (x : Nat → TokenReader α) (c : Cursor Token) (out : Except ParseError α × Cursor Token) : Prop :=
  ∃ n, ∀ m ≥ n, (x m).run.run c = some out

theorem Ends.round {out : Except ParseError α × Cursor Token} (h : Ends (fun n => x (n + 1)) c out) : Ends x c out := by
  obtain ⟨n, hn⟩ := h
  refine ⟨n + 1, fun m hm => ?_⟩
  obtain ⟨m, rfl⟩ : ∃ k, m = k + 1 := ⟨m - 1, by omega⟩
  exact hn m (Nat.le_of_succ_le_succ hm)

theorem Ends.bind {a : α} {out : Except ParseError β × Cursor Token} (hx : Ends x c (.ok a, c')) (hf : Ends (f · a) c' out) :
    Ends (fun n => x n >>= f n) c out := by
  obtain ⟨n, hn⟩ := hx
  obtain ⟨n', hn'⟩ := hf
  refine ⟨max n n', fun m hm => ?_⟩
  show ((x m).run.run c).bind _ = _
  rw [hn m (Nat.le_trans (Nat.le_max_left ..) hm)]
  exact hn' m (Nat.le_trans (Nat.le_max_right ..) hm)

theorem Ends.bind_error {e : ParseError} (hx : Ends x c (.error e, c')) : Ends (fun n => x n >>= f n) c (.error e, c') := by
  obtain ⟨n, hn⟩ := hx
  refine ⟨n, fun m hm => ?_⟩
  show ((x m).run.run c).bind _ = _
  rw [hn m hm]
  rfl

/-- Reading comes to its end with what a reader of the parser makes of the tokens: the same result with the head at the
rest, or the same error, and the head has not gone beyond the end of the tokens. -/
def Agrees (x : Nat → TokenReader α) (c : Cursor Token) (r : Except ParseError (α × { rest // p rest })) : Prop :=
  ∃ c', Ends x c (r.map (·.1), c') ∧ c.Reaches c' ∧ ∀ a rest, r = .ok (a, rest) → c'.At rest.1

theorem Agrees.round (h : Agrees (fun n => x (n + 1)) c r) : Agrees x c r := by
  obtain ⟨c', hends, h⟩ := h
  exact ⟨c', hends.round, h⟩

theorem Agrees.pure {a : α} {h : p ts} (hc : c.At ts) : Agrees (fun _ => pure a) c (.ok (a, ⟨ts, h⟩)) := by
  refine ⟨c, ⟨0, fun _ _ => rfl⟩, hc.refl, ?_⟩
  rintro _ _ ⟨⟩
  exact hc

theorem Agrees.throw {e : ParseError} (hc : c.At ts) :
    Agrees (fun _ => throw e) c (.error e : Except ParseError (α × { rest // p rest })) :=
  ⟨c, ⟨0, fun _ _ => rfl⟩, hc.refl, by rintro _ _ ⟨⟩⟩

theorem Agrees.ite {cond : Prop} [Decidable cond] {y : Nat → TokenReader α} {r r' : Except ParseError (α × { rest // p rest })}
    (hyes : cond → Agrees x c r) (hno : ¬ cond → Agrees y c r') :
    Agrees (fun n => if cond then x n else y n) c (if cond then r else r') := by
  by_cases h : cond
  · simpa only [if_pos h] using hyes h
  · simpa only [if_neg h] using hno h

/-- What is read first decides: its error is the error of all, and behind its result the reading goes on. -/
theorem Agrees.bind (hx : Agrees x c r)
    (hok : ∀ a rest h c', r = .ok (a, ⟨rest, h⟩) → c'.At rest → Agrees (f · a) c' r')
    (herror : ∀ e, r = .error e → r' = .error e := by intro e he; rw [he]) : Agrees (fun n => x n >>= f n) c r' := by
  obtain ⟨c', hends, hreaches, hat⟩ := hx
  cases r with
  | error e =>
    rw [herror e rfl]
    exact ⟨c', hends.bind_error, hreaches, by rintro _ _ ⟨⟩⟩
  | ok read =>
    obtain ⟨a, rest, h⟩ := read
    obtain ⟨c'', hends', hreaches', hat'⟩ := hok a rest h c' rfl (hat a _ rfl)
    exact ⟨c'', hends.bind hends', hreaches.trans hreaches', hat'⟩

/-- The last thing that is read, with its result in another shape. -/
theorem Agrees.map {g : α → β} (hx : Agrees x c r)
    (hok : ∀ a rest h, r = .ok (a, ⟨rest, h⟩) → r'.map (fun read => (read.1, read.2.1)) = .ok (g a, rest) := by
      intro a rest h ha; rw [ha]; rfl)
    (herror : ∀ e, r = .error e → r' = .error e := by intro e he; rw [he]) :
    Agrees (fun n => do let a ← x n; return g a) c r' := by
  refine hx.bind (fun a rest h c' heq hc' => ?_) herror
  have hread := hok a rest h heq
  cases r' with
  | error e => cases hread
  | ok read =>
    obtain ⟨b, rest', h'⟩ := read
    cases hread
    exact .pure hc'

theorem Agrees.same {r' : Except ParseError (α × { rest // q rest })} (hx : Agrees x c r)
    (hok : ∀ a rest h, r = .ok (a, ⟨rest, h⟩) → r'.map (fun read => (read.1, read.2.1)) = .ok (a, rest) := by
      intro a rest h ha; rw [ha]; rfl)
    (herror : ∀ e, r = .error e → r' = .error e := by intro e he; rw [he]) : Agrees x c r' := by
  have h := hx.map (g := id) hok herror
  simpa only [id, bind_pure] using h

theorem ends_peek (hc : c.At ts) (distance : Nat) :
    Ends (fun _ => peek distance) c (.ok (Token.peek (ts.drop distance)), c) := by
  refine ⟨0, fun _ _ => ?_⟩
  show some (Except.ok (Cursor.Tokens.shown c.items[c.pos + distance]?).tag, c) = _
  rw [hc.getElem? distance, ← head?_drop]
  cases ts.drop distance <;> rfl

theorem Agrees.peek {distance : Nat} {g : Nat → String → TokenReader α} (hc : c.At ts)
    (h : Agrees (g · (Token.peek (ts.drop distance))) c r) :
    Agrees (fun n => TokenReader.peek distance >>= g n) c r := by
  obtain ⟨c', hends, h⟩ := h
  exact ⟨c', (ends_peek hc distance).bind hends, h⟩

theorem Agrees.next {t : Token} {g : Nat → Token → TokenReader α} (hc : c.At (t :: ts))
    (h : ∀ c', c'.At ts → Agrees (g · t) c' r) : Agrees (fun n => TokenReader.next >>= g n) c r := by
  obtain ⟨hreaches, hat⟩ := hc.advance
  have hnext : Ends (fun _ => TokenReader.next) c (.ok t, { c with pos := c.pos + 1 }) := by
    refine ⟨0, fun _ _ => ?_⟩
    show some (Except.ok (Cursor.Tokens.shown c.items[c.pos + 0]?), _) = _
    rw [hc.getElem? 0]
    rfl
  obtain ⟨c', hends, hreaches', h⟩ := h _ hat
  exact ⟨c', hnext.bind hends, hreaches.trans hreaches', h⟩

/-- A token that is demanded and not there is complained about, and no end mark is ever demanded. -/
theorem require_agrees {tag : String} (htag : tag ≠ "eof") (hc : c.At ts) :
    Agrees (fun _ => require tag) c (expect tag ts) := by
  have hseen : Cursor.Tokens.shown c.items[c.pos]? = Token.current ts := by
    rw [← Nat.add_zero c.pos, hc.getElem? 0]
    cases ts <;> rfl
  -- Both complain with the same words.
  have hmismatch : tag ≠ (Token.current ts).tag → Ends (fun _ => require tag) c (.error (mismatch tag ts), c) := by
    refine fun hne => (Ends.bind ⟨0, fun _ _ => rfl⟩ ⟨0, fun _ _ => ?_⟩ : Ends (fun _ => get >>= _) c _)
    rw [Cursor.Tokens.expect, hseen, if_neg hne, mismatch]
    cases (Token.current ts).toDatum.literal <;> rfl
  cases ts with
  | nil => exact ⟨c, hmismatch htag, hc.refl, by rintro _ _ ⟨⟩⟩
  | cons t rest =>
    rw [expect]
    by_cases ht : t.tag = tag
    · obtain ⟨hreaches, hat⟩ := hc.advance
      rw [if_pos ht]
      refine ⟨_, (Ends.bind ⟨0, fun _ _ => rfl⟩ ⟨0, fun _ _ => ?_⟩ : Ends (fun _ => get >>= _) c _), hreaches, ?_⟩
      · rw [Cursor.Tokens.expect, hseen, if_pos (show tag = (Token.current (t :: rest)).tag from ht.symm)]
        show some (Except.ok (Cursor.Tokens.shown c.items[c.pos]?), _) = _
        rw [hseen]
        rfl
      · rintro _ _ ⟨⟩
        exact hat
    · rw [if_neg ht]
      exact ⟨c, hmismatch (Ne.symm ht), hc.refl, by rintro _ _ ⟨⟩⟩

theorem Agrees.require {tag : String} {g : Nat → Token → TokenReader α} (htag : tag ≠ "eof") (hc : c.At ts)
    (hok : ∀ t rest h c', expect tag ts = .ok (t, ⟨rest, h⟩) → c'.At rest → Agrees (g · t) c' r)
    (herror : ∀ e, expect tag ts = .error e → r = .error e := by intro e he; rw [he]) :
    Agrees (fun n => TokenReader.require tag >>= g n) c r := (require_agrees htag hc).bind hok herror

/-- A token that has been looked at is there when it is demanded. -/
theorem Agrees.seen {t : Token} {tag : String} {g : Nat → Token → TokenReader α} (ht : t.tag = tag)
    (htag : tag ≠ "eof") (hc : c.At (t :: ts)) (h : ∀ c', c'.At ts → Agrees (g · t) c' r) :
    Agrees (fun n => TokenReader.require tag >>= g n) c r := by
  have hexpect := expect_cons ht ts
  refine .require htag hc (fun t' rest h' c' heq hc' => ?_) fun e he => ?_
  · rw [hexpect] at heq
    cases heq
    exact h c' hc'
  · rw [hexpect] at he
    cases he

end

/-! ## Parameters -/

theorem moreParameters_agrees : ∀ (ts : List Token) {c : Cursor Token}, c.At ts →
    Agrees moreParameters c (Node.parameters ts)
  | [], c, hc => by
    rw [Node.parameters]
    exact .round (.peek hc (.pure hc))
  | t :: ts, c, hc => by
    rw [Node.parameters]
    refine .round (.peek hc (.ite (fun ht => ?_) fun _ => .pure hc))
    refine .seen ht (by decide) hc fun c1 hc1 => ?_
    refine .require (by decide) hc1 fun x r hr c2 heq hc2 => ?_
    simp only [heq]
    exact (moreParameters_agrees r hc2).map
termination_by ts => ts.length
decreasing_by simp_wf; omega

theorem parameterList_agrees {ts : List Token} {c : Cursor Token} (hc : c.At ts) :
    Agrees parameterList c (Node.parameterList ts) := by
  rw [Node.parameterList]
  refine .peek hc (.ite (fun _ => (require_agrees (by decide) hc).map) fun _ => ?_)
  refine .require (by decide) hc fun x r hr c1 heq hc1 => ?_
  simp only [heq]
  refine (moreParameters_agrees r hc1).bind fun xs r' hr' c2 heq' hc2 => ?_
  simp only [heq']
  exact (require_agrees (by decide) hc2).map

/-! ## Statements and expressions -/

theorem closed_bind {β : Type} (g : List Node → β) (n : Nat) : (do
    let body ← statementsUntil "\x7d" n
    let _ ← require "\x7d"
    return g body) = (do
    let body ← closed n
    return g body) := by
  simp only [closed, bind_assoc, pure_bind]

mutual

theorem expr_agrees (bp : Nat) : ∀ (ts : List Token) {c : Cursor Token}, c.At ts → Agrees (expr bp) c (parseExpr bp ts)
  | ts, c, hc => by
    rw [parseExpr]
    refine .round ((operand_agrees ts hc).bind fun left r hr c1 heq hc1 => ?_)
    simp only [heq]
    exact (infixes_agrees bp left r hc1).same
termination_by ts => (ts.length, 2)
decreasing_by all_goals omega

theorem operand_agrees : ∀ (ts : List Token) {c : Cursor Token}, c.At ts → Agrees operand c (parseOperand ts)
  | [], c, hc => by
    rw [parseOperand]
    exact .round (.peek hc (.throw hc))
  | t :: ts, c, hc => by
    rw [parseOperand]
    refine .round (.peek hc ?_)
    rw [drop_zero, peek_cons]
    cases literalKind? t.tag with
    | some kind => exact .next hc fun c1 hc1 => .pure hc1
    | none =>
      refine .ite (fun _ => .next hc fun c1 hc1 => .pure hc1) fun _ => ?_
      refine .ite (fun _ => .next hc fun c1 hc1 => (expr_agrees signPower ts hc1).map) fun _ => ?_
      refine .ite (fun ht => .seen ht (by decide) hc fun c1 hc1 => ?_) fun _ => ?_
      · refine (expr_agrees 0 ts hc1).bind fun e r hr c2 heq hc2 => ?_
        simp only [heq]
        exact (require_agrees (by decide) hc2).map
      refine .ite (fun ht => .seen ht (by decide) hc fun c1 hc1 => ?_) fun _ => .throw hc
      refine .require (by decide) hc1 fun left r hr c2 heq hc2 => ?_
      simp only [heq]
      refine (parameterList_agrees hc2).bind fun params r hr c3 heq hc3 => ?_
      simp only [heq]
      exact (block_agrees r hc3).map
termination_by ts => (ts.length, 1)
decreasing_by all_goals (simp_wf; omega)

theorem infixes_agrees (bp : Nat) (left : Node) : ∀ (ts : List Token) {c : Cursor Token}, c.At ts →
    Agrees (infixes bp left) c (parseInfix bp left ts)
  | [], c, hc => by
    rw [parseInfix]
    exact .round (.peek hc (.pure hc))
  | t :: ts, c, hc => by
    rw [parseInfix]
    refine .round (.peek hc ?_)
    rw [drop_zero, peek_cons]
    cases power? t.tag with
    | none => exact .pure hc
    | some powers =>
      obtain ⟨lbp, rbp⟩ := powers
      refine .ite (fun _ => .pure hc) fun _ => ?_
      refine .ite (fun ht => .seen ht (by decide) hc fun c1 hc1 => ?_) fun _ => .next hc fun c1 hc1 => ?_
      · refine (argumentList_agrees ts hc1).bind fun args r hr c2 heq hc2 => ?_
        simp only [heq]
        exact (infixes_agrees bp _ r hc2).same
      · refine (expr_agrees rbp ts hc1).bind fun right r hr c2 heq hc2 => ?_
        simp only [heq]
        exact (infixes_agrees bp _ r hc2).same
termination_by ts => (ts.length, 1)
decreasing_by all_goals (simp_wf; omega)

theorem argumentList_agrees : ∀ (ts : List Token) {c : Cursor Token}, c.At ts →
    Agrees argumentList c (parseArguments ts)
  | ts, c, hc => by
    rw [parseArguments]
    refine .round (.peek hc (.ite (fun _ => (require_agrees (by decide) hc).map) fun _ => ?_))
    refine (expr_agrees 0 ts hc).bind fun e r hr c1 heq hc1 => ?_
    simp only [heq]
    refine (moreArguments_agrees r hc1).bind fun es r' hr' c2 heq' hc2 => ?_
    simp only [heq']
    exact (require_agrees (by decide) hc2).map
termination_by ts => (ts.length, 3)
decreasing_by all_goals omega

theorem moreArguments_agrees : ∀ (ts : List Token) {c : Cursor Token}, c.At ts →
    Agrees moreArguments c (parseMore ts)
  | [], c, hc => by
    rw [parseMore]
    exact .round (.peek hc (.pure hc))
  | t :: ts, c, hc => by
    rw [parseMore]
    refine .round (.peek hc (.ite (fun ht => .seen ht (by decide) hc fun c1 hc1 => ?_) fun _ => .pure hc))
    refine (expr_agrees 0 ts hc1).bind fun e r hr c2 heq hc2 => ?_
    simp only [heq]
    exact (moreArguments_agrees r hc2).map
termination_by ts => (ts.length, 0)
decreasing_by all_goals (simp_wf; omega)

theorem block_agrees : ∀ (ts : List Token) {c : Cursor Token}, c.At ts → Agrees block c (parseBlock ts)
  | ts, c, hc => by
    rw [parseBlock]
    refine .round (.require (by decide) hc fun left r hr c1 heq hc1 => ?_)
    simp only [heq]
    simp only [closed_bind]
    exact (closed_agrees r hc1).map
termination_by ts => (ts.length, 0)
decreasing_by all_goals omega

theorem closed_agrees : ∀ (ts : List Token) {c : Cursor Token}, c.At ts → Agrees closed c (parseStatements ts)
  | ts, c, hc => by
    rw [parseStatements]
    refine .round ?_
    simp only [closed, statementsUntil, bind_assoc]
    refine .peek hc ?_
    by_cases hbrace : Token.peek ts = "\x7d"
    · simp only [drop_zero, if_pos hbrace, pure_bind]
      exact (require_agrees (by decide) hc).map
    · simp only [drop_zero, if_neg hbrace, bind_assoc, pure_bind, closed_bind]
      refine (statement_agrees ts hc).bind fun s r hr c1 heq hc1 => ?_
      simp only [heq]
      exact (closed_agrees r hc1).map
termination_by ts => (ts.length, 5)
decreasing_by all_goals omega

theorem binding_agrees : ∀ (ts : List Token) {c : Cursor Token}, c.At ts → Agrees binding c (parseBinding ts)
  | ts, c, hc => by
    rw [parseBinding]
    refine .round (.require (by decide) hc fun x r1 h1 c1 heq1 hc1 => ?_)
    simp only [heq1]
    refine .require (by decide) hc1 fun eq r2 h2 c2 heq2 hc2 => ?_
    simp only [heq2]
    refine (expr_agrees 0 r2 hc2).bind fun e r3 h3 c3 heq3 hc3 => ?_
    simp only [heq3]
    exact (require_agrees (by decide) hc3).map
termination_by ts => (ts.length, 0)
decreasing_by all_goals omega

theorem condition_agrees : ∀ (ts : List Token) {c : Cursor Token}, c.At ts → Agrees condition c (parseCondition ts)
  | ts, c, hc => by
    rw [parseCondition]
    refine .round (.require (by decide) hc fun left r1 h1 c1 heq1 hc1 => ?_)
    simp only [heq1]
    refine (expr_agrees 0 r1 hc1).bind fun e r2 h2 c2 heq2 hc2 => ?_
    simp only [heq2]
    exact (require_agrees (by decide) hc2).map
termination_by ts => (ts.length, 0)
decreasing_by all_goals omega

theorem statement_agrees : ∀ (ts : List Token) {c : Cursor Token}, c.At ts → Agrees statement c (parseStatement ts)
  | [], c, hc => by
    rw [parseStatement]
    refine .round (.peek hc ?_)
    simp +decide only [drop_nil, false_and, if_false]
    have hnone : parseExpr 0 [] = .error (.illegal "eof") := by rw [parseExpr, parseOperand]
    refine .peek hc ((expr_agrees 0 [] hc).bind (fun e r hr => by cases hr) fun e he => ?_)
    rw [hnone] at he
    exact he
  | t :: ts, c, hc => by
    rw [parseStatement]
    refine .round (.peek hc ?_)
    rw [drop_zero, peek_cons]
    refine .ite (fun ht => ?_) fun _ => .peek hc ?_
    · have hne : t.tag ≠ "eof" := by rcases ht with ht | ht <;> rw [ht] <;> decide
      exact .seen rfl hne hc fun c1 hc1 => (binding_agrees ts hc1).map
    refine .ite (fun _ => (binding_agrees (t :: ts) hc).map) fun _ => ?_
    refine .ite (fun ht => .seen ht (by decide) hc fun c1 hc1 => ?_) fun _ => ?_
    · refine .require (by decide) hc1 fun left r hr c2 heq hc2 => ?_
      simp only [heq]
      refine (argumentList_agrees r hc2).bind fun args r hr c3 heq hc3 => ?_
      simp only [heq]
      exact (require_agrees (by decide) hc3).map
    refine .ite (fun ht => .seen ht (by decide) hc fun c1 hc1 => ?_) fun _ => ?_
    · refine (condition_agrees ts hc1).bind fun cond r1 h1 c2 heq hc2 => ?_
      simp only [heq]
      refine (statement_agrees r1 hc2).bind fun yes r2 h2 c3 heq hc3 => ?_
      simp only [heq]
      refine .peek hc3 ?_
      cases r2 with
      | nil => exact .pure hc3
      | cons other r3 =>
        have hshorter : r3.length + 1 < r1.length := by simpa using h2
        exact .ite (fun hother => .seen hother (by decide) hc3 fun c4 hc4 => (statement_agrees r3 hc4).map) fun _ => .pure hc3
    refine .ite (fun ht => .seen ht (by decide) hc fun c1 hc1 => ?_) fun _ => ?_
    · refine (condition_agrees ts hc1).bind fun cond r1 h1 c2 heq hc2 => ?_
      simp only [heq]
      exact (statement_agrees r1 hc2).map
    refine .ite (fun ht => .seen ht (by decide) hc fun c1 hc1 => (require_agrees (by decide) hc1).map) fun _ => ?_
    refine .ite (fun ht => .seen ht (by decide) hc fun c1 hc1 => (require_agrees (by decide) hc1).map) fun _ => ?_
    refine .ite (fun ht => .seen ht (by decide) hc fun c1 hc1 => .peek hc1 ?_) fun _ => ?_
    · refine .ite (fun _ => (require_agrees (by decide) hc1).map) fun _ => ?_
      refine (expr_agrees 0 ts hc1).bind fun e r hr c2 heq hc2 => ?_
      simp only [heq]
      exact (require_agrees (by decide) hc2).map
    refine .ite (fun _ => block_agrees (t :: ts) hc) fun _ => ?_
    refine (expr_agrees 0 (t :: ts) hc).bind fun e r hr c1 heq hc1 => ?_
    simp only [heq]
    exact (require_agrees (by decide) hc1).map
termination_by ts => (ts.length, 4)
decreasing_by all_goals (simp_wf; omega)

end

/-- Reading from a place ends, the head has gone on and not beyond the end, and by one token at least if there is a
result. -/
def Advances (x : Nat → TokenReader Node) (c : Cursor Token) : Prop :=
  ∃ out c', Ends x c (out, c') ∧ c.Reaches c' ∧ ∀ n, out = .ok n → c.pos < c'.pos

/-- A reader of the parser leaves fewer tokens, so the head has gone on. -/
theorem Agrees.advances {x : Nat → TokenReader Node} {c : Cursor Token} {ts : List Token} {r : Parsed Node ts}
    (hc : c.At ts) (h : Agrees x c r) : Advances x c := by
  obtain ⟨c', hout, hreaches, hat⟩ := h
  refine ⟨_, c', hout, hreaches, ?_⟩
  intro n hn
  cases r with
  | error e => cases hn
  | ok read =>
    obtain ⟨a, rest, hshorter⟩ := read
    have hbefore := hc.length
    have hafter : rest.length + c'.pos = c'.items.size := (hat a _ rfl).length
    rw [hreaches.items] at hafter
    omega

end Node.TokenReader

end Cilly
