import Cilly.Node.Basic
import Cilly.Token.Basic

/-!
# The grammar of programs

The grammar that the parser is measured against, as derivations: a sequence of tokens derives a tree.
Nothing here mentions binding powers. Expressions are stacked in layers, and each layer has its own infix
operators; signs, calls and operands proper are the three layers on top of them:

    0  and ('||' and)*        3  add (('>'|'>='|'<'|'<=') add)*     6  ('-'|'!') unary | postfix
    1  eq ('&&' eq)*          4  mul (('+'|'-') mul)*               7  primary ('(' args? ')')*
    2  rel (('=='|'!=') rel)* 5  unary (('*'|'/'|'%') unary)*       8  primary

A repetition on an infix layer is written as a rule that recurses on its left, so its tree leans to the
left. A statement with an `else` asks that its first branch takes no `else` itself (`takesElse`), which
gives each `else` to the nearest `if` that is still open.

After the rules come the facts about first tokens that a reader with one token of foresight rests on.
-/

namespace Cilly.Grammar

open Node List

variable {ts : List Token}

/-- The infix operators of a layer. -/
def operators : Nat → List String
  | 0 => ["||"]
  | 1 => ["&&"]
  | 2 => ["==", "!="]
  | 3 => [">", ">=", "<", "<="]
  | 4 => ["+", "-"]
  | 5 => ["*", "/", "%"]
  | _ => []

/-- Whether an `else` right after the statement would belong to an `if` inside it. -/
def takesElse : Node → Bool
  | .ifThen _ _ => true
  | .ifElse _ _ no => takesElse no
  | .loop _ body => takesElse body
  | _ => false

/-- Parameters after the first. -/
inductive MoreParameters : List Token → List Datum → Prop
  | none : MoreParameters [] []
  | more {comma x : Token} {ts : List Token} {xs : List Datum} :
      comma.tag = "," → x.tag = "id" → MoreParameters ts xs →
      MoreParameters (comma :: x :: ts) (x.value :: xs)

inductive Parameters : List Token → List Datum → Prop
  | none : Parameters [] []
  | some {x : Token} {ts : List Token} {xs : List Datum} :
      x.tag = "id" → MoreParameters ts xs → Parameters (x :: ts) (x.value :: xs)

mutual

/-- Expressions, layer by layer. -/
inductive Layer : Nat → List Token → Node → Prop
  | lift {k : Nat} {ts : List Token} {e : Node} : k < 8 → Layer (k + 1) ts e → Layer k ts e
  | binary {k : Nat} {ts us : List Token} {op : Token} {l r : Node} :
      Layer k ts l → op.tag ∈ operators k → Layer (k + 1) us r →
      Layer k (ts ++ op :: us) (.binary (.text op.tag) l r)
  | sign {op : Token} {ts : List Token} {e : Node} :
      op.tag = "-" ∨ op.tag = "!" → Layer 6 ts e → Layer 6 (op :: ts) (.unary (.text op.tag) e)
  | call {ts us : List Token} {left right : Token} {f : Node} {args : List Node} :
      Layer 7 ts f → left.tag = "(" → Arguments us args → right.tag = ")" →
      Layer 7 (ts ++ left :: (us ++ [right])) (.call f args)
  | name {x : Token} : x.tag = "id" → Layer 8 [x] (.name x.value)
  | literal {t : Token} {kind : LiteralKind} :
      t.tag = kind.tag → Layer 8 [t] (.literal kind [t.value])
  | parens {left right : Token} {ts : List Token} {e : Node} :
      left.tag = "(" → Layer 0 ts e → right.tag = ")" → Layer 8 (left :: (ts ++ [right])) e
  | function {fn left right : Token} {ts us : List Token} {xs : List Datum} {body : Node} :
      fn.tag = "fun" → left.tag = "(" → Parameters ts xs → right.tag = ")" → Block us body →
      Layer 8 (fn :: left :: (ts ++ right :: us)) (.function xs body)

/-- Arguments after the first. -/
inductive MoreArguments : List Token → List Node → Prop
  | none : MoreArguments [] []
  | more {comma : Token} {ts us : List Token} {e : Node} {es : List Node} :
      comma.tag = "," → Layer 0 ts e → MoreArguments us es →
      MoreArguments (comma :: (ts ++ us)) (e :: es)

inductive Arguments : List Token → List Node → Prop
  | none : Arguments [] []
  | some {ts us : List Token} {e : Node} {es : List Node} :
      Layer 0 ts e → MoreArguments us es → Arguments (ts ++ us) (e :: es)

inductive Block : List Token → Node → Prop
  | braces {left right : Token} {ts : List Token} {body : List Node} :
      left.tag = "\x7b" → Statements ts body → right.tag = "\x7d" →
      Block (left :: (ts ++ [right])) (.block body)

inductive Statements : List Token → List Node → Prop
  | nil : Statements [] []
  | cons {ts us : List Token} {s : Node} {ss : List Node} :
      Statement ts s → Statements us ss → Statements (ts ++ us) (s :: ss)

inductive Statement : List Token → Node → Prop
  | define {kw x eq semi : Token} {ts : List Token} {e : Node} :
      kw.tag = "define" ∨ kw.tag = "var" → x.tag = "id" → eq.tag = "=" → Layer 0 ts e →
      semi.tag = ";" → Statement (kw :: x :: eq :: (ts ++ [semi])) (.define x.value e)
  | assign {x eq semi : Token} {ts : List Token} {e : Node} :
      x.tag = "id" → eq.tag = "=" → Layer 0 ts e → semi.tag = ";" →
      Statement (x :: eq :: (ts ++ [semi])) (.assign x.value e)
  | print {kw left right semi : Token} {ts : List Token} {args : List Node} :
      kw.tag = "print" → left.tag = "(" → Arguments ts args → right.tag = ")" → semi.tag = ";" →
      Statement (kw :: left :: (ts ++ [right, semi])) (.print args)
  | ifThen {kw left right : Token} {ts us : List Token} {cond yes : Node} :
      kw.tag = "if" → left.tag = "(" → Layer 0 ts cond → right.tag = ")" → Statement us yes →
      Statement (kw :: left :: (ts ++ right :: us)) (.ifThen cond yes)
  | ifElse {kw left right other : Token} {ts us vs : List Token} {cond yes no : Node} :
      kw.tag = "if" → left.tag = "(" → Layer 0 ts cond → right.tag = ")" → Statement us yes →
      takesElse yes = false → other.tag = "else" → Statement vs no →
      Statement (kw :: left :: (ts ++ right :: (us ++ other :: vs))) (.ifElse cond yes no)
  | loop {kw left right : Token} {ts us : List Token} {cond body : Node} :
      kw.tag = "while" → left.tag = "(" → Layer 0 ts cond → right.tag = ")" → Statement us body →
      Statement (kw :: left :: (ts ++ right :: us)) (.loop cond body)
  | breakLoop {kw semi : Token} :
      kw.tag = "break" → semi.tag = ";" → Statement [kw, semi] .breakLoop
  | continueLoop {kw semi : Token} :
      kw.tag = "continue" → semi.tag = ";" → Statement [kw, semi] .continueLoop
  | return {kw semi : Token} : kw.tag = "return" → semi.tag = ";" → Statement [kw, semi] .return
  | returnValue {kw semi : Token} {ts : List Token} {e : Node} :
      kw.tag = "return" → Layer 0 ts e → semi.tag = ";" →
      Statement (kw :: (ts ++ [semi])) (.returnValue e)
  | block {ts : List Token} {b : Node} : Block ts b → Statement ts b
  | exprStat {semi : Token} {ts : List Token} {e : Node} :
      Layer 0 ts e → semi.tag = ";" → Statement (ts ++ [semi]) (.exprStat e)

end

theorem Layer.lower {i j : Nat} {e : Node} (h : Layer j ts e) (hij : i ≤ j)
    (hj : j ≤ 8) : Layer i ts e := by
  obtain ⟨d, rfl⟩ := Nat.exists_eq_add_of_le hij
  induction d with
  | zero => exact h
  | succ d ih => exact ih (.lift (by omega) h) (by omega) (by omega)

/-! ## First tokens -/

/-- The tags that an expression can start with. -/
def openers : List String := ["id", "num", "str", "true", "false", "null", "-", "!", "(", "fun"]

theorem tag_mem_openers (kind : LiteralKind) : kind.tag ∈ openers := by
  cases kind <;> decide

/-- An expression starts with one of the `openers`. -/
theorem Layer.head : ∀ {k : Nat} {ts : List Token} {e : Node}, Layer k ts e →
    ∃ t us, ts = t :: us ∧ t.tag ∈ openers
  | _, _, _, .lift _ h => h.head
  | _, _, _, .binary h _ _ => by
    obtain ⟨t, us, rfl, ht⟩ := h.head
    exact ⟨t, _, rfl, ht⟩
  | _, _, _, @Layer.sign op _ _ hop _ => by
    refine ⟨op, _, rfl, ?_⟩
    rcases hop with h | h <;> rw [h] <;> decide
  | _, _, _, .call h _ _ _ => by
    obtain ⟨t, us, rfl, ht⟩ := h.head
    exact ⟨t, _, rfl, ht⟩
  | _, _, _, @Layer.name x h => ⟨x, [], rfl, by rw [h]; decide⟩
  | _, _, _, @Layer.literal t kind h => ⟨t, [], rfl, by rw [h]; exact tag_mem_openers kind⟩
  | _, _, _, @Layer.parens left _ _ _ h _ _ => ⟨left, _, rfl, by rw [h]; decide⟩
  | _, _, _, @Layer.function fn _ _ _ _ _ _ h _ _ _ _ => ⟨fn, _, rfl, by rw [h]; decide⟩

/-- After a name an expression goes on with an infix operator or the parenthesis of a call. -/
theorem Layer.second : ∀ {k : Nat} {ts : List Token} {e : Node}, Layer k ts e →
    ∀ {t u : Token} {us : List Token}, ts = t :: u :: us → t.tag = "id" →
    u.tag = "(" ∨ ∃ j, u.tag ∈ operators j
  | _, _, _, .lift _ h, _, _, _, hts, ht => h.second hts ht
  | _, _, _, @Layer.binary k _ _ _ _ _ h hop _, t, u, us, hts, ht => by
    obtain ⟨t', vs, heq, -⟩ := h.head
    rw [heq] at hts
    cases vs with
    | nil =>
      simp only [cons_append, nil_append, List.cons.injEq] at hts
      obtain ⟨-, rfl, -⟩ := hts
      exact Or.inr ⟨k, hop⟩
    | cons v vs =>
      simp only [cons_append, List.cons.injEq] at hts
      obtain ⟨rfl, rfl, -⟩ := hts
      exact h.second heq ht
  | _, _, _, .sign hop _, t, _, _, hts, ht => by
    simp only [List.cons.injEq] at hts
    obtain ⟨rfl, -⟩ := hts
    rcases hop with h | h <;> simp [h] at ht
  | _, _, _, .call h hleft _ _, t, u, us, hts, ht => by
    obtain ⟨t', vs, heq, -⟩ := h.head
    rw [heq] at hts
    cases vs with
    | nil =>
      simp only [cons_append, nil_append, List.cons.injEq] at hts
      obtain ⟨-, rfl, -⟩ := hts
      exact Or.inl hleft
    | cons v vs =>
      simp only [cons_append, List.cons.injEq] at hts
      obtain ⟨rfl, rfl, -⟩ := hts
      exact h.second heq ht
  | _, _, _, .name _, _, _, _, hts, _ => by simp at hts
  | _, _, _, .literal _, _, _, _, hts, _ => by simp at hts
  | _, _, _, .parens hleft _ _, t, _, _, hts, ht => by
    simp only [List.cons.injEq] at hts
    obtain ⟨rfl, -⟩ := hts
    simp [hleft] at ht
  | _, _, _, .function hfn _ _ _ _, t, _, _, hts, ht => by
    simp only [List.cons.injEq] at hts
    obtain ⟨rfl, -⟩ := hts
    simp [hfn] at ht

theorem Block.head {b : Node} (h : Block ts b) :
    ∃ t us, ts = t :: us ∧ t.tag = "\x7b" := by
  cases h with
  | @braces left _ _ _ hleft _ _ => exact ⟨left, _, rfl, hleft⟩

/-- A statement has a first token, and it is no closing brace, no end mark and no `else`. -/
theorem Statement.head {s : Node} (h : Statement ts s) :
    ∃ t us, ts = t :: us ∧ t.tag ≠ "\x7d" ∧ t.tag ≠ "eof" ∧ t.tag ≠ "else" := by
  cases h with
  | @define kw _ _ _ _ _ hkw _ _ _ _ =>
    refine ⟨kw, _, rfl, ?_⟩
    rcases hkw with h | h <;> rw [h] <;> decide
  | @assign x _ _ _ _ hx _ _ _ => exact ⟨x, _, rfl, by rw [hx]; decide⟩
  | @print kw _ _ _ _ _ hkw _ _ _ _ => exact ⟨kw, _, rfl, by rw [hkw]; decide⟩
  | @ifThen kw _ _ _ _ _ _ hkw _ _ _ _ => exact ⟨kw, _, rfl, by rw [hkw]; decide⟩
  | @ifElse kw _ _ _ _ _ _ _ _ _ hkw _ _ _ _ _ _ _ => exact ⟨kw, _, rfl, by rw [hkw]; decide⟩
  | @loop kw _ _ _ _ _ _ hkw _ _ _ _ => exact ⟨kw, _, rfl, by rw [hkw]; decide⟩
  | @breakLoop kw _ hkw _ => exact ⟨kw, _, rfl, by rw [hkw]; decide⟩
  | @continueLoop kw _ hkw _ => exact ⟨kw, _, rfl, by rw [hkw]; decide⟩
  | @«return» kw _ hkw _ => exact ⟨kw, _, rfl, by rw [hkw]; decide⟩
  | @returnValue kw _ _ _ hkw _ _ => exact ⟨kw, _, rfl, by rw [hkw]; decide⟩
  | block hb =>
    obtain ⟨t, us, rfl, ht⟩ := hb.head
    exact ⟨t, _, rfl, by rw [ht]; decide⟩
  | exprStat he _ =>
    obtain ⟨t, us, rfl, ht⟩ := he.head
    refine ⟨t, _, rfl, ?_⟩
    refine ⟨?_, ?_, ?_⟩ <;>
    · rintro h
      rw [h] at ht
      exact absurd ht (by decide)

end Cilly.Grammar
