import Cilly.Proofs.Parsing.Exact
import Cilly.Proofs.Spelling
import Cilly.Proofs.Written

/-!
# Printing trees

A tree is printed as source text: its tokens in their order, with a space between them. An operand, a function that is
called and an argument stand in parentheses unless they are a name or a literal, so no token has to be looked at to
see what belongs to what. The tokens that are printed derive the tree in the grammar, each of them has a spelling, and so
reading the text gives the tree back.

Two things in a tree could not be printed this way: a literal, name or operator that no text has, and an `if` without
`else` at the end of the first branch of one with it, which would take that `else`.
-/

namespace Cilly

open Grammar List

namespace Node

/-! ## The printer -/

/-- A token that is its own tag. -/
def mark (tag : String) : Token := ⟨tag, .null⟩

/-- The token of an operator. -/
def operatorToken : Datum → Token
  | .text op => mark op
  | _ => mark ""

/-- Names and literals need no parentheses. -/
def isAtom : Node → Bool
  | .name _ | .literal .. => true
  | _ => false

/-- The tokens of a part of an expression, in parentheses if it has parts itself. -/
def enclosed (e : Node) (ts : List Token) : List Token := if e.isAtom then ts else mark "(" :: (ts ++ [mark ")"])

def moreParameterTokens : List Datum → List Token
  | [] => []
  | x :: xs => mark "," :: ⟨"id", x⟩ :: moreParameterTokens xs

def parameterTokens : List Datum → List Token
  | [] => []
  | x :: xs => ⟨"id", x⟩ :: moreParameterTokens xs

mutual

/-- The tokens of a statement or an expression. -/
def tokens : Node → List Token
  | .define x e => mark "var" :: ⟨"id", x⟩ :: mark "=" :: (tokens e ++ [mark ";"])
  | .assign x e => ⟨"id", x⟩ :: mark "=" :: (tokens e ++ [mark ";"])
  | .print args => mark "print" :: mark "(" :: (argumentTokens args ++ [mark ")", mark ";"])
  | .ifThen cond yes => mark "if" :: mark "(" :: (tokens cond ++ mark ")" :: tokens yes)
  | .ifElse cond yes no =>
    mark "if" :: mark "(" :: (tokens cond ++ mark ")" :: (tokens yes ++ mark "else" :: tokens no))
  | .loop cond body => mark "while" :: mark "(" :: (tokens cond ++ mark ")" :: tokens body)
  | .breakLoop => [mark "break", mark ";"]
  | .continueLoop => [mark "continue", mark ";"]
  | .return => [mark "return", mark ";"]
  | .returnValue e => mark "return" :: (tokens e ++ [mark ";"])
  | .block body => mark "\x7b" :: (tokensAll body ++ [mark "\x7d"])
  | .exprStat e => tokens e ++ [mark ";"]
  | .name x => [⟨"id", x⟩]
  | .literal kind fields => fields.map fun d => ⟨kind.tag, d⟩
  | .unary op e => operatorToken op :: enclosed e (tokens e)
  | .binary op l r => enclosed l (tokens l) ++ operatorToken op :: enclosed r (tokens r)
  | .call f args => enclosed f (tokens f) ++ mark "(" :: (argumentTokens args ++ [mark ")"])
  | .function params body => mark "fun" :: mark "(" :: (parameterTokens params ++ mark ")" :: tokens body)
  | _ => []

def tokensAll : List Node → List Token
  | [] => []
  | n :: ns => tokens n ++ tokensAll ns

def argumentTokens : List Node → List Token
  | [] => []
  | e :: es => enclosed e (tokens e) ++ moreArgumentTokens es

def moreArgumentTokens : List Node → List Token
  | [] => []
  | e :: es => mark "," :: (enclosed e (tokens e) ++ moreArgumentTokens es)

end

/-- The source text of statements. -/
def render (ss : List Node) : String := Token.spelled (tokensAll ss)

/-! ## Trees that can be printed -/

/-- A node has an operator that expressions are written with, and no first branch that would take its `else`. -/
def IsWritable : Node → Prop
  | .unary op _ => op = .text "-" ∨ op = .text "!"
  | .binary op _ _ => ∃ k, ∃ s ∈ Grammar.operators k, op = .text s
  | .ifElse _ yes _ => takesElse yes = false
  | _ => True

/-- Statements that can be printed: they are built as statements of a text are, and their names, numbers and texts have
spellings. -/
structure Printable (ss : List Node) : Prop where
  shape : AreStats ss
  nodes : ∀ n ∈ partsAll ss, n.IsWritable
  leaves : ∀ t ∈ leavesAll ss, t.HasSpelling

/-! ## The tokens derive the tree -/

theorem moreParameters_tokens (xs : List Datum) : MoreParameters (moreParameterTokens xs) xs := by
  induction xs with
  | nil => exact .none
  | cons x xs ih => exact .more rfl rfl ih

theorem parameters_tokens (xs : List Datum) : Parameters (parameterTokens xs) xs := by
  cases xs with
  | nil => exact .none
  | cons x xs => exact .some rfl (moreParameters_tokens xs)

theorem lt_of_mem_operators {k : Nat} {s : String} (h : s ∈ Grammar.operators k) : k < 6 := by
  refine Nat.lt_of_not_le fun hge => ?_
  obtain ⟨j, rfl⟩ := Nat.exists_eq_add_of_le hge
  rw [Nat.add_comm] at h
  cases h

theorem layer_enclosed {e : Node} (he : IsExpr e) (h : Layer 0 (tokens e) e) : Layer 8 (enclosed e (tokens e)) e := by
  by_cases hatom : e.isAtom = true
  · rw [enclosed, if_pos hatom]
    cases he with
    | name x => exact .name rfl
    | literal kind d => exact .literal rfl
    | unary | binary | call | function => cases hatom
  · rw [enclosed, if_neg hatom]
    exact .parens rfl h rfl

mutual

theorem layer_tokens : ∀ {e : Node}, IsExpr e → (∀ n ∈ parts e, n.IsWritable) → Layer 0 (tokens e) e
  | _, .name x, _ => (Layer.name rfl : Layer 8 (tokens (.name x)) _).lower (Nat.zero_le _) (Nat.le_refl _)
  | _, .literal kind d, _ =>
    (Layer.literal rfl : Layer 8 (tokens (.literal kind [d])) _).lower (Nat.zero_le _) (Nat.le_refl _)
  | _, @IsExpr.unary op e he, h => by
    have hop : op = .text "-" ∨ op = .text "!" := h _ (mem_cons_self ..)
    have hlayer := layer_enclosed he (layer_tokens he (forall_mem_cons.mp h).2)
    have hsign : Layer 6 (tokens (.unary op e)) (.unary op e) := by
      rcases hop with rfl | rfl
      · exact .sign (.inl rfl) (hlayer.lower (by decide) (by decide))
      · exact .sign (.inr rfl) (hlayer.lower (by decide) (by decide))
    exact hsign.lower (by decide) (by decide)
  | _, @IsExpr.binary op l r hl hr, h => by
    obtain ⟨k, s, hs, rfl⟩ : ∃ k, ∃ s ∈ Grammar.operators k, op = .text s := h _ (mem_cons_self ..)
    obtain ⟨hleft, hright⟩ := forall_mem_append.mp (forall_mem_cons.mp h).2
    have hk := lt_of_mem_operators hs
    have hbinary : Layer k (tokens (.binary (.text s) l r)) (.binary (.text s) l r) :=
      .binary ((layer_enclosed hl (layer_tokens hl hleft)).lower (by omega) (by decide)) hs
        ((layer_enclosed hr (layer_tokens hr hright)).lower (by omega) (by decide))
    exact hbinary.lower (Nat.zero_le _) (by omega)
  | _, .call hf hargs, h => by
    obtain ⟨hcallee, harguments⟩ := forall_mem_append.mp (forall_mem_cons.mp h).2
    have hlayer := layer_enclosed hf (layer_tokens hf hcallee)
    exact (Layer.call (hlayer.lower (by decide) (by decide)) rfl (arguments_tokens hargs harguments) rfl).lower
      (by decide) (by decide)
  | _, @IsExpr.function xs body hbody, h => by
    have hinner := (forall_mem_cons.mp (forall_mem_cons.mp h).2).2
    have hblock : Block (tokens (.block body)) (.block body) := .braces rfl (statements_tokens hbody hinner) rfl
    exact (Layer.function rfl rfl (parameters_tokens xs) rfl hblock).lower (by decide) (by decide)

theorem moreArguments_tokens : ∀ {es : List Node}, AreExprs es → (∀ n ∈ partsAll es, n.IsWritable) → MoreArguments (moreArgumentTokens es) es
  | _, .nil, _ => .none
  | _, .cons he hes, h => by
    obtain ⟨hfirst, hrest⟩ := forall_mem_append.mp h
    exact .more rfl ((layer_enclosed he (layer_tokens he hfirst)).lower (by decide) (by decide))
      (moreArguments_tokens hes hrest)

theorem arguments_tokens : ∀ {es : List Node}, AreExprs es → (∀ n ∈ partsAll es, n.IsWritable) → Arguments (argumentTokens es) es
  | _, .nil, _ => .none
  | _, .cons he hes, h => by
    obtain ⟨hfirst, hrest⟩ := forall_mem_append.mp h
    exact .some ((layer_enclosed he (layer_tokens he hfirst)).lower (by decide) (by decide))
      (moreArguments_tokens hes hrest)

theorem statement_tokens : ∀ {s : Node}, IsStat s → (∀ n ∈ parts s, n.IsWritable) → Statement (tokens s) s
  | _, .exprStat he, h => .exprStat (layer_tokens he (forall_mem_cons.mp h).2) rfl
  | _, .print hargs, h => .print rfl rfl (arguments_tokens hargs (forall_mem_cons.mp h).2) rfl rfl
  | _, .ifThen hcond hyes, h => by
    obtain ⟨htest, hbranch⟩ := forall_mem_append.mp (forall_mem_cons.mp h).2
    exact .ifThen rfl rfl (layer_tokens hcond htest) rfl (statement_tokens hyes hbranch)
  | _, .ifElse hcond hyes hno, h => by
    obtain ⟨htest, hboth⟩ := forall_mem_append.mp (forall_mem_cons.mp h).2
    obtain ⟨hfirst, hsecond⟩ := forall_mem_append.mp hboth
    exact .ifElse rfl rfl (layer_tokens hcond htest) rfl (statement_tokens hyes hfirst)
      (h _ (mem_cons_self ..)) rfl (statement_tokens hno hsecond)
  | _, .loop hcond hbody, h => by
    obtain ⟨htest, hrepeated⟩ := forall_mem_append.mp (forall_mem_cons.mp h).2
    exact .loop rfl rfl (layer_tokens hcond htest) rfl (statement_tokens hbody hrepeated)
  | _, .breakLoop, _ => .breakLoop rfl rfl
  | _, .continueLoop, _ => .continueLoop rfl rfl
  | _, .block hbody, h => .block (.braces rfl (statements_tokens hbody (forall_mem_cons.mp h).2) rfl)
  | _, .define x hvalue _, h => .define (.inr rfl) rfl rfl (layer_tokens hvalue (forall_mem_cons.mp h).2) rfl
  | _, .function x xs hbody, h =>
    .define (.inr rfl) rfl rfl (layer_tokens (.function xs hbody) (forall_mem_cons.mp h).2) rfl
  | _, .assign x hvalue, h => .assign rfl rfl (layer_tokens hvalue (forall_mem_cons.mp h).2) rfl
  | _, .return, _ => .return rfl rfl
  | _, .returnValue hvalue, h => .returnValue rfl (layer_tokens hvalue (forall_mem_cons.mp h).2) rfl

theorem statements_tokens : ∀ {ss : List Node}, AreStats ss → (∀ n ∈ partsAll ss, n.IsWritable) → Statements (tokensAll ss) ss
  | _, .nil, _ => .nil
  | _, .cons hs hss, h => by
    obtain ⟨hfirst, hrest⟩ := forall_mem_append.mp h
    exact .cons (statement_tokens hs hfirst) (statements_tokens hss hrest)

end

/-! ## The tokens have spellings -/

/-- Each of the tokens has a spelling. -/
def Spelled (ts : List Token) : Prop := ∀ t ∈ ts, t.HasSpelling

namespace Spelled

variable {t : Token} {ts us : List Token}

theorem nil : Spelled [] := fun _ ht => by cases ht

theorem cons (ht : t.HasSpelling) (hts : Spelled ts) : Spelled (t :: ts) := forall_mem_cons.mpr ⟨ht, hts⟩

theorem append (hts : Spelled ts) (hus : Spelled us) : Spelled (ts ++ us) := forall_mem_append.mpr ⟨hts, hus⟩

theorem mark {tag : String} (h : tag ∈ Token.keywords ++ Token.signs) (hts : Spelled ts) : Spelled (mark tag :: ts) := by
  refine cons ?_ hts
  rcases mem_append.mp h with h | h
  · exact .keyword h
  · exact .sign h

theorem enclosed (e : Node) (hts : Spelled ts) : Spelled (enclosed e ts) := by
  unfold Node.enclosed
  split
  · exact hts
  · exact mark (by decide) (hts.append (mark (by decide) nil))

theorem moreParameters {xs : List Datum} (h : ∀ x ∈ xs, Token.HasSpelling ⟨"id", x⟩) :
    Spelled (moreParameterTokens xs) := by
  induction xs with
  | nil => exact nil
  | cons x xs ih =>
    obtain ⟨hx, hxs⟩ := forall_mem_cons.mp h
    exact mark (by decide) (cons hx (ih hxs))

theorem parameters {xs : List Datum} (h : ∀ x ∈ xs, Token.HasSpelling ⟨"id", x⟩) : Spelled (parameterTokens xs) := by
  cases xs with
  | nil => exact nil
  | cons x xs =>
    obtain ⟨hx, hxs⟩ := forall_mem_cons.mp h
    exact cons hx (moreParameters hxs)

end Spelled

theorem mem_signs_of_mem_operators {k : Nat} {s : String} (h : s ∈ Grammar.operators k) : s ∈ Token.signs := by
  have hlayers : ∀ j < 6, ∀ o ∈ Grammar.operators j, o ∈ Token.signs := by decide
  exact hlayers k (lt_of_mem_operators h) s h

mutual

theorem spelled_expr : ∀ {e : Node}, IsExpr e → (∀ n ∈ parts e, n.IsWritable) → Spelled (leaves e) → Spelled (tokens e)
  | _, .name _, _, h => h
  | _, .literal _ _, _, h => h
  | _, @IsExpr.unary op e he, hnodes, h => by
    have hop : op = .text "-" ∨ op = .text "!" := hnodes _ (mem_cons_self ..)
    have hoperand := (spelled_expr he (forall_mem_cons.mp hnodes).2 h).enclosed e
    rcases hop with rfl | rfl
    · exact .mark (by decide) hoperand
    · exact .mark (by decide) hoperand
  | _, @IsExpr.binary op l r hl hr, hnodes, h => by
    obtain ⟨⟨k, s, hs, rfl⟩, hinner⟩ := forall_mem_cons.mp hnodes
    obtain ⟨hleft, hright⟩ := forall_mem_append.mp hinner
    obtain ⟨hleft', hright'⟩ := forall_mem_append.mp h
    exact ((spelled_expr hl hleft hleft').enclosed l).append
      (.mark (mem_append_right _ (mem_signs_of_mem_operators hs)) ((spelled_expr hr hright hright').enclosed r))
  | _, @IsExpr.call f args hf hargs, hnodes, h => by
    obtain ⟨hcallee, harguments⟩ := forall_mem_append.mp (forall_mem_cons.mp hnodes).2
    obtain ⟨hcallee', harguments'⟩ := forall_mem_append.mp h
    exact ((spelled_expr hf hcallee hcallee').enclosed f).append
      (.mark (by decide) ((spelled_arguments hargs harguments harguments').append (.mark (by decide) .nil)))
  | _, @IsExpr.function xs body hbody, hnodes, h => by
    have hinner := (forall_mem_cons.mp (forall_mem_cons.mp hnodes).2).2
    obtain ⟨hparams, hbody'⟩ := forall_mem_append.mp h
    have hblock : Spelled (tokens (.block body)) :=
      .mark (by decide) ((spelled_stats hbody hinner hbody').append (.mark (by decide) .nil))
    exact .mark (by decide) (.mark (by decide) ((Spelled.parameters fun x hx =>
      hparams _ (mem_map_of_mem hx)).append (.mark (by decide) hblock)))

theorem spelled_moreArguments : ∀ {es : List Node}, AreExprs es → (∀ n ∈ partsAll es, n.IsWritable) →
    Spelled (leavesAll es) → Spelled (moreArgumentTokens es)
  | _, .nil, _, _ => .nil
  | _, @AreExprs.cons e es he hes, hnodes, h => by
    obtain ⟨hfirst, hrest⟩ := forall_mem_append.mp hnodes
    obtain ⟨hfirst', hrest'⟩ := forall_mem_append.mp h
    exact .mark (by decide) (((spelled_expr he hfirst hfirst').enclosed e).append (spelled_moreArguments hes hrest hrest'))

theorem spelled_arguments : ∀ {es : List Node}, AreExprs es → (∀ n ∈ partsAll es, n.IsWritable) →
    Spelled (leavesAll es) → Spelled (argumentTokens es)
  | _, .nil, _, _ => .nil
  | _, @AreExprs.cons e es he hes, hnodes, h => by
    obtain ⟨hfirst, hrest⟩ := forall_mem_append.mp hnodes
    obtain ⟨hfirst', hrest'⟩ := forall_mem_append.mp h
    exact ((spelled_expr he hfirst hfirst').enclosed e).append (spelled_moreArguments hes hrest hrest')

theorem spelled_stat : ∀ {s : Node}, IsStat s → (∀ n ∈ parts s, n.IsWritable) → Spelled (leaves s) → Spelled (tokens s)
  | _, .exprStat he, hnodes, h => (spelled_expr he (forall_mem_cons.mp hnodes).2 h).append (.mark (by decide) .nil)
  | _, .print hargs, hnodes, h =>
    .mark (by decide) (.mark (by decide) ((spelled_arguments hargs (forall_mem_cons.mp hnodes).2 h).append
      (.mark (by decide) (.mark (by decide) .nil))))
  | _, .ifThen hcond hyes, hnodes, h => by
    obtain ⟨htest, hbranch⟩ := forall_mem_append.mp (forall_mem_cons.mp hnodes).2
    obtain ⟨htest', hbranch'⟩ := forall_mem_append.mp h
    exact .mark (by decide) (.mark (by decide) ((spelled_expr hcond htest htest').append
      (.mark (by decide) (spelled_stat hyes hbranch hbranch'))))
  | _, .ifElse hcond hyes hno, hnodes, h => by
    obtain ⟨htest, hboth⟩ := forall_mem_append.mp (forall_mem_cons.mp hnodes).2
    obtain ⟨hfirst, hsecond⟩ := forall_mem_append.mp hboth
    obtain ⟨htest', hboth'⟩ := forall_mem_append.mp h
    obtain ⟨hfirst', hsecond'⟩ := forall_mem_append.mp hboth'
    exact .mark (by decide) (.mark (by decide) ((spelled_expr hcond htest htest').append (.mark (by decide)
      ((spelled_stat hyes hfirst hfirst').append (.mark (by decide) (spelled_stat hno hsecond hsecond'))))))
  | _, .loop hcond hbody, hnodes, h => by
    obtain ⟨htest, hrepeated⟩ := forall_mem_append.mp (forall_mem_cons.mp hnodes).2
    obtain ⟨htest', hrepeated'⟩ := forall_mem_append.mp h
    exact .mark (by decide) (.mark (by decide) ((spelled_expr hcond htest htest').append
      (.mark (by decide) (spelled_stat hbody hrepeated hrepeated'))))
  | _, .breakLoop, _, _ | _, .continueLoop, _, _ | _, .return, _, _ => .mark (by decide) (.mark (by decide) .nil)
  | _, .block hbody, hnodes, h =>
    .mark (by decide) ((spelled_stats hbody (forall_mem_cons.mp hnodes).2 h).append (.mark (by decide) .nil))
  | _, .define _ hvalue _, hnodes, h => by
    obtain ⟨hname, hrest⟩ := forall_mem_cons.mp h
    exact .mark (by decide) (.cons hname (.mark (by decide)
      ((spelled_expr hvalue (forall_mem_cons.mp hnodes).2 hrest).append (.mark (by decide) .nil))))
  | _, .function _ xs hbody, hnodes, h => by
    obtain ⟨hname, hrest⟩ := forall_mem_cons.mp h
    exact .mark (by decide) (.cons hname (.mark (by decide)
      ((spelled_expr (.function xs hbody) (forall_mem_cons.mp hnodes).2 hrest).append (.mark (by decide) .nil))))
  | _, .assign _ hvalue, hnodes, h => by
    obtain ⟨hname, hrest⟩ := forall_mem_cons.mp h
    exact .cons hname (.mark (by decide)
      ((spelled_expr hvalue (forall_mem_cons.mp hnodes).2 hrest).append (.mark (by decide) .nil)))
  | _, .returnValue hvalue, hnodes, h =>
    .mark (by decide) ((spelled_expr hvalue (forall_mem_cons.mp hnodes).2 h).append (.mark (by decide) .nil))

theorem spelled_stats : ∀ {ss : List Node}, AreStats ss → (∀ n ∈ partsAll ss, n.IsWritable) → Spelled (leavesAll ss) →
    Spelled (tokensAll ss)
  | _, .nil, _, _ => .nil
  | _, .cons hs hss, hnodes, h => by
    obtain ⟨hfirst, hrest⟩ := forall_mem_append.mp hnodes
    obtain ⟨hfirst', hrest'⟩ := forall_mem_append.mp h
    exact (spelled_stat hs hfirst hfirst').append (spelled_stats hss hrest hrest')

end

/-! ## Reading back -/

/-- Reading the text of statements that can be printed gives their tokens, and the tokens give the statements. -/
theorem parse_render {ss : List Node} (h : Printable ss) :
    ∃ ts, Token.lex (render ss) = .ok ts ∧ Node.parse ts = .ok (.program ss) := by
  refine ⟨tokensAll ss, Token.lex_spelled (spelled_stats h.shape h.nodes h.leaves), ?_⟩
  rw [parse, parseProgram_complete (statements_tokens h.shape h.nodes)]
  rfl

/-- A function with a choice, a loop and a call inside, and a call of it. -/
theorem parse_rendered_function :
    let ss : List Node :=
      [.define (.text "f") (.function [.text "x"] (.block
        [.ifElse (.binary (.text "<") (.name (.text "x")) (.literal .num [.int 2]))
          (.loop (.unary (.text "!") (.name (.text "x"))) .breakLoop)
          (.returnValue (.call (.name (.text "f")) [.binary (.text "-") (.name (.text "x")) (.literal .num [.int 1])]))])),
      .exprStat (.call (.name (.text "f")) [.literal .str [.text "a b"], .literal .null [.null]])]
    Printable ss ∧
      render ss = "var f = fun ( x ) \x7b if ( x < 2 ) while ( ! x ) break ; else return f ( ( x - 1 ) ) ; \x7d ; " ++
        "f ( \"a b\" , null ) ;\n" ∧
      ∃ ts, Token.lex (render ss) = .ok ts ∧ Node.parse ts = .ok (.program ss) := by
  intro ss
  have hprintable : Printable ss := by
    refine ⟨?_, ?_, ?_⟩
    · refine .cons (.function _ _ (.cons (.ifElse (.binary (.name _) (.literal _ _)) ?_ ?_) .nil)) (.cons ?_ .nil)
      · exact .loop (.unary (.name _)) .breakLoop
      · exact .returnValue (.call (.name _) (.cons (.binary (.name _) (.literal _ _)) .nil))
      · exact .exprStat (.call (.name _) (.cons (.literal _ _) (.cons (.literal _ _) .nil)))
    · have hless : (Node.binary (.text "<") (.name (.text "x")) (.literal .num [.int 2])).IsWritable := ⟨3, "<", by decide, rfl⟩
      have hminus : (Node.binary (.text "-") (.name (.text "x")) (.literal .num [.int 1])).IsWritable := ⟨4, "-", by decide, rfl⟩
      simpa [ss, partsAll, parts, IsWritable, takesElse] using And.intro hless hminus
    · have hname : ∀ s, Token.isIdentifier s = true → Token.HasSpelling ⟨"id", .text s⟩ := fun _ => .name
      have hdigit : ∀ n : Nat, n < 10 → Token.HasSpelling ⟨"num", .int n⟩ := fun n hn =>
        .number (Nat.lt_of_lt_of_le hn (Nat.le_self_pow (by decide) 10))
      have htwo := hdigit 2 (by decide)
      have hone := hdigit 1 (by decide)
      have htext : Token.HasSpelling ⟨"str", .text "a b"⟩ := .text (by decide)
      have hnull : Token.HasSpelling ⟨"null", .null⟩ := .keyword (by decide)
      have hf := hname "f" (by decide)
      have hx := hname "x" (by decide)
      simp [ss, leavesAll, leaves, LiteralKind.tag, hf, hx, htext, hnull]
      exact ⟨htwo, hone⟩
  exact ⟨hprintable, by unfold ss; cbv, parse_render hprintable⟩

end Node

end Cilly
