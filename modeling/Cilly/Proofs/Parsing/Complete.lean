import Cilly.Proofs.Parsing.Sound

/-!
# What has a derivation the parser accepts

The other direction goes along derivations. Reading the tokens of an expression, with anything harmless
behind them, brings the loop to its tree and to what is behind (`Layer.parse`). Said this way the rule that
recurses on its left is no obstacle: the tree of the left operand is what the loop holds when it comes to
the operator, and the right operand is read by a call that stops where the layer does.

Together with soundness this makes parsing and derivability one, and derivations unambiguous.
-/

namespace Cilly.Node

open Grammar

variable {bp : Nat} {e : Node} {rest ts us : List Token} {right t : Token} {tag : String}

/-- A reader gives `a` and leaves `rest`. -/
def Reads {α : Type} {p : List Token → Prop} (r : Except ParseError (α × { rest // p rest })) (a : α)
    (rest : List Token) : Prop := ∃ h, r = .ok (a, ⟨rest, h⟩)

theorem Reads.of_eq {α : Type} {p : List Token → Prop} {r : Except ParseError (α × { rest // p rest })} {a : α}
    (h : r.map (fun x => (x.1, x.2.1)) = .ok (a, rest)) : Reads r a rest := by
  cases r with
  | error e => cases h
  | ok x =>
    cases h
    exact ⟨x.2.2, rfl⟩

theorem enclosed_append (left right : Token) (ts rest : List Token) :
    (left :: (ts ++ [right])) ++ rest = left :: (ts ++ right :: rest) := by simp

theorem behind_append (left right : Token) (ts us rest : List Token) :
    (left :: (ts ++ right :: us)) ++ rest = left :: (ts ++ right :: (us ++ rest)) := by simp

@[simp] theorem peek_cons (t : Token) (rest : List Token) : Token.peek (t :: rest) = t.tag := rfl

theorem expect_cons (h : t.tag = tag) (rest : List Token) :
    expect tag (t :: rest) = .ok (t, ⟨rest, Nat.lt_succ_self _⟩) := by simp [expect, h]

/-! ## The loop of an expression -/

theorem parseInfix_of_stops (h : Stops bp rest) (e : Node) :
    Reads (parseInfix bp e rest) e rest := by
  refine ⟨Nat.le_refl _, ?_⟩
  cases rest with
  | nil => rw [parseInfix]
  | cons t r =>
    rw [parseInfix]
    cases hp : power? t.tag with
    | none => rfl
    | some lr =>
      obtain ⟨l, r'⟩ := lr
      have hle : l ≤ bp := h l r' hp
      dsimp only
      rw [if_pos hle]

theorem parseExpr_of_operand {r : List Token} {left : Node}
    (hop : Reads (parseOperand ts) left r) (h : Reads (parseInfix bp left r) e rest) :
    Reads (parseExpr bp ts) e rest := by
  obtain ⟨_, heq1⟩ := hop
  obtain ⟨h2, heq2⟩ := h
  refine ⟨by omega, ?_⟩
  rw [parseExpr, heq1]
  dsimp only
  rw [heq2]

theorem literalKind?_tag (kind : LiteralKind) : literalKind? kind.tag = some kind := by
  cases kind <;> rfl

/-- A tag that is no infix operator lets every expression end before it. -/
theorem stops_of_tag (ht : t.tag = tag) (h : power? tag = none)
    : Stops bp (t :: rest) := Stops.of_none (by rw [peek_cons, ht, h])

theorem power?_call : power? "(" = some (90, 91) := rfl

end Cilly.Node

namespace Cilly.Grammar

open Node

/-! ## Parameters -/

theorem MoreParameters.parse {xs : List Datum} (h : MoreParameters ts xs)
    (hrest : Token.peek rest ≠ ",") : Reads (parameters (ts ++ rest)) xs rest := by
  induction h with
  | none =>
    cases rest with
    | nil => exact ⟨by simp, by simp [parameters]⟩
    | cons t r =>
      refine ⟨by simp, ?_⟩
      show parameters (t :: r) = _
      rw [peek_cons] at hrest
      rw [parameters, if_neg hrest]
  | @more comma x ts xs hcomma hx _ ih =>
    obtain ⟨hle, heq⟩ := ih
    apply Reads.of_eq
    show Except.map _ (parameters (comma :: x :: (ts ++ rest))) = _
    rw [parameters, if_pos hcomma, expect_cons hx]
    dsimp only
    rw [heq]
    rfl

theorem Parameters.parse {xs : List Datum} (h : Parameters ts xs)
    (hright : right.tag = ")") (rest : List Token) :
    Reads (parameterList (ts ++ right :: rest)) xs rest := by
  cases h with
  | none =>
    refine ⟨by simp, ?_⟩
    show parameterList (right :: rest) = _
    rw [parameterList, peek_cons, if_pos hright, expect_cons hright]
  | @some x ts xs hx hmore =>
    have hpeek : Token.peek (right :: rest) ≠ "," := by
      rw [peek_cons, hright]
      decide
    obtain ⟨hle, heq⟩ := hmore.parse hpeek
    apply Reads.of_eq
    have hne : x.tag ≠ ")" := by
      rw [hx]
      decide
    show Except.map _ (parameterList (x :: (ts ++ right :: rest))) = _
    rw [parameterList, peek_cons, if_neg hne, expect_cons hx]
    dsimp only
    rw [heq]
    dsimp only
    rw [expect_cons hright]
    rfl

/-! ## Derivations are read back -/

/-- Reading the tokens brings the loop of an expression to the tree: what the loop then makes of the rest
is what the whole reading gives. -/
def Leads (k : Nat) (ts : List Token) (e : Node) : Prop :=
  ∀ ⦃bp : Nat⦄ ⦃rest rest' : List Token⦄ ⦃e' : Node⦄, bp < 90 → (k ≤ 5 → bp < 30 + 10 * k) →
    Stops (ceiling k) rest → Reads (parseInfix bp e rest) e' rest' →
    Reads (parseExpr bp (ts ++ rest)) e' rest'

theorem Leads.stopped (h : Leads 0 ts e)
    (hstop : ∀ {bp : Nat}, Stops bp rest) : Reads (parseExpr 0 (ts ++ rest)) e rest :=
  h (by omega) (fun _ => by omega) hstop (parseInfix_of_stops hstop e)

theorem Leads.before (h : Leads 0 ts e)
    (ht : t.tag = tag) (hpow : power? tag = none) (rest : List Token) :
    Reads (parseExpr 0 (ts ++ t :: rest)) e (t :: rest) := h.stopped (stops_of_tag ht hpow)

/-- No expression starts with another tag than the `openers`. -/
theorem Layer.peek_ne {k : Nat} (h : Layer k ts e)
    (htag : tag ∉ openers) (rest : List Token) : Token.peek (ts ++ rest) ≠ tag := by
  obtain ⟨t, us, rfl, ht⟩ := h.head
  rintro rfl
  exact htag ht

/-- After a name that starts an expression there is no equals sign. -/
theorem Layer.no_binding {k : Nat} (h : Layer k (t :: us) e)
    (hrest : Token.peek rest ≠ "=") : ¬ (t.tag = "id" ∧ Token.peek (us ++ rest) = "=") := by
  rintro ⟨ht, hpeek⟩
  cases us with
  | nil => exact hrest hpeek
  | cons u us =>
    have hu : u.tag = "=" := hpeek
    rcases h.second rfl ht with hparen | ⟨j, hop⟩
    · rw [hu] at hparen
      exact absurd hparen (by decide)
    · obtain ⟨-, -, hpow⟩ := power?_of_mem hop
      rw [hu] at hpow
      exact absurd hpow (by simp [power?])

theorem MoreArguments.stops {es : List Node} (h : MoreArguments us es)
    (hright : right.tag = ")") : Stops bp (us ++ right :: rest) := by
  cases h with
  | none => exact stops_of_tag hright rfl
  | more hcomma => exact stops_of_tag hcomma rfl

theorem Statements.peek_ne_else {ss : List Node} (h : Statements us ss)
    (hrest : Token.peek rest ≠ "else") : Token.peek (us ++ rest) ≠ "else" := by
  cases h with
  | nil => exact hrest
  | cons hs _ =>
    obtain ⟨t, vs, rfl, -, -, ht⟩ := hs.head
    exact ht

theorem binding_reads {x eq semi : Token} (hx : x.tag = "id")
    (heq : eq.tag = "=") (he : Reads (parseExpr 0 (ts ++ semi :: rest)) e (semi :: rest))
    (hsemi : semi.tag = ";") :
    Reads (parseBinding (x :: eq :: (ts ++ semi :: rest))) (x.value, e) rest := by
  obtain ⟨_, heq1⟩ := he
  apply Reads.of_eq
  rw [parseBinding, expect_cons hx]
  dsimp only
  rw [expect_cons heq]
  dsimp only
  rw [heq1]
  dsimp only
  rw [expect_cons hsemi]
  rfl

theorem condition_reads {left : Token} (hleft : left.tag = "(")
    (he : Reads (parseExpr 0 (ts ++ right :: rest)) e (right :: rest)) (hright : right.tag = ")") :
    Reads (parseCondition (left :: (ts ++ right :: rest))) e rest := by
  obtain ⟨_, heq1⟩ := he
  apply Reads.of_eq
  rw [parseCondition, expect_cons hleft]
  dsimp only
  rw [heq1]
  dsimp only
  rw [expect_cons hright]
  rfl

/-- What starts like an expression, and not like an assignment, is read as an expression. -/
theorem exprStat_reads {semi : Token} (ht : t.tag ∈ openers)
    (hbind : ¬ (t.tag = "id" ∧ Token.peek us = "="))
    (he : Reads (parseExpr 0 (t :: us)) e (semi :: rest)) (hsemi : semi.tag = ";") :
    Reads (parseStatement (t :: us)) (.exprStat e) rest := by
  obtain ⟨_, heq1⟩ := he
  have hne : ∀ {tag : String}, tag ∉ openers → t.tag ≠ tag := by
    rintro _ htag rfl
    exact htag ht
  apply Reads.of_eq
  rw [parseStatement, if_neg (not_or.mpr ⟨hne (by decide), hne (by decide)⟩), if_neg hbind,
    if_neg (hne (by decide)), if_neg (hne (by decide)), if_neg (hne (by decide)),
    if_neg (hne (by decide)), if_neg (hne (by decide)), if_neg (hne (by decide)),
    if_neg (hne (by decide)), heq1]
  dsimp only
  rw [expect_cons hsemi]
  rfl

mutual

/-- **The loop meets every derivation.** An expression of a layer is read back in front of anything that
ends the layer. -/
theorem Layer.parse : ∀ {k : Nat} {ts : List Token} {e : Node}, Layer k ts e → Leads k ts e
  | _, _, _, .lift _ h, _, _, _, _, hbp, hk, hstop, hloop => by
    exact h.parse hbp (fun _ => by have := hk (by omega); omega)
      (hstop.mono (ceiling_mono (by omega))) hloop
  | _, _, _, @Layer.binary k ts us op l r hl hop hr, bp, rest, rest', e', hbp, hk, hstop, hloop => by
    obtain ⟨hk5, hparen, hpow⟩ := power?_of_mem hop
    have hlt : ¬ 30 + 10 * k ≤ bp := by have := hk hk5; omega
    rw [ceiling, if_pos hk5] at hstop
    have hright : Reads (parseExpr (31 + 10 * k) (us ++ rest)) r rest :=
      hr.parse (by omega) (fun _ => by omega)
        (hstop.mono (Nat.le_trans (Nat.le_of_eq (if_pos hk5).symm) (ceiling_mono (Nat.le_succ k))))
        (parseInfix_of_stops (hstop.mono (by omega)) r)
    rw [List.append_assoc]
    refine hl.parse hbp hk (.of_some hpow (Nat.le_of_eq (if_pos hk5).symm)) ?_
    obtain ⟨_, heq1⟩ := hright
    obtain ⟨h2, heq2⟩ := hloop
    rw [List.cons_append]
    apply Reads.of_eq
    rw [parseInfix, hpow]
    dsimp only
    rw [if_neg hlt, if_neg hparen, heq1]
    dsimp only
    rw [heq2]
    rfl
  | _, _, _, @Layer.sign op ts e hop he, bp, rest, rest', e', hbp, _, hstop, hloop => by
    refine parseExpr_of_operand ?_ hloop
    obtain ⟨_, heq1⟩ : Reads (parseExpr signPower (ts ++ rest)) e rest :=
      he.parse (by decide) (fun h => by omega) hstop (parseInfix_of_stops hstop e)
    have hkind : literalKind? op.tag = none := by rcases hop with h | h <;> rw [h] <;> rfl
    have hid : op.tag ≠ "id" := by rcases hop with h | h <;> rw [h] <;> decide
    rw [List.cons_append]
    apply Reads.of_eq
    rw [parseOperand, hkind]
    dsimp only
    rw [if_neg hid, if_pos hop, heq1]
    rfl
  | _, _, _, @Layer.call ts us left right f args hf hleft hargs hright, bp, rest, rest', e', hbp, _, _,
      hloop => by
      obtain ⟨_, heq1⟩ := hargs.parse hright rest
      obtain ⟨h2, heq2⟩ := hloop
      rw [List.append_assoc]
      refine hf.parse hbp (fun h => by omega) (stops_call _) ?_
      rw [enclosed_append]
      apply Reads.of_eq
      rw [parseInfix, hleft, power?_call]
      dsimp only
      rw [if_neg (by omega), if_pos rfl, heq1]
      dsimp only
      rw [heq2]
      rfl
  | _, _, _, @Layer.name x hx, bp, rest, rest', e', _, _, _, hloop => by
    refine parseExpr_of_operand ⟨by simp, ?_⟩ hloop
    show parseOperand (x :: rest) = _
    rw [parseOperand, hx, show literalKind? "id" = none from rfl]
    dsimp only
    rw [if_pos rfl]
  | _, _, _, @Layer.literal t kind ht, bp, rest, rest', e', _, _, _, hloop => by
    refine parseExpr_of_operand ⟨by simp, ?_⟩ hloop
    show parseOperand (t :: rest) = _
    rw [parseOperand, ht, literalKind?_tag]
  | _, _, _, @Layer.parens left right ts e hleft he hright, bp, rest, rest', e', _, _, _, hloop => by
    refine parseExpr_of_operand ?_ hloop
    obtain ⟨_, heq1⟩ := he.parse.before hright rfl rest
    rw [enclosed_append]
    apply Reads.of_eq
    rw [parseOperand, hleft, show literalKind? "(" = none from rfl]
    dsimp only
    rw [if_neg (by decide), if_neg (by decide), if_pos rfl, heq1]
    dsimp only
    rw [expect_cons hright]
    rfl
  | _, _, _, @Layer.function fn left right ts us xs body hfn hleft hparams hright hbody, bp, rest, rest',
      e', _, _, _, hloop => by
      refine parseExpr_of_operand ?_ hloop
      obtain ⟨_, heq1⟩ := hparams.parse hright (us ++ rest)
      obtain ⟨h2, heq2⟩ := hbody.parse rest
      rw [List.cons_append, behind_append]
      apply Reads.of_eq
      rw [parseOperand, hfn, show literalKind? "fun" = none from rfl]
      dsimp only
      rw [if_neg (by decide), if_neg (by decide), if_neg (by decide), if_pos rfl, expect_cons hleft]
      dsimp only
      rw [heq1]
      dsimp only
      rw [heq2]
      rfl

theorem MoreArguments.parse : ∀ {ts : List Token} {es : List Node}, MoreArguments ts es →
    ∀ {right : Token}, right.tag = ")" → ∀ (rest : List Token),
    Reads (parseMore (ts ++ right :: rest)) es (right :: rest)
  | _, _, .none, right, hright, rest => by
    refine ⟨by simp, ?_⟩
    show parseMore (right :: rest) = _
    rw [parseMore, if_neg (by rw [hright]; decide)]
  | _, _, @MoreArguments.more comma ts us e es hcomma he hes, right, hright, rest => by
    obtain ⟨h2, heq2⟩ := hes.parse hright rest
    obtain ⟨_, heq1⟩ := he.parse.stopped (hes.stops hright)
    rw [List.cons_append, List.append_assoc]
    apply Reads.of_eq
    rw [parseMore, if_pos hcomma, heq1]
    dsimp only
    rw [heq2]
    rfl

theorem Arguments.parse : ∀ {ts : List Token} {es : List Node}, Arguments ts es →
    ∀ {right : Token}, right.tag = ")" → ∀ (rest : List Token),
    Reads (parseArguments (ts ++ right :: rest)) es rest
  | _, _, .none, right, hright, rest => by
    refine ⟨by simp, ?_⟩
    show parseArguments (right :: rest) = _
    rw [parseArguments, peek_cons, if_pos hright, expect_cons hright]
  | _, _, @Arguments.some ts us e es he hes, right, hright, rest => by
    obtain ⟨h2, heq2⟩ := hes.parse hright rest
    obtain ⟨_, heq1⟩ := he.parse.stopped (hes.stops hright)
    rw [List.append_assoc]
    apply Reads.of_eq
    rw [parseArguments, if_neg (he.peek_ne (by decide) _), heq1]
    dsimp only
    rw [heq2]
    dsimp only
    rw [expect_cons hright]
    rfl

theorem Block.parse : ∀ {ts : List Token} {b : Node}, Block ts b → ∀ (rest : List Token),
    Reads (parseBlock (ts ++ rest)) b rest
  | _, _, @Block.braces left right ts body hleft hbody hright, rest => by
    obtain ⟨_, heq1⟩ := hbody.parse hright rest
    rw [enclosed_append]
    apply Reads.of_eq
    rw [parseBlock, expect_cons hleft]
    dsimp only
    rw [heq1]
    rfl

theorem Statements.parse : ∀ {ts : List Token} {ss : List Node}, Statements ts ss →
    ∀ {right : Token}, right.tag = "\x7d" → ∀ (rest : List Token),
    Reads (parseStatements (ts ++ right :: rest)) ss rest
  | _, _, .nil, right, hright, rest => by
    refine ⟨by simp, ?_⟩
    show parseStatements (right :: rest) = _
    rw [parseStatements, peek_cons, if_pos hright, expect_cons hright]
  | _, _, @Statements.cons ts us s ss hs hss, right, hright, rest => by
    obtain ⟨h2, heq2⟩ := hss.parse hright rest
    have helse : Token.peek (us ++ right :: rest) ≠ "else" := hss.peek_ne_else (by rw [peek_cons, hright]; decide)
    obtain ⟨_, heq1⟩ := hs.parse (us ++ right :: rest) (fun _ => helse)
    obtain ⟨t, vs, hts, hbrace, -, -⟩ := hs.head
    have hne : Token.peek (ts ++ (us ++ right :: rest)) ≠ "\x7d" := by
      rw [hts, List.cons_append, peek_cons]
      exact hbrace
    rw [List.append_assoc]
    apply Reads.of_eq
    rw [parseStatements, if_neg hne, heq1]
    dsimp only
    rw [heq2]
    rfl

/-- A statement is read back unless an `else` behind it would be taken for its own. -/
theorem Statement.parse : ∀ {ts : List Token} {s : Node}, Statement ts s → ∀ (rest : List Token),
    (takesElse s = true → Token.peek rest ≠ "else") → Reads (parseStatement (ts ++ rest)) s rest
  | _, _, @Statement.define kw x eq semi ts e hkw hx heq he hsemi, rest, _ => by
    obtain ⟨_, heq1⟩ := binding_reads hx heq (he.parse.before hsemi rfl rest) hsemi
    rw [List.cons_append, List.cons_append, enclosed_append]
    apply Reads.of_eq
    simp [parseStatement, hkw, heq1, Except.map]
  | _, _, @Statement.assign x eq semi ts e hx heq he hsemi, rest, _ => by
    obtain ⟨_, heq1⟩ := binding_reads hx heq (he.parse.before hsemi rfl rest) hsemi
    rw [List.cons_append, enclosed_append]
    apply Reads.of_eq
    simp [parseStatement, hx, heq, heq1, Except.map]
  | _, _, @Statement.print kw left right semi ts args hkw hleft hargs hright hsemi, rest, _ => by
    obtain ⟨_, heq1⟩ := hargs.parse hright (semi :: rest)
    rw [List.cons_append, behind_append, List.singleton_append]
    apply Reads.of_eq
    simp [parseStatement, hkw, expect_cons hleft, heq1, expect_cons hsemi, Except.map]
  | _, _, @Statement.ifThen kw left right ts us cond yes hkw hleft hcond hright hyes, rest, helse => by
    obtain ⟨_, heq1⟩ := condition_reads hleft (hcond.parse.before hright rfl (us ++ rest)) hright
    obtain ⟨h2, heq2⟩ := hyes.parse rest (fun _ => helse rfl)
    rw [List.cons_append, behind_append]
    apply Reads.of_eq
    cases rest with
    | nil => simp [parseStatement, hkw, heq1, heq2, Except.map, -List.append_nil]
    | cons t r =>
      have ht : t.tag ≠ "else" := helse rfl
      simp [parseStatement, hkw, heq1, heq2, ht, Except.map]
  | _, _, @Statement.ifElse kw left right other ts us vs cond yes no hkw hleft hcond hright hyes hno
      hother helseBranch, rest, helse => by
      obtain ⟨_, heq1⟩ := condition_reads hleft
        (hcond.parse.before hright rfl (us ++ other :: (vs ++ rest))) hright
      obtain ⟨h2, heq2⟩ := hyes.parse (other :: (vs ++ rest)) (by rw [hno]; simp)
      obtain ⟨h3, heq3⟩ := helseBranch.parse rest helse
      rw [List.cons_append, behind_append, List.append_assoc, List.cons_append]
      apply Reads.of_eq
      simp [parseStatement, hkw, heq1, heq2, hother, heq3, Except.map]
  | _, _, @Statement.loop kw left right ts us cond body hkw hleft hcond hright hbody, rest, helse => by
    obtain ⟨_, heq1⟩ := condition_reads hleft (hcond.parse.before hright rfl (us ++ rest)) hright
    obtain ⟨h2, heq2⟩ := hbody.parse rest helse
    rw [List.cons_append, behind_append]
    apply Reads.of_eq
    simp [parseStatement, hkw, heq1, heq2, Except.map]
  | _, _, @Statement.breakLoop kw semi hkw hsemi, rest, _ => by
    apply Reads.of_eq
    show Except.map _ (parseStatement (kw :: semi :: rest)) = _
    simp [parseStatement, hkw, expect_cons hsemi, Except.map]
  | _, _, @Statement.continueLoop kw semi hkw hsemi, rest, _ => by
    apply Reads.of_eq
    show Except.map _ (parseStatement (kw :: semi :: rest)) = _
    simp [parseStatement, hkw, expect_cons hsemi, Except.map]
  | _, _, @Statement.return kw semi hkw hsemi, rest, _ => by
    apply Reads.of_eq
    show Except.map _ (parseStatement (kw :: semi :: rest)) = _
    simp [parseStatement, hkw, hsemi, expect_cons hsemi, Except.map]
  | _, _, @Statement.returnValue kw semi ts e hkw he hsemi, rest, _ => by
    obtain ⟨_, heq1⟩ := he.parse.before hsemi rfl rest
    rw [enclosed_append]
    have hpeek : Token.peek (ts ++ semi :: rest) ≠ ";" := he.peek_ne (by decide) _
    apply Reads.of_eq
    simp [parseStatement, hkw, hpeek, heq1, expect_cons hsemi, Except.map]
  | _, _, .block hb, rest, _ => by
    have hread := hb.parse rest
    obtain ⟨left, vs, hts, hleft⟩ := hb.head
    rw [hts, List.cons_append] at hread ⊢
    obtain ⟨h1, heq1⟩ := hread
    refine ⟨h1, ?_⟩
    simp [parseStatement, hleft, heq1]
  | _, _, @Statement.exprStat semi ts e he hsemi, rest, _ => by
    have hread := he.parse.before hsemi rfl rest
    obtain ⟨t, vs, hts, ht⟩ := he.head
    have happ : ts ++ [semi] ++ rest = t :: (vs ++ semi :: rest) := by simp [hts]
    rw [hts, List.cons_append] at hread
    rw [happ]
    refine exprStat_reads ht ?_ hread hsemi
    exact (hts ▸ he).no_binding (by rw [peek_cons, hsemi]; decide)

end

end Cilly.Grammar
