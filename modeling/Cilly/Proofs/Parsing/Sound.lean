import Cilly.Node.Parser
import Cilly.Proofs.Grammar

/-!
# What the parser accepts has a derivation, and what it refuses has a place

The reader of expressions knows one loop and a number for each operator; the grammar knows nine layers.
They meet in one arithmetic fact: the operators of layer `k` bind with `30 + 10 * k` to their left and with
one more to their right (`power?_eq`). An expression read with the power `bp` therefore belongs to the first
layer whose operators bind more tightly than `bp`, and the loop stops exactly where no such operator
follows (`Stops`).

The lemmas go along the calls of the readers, and each says both what tokens were taken for a result and what a
complaint is about (`Consumes`). The loop carries an operand of some layer `j` together with the fact that whatever
follows binds no more tightly than that layer allows (`ceiling j`): so the operator that comes next is of layer `j`
or looser, and the operand can be lowered to it. A complaint names a tag that no expression starts with, or it asks
for a tag and shows the token that is there instead (`Blames`).
-/

namespace Cilly.Node

open Grammar

variable {l : Nat} {tag : String}

/-! ## Binding powers and layers -/

/-- What an infix tag is: the parenthesis of a call, or an operator of a layer. -/
theorem power?_eq {r : Nat} (h : power? tag = some (l, r)) :
    (tag = "(" ∧ l = 90) ∨
      ∃ k, k ≤ 5 ∧ tag ∈ operators k ∧ tag ≠ "(" ∧ l = 30 + 10 * k ∧ r = 31 + 10 * k := by
  unfold power? at h
  split at h <;> simp only [Option.some.injEq, Prod.mk.injEq, reduceCtorEq] at h <;>
    obtain ⟨rfl, rfl⟩ := h
  · exact Or.inr ⟨5, by decide⟩
  · exact Or.inr ⟨5, by decide⟩
  · exact Or.inr ⟨5, by decide⟩
  · exact Or.inr ⟨4, by decide⟩
  · exact Or.inr ⟨4, by decide⟩
  · exact Or.inr ⟨3, by decide⟩
  · exact Or.inr ⟨3, by decide⟩
  · exact Or.inr ⟨3, by decide⟩
  · exact Or.inr ⟨3, by decide⟩
  · exact Or.inr ⟨2, by decide⟩
  · exact Or.inr ⟨2, by decide⟩
  · exact Or.inr ⟨1, by decide⟩
  · exact Or.inr ⟨0, by decide⟩
  · exact Or.inl ⟨rfl, rfl⟩

theorem power?_of_mem {k : Nat} (h : tag ∈ operators k) :
    k ≤ 5 ∧ tag ≠ "(" ∧ power? tag = some (30 + 10 * k, 31 + 10 * k) := by
  unfold operators at h
  split at h <;> simp only [List.mem_cons, List.not_mem_nil, or_false] at h
  · subst h; decide
  · subst h; decide
  · rcases h with rfl | rfl <;> decide
  · rcases h with rfl | rfl | rfl | rfl <;> decide
  · rcases h with rfl | rfl <;> decide
  · rcases h with rfl | rfl | rfl <;> decide

/-- Nothing that binds more tightly than `bp` comes first. -/
def Stops (bp : Nat) (ts : List Token) : Prop :=
  ∀ l r, power? (Token.peek ts) = some (l, r) → l ≤ bp

/-- How tightly what follows an expression of a layer may bind without being taken into it. -/
def ceiling (k : Nat) : Nat := if k ≤ 5 then 30 + 10 * k else if k = 6 then signPower else 90

theorem Stops.mono {bp bp' : Nat} {ts : List Token} (h : Stops bp ts) (hle : bp ≤ bp') :
    Stops bp' ts := fun l r hp => Nat.le_trans (h l r hp) hle

/-- Powers to the left are multiples of ten, so the last digit of a bound does not matter. -/
theorem Stops.tens {c : Nat} {ts : List Token} (h : Stops (31 + 10 * c) ts) :
    Stops (30 + 10 * c) ts := by
  intro l r hp
  have hl := h l r hp
  rcases power?_eq hp with ⟨-, rfl⟩ | ⟨k, -, -, -, rfl, -⟩ <;> omega

theorem stops_call (ts : List Token) : Stops 90 ts := by
  intro l r hp
  rcases power?_eq hp with ⟨-, rfl⟩ | ⟨k, hk, -, -, rfl, -⟩ <;> omega

theorem Stops.of_none {bp : Nat} {ts : List Token} (h : power? (Token.peek ts) = none) :
    Stops bp ts := by
  intro l r hp
  rw [h] at hp
  simp at hp

theorem Stops.of_some {bp r : Nat} {ts : List Token} (h : power? (Token.peek ts) = some (l, r))
    (hle : l ≤ bp) : Stops bp ts := by
  intro l' r' hp
  rw [h] at hp
  simp only [Option.some.injEq, Prod.mk.injEq] at hp
  omega

/-- An operator that a layer lets follow is of that layer or of a looser one. -/
theorem le_of_le_ceiling {i j : Nat} (hi : i ≤ 5) (h : 30 + 10 * i ≤ ceiling j) : i ≤ j := by
  unfold ceiling signPower at h
  split at h
  · omega
  · split at h <;> omega

theorem le_of_call_le_ceiling {j r : Nat} (hpow : power? tag = some (l, r))
    (htag : tag = "(") (h : l ≤ ceiling j) : 7 ≤ j := by
  have h90 : l = 90 := by
    rcases power?_eq hpow with ⟨-, h90⟩ | ⟨-, -, -, hne, -⟩
    · exact h90
    · exact absurd htag hne
  unfold ceiling signPower at h
  split at h
  · omega
  · split at h <;> omega

theorem ceiling_mono {j k : Nat} (h : j ≤ k) : ceiling j ≤ ceiling k := by
  unfold ceiling signPower
  split <;> split <;> (try split) <;> (try split) <;> omega

theorem literalKind?_eq {kind : LiteralKind} (h : literalKind? tag = some kind) :
    tag = kind.tag := by
  unfold literalKind? at h
  split at h <;> simp only [Option.some.injEq, reduceCtorEq] at h <;> subst h <;> rfl

/-! ## Readers -/

/-- A complaint about the tokens: of a tag that starts no expression, or of what stands somewhere in
them. -/
def Blames (ts : List Token) (err : ParseError) : Prop :=
  (∃ tag, err = .illegal tag) ∨ ∃ tag used rest, ts = used ++ rest ∧ err = mismatch tag rest

theorem Blames.after {used rest ts : List Token} {err : ParseError} (h : Blames rest err)
    (hts : ts = used ++ rest) : Blames ts err := by
  rcases h with htag | ⟨tag, more, last, rfl, herr⟩
  · exact Or.inl htag
  · exact Or.inr ⟨tag, used ++ more, last, by simp [hts], herr⟩

section

variable {α β : Type} {p q : List Token → Prop} {P : List Token → α → List Token → Prop}
  {Q : List Token → β → List Token → Prop} {ts us : List Token}

/-- What becomes of tokens: those in front are taken for a result, with a relation between them, the result and the
rest, or there is a complaint about them. -/
def Consumes (ts : List Token) (P : List Token → α → List Token → Prop) :
    Except ParseError (α × { rest : List Token // p rest }) → Prop
  | .error err => Blames ts err
  | .ok (a, rest) => ∃ used, ts = used ++ rest.1 ∧ P used a rest.1

/-- Behind some tokens a reader goes on: its complaint is one about all of them, and behind its result the reading
continues. -/
theorem Consumes.bind {r : Except ParseError (α × { rest // p rest })} {r' : Except ParseError (β × { rest // q rest })}
    (before : List Token) (h : Consumes us P r) (hts : ts = before ++ us)
    (hok : ∀ a rest hr used, r = .ok (a, ⟨rest, hr⟩) → ts = before ++ used ++ rest → P used a rest → Consumes ts Q r')
    (herror : ∀ e, r = .error e → r' = .error e := by intro e he; rw [he]) : Consumes ts Q r' := by
  cases r with
  | error e =>
    rw [herror e rfl]
    exact Blames.after h hts
  | ok read =>
    obtain ⟨a, rest, hr⟩ := read
    obtain ⟨used, rfl, hused⟩ := h
    exact hok a rest hr used rfl (by rw [hts, List.append_assoc]) hused

theorem expect_ok {rest : List Token} {t : Token} {hr : rest.length < ts.length}
    (h : expect tag ts = .ok (t, ⟨rest, hr⟩)) : ts = t :: rest ∧ t.tag = tag := by
  unfold expect at h
  split at h
  · simp at h
  · split at h
    · rename_i ht
      simp only [Except.ok.injEq, Prod.mk.injEq, Subtype.mk.injEq] at h
      obtain ⟨rfl, rfl⟩ := h
      exact ⟨rfl, ht⟩
    · simp at h

theorem expect_error {err : ParseError} (h : expect tag ts = .error err) : Blames ts err := by
  refine Or.inr ⟨tag, [], ts, rfl, ?_⟩
  unfold expect at h
  split at h
  · cases h
    rfl
  · split at h <;> cases h
    rfl

theorem Consumes.expect {r' : Except ParseError (β × { rest // q rest })} (tag : String) (before : List Token)
    (hts : ts = before ++ us)
    (hok : ∀ t rest hr, expect tag us = .ok (t, ⟨rest, hr⟩) → ts = before ++ [t] ++ rest → t.tag = tag → Consumes ts Q r')
    (herror : ∀ e, expect tag us = .error e → r' = .error e := by intro e he; rw [he]) : Consumes ts Q r' := by
  cases hexpect : Node.expect tag us with
  | error e =>
    rw [herror e hexpect]
    exact (expect_error hexpect).after hts
  | ok read =>
    obtain ⟨t, rest, hr⟩ := read
    obtain ⟨rfl, ht⟩ := expect_ok hexpect
    exact hok t rest hr hexpect (by simp [hts]) ht

end

theorem parameters_consumes : ∀ ts : List Token, Consumes ts (fun used xs _ => MoreParameters used xs) (parameters ts)
  | [] => by
    rw [parameters]
    exact ⟨[], rfl, .none⟩
  | t :: ts' => by
    rw [parameters]
    split
    · rename_i ht
      refine .expect "id" [t] rfl fun x r hr heq hts hx => ?_
      simp only [heq]
      refine .bind _ (parameters_consumes r) hts fun xs r' hr' used heq' hts hxs => ?_
      simp only [heq']
      exact ⟨_, hts, .more ht hx hxs⟩
    · exact ⟨[], rfl, .none⟩
termination_by ts => ts.length
decreasing_by simp_wf; omega

theorem parameterList_consumes (ts : List Token) :
    Consumes ts (fun used xs _ => ∃ inner right, used = inner ++ [right] ∧ Parameters inner xs ∧ right.tag = ")")
      (parameterList ts) := by
  rw [parameterList]
  split
  · refine .expect ")" [] rfl fun right r hr heq hts hright => ?_
    simp only [heq]
    exact ⟨[right], hts, [], right, rfl, .none, hright⟩
  · refine .expect "id" [] rfl fun x r hr heq hts hx => ?_
    simp only [heq]
    refine .bind _ (parameters_consumes r) hts fun xs r' hr' used heq' hts hxs => ?_
    simp only [heq']
    refine .expect ")" _ hts fun right r'' hr'' heq'' hts hright => ?_
    simp only [heq'']
    exact ⟨_, hts, _, right, rfl, .some hx hxs, hright⟩

/-! ## Expressions and statements -/

mutual

theorem parseExpr_consumes (bp : Nat) {k : Nat} (ts : List Token) (hk : k ≤ 6 := by omega)
    (hbp : ∀ j, j < k → 30 + 10 * j ≤ bp := by intro j hj; omega) :
    Consumes ts (fun used e rest => Layer k used e ∧ Stops bp rest) (parseExpr bp ts) := by
  rw [parseExpr]
  refine .bind [] (parseOperand_consumes ts) rfl fun left r hr used heq hts ⟨j, h6, h7, hleft, hstop⟩ => ?_
  simp only [heq]
  refine .bind _ (parseInfix_consumes hbp (by omega) h7 hleft r hstop) hts fun e r' hr' more heq' hts he => ?_
  simp only [heq']
  exact ⟨_, hts, he⟩
termination_by (ts.length, 2)
decreasing_by all_goals omega

/-- An operand is of layer 7, or of layer 6 if it has a sign; then no call can follow it. -/
theorem parseOperand_consumes : ∀ ts : List Token,
    Consumes ts (fun used e rest => ∃ j, 6 ≤ j ∧ j ≤ 7 ∧ Layer j used e ∧ Stops (ceiling j) rest) (parseOperand ts)
  | [] => by
    rw [parseOperand]
    exact Or.inl ⟨_, rfl⟩
  | t :: r => by
    have atom : ∀ {used : List Token} {e : Node} {rest : List Token}, Layer 8 used e →
        ∃ j, 6 ≤ j ∧ j ≤ 7 ∧ Layer j used e ∧ Stops (ceiling j) rest :=
      fun h => ⟨7, by omega, by omega, h.lower (by omega) (by omega), stops_call _⟩
    rw [parseOperand]
    cases hkind : literalKind? t.tag with
    | some kind => exact ⟨[t], rfl, atom (.literal (literalKind?_eq hkind))⟩
    | none =>
      dsimp only
      split
      · rename_i ht
        exact ⟨[t], rfl, atom (.name ht)⟩
      split
      · rename_i ht
        refine .bind [t] (parseExpr_consumes signPower (k := 6) r (by omega) fun j hj => by unfold signPower; omega) rfl
          fun e r' hr' used heq hts ⟨he, hstop⟩ => ?_
        simp only [heq]
        exact ⟨_, hts, 6, by omega, by omega, .sign ht he, hstop⟩
      split
      · rename_i ht
        refine .bind [t] (parseExpr_consumes 0 (k := 0) r) rfl fun e r' hr' used heq hts ⟨he, _⟩ => ?_
        simp only [heq]
        refine .expect ")" _ hts fun right r'' hr'' heq' hts hright => ?_
        simp only [heq']
        exact ⟨_, hts, atom (.parens ht he hright)⟩
      split
      · rename_i ht
        refine .expect "(" [t] rfl fun left r1 h1 heq1 hts hleft => ?_
        simp only [heq1]
        refine .bind _ (parameterList_consumes r1) hts
          fun params r2 h2 used heq2 hts ⟨inner, right, hinner, hparams, hright⟩ => ?_
        simp only [heq2]
        refine .bind _ (parseBlock_consumes r2) hts fun body r3 h3 more heq3 hts hbody => ?_
        simp only [heq3]
        refine ⟨_, hts, atom ?_⟩
        simpa [hinner] using Layer.function ht hleft hparams hright hbody
      · exact Or.inl ⟨_, rfl⟩
termination_by ts => (ts.length, 1)
decreasing_by all_goals (simp_wf; omega)

theorem parseInfix_consumes {bp k j : Nat} (hbp : ∀ j, j < k → 30 + 10 * j ≤ bp) (hkj : k ≤ j)
    (hj : j ≤ 7) {left : Node} {before : List Token} (hleft : Layer j before left) :
    ∀ (ts : List Token) (_ : Stops (ceiling j) ts),
      Consumes ts (fun used e rest => Layer k (before ++ used) e ∧ Stops bp rest) (parseInfix bp left ts)
  | [], _ => by
    rw [parseInfix]
    exact ⟨[], rfl, by simpa using hleft.lower hkj (by omega), .of_none rfl⟩
  | t :: r, hstop => by
    have hended : Layer k (before ++ []) left := by simpa using hleft.lower hkj (by omega)
    rw [parseInfix]
    cases hpow : power? t.tag with
    | none => exact ⟨[], rfl, hended, .of_none hpow⟩
    | some powers =>
      obtain ⟨lbp, rbp⟩ := powers
      have hceil : lbp ≤ ceiling j := hstop lbp rbp hpow
      dsimp only
      split
      · rename_i hle
        exact ⟨[], rfl, hended, .of_some hpow hle⟩
      rename_i hlt
      split
      · rename_i ht
        refine .bind [t] (parseArguments_consumes r) rfl
          fun args r' hr' used heq hts ⟨inner, right, hinner, hargs, hright⟩ => ?_
        simp only [heq]
        -- only layer 7 lets a parenthesis follow
        have hj7 : j = 7 := by
          have := le_of_call_le_ceiling hpow ht hceil
          omega
        subst hj7
        refine .bind _ (parseInfix_consumes hbp hkj hj (.call hleft ht hargs hright) r' (stops_call _)) hts
          fun e r'' hr'' more heq' hts ⟨he, hend⟩ => ?_
        simp only [heq']
        exact ⟨_, hts, by simpa [hinner] using he, hend⟩
      · rename_i ht
        rcases power?_eq hpow with ⟨hparen, -⟩ | ⟨i, hi, hop, -, rfl, rfl⟩
        · exact absurd hparen ht
        have hij : i ≤ j := le_of_le_ceiling hi hceil
        have hki : k ≤ i := Nat.le_of_not_lt fun hik => hlt (hbp i hik)
        refine .bind [t] (parseExpr_consumes (31 + 10 * i) (k := i + 1) r) rfl
          fun right r' hr' used heq hts ⟨hright, hend⟩ => ?_
        simp only [heq]
        have hstop' : Stops (ceiling i) r' := by
          rw [ceiling, if_pos hi]
          exact hend.tens
        refine .bind _ (parseInfix_consumes hbp hki (by omega) (.binary (hleft.lower hij (by omega)) hop hright) r'
          hstop') hts fun e r'' hr'' more heq' hts ⟨he, hend⟩ => ?_
        simp only [heq']
        exact ⟨_, hts, by simpa using he, hend⟩
termination_by ts => (ts.length, 1)
decreasing_by all_goals (simp_wf; omega)

theorem parseArguments_consumes (ts : List Token) :
    Consumes ts (fun used args _ => ∃ inner right, used = inner ++ [right] ∧ Arguments inner args ∧ right.tag = ")")
      (parseArguments ts) := by
  rw [parseArguments]
  split
  · refine .expect ")" [] rfl fun right r hr heq hts hright => ?_
    simp only [heq]
    exact ⟨[right], hts, [], right, rfl, .none, hright⟩
  · refine .bind [] (parseExpr_consumes 0 (k := 0) ts) rfl fun e r hr used heq hts ⟨he, _⟩ => ?_
    simp only [heq]
    refine .bind _ (parseMore_consumes r) hts fun es r' hr' more heq' hts hes => ?_
    simp only [heq']
    refine .expect ")" _ hts fun right r'' hr'' heq'' hts hright => ?_
    simp only [heq'']
    exact ⟨_, hts, _, right, rfl, .some he hes, hright⟩
termination_by (ts.length, 3)
decreasing_by all_goals omega

theorem parseMore_consumes : ∀ ts : List Token, Consumes ts (fun used es _ => MoreArguments used es) (parseMore ts)
  | [] => by
    rw [parseMore]
    exact ⟨[], rfl, .none⟩
  | t :: r => by
    rw [parseMore]
    split
    · rename_i ht
      refine .bind [t] (parseExpr_consumes 0 (k := 0) r) rfl fun e r' hr' used heq hts ⟨he, _⟩ => ?_
      simp only [heq]
      refine .bind _ (parseMore_consumes r') hts fun es r'' hr'' more heq' hts hes => ?_
      simp only [heq']
      exact ⟨_, hts, .more ht he hes⟩
    · exact ⟨[], rfl, .none⟩
termination_by ts => (ts.length, 0)
decreasing_by all_goals (simp_wf; omega)

theorem parseBlock_consumes (ts : List Token) :
    Consumes ts (fun used b _ => Block used b) (parseBlock ts) := by
  rw [parseBlock]
  refine .expect "\x7b" [] rfl fun left r hr heq hts hleft => ?_
  simp only [heq]
  refine .bind _ (parseStatements_consumes r) hts fun body r' hr' used heq' hts ⟨inner, right, hinner, hbody, hright⟩ => ?_
  simp only [heq']
  exact ⟨_, hts, by simpa [hinner] using Block.braces hleft hbody hright⟩
termination_by (ts.length, 0)
decreasing_by all_goals omega

theorem parseStatements_consumes (ts : List Token) :
    Consumes ts (fun used ss _ => ∃ inner right, used = inner ++ [right] ∧ Statements inner ss ∧ right.tag = "\x7d")
      (parseStatements ts) := by
  rw [parseStatements]
  split
  · refine .expect "\x7d" [] rfl fun right r hr heq hts hright => ?_
    simp only [heq]
    exact ⟨[right], hts, [], right, rfl, .nil, hright⟩
  · refine .bind [] (parseStatement_consumes ts) rfl fun s r hr used heq hts ⟨hs, _⟩ => ?_
    simp only [heq]
    refine .bind _ (parseStatements_consumes r) hts fun ss r' hr' more heq' hts ⟨inner, right, hinner, hss, hright⟩ => ?_
    simp only [heq']
    exact ⟨_, hts, used ++ inner, right, by simp [hinner], .cons hs hss, hright⟩
termination_by (ts.length, 5)
decreasing_by all_goals omega

theorem parseBinding_consumes (ts : List Token) :
    Consumes ts (fun used (b : Datum × Node) _ => ∃ x eq semi inner, used = x :: eq :: (inner ++ [semi]) ∧
      x.tag = "id" ∧ x.value = b.1 ∧ eq.tag = "=" ∧ Layer 0 inner b.2 ∧ semi.tag = ";") (parseBinding ts) := by
  rw [parseBinding]
  refine .expect "id" [] rfl fun x r1 h1 heq1 hts hx => ?_
  simp only [heq1]
  refine .expect "=" _ hts fun eq r2 h2 heq2 hts heq => ?_
  simp only [heq2]
  refine .bind _ (parseExpr_consumes 0 (k := 0) r2) hts fun e r3 h3 used heq3 hts ⟨he, _⟩ => ?_
  simp only [heq3]
  refine .expect ";" _ hts fun semi r4 h4 heq4 hts hsemi => ?_
  simp only [heq4]
  exact ⟨_, hts, x, eq, semi, used, by simp, hx, rfl, heq, he, hsemi⟩
termination_by (ts.length, 0)
decreasing_by all_goals omega

theorem parseCondition_consumes (ts : List Token) :
    Consumes ts (fun used e _ => ∃ left right inner, used = left :: (inner ++ [right]) ∧ left.tag = "(" ∧
      Layer 0 inner e ∧ right.tag = ")") (parseCondition ts) := by
  rw [parseCondition]
  refine .expect "(" [] rfl fun left r1 h1 heq1 hts hleft => ?_
  simp only [heq1]
  refine .bind _ (parseExpr_consumes 0 (k := 0) r1) hts fun e r2 h2 used heq2 hts ⟨he, _⟩ => ?_
  simp only [heq2]
  refine .expect ")" _ hts fun right r3 h3 heq3 hts hright => ?_
  simp only [heq3]
  exact ⟨_, hts, left, right, used, by simp, hleft, he, hright⟩
termination_by (ts.length, 0)
decreasing_by all_goals omega

/-- A statement that takes an `else` is not followed by one. -/
theorem parseStatement_consumes : ∀ ts : List Token,
    Consumes ts (fun used s rest => Statement used s ∧ (takesElse s = true → Token.peek rest ≠ "else")) (parseStatement ts)
  | [] => by
    rw [parseStatement]
    exact Or.inl ⟨_, rfl⟩
  | t :: r => by
    rw [parseStatement]
    split
    · rename_i ht
      refine .bind [t] (parseBinding_consumes r) rfl
        fun b r' hr' used heq hts ⟨x, eq, semi, inner, hinner, hx, hname, heq', he, hsemi⟩ => ?_
      simp only [heq, ← hname]
      exact ⟨_, hts, by simpa [hinner] using Statement.define ht hx heq' he hsemi, by simp [takesElse]⟩
    split
    · refine .bind [] (parseBinding_consumes (t :: r)) rfl
        fun b r' hr' used heq hts ⟨x, eq, semi, inner, hinner, hx, hname, heq', he, hsemi⟩ => ?_
      simp only [heq, ← hname]
      exact ⟨_, hts, by simpa [hinner] using Statement.assign hx heq' he hsemi, by simp [takesElse]⟩
    split
    · rename_i ht
      refine .expect "(" [t] rfl fun left r1 h1 heq1 hts hleft => ?_
      simp only [heq1]
      refine .bind _ (parseArguments_consumes r1) hts fun args r2 h2 used heq2 hts ⟨inner, right, hinner, hargs, hright⟩ => ?_
      simp only [heq2]
      refine .expect ";" _ hts fun semi r3 h3 heq3 hts hsemi => ?_
      simp only [heq3]
      exact ⟨_, hts, by simpa [hinner] using Statement.print ht hleft hargs hright hsemi, by simp [takesElse]⟩
    split
    · rename_i ht
      refine .bind [t] (parseCondition_consumes r) rfl
        fun cond r1 h1 used heq1 hts ⟨left, right, inner, hinner, hleft, hcond, hright⟩ => ?_
      simp only [heq1]
      refine .bind _ (parseStatement_consumes r1) hts fun yes r2 h2 used' heq2 hts ⟨hyes, helse⟩ => ?_
      simp only [heq2]
      have hthen : Statement ([t] ++ used ++ used') (.ifThen cond yes) := by
        simpa [hinner] using Statement.ifThen ht hleft hcond hright hyes
      cases r2 with
      | nil => exact ⟨_, hts, hthen, fun _ => by simp [Token.peek]⟩
      | cons other r3 =>
        have hlen : r3.length + 1 < r1.length := by simpa using h2
        dsimp only
        split
        · rename_i hother
          have hclosed : takesElse yes = false := by
            cases hy : takesElse yes with
            | false => rfl
            | true => exact absurd hother (helse hy)
          refine .bind ([t] ++ used ++ used' ++ [other]) (parseStatement_consumes r3) (by simp [hts])
            fun no r4 h4 used'' heq4 hts ⟨hno, helse'⟩ => ?_
          simp only [heq4]
          exact ⟨_, hts, by simpa [hinner] using Statement.ifElse ht hleft hcond hright hyes hclosed hother hno,
            helse'⟩
        · rename_i hother
          exact ⟨_, hts, hthen, fun _ => hother⟩
    split
    · rename_i ht
      refine .bind [t] (parseCondition_consumes r) rfl
        fun cond r1 h1 used heq1 hts ⟨left, right, inner, hinner, hleft, hcond, hright⟩ => ?_
      simp only [heq1]
      refine .bind _ (parseStatement_consumes r1) hts fun body r2 h2 used' heq2 hts ⟨hbody, helse⟩ => ?_
      simp only [heq2]
      exact ⟨_, hts, by simpa [hinner] using Statement.loop ht hleft hcond hright hbody, helse⟩
    split
    · rename_i ht
      refine .expect ";" [t] rfl fun semi r1 h1 heq hts hsemi => ?_
      simp only [heq]
      exact ⟨_, hts, .breakLoop ht hsemi, by simp [takesElse]⟩
    split
    · rename_i ht
      refine .expect ";" [t] rfl fun semi r1 h1 heq hts hsemi => ?_
      simp only [heq]
      exact ⟨_, hts, .continueLoop ht hsemi, by simp [takesElse]⟩
    split
    · rename_i ht
      split
      · refine .expect ";" [t] rfl fun semi r1 h1 heq hts hsemi => ?_
        simp only [heq]
        exact ⟨_, hts, .return ht hsemi, by simp [takesElse]⟩
      · refine .bind [t] (parseExpr_consumes 0 (k := 0) r) rfl fun e r1 h1 used heq1 hts ⟨he, _⟩ => ?_
        simp only [heq1]
        refine .expect ";" _ hts fun semi r2 h2 heq2 hts hsemi => ?_
        simp only [heq2]
        exact ⟨_, hts, .returnValue ht he hsemi, by simp [takesElse]⟩
    split
    · refine .bind [] (parseBlock_consumes (t :: r)) rfl (fun b r1 h1 used heq hts hb => ?_) fun e he => he
      rw [heq]
      refine ⟨_, hts, .block hb, ?_⟩
      cases hb with
      | braces => simp [takesElse]
    · refine .bind [] (parseExpr_consumes 0 (k := 0) (t :: r)) rfl fun e r1 h1 used heq1 hts ⟨he, _⟩ => ?_
      simp only [heq1]
      refine .expect ";" _ hts fun semi r2 h2 heq2 hts hsemi => ?_
      simp only [heq2]
      exact ⟨_, hts, .exprStat he hsemi, by simp [takesElse]⟩
termination_by ts => (ts.length, 4)
decreasing_by all_goals (simp_wf; omega)

end

theorem parseStatement_sound (ts : List Token) {s : Node} {rest : List Token} {hr : rest.length < ts.length}
    (h : parseStatement ts = .ok (s, ⟨rest, hr⟩)) :
    ∃ used, ts = used ++ rest ∧ Statement used s ∧ (takesElse s = true → Token.peek rest ≠ "else") := by
  have hconsumes := parseStatement_consumes ts
  rwa [h] at hconsumes

theorem parseProgram_sound : ∀ (ts : List Token), (∀ t ∈ ts, t.tag ≠ "eof") → ∀ {ss : List Node},
    parseProgram ts = .ok ss → Statements ts ss
  | ts, heof, _, h => by
    rw [parseProgram] at h
    split at h
    · rename_i hpeek
      simp only [Except.ok.injEq] at h
      subst h
      cases ts with
      | nil => exact .nil
      | cons t r => exact absurd hpeek (heof t List.mem_cons_self)
    · split at h
      · simp at h
      · rename_i s r hr heq
        split at h
        · simp at h
        · rename_i ss heq'
          simp only [Except.ok.injEq] at h
          subst h
          obtain ⟨used, hts, hs, -⟩ := parseStatement_sound ts heq
          have hss := parseProgram_sound r
            (fun t ht => heof t (by rw [hts]; exact List.mem_append_right _ ht)) heq'
          rw [hts]
          exact .cons hs hss
termination_by ts => ts.length

end Cilly.Node
