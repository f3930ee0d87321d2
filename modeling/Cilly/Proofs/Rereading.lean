import Cilly.Proofs.Lexemes
import Cilly.Proofs.Printing
import Cilly.Proofs.Scripts

/-!
# Scripts that can be read again

The script of an expression without functions is itself the text of an expression. A binary expression stands in
parentheses and a sign or a call does not, so it has to come out of the grammar that a sign takes all of the sign or call
behind it; and nothing but the characters decides where one token ends and the next starts, so the text of an expression
has to end before whatever can stand behind it. Read again, the script gives the expression it was written for.
-/

namespace Cilly

open Acting Grammar List

/-! ## Texts of tokens -/

namespace Token

/-- A text is read as these tokens before everything that ends a token. It does not start with the sign that could go on
a sign before it. -/
structure Spells (s : String) (ts : List Token) : Prop where
  starts : ∃ c cs, s.toList = c :: cs ∧ c ≠ '='
  reads : ∀ {b : Char} {rest : List Char} {us : List Token}, isStop b = true → scan (b :: rest) = .ok us →
    scan (s.toList ++ b :: rest) = .ok (ts ++ us)

theorem tag_of_lexeme_equals {cs rest : List Char} {t : Token} (h : lexeme '=' cs = .ok (t, rest)) : t.tag ∈ signs := by
  cases cs with
  | nil =>
    cases h
    decide
  | cons x cs =>
    by_cases hx : x = '='
    · subst hx
      cases h
      decide
    · have hsingle : lexeme '=' (x :: cs) = .ok (⟨"=", .null⟩, x :: cs) := if_neg hx
      cases hsingle.symm.trans h
      decide

namespace HasSpelling

variable {tag : String} {d : Datum}

theorem read (h : HasSpelling ⟨tag, d⟩) : Read ⟨tag, d⟩ := by
  obtain ⟨c, cs, -, -, hlexeme⟩ := lexeme_spelling h (b := ' ') (by decide) []
  exact read_lexeme hlexeme

theorem spells (h : HasSpelling ⟨tag, d⟩) (hsign : tag ∉ signs) : Spells (spelling ⟨tag, d⟩) [⟨tag, d⟩] := by
  refine ⟨?_, fun hb hrest => scan_spelling h hb hrest⟩
  obtain ⟨c, cs, hspelled, -, hlexeme⟩ := lexeme_spelling h (b := ' ') (by decide) []
  refine ⟨c, cs, hspelled, ?_⟩
  rintro rfl
  exact hsign (tag_of_lexeme_equals hlexeme)

end HasSpelling

/-- A sign that goes on to no other is read off the front of anything. -/
theorem scan_single {c : Char} (hc : c ∈ singles) {rest : List Char} {us : List Token} (h : scan rest = .ok us) :
    scan (c :: rest) = .ok (⟨c.toString, .null⟩ :: us) := by
  simp only [singles, mem_cons, not_mem_nil, or_false] at hc
  rcases hc with rfl | rfl | rfl | rfl | rfl | rfl | rfl | rfl | rfl | rfl | rfl <;>
    exact (scan_lexeme (by decide)).mpr ⟨_, rest, us, rfl, h, rfl⟩

variable {s s' : String} {ts ts' : List Token}

theorem Spells.sign {op : String} (hop : op = "-" ∨ op = "!") (h : Spells s ts) : Spells (op ++ s) (⟨op, .null⟩ :: ts) := by
  obtain ⟨c, cs, hs, hc⟩ := h.starts
  rcases hop with rfl | rfl
  · refine ⟨⟨'-', s.toList, by simp, by decide⟩, fun hb hrest => ?_⟩
    rw [String.toList_append]
    exact scan_single (by decide) (h.reads hb hrest)
  · refine ⟨⟨'!', s.toList, by simp, by decide⟩, fun {b rest us} hb hrest => ?_⟩
    have hinner := h.reads hb hrest
    rw [hs] at hinner
    rw [String.toList_append, hs]
    have hsingle : lexeme '!' (c :: cs ++ b :: rest) = .ok (⟨"!", .null⟩, c :: cs ++ b :: rest) := if_neg hc
    exact (scan_lexeme (by decide)).mpr ⟨_, _, _, hsingle, hinner, rfl⟩

theorem Spells.between {op : String} (hop : op ∈ signs) (h : Spells s ts) (h' : Spells s' ts') :
    Spells ("(" ++ s ++ " " ++ op ++ " " ++ s' ++ ")") (⟨"(", .null⟩ :: (ts ++ ⟨op, .null⟩ :: ts') ++ [⟨")", .null⟩]) := by
  refine ⟨⟨'(', s.toList ++ ' ' :: (op.toList ++ ' ' :: (s'.toList ++ [')'])), by simp, by decide⟩, fun {b rest us} hb hrest => ?_⟩
  have hclose : scan (')' :: b :: rest) = .ok (⟨")", .null⟩ :: us) := scan_single (by decide) hrest
  have hright := (scan_blank (b := ' ') (by decide) _).trans (h'.reads (by decide) hclose)
  have hmiddle : scan (op.toList ++ _) = .ok (⟨op, .null⟩ :: _) := scan_spelling (.sign hop) (by decide) hright
  have hleft := h.reads (by decide) ((scan_blank (b := ' ') (by decide) _).trans hmiddle)
  simpa using scan_single (c := '(') (by decide) hleft

theorem Spells.call (h : Spells s ts)
    (hinner : ∀ {rest : List Char} {us : List Token}, scan (')' :: rest) = .ok us → scan (s'.toList ++ ')' :: rest) = .ok (ts' ++ us)) :
    Spells (s ++ "(" ++ s' ++ ")") (ts ++ ⟨"(", .null⟩ :: (ts' ++ [⟨")", .null⟩])) := by
  obtain ⟨c, cs, hs, hc⟩ := h.starts
  refine ⟨⟨c, cs ++ '(' :: (s'.toList ++ [')']), by simp [hs], hc⟩, fun hb hrest => ?_⟩
  have hinside := hinner (scan_single (c := ')') (by decide) hrest)
  simpa using h.reads (by decide) (scan_single (c := '(') (by decide) hinside)

end Token

namespace Node

/-! ## Expressions that can be read again -/

/-- Names, whole numbers, texts that are written as they are and constants, with signs, operators, and calls of functions
that have no name of their own in scripts. -/
inductive Portable : Node → Prop
  | name {x : String} : Token.isIdentifier x = true → Portable (.name (.text x))
  | number {n : Nat} : n < 10 ^ Datum.digitBound → Portable (.literal .num [.int n])
  | text {s : String} :
      (∀ c ∈ s.toList, 32 ≤ c.toNat ∧ c.toNat < 127 ∧ c ≠ '"' ∧ c ≠ '\\') → Portable (.literal .str [.text s])
  | constant {kind : LiteralKind} : kind ≠ .num → kind ≠ .str → Portable (.literal kind [.null])
  | unary {op : String} {e : Node} : op = "-" ∨ op = "!" → Portable e → Portable (.unary (.text op) e)
  | binary {k : Nat} {op : String} {l r : Node} :
      op ∈ Grammar.operators k → Portable l → Portable r → Portable (.binary (.text op) l r)
  | call {x : String} {args : List Node} : Token.isIdentifier x = true → x ∉ ScriptM.turtleNames →
      (∀ a ∈ args, Portable a) → Portable (.call (.name (.text x)) args)

namespace Portable

theorem written {e : Node} (h : Portable e) : WrittenExpr Token.Read e := by
  induction h with
  | name hx => exact .name (Token.HasSpelling.name hx).read
  | number hn => exact @WrittenExpr.literal _ .num _ (Token.HasSpelling.number hn).read
  | text => exact .literal (Token.read_str _)
  | @constant kind hnum hstr =>
    cases kind with
    | num | str => contradiction
    | true | false | null => exact .literal (Token.read_bare (by decide))
  | unary hop _ ih => exact .unary hop ih
  | binary hop _ _ ihl ihr => exact .binary hop ihl ihr
  | @call x args hx _ hargs ih =>
    refine .call (.name (Token.HasSpelling.name hx).read) ?_
    clear hargs
    induction args with
    | nil => exact .nil
    | cons a args ihargs =>
      obtain ⟨ha, hrest⟩ := forall_mem_cons.mp ih
      exact .cons ha (ihargs hrest)

theorem escaped_eq {s : String} (h : ∀ c ∈ s.toList, 32 ≤ c.toNat ∧ c.toNat < 127 ∧ c ≠ '"' ∧ c ≠ '\\') :
    Text.escaped s = "\"" ++ s ++ "\"" := by
  have hchar : ∀ c ∈ s.toList, Text.escapedChar c = c.toString := by
    intro c hc
    obtain ⟨hlow, hhigh, hquote, hslash⟩ := h c hc
    have hplain : ∀ d : Char, d.toNat < 32 → c ≠ d := by
      rintro d hd rfl
      omega
    rw [Text.escapedChar, if_neg hquote, if_neg hslash, if_neg (hplain _ (by decide)), if_neg (hplain _ (by decide)),
      if_neg (hplain _ (by decide)), if_neg (hplain _ (by decide)), if_neg (hplain _ (by decide)), if_pos ⟨hlow, hhigh⟩]
  have hjoin : String.join (s.toList.map Char.toString) = s := by
    rw [← String.toList_inj, String.toList_join, flatMap_map]
    simp [Char.toString]
  rw [Text.escaped, map_congr_left hchar, hjoin]

theorem someArguments_spells {depth : Nat} {e : Node} {es : List Node}
    (h : ∀ a ∈ e :: es, ∃ ts, Token.Spells (scriptAt a depth) ts ∧ Layer 6 ts a) :
    ∃ ts us, Layer 0 ts e ∧ MoreArguments us es ∧ ∀ {rest : List Char} {vs : List Token}, Token.scan (')' :: rest) = .ok vs →
      Token.scan ((String.intercalate ", " (scriptsAt (e :: es) depth)).toList ++ ')' :: rest) = .ok (ts ++ us ++ vs) := by
  induction es generalizing e with
  | nil =>
    obtain ⟨ts, hspells, hlayer⟩ := h e (mem_cons_self ..)
    refine ⟨ts, [], hlayer.lower (by decide) (by decide), .none, fun hrest => ?_⟩
    rw [append_nil]
    exact hspells.reads (by decide) hrest
  | cons e' es ih =>
    obtain ⟨⟨ts, hspells, hlayer⟩, hes⟩ := forall_mem_cons.mp h
    obtain ⟨ts', us, hlayer', hmore, hreads⟩ := ih hes
    refine ⟨ts, mark "," :: (ts' ++ us), hlayer.lower (by decide) (by decide), .more rfl hlayer' hmore, fun hrest => ?_⟩
    have hcomma := Token.scan_single (c := ',') (by decide) ((Token.scan_blank (b := ' ') (by decide) _).trans (hreads hrest))
    have hall := hspells.reads (by decide) hcomma
    rw [String.toList_intercalate] at hall ⊢
    simpa [scriptsAt, mark] using hall

/-- The arguments of a call are read as tokens that derive them. -/
theorem arguments_spells {depth : Nat} {args : List Node}
    (h : ∀ a ∈ args, ∃ ts, Token.Spells (scriptAt a depth) ts ∧ Layer 6 ts a) :
    ∃ us, Arguments us args ∧ ∀ {rest : List Char} {vs : List Token}, Token.scan (')' :: rest) = .ok vs →
      Token.scan ((String.intercalate ", " (scriptsAt args depth)).toList ++ ')' :: rest) = .ok (us ++ vs) := by
  cases args with
  | nil => exact ⟨[], .none, fun h => h⟩
  | cons a args =>
    obtain ⟨ts, us, hfirst, hmore, hreads⟩ := someArguments_spells h
    exact ⟨ts ++ us, .some hfirst hmore, hreads⟩

/-- The script of an expression is read as tokens that derive the expression, as the operand of a sign and of everything
else. -/
theorem spells {e : Node} (h : Portable e) (depth : Nat) : ∃ ts, Token.Spells (scriptAt e depth) ts ∧ Layer 6 ts e := by
  induction h with
  | @name x hx =>
    exact ⟨_, (Token.HasSpelling.name hx).spells (by decide), (Layer.name rfl).lower (by decide) (by decide)⟩
  | @number n hn =>
    refine ⟨[⟨"num", .int n⟩], ?_, (@Layer.literal _ .num rfl).lower (by decide) (by decide)⟩
    have hscript : scriptAt (.literal .num [.int n]) depth = (Token.mk "num" (.int n)).spelling := by
      refine (wording_int hn).trans ?_
      rw [Decimal.numeral, ← Nat.toString_eq_ofList_toDigits]
      rfl
    rw [hscript]
    exact (Token.HasSpelling.number hn).spells (by decide)
  | @text s hs =>
    refine ⟨[⟨"str", .text s⟩], ?_, (@Layer.literal _ .str rfl).lower (by decide) (by decide)⟩
    have hquote : '"' ∉ s.toList := fun hmem => (hs _ hmem).2.2.1 rfl
    have hscript : scriptAt (.literal .str [.text s]) depth = (Token.mk "str" (.text s)).spelling := escaped_eq hs
    rw [hscript]
    exact (Token.HasSpelling.text hquote).spells (by decide)
  | @constant kind hnum hstr =>
    refine ⟨[⟨kind.tag, .null⟩], ?_, (Layer.literal rfl).lower (by decide) (by decide)⟩
    cases kind with
    | num | str => contradiction
    | true | false | null => exact (Token.HasSpelling.keyword (by decide)).spells (by decide)
  | unary hop _ ih =>
    obtain ⟨ts, hspells, hlayer⟩ := ih
    exact ⟨_, hspells.sign hop, .sign hop hlayer⟩
  | @binary k op l r hop _ _ ihl ihr =>
    obtain ⟨ts, hleft, hl⟩ := ihl
    obtain ⟨us, hright, hr⟩ := ihr
    have hk := lt_of_mem_operators hop
    have hbinary : Layer k (ts ++ mark op :: us) (.binary (.text op) l r) :=
      .binary (hl.lower (by omega) (by decide)) hop (hr.lower (by omega) (by decide))
    have hparens := @Layer.parens (mark "(") (mark ")") _ _ rfl (hbinary.lower (Nat.zero_le k) (by omega)) rfl
    exact ⟨_, hleft.between (mem_signs_of_mem_operators hop) hright, hparens.lower (by decide) (by decide)⟩
  | @call x args hx hturtle hargs ih =>
    have hcallee := (Token.HasSpelling.name hx).spells (by decide)
    have hname : Layer 7 [⟨"id", .text x⟩] (.name (.text x)) := (Layer.name rfl).lower (by decide) (by decide)
    obtain ⟨us, harguments, hreads⟩ := arguments_spells ih
    have hscript : scriptAt (.call (.name (.text x)) args) depth =
        x ++ "(" ++ String.intercalate ", " (scriptsAt args depth) ++ ")" := by
      show calleeScript x ++ _ ++ _ ++ _ = _
      rw [calleeScript, if_neg hturtle]
    rw [hscript]
    exact ⟨_, hcallee.call hreads, (Layer.call hname rfl harguments rfl).lower (by decide) (by decide)⟩

end Portable

/-- The script of an expression, with a semicolon behind it, is a program of that one expression. -/
theorem ofText_script {e : Node} (h : Portable e) (depth : Nat) :
    ∃ s, outcome (ScriptM.write e) depth = (.ok (.text s), depth) ∧ Node.ofText (s ++ ";") = .ok (.program [.exprStat e]) := by
  obtain ⟨ts, hspells, hlayer⟩ := h.spells depth
  refine ⟨_, ScriptM.write_expr h.written depth, ?_⟩
  have hend : Token.scan [';'] = .ok [mark ";"] := Token.scan_single (by decide) (by rw [Token.scan])
  have hlex : Token.lex (scriptAt e depth ++ ";") = .ok (ts ++ [mark ";"]) := by
    rw [Token.lex, String.toList_append]
    exact hspells.reads (by decide) hend
  have hstatement : Statement (ts ++ [mark ";"]) (.exprStat e) := .exprStat (hlayer.lower (by decide) (by decide)) rfl
  have hparse : parse (ts ++ [mark ";"]) = .ok (.program [.exprStat e]) := by
    rw [parse, parseProgram_complete (by simpa using Statements.cons hstatement .nil)]
    rfl
  unfold ofText Token.ofText ofTokens
  rw [hlex]
  show (parse _).mapError _ = _
  rw [hparse]
  rfl

/-- Two signs before a call, a difference whose right side has a sign, and a text with a quotation mark of the other kind. -/
theorem ofText_script_signs :
    let e : Node := .unary (.text "-") (.unary (.text "-") (.call (.name (.text "f"))
      [.binary (.text "-") (.name (.text "x")) (.unary (.text "-") (.literal .num [.int 1])),
        .binary (.text "&&") (.unary (.text "!") (.literal .true [.null])) (.literal .str [.text "it's"])]))
    Portable e ∧ outcome (ScriptM.write e) 0 = (.ok (.text "--f((x - -1), (!true && \"it's\"))"), 0) ∧
      Node.ofText "--f((x - -1), (!true && \"it's\"));" = .ok (.program [.exprStat e]) := by
  intro e
  have hone : 1 < 10 ^ Datum.digitBound := Nat.one_lt_pow (by decide) (by decide)
  have hportable : Portable e := by
    refine .unary (.inl rfl) (.unary (.inl rfl) (.call (by decide) (by decide) ?_))
    refine forall_mem_cons.mpr ⟨.binary (k := 4) (by decide) (.name (by decide)) (.unary (.inl rfl) (.number hone)), ?_⟩
    refine forall_mem_singleton.mpr (.binary (k := 1) (by decide) (.unary (.inr rfl) (.constant nofun nofun)) (.text ?_))
    have hplain : "it's".toList.all (fun c => 32 ≤ c.toNat ∧ c.toNat < 127 ∧ c ≠ '"' ∧ c ≠ '\\') = true := by decide
    exact fun c hc => of_decide_eq_true (all_eq_true.mp hplain c hc)
  have hscript : outcome (ScriptM.write e) 0 = (.ok (.text "--f((x - -1), (!true && \"it's\"))"), 0) := by
    have hword : wording (.int 1) = "1" := (wording_int hone).trans (by decide)
    rw [ScriptM.write_expr hportable.written]
    simp only [e, scriptAt, scriptsAt, literalScript, hword]
    rfl
  obtain ⟨s, hwrite, hread⟩ := ofText_script hportable 0
  cases hwrite.symm.trans hscript
  exact ⟨hportable, hscript, hread⟩

end Node

end Cilly
