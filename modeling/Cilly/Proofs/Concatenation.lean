import Cilly.Proofs.Lexemes
import Cilly.Proofs.Parsing.Exact
import Mathlib.Data.List.TakeWhile

/-!
# Texts and tokens one behind the other

A blank cuts a text in two: no lexeme goes on over it, except a text between quotation marks that is not closed in front
of it. So the tokens of two texts with a blank between them are those of the first and then those of the second
(`lex_append_blank`), and a blank behind a text changes nothing but that a word at its end has an end.

Statements one behind the other are the statements of both (`parse_append`): none of them goes on over its end, since an
`else`, the one token that could make it do so, starts no statement.
-/

namespace Cilly.Token

open Lexeme List

variable {c : Char} {cs : List Char} {e : LexError}

/-! ## Where nothing can be read -/

/-- Why there is no lexeme in front of a text that starts with a character: a whole number has too many digits, a text
is not closed, a word has nothing behind it, or no lexeme starts with the character. -/
inductive Refuses (c : Char) : List Char → LexError → Prop
  | long {digits rest : List Char} : (∀ d ∈ c :: digits, isDigit d = true) → Datum.digitBound < (c :: digits).length →
      (∀ b ∈ rest.head?, isDigit b = false ∧ b ≠ '.') →
      Refuses c (digits ++ rest) (.fault (.digitLimit (some (c :: digits).length)))
  | unclosed {cs : List Char} : c = '"' → '"' ∉ cs → Refuses c cs .unclosedText
  | endless {cs : List Char} : isNameStart c = true → (∀ x ∈ cs, isNamePart x = true) → Refuses c cs .endless
  | illegal {cs : List Char} : Kind.ofStart c = .operator → c ∉ singles → second? c = none →
      Refuses c cs (.illegalCharacter c)

theorem refuses_of_digit (hc : isDigit c = true)
    (h : lexeme c cs = .error e) : Refuses c cs e := by
  rw [lexeme, if_pos hc] at h
  dsimp only at h
  split at h
  · cases h
  · rename_i hpoint
    unfold wholeNumber at h
    split at h
    · rename_i hlong
      cases h
      have hrest : ∀ b ∈ (cs.dropWhile isDigit).head?, isDigit b = false ∧ b ≠ '.' := by
        intro b hb
        refine ⟨head?_dropWhile cs b hb, ?_⟩
        rintro rfl
        obtain ⟨rest, hrest⟩ := head?_eq_some_iff.mp hb
        exact hpoint rest hrest
      have hrefuses := Refuses.long (forall_mem_cons.mpr ⟨hc, all_eq_true.mp all_takeWhile⟩) hlong hrest
      rwa [takeWhile_append_dropWhile] at hrefuses
    · cases h

theorem refuses_of_other (hdigit : ¬ isDigit c = true) (hquote : c ≠ '"')
    (hname : ¬ isNameStart c = true) (h : lexeme c cs = .error e) : Refuses c cs e := by
  rw [lexeme, if_neg hdigit, if_neg hquote, if_neg hname] at h
  split at h
  · cases h
  · rename_i hsingle
    split at h
    · rename_i hsecond
      cases h
      refine .illegal ?_ hsingle hsecond
      rw [Kind.ofStart, if_neg hdigit, if_neg hquote, if_neg hname]
    · split at h
      · split at h <;> cases h
      · cases h

/-- **The lexer refuses what has no lexeme in front**, and says why. -/
theorem lexeme_eq_error_iff : lexeme c cs = .error e ↔ Refuses c cs e := by
  constructor
  · intro h
    by_cases hdigit : isDigit c = true
    · exact refuses_of_digit hdigit h
    by_cases hquote : c = '"'
    · subst hquote
      rw [lexeme, if_neg hdigit, if_pos rfl] at h
      split at h
      · rename_i hnil
        cases h
        exact .unclosed rfl (unquoted_iff.mpr (dropWhile_eq_nil_iff.mp hnil))
      · cases h
    by_cases hname : isNameStart c = true
    · rw [lexeme, if_neg hdigit, if_neg hquote, if_pos hname] at h
      split at h
      · rename_i hnil
        cases h
        exact .endless hname (dropWhile_eq_nil_iff.mp hnil)
      · cases h
    exact refuses_of_other hdigit hquote hname h
  · intro h
    cases h with
    | @long digits rest hdigits hlong hrest =>
      obtain ⟨hc, hall⟩ := forall_mem_cons.mp hdigits
      obtain ⟨htake, hdrop⟩ := takeWhile_run hall fun b hb => (hrest b hb).1
      rw [lexeme, if_pos hc]
      dsimp only
      rw [htake, hdrop, wholeNumber, if_pos hlong]
      split
      · exact absurd rfl (hrest '.' rfl).2
      · rfl
    | unclosed hquote hcs =>
      subst hquote
      rw [lexeme, if_neg (by decide), if_pos rfl, dropWhile_eq_nil_iff.mpr (unquoted_iff.mp hcs)]
    | endless hname hcs =>
      rw [lexeme, if_neg (by rw [not_isDigit_of_isNameStart hname]; decide), if_neg (ne_quote_of_isNameStart hname),
        if_pos hname, dropWhile_eq_nil_iff.mpr hcs]
    | illegal hkind hsingle hsecond =>
      obtain ⟨hdigit, hquote, hname⟩ := Kind.of_ofStart_eq_operator hkind
      rw [lexeme, if_neg hdigit, if_neg hquote, if_neg hname, if_neg hsingle, hsecond]

/-! ## A blank behind a lexeme -/

section

variable {w : Char} (hw : isBlank w = true)

include hw

theorem second?_ne_of_isBlank (c : Char) : second? c ≠ some w := by
  intro h
  unfold second? at h
  split at h <;> cases h <;> revert hw <;> decide

theorem Lexeme.not_continues_of_isBlank (l : Lexeme) : ¬ l.Continues w := by
  have hdigit := not_isDigit_of_isBlank hw
  intro hcontinues
  cases l with
  | whole digits _ _ =>
    rcases hcontinues with h | rfl
    · rw [hdigit] at h
      cases h
    · revert hw
      decide
  | point digits places _ _ _ =>
    rw [Continues, hdigit] at hcontinues
    cases hcontinues
  | text inside _ => exact hcontinues
  | word c cs _ _ =>
    rw [Continues, not_isNamePart_of_isBlank hw] at hcontinues
    cases hcontinues
  | operator s hs =>
    obtain ⟨c, -, -, ⟨hone, -⟩ | ⟨d, htwo, hsecond⟩⟩ := operator_cases hcontinues
    · obtain ⟨c', cs', hchars, -⟩ := (operator s hs).exists_chars
      rw [String.toList_push, show s.toList = _ from hchars] at hone
      simp at hone
    · have hlast : [w] = [d] := by
        rw [String.toList_push] at htwo
        exact (append_inj' (htwo.trans (singleton_append (x := c)).symm) rfl).2
      cases hlast
      exact second?_ne_of_isBlank hw c hsecond

/-- What heads a text also heads it with a blank, and anything, behind it. -/
theorem Heads.append_blank {l : Lexeme} {rest : List Char} {t : Token} (h : Heads l cs t rest) (more : List Char) :
    Heads l (cs ++ w :: more) t (rest ++ w :: more) where
  text := by rw [← h.text, append_assoc]
  longest := by
    refine isLongest_iff.mpr fun b hb => ?_
    cases rest with
    | nil =>
      cases hb
      exact l.not_continues_of_isBlank hw
    | cons c rest => exact isLongest_iff.mp h.longest b hb
  token := h.token
  ended := by simp

/-- A blank takes away no other reason than that a word has nothing behind it. -/
theorem Refuses.append_blank (h : Refuses c cs e) (he : e ≠ .endless) :
    Refuses c (cs ++ [w]) e := by
  cases h with
  | @long digits rest hdigits hlong hrest =>
    rw [append_assoc]
    refine .long hdigits hlong fun b hb => ?_
    cases rest with
    | nil =>
      cases hb
      refine ⟨not_isDigit_of_isBlank hw, ?_⟩
      rintro rfl
      revert hw
      decide
    | cons x rest => exact hrest b hb
  | unclosed hquote hcs =>
    refine .unclosed hquote fun hmem => ?_
    rcases mem_append.mp hmem with hmem | hmem
    · exact hcs hmem
    · cases mem_singleton.mp hmem
      revert hw
      decide
  | endless => exact absurd rfl he
  | illegal hkind hsingle hsecond => exact .illegal hkind hsingle hsecond

theorem Refuses.word_before_blank (h : Refuses c cs .endless) (more : List Char) :
    lexeme c (cs ++ w :: more) = .ok (word (c :: cs), w :: more) := by
  cases h with
  | endless hname hcs =>
    refine lexeme_word hname hcs ?_ (cons_ne_nil w more)
    rintro b ⟨⟩
    exact not_isNamePart_of_isBlank hw

/-! ## A blank behind a text -/

omit hw in
/-- What is read in a text is what is read off its front and in the rest. -/
theorem scan_cons (hc : isBlank c = false) (cs : List Char) :
    scan (c :: cs) = (lexeme c cs).bind fun (t, rest) => (scan rest).map (t :: ·) := by
  rw [scan, if_neg (by rw [hc]; decide)]
  split
  · rename_i hlexeme
    rw [hlexeme]
    rfl
  · rename_i t rest hlexeme
    dsimp only
    rw [hlexeme]
    dsimp only [Except.bind]
    cases scan rest <;> rfl

/-- A text before a blank either cannot be read, with the blank and without it, or its tokens come before those of
whatever stands behind the blank; it can then be read without the blank too, or ends with a word. The induction goes
along the lexemes of the text. -/
theorem scan_before_blank (cs : List Char) :
    (∃ e, e ≠ .endless ∧ scan cs = .error e ∧ scan (cs ++ [w]) = .error e) ∨
      ∃ ts, (scan cs = .ok ts ∨ scan cs = .error .endless) ∧
        ∀ more, scan (cs ++ w :: more) = (scan more).map (ts ++ ·) := by
  match cs with
  | [] =>
    refine Or.inr ⟨[], Or.inl (by rw [scan]), fun more => ?_⟩
    rw [nil_append, scan, if_pos hw]
    cases scan more <;> rfl
  | c :: cs =>
    cases hc : isBlank c with
    | true =>
      have hskip : ∀ cs', scan (c :: cs') = scan cs' := fun cs' => by rw [scan, if_pos hc]
      simp only [cons_append, hskip]
      exact scan_before_blank cs
    | false =>
      simp only [cons_append, scan_cons hc]
      cases hlexeme : lexeme c cs with
      | ok read =>
        obtain ⟨t, rest⟩ := read
        have hshorter := length_lexeme hlexeme
        have hbehind : ∀ more, lexeme c (cs ++ w :: more) = .ok (t, rest ++ w :: more) := by
          intro more
          obtain ⟨l, hl⟩ := lexeme_eq_ok_iff.mp hlexeme
          exact lexeme_eq_ok_iff.mpr ⟨l, hl.append_blank hw more⟩
        simp only [hbehind]
        rcases scan_before_blank rest with ⟨e, he, hrest, hblank⟩ | ⟨ts, hrest, hmore⟩
        · refine Or.inl ⟨e, he, ?_, ?_⟩
          · simp [Except.bind, hrest, Except.map]
          · simp [Except.bind, hblank, Except.map]
        · refine Or.inr ⟨t :: ts, ?_, fun more => ?_⟩
          · rcases hrest with hrest | hrest <;> simp [Except.bind, hrest, Except.map]
          · simp only [Except.bind, hmore]
            cases scan more <;> rfl
      | error e =>
        have hrefuses := lexeme_eq_error_iff.mp hlexeme
        by_cases he : e = .endless
        · subst he
          refine Or.inr ⟨[word (c :: cs)], Or.inr rfl, fun more => ?_⟩
          rw [hrefuses.word_before_blank hw]
          simp only [Except.bind]
          rw [scan, if_pos hw]
          rfl
        · refine Or.inl ⟨e, he, rfl, ?_⟩
          rw [lexeme_eq_error_iff.mpr (hrefuses.append_blank hw he)]
          rfl
termination_by cs.length
decreasing_by all_goals simp_wf <;> omega

end

/-- **Lexing is compositional at blanks.** With a blank behind it a text is read to an end, and to the same one if there
is one without it; and if it is read into tokens, then with anything behind the blank these come first, and what follows
is what is read behind the blank: its tokens, its error, or no end. -/
theorem lex_append_blank (s : String) {w : Char} (hw : isBlank w = true) :
    lex (s.push w) ≠ .error .endless ∧ (lex s ≠ .error .endless → lex (s.push w) = lex s) ∧
      ∀ ts, lex (s.push w) = .ok ts → ∀ t, lex (s.push w ++ t) = (lex t).map (ts ++ ·) := by
  simp only [lex, String.toList_push, String.toList_append, append_assoc, singleton_append]
  rcases scan_before_blank hw s.toList with ⟨e, he, hs, hblank⟩ | ⟨ts, hs, hmore⟩
  · rw [hs, hblank]
    exact ⟨by simpa using he, fun _ => rfl, fun ts h => by cases h⟩
  · have hend : scan (s.toList ++ [w]) = .ok ts := by
      rw [hmore, scan]
      simp [Except.map]
    rw [hend]
    refine ⟨by simp, fun hends => (hs.resolve_right hends).symm, ?_⟩
    rintro ts' ⟨⟩ t
    exact hmore t.toList

/-- A word before a line break, and a text that is not closed behind it. -/
theorem lex_word_then_unclosed_text :
    isBlank '\n' = true ∧ lex ("x1".push '\n') = .ok [⟨"id", .text "x1"⟩] ∧
      lex ("x1".push '\n' ++ "= \"y ") = .error .unclosedText := by
  have hfirst : lex ("x1".push '\n') = .ok [⟨"id", .text "x1"⟩] := by cbv
  have hsecond : lex "= \"y " = .error .unclosedText := by cbv
  refine ⟨rfl, hfirst, ?_⟩
  rw [(lex_append_blank "x1" (w := '\n') rfl).2.2 _ hfirst, hsecond]
  rfl

end Cilly.Token

namespace Cilly

open Grammar

/-! ## Statements behind statements -/

theorem Grammar.Statements.append {ts us : List Token} {ss rs : List Node} (h : Statements ts ss) (h' : Statements us rs) :
    Statements (ts ++ us) (ss ++ rs) := by
  induction ss generalizing ts with
  | nil =>
    cases h
    exact h'
  | cons s ss ih =>
    cases h with
    | cons hs hss =>
      rw [List.append_assoc]
      exact .cons hs (ih hss)

namespace Node

theorem derives_of_parse {ts : List Token} {ss : List Node} (heof : ∀ t ∈ ts, t.tag ≠ "eof")
    (h : parse ts = .ok (.program ss)) : Statements ts ss := by
  unfold parse at h
  cases hprogram : parseProgram ts with
  | error err =>
    rw [hprogram] at h
    cases h
  | ok rs =>
    rw [hprogram] at h
    cases h
    exact parseProgram_sound ts heof hprogram

/-- **Parsing takes tokens one behind the other to statements one behind the other.** -/
theorem parse_append {ts us : List Token} {ss rs : List Node} (hts : ∀ t ∈ ts, t.tag ≠ "eof")
    (hus : ∀ t ∈ us, t.tag ≠ "eof") (h : parse ts = .ok (.program ss)) (h' : parse us = .ok (.program rs)) :
    parse (ts ++ us) = .ok (.program (ss ++ rs)) := by
  have hboth := (derives_of_parse hts h).append (derives_of_parse hus h')
  rw [parse, parseProgram_complete hboth]
  rfl

/-- The tokens of `if (x) y;` and of `(f)(z);`: the parenthesis does not make a call of what stands before it, and the
choice stays without an `else`. -/
theorem parse_choice_then_call :
    parse ([⟨"if", .null⟩, ⟨"(", .null⟩, ⟨"id", .text "x"⟩, ⟨")", .null⟩, ⟨"id", .text "y"⟩, ⟨";", .null⟩] ++
        [⟨"(", .null⟩, ⟨"id", .text "f"⟩, ⟨")", .null⟩, ⟨"(", .null⟩, ⟨"id", .text "z"⟩, ⟨")", .null⟩, ⟨";", .null⟩]) =
      .ok (.program ([.ifThen (.name (.text "x")) (.exprStat (.name (.text "y")))] ++
        [.exprStat (.call (.name (.text "f")) [.name (.text "z")])])) :=
  parse_append (by decide) (by decide) (by cbv) (by cbv)

end Node

end Cilly
