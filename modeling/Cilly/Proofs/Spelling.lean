import Cilly.Token.Lexer

/-!
# Spelling tokens

How a token is written, and that it is read back. A token that has a spelling is what the lexer takes off the front of
its spelling and a blank, whatever stands behind the blank (`lexeme_spelling`); so tokens written one after the other with
a blank between them are read back in their order (`lex_spelled`).
-/

namespace Cilly.Token

open List

variable {b c : Char} {cs rest : List Char} {s : String}

/-! ## Spellings -/

/-- A letter or underscore, then letters, digits and underscores, but no keyword. -/
def isIdentifier (s : String) : Bool :=
  match s.toList with
  | [] => false
  | c :: cs => isNameStart c && cs.all isNamePart && decide (s ∉ keywords)

/-- Operators and the signs that set off the parts of a program. -/
def signs : List String :=
  ["(", ")", "\x7b", "\x7d", ",", ";", "=", "+", "-", "*", "/", "%", "!", "<", ">", "<=", ">=", "==", "!=", "&&", "||"]

/-- Tokens that can be written: names, whole numbers that are not too long, texts without a quotation mark, keywords and
signs. -/
inductive HasSpelling : Token → Prop
  | name {s : String} : isIdentifier s = true → HasSpelling ⟨"id", .text s⟩
  | number {n : Nat} : n < 10 ^ Datum.digitBound → HasSpelling ⟨"num", .int n⟩
  | text {s : String} : '"' ∉ s.toList → HasSpelling ⟨"str", .text s⟩
  | keyword {s : String} : s ∈ keywords → HasSpelling ⟨s, .null⟩
  | sign {s : String} : s ∈ signs → HasSpelling ⟨s, .null⟩

def spelling (t : Token) : String :=
  match t.value with
  | .int i => toString i
  | .text s => if t.tag = "str" then "\"" ++ s ++ "\"" else s
  | _ => t.tag

/-- Tokens with a space between them, and a line break at the end. -/
def spelled (ts : List Token) : String := " ".intercalate (ts.map spelling) ++ "\n"

/-! ## Characters -/

theorem isBlank_iff : isBlank c = true ↔ c = ' ' ∨ c = '\t' ∨ c = '\r' ∨ c = '\n' := by
  simp [isBlank, or_assoc]

/-- Characters that end every token but a text: blanks, and signs that go on no other sign. -/
def isStop (c : Char) : Bool := isBlank c || decide (c ∈ ['(', ')', ',', ';'])

theorem isStop_of_isBlank (h : isBlank c = true) : isStop c = true := by
  rw [isStop, h]
  rfl

theorem isStop_iff :
    isStop c = true ↔ (c = ' ' ∨ c = '\t' ∨ c = '\r' ∨ c = '\n') ∨ c = '(' ∨ c = ')' ∨ c = ',' ∨ c = ';' := by
  simp [isStop, isBlank_iff]

theorem not_isNamePart_of_isStop (h : isStop c = true) : isNamePart c = false := by
  rcases isStop_iff.mp h with (rfl | rfl | rfl | rfl) | rfl | rfl | rfl | rfl <;> decide

theorem not_isDigit_of_isStop (h : isStop c = true) : isDigit c = false := by
  have hpart := not_isNamePart_of_isStop h
  rw [isNamePart, Bool.or_eq_false_iff, Bool.or_eq_false_iff] at hpart
  exact hpart.1.2

theorem not_isDigit_of_isBlank (h : isBlank c = true) : isDigit c = false :=
  not_isDigit_of_isStop (isStop_of_isBlank h)

theorem not_isNamePart_of_isBlank (h : isBlank c = true) : isNamePart c = false :=
  not_isNamePart_of_isStop (isStop_of_isBlank h)

theorem isDigit_iff : isDigit c = true ↔ 48 ≤ c.toNat ∧ c.toNat ≤ 57 := by
  simp [isDigit, Char.le_def, UInt32.le_iff_toNat_le]

theorem not_isBlank_of_isDigit (h : isDigit c = true) : isBlank c = false := by
  cases hblank : isBlank c with
  | false => rfl
  | true => rw [not_isDigit_of_isBlank hblank] at h; cases h

theorem toNat_of_isNameStart (h : isNameStart c = true) : 64 < c.toNat := by
  simp only [isNameStart, isLetter, Bool.or_eq_true, Bool.and_eq_true, decide_eq_true_eq, Char.le_def,
    UInt32.le_iff_toNat_le] at h
  rcases h with rfl | ⟨h, -⟩ | ⟨h, -⟩
  · decide
  · exact Nat.lt_of_lt_of_le (by decide) h
  · exact Nat.lt_of_lt_of_le (by decide) h

theorem not_isDigit_of_isNameStart (h : isNameStart c = true) : isDigit c = false := by
  cases hdigit : isDigit c with
  | false => rfl
  | true =>
    have hlow := (isDigit_iff.mp hdigit).2
    have hhigh := toNat_of_isNameStart h
    omega

theorem ne_quote_of_isNameStart (h : isNameStart c = true) : c ≠ '"' := by
  rintro rfl
  revert h
  decide

theorem not_isBlank_of_isNameStart (h : isNameStart c = true) : isBlank c = false := by
  cases hblank : isBlank c with
  | false => rfl
  | true =>
    rcases isBlank_iff.mp hblank with rfl | rfl | rfl | rfl <;> revert h <;> decide

theorem isNamePart_of_mem_toDigits {b : Nat} (hb : 1 < b) (hb' : b ≤ 16) (n : Nat) : ∀ c ∈ Nat.toDigits b n, isNamePart c = true := by
  have hdigit : ∀ d < 16, isNamePart (Nat.digitChar d) = true := by decide
  induction n using Nat.strongRecOn with
  | ind n ih =>
    rw [Nat.toDigits_eq_if hb]
    split
    · exact forall_mem_singleton.mpr (hdigit n (by omega))
    · have hlast : n % b < b := Nat.mod_lt n (by omega)
      exact forall_mem_append.mpr
        ⟨ih _ (Nat.div_lt_self (by omega) hb), forall_mem_singleton.mpr (hdigit _ (by omega))⟩

/-! ## Reading one token -/

/-- A run of characters with a property ends where the text ends or goes on with one that does not have it. -/
theorem takeWhile_run {p : Char → Bool} (hcs : ∀ x ∈ cs, p x = true)
    (hrest : ∀ b ∈ rest.head?, p b = false) : (cs ++ rest).takeWhile p = cs ∧ (cs ++ rest).dropWhile p = rest := by
  rw [takeWhile_append_of_pos hcs, dropWhile_append_of_pos hcs]
  cases rest with
  | nil => exact ⟨append_nil cs, rfl⟩
  | cons b rest =>
    have hneg : ¬ p b = true := by rw [hrest b rfl]; decide
    rw [takeWhile_cons_of_neg hneg, dropWhile_cons_of_neg hneg]
    exact ⟨append_nil cs, rfl⟩

theorem lexeme_word (hc : isNameStart c = true) (hcs : ∀ x ∈ cs, isNamePart x = true)
    (hrest : ∀ b ∈ rest.head?, isNamePart b = false) (hne : rest ≠ []) :
    lexeme c (cs ++ rest) = .ok (word (c :: cs), rest) := by
  obtain ⟨htake, hdrop⟩ := takeWhile_run hcs hrest
  rw [lexeme, if_neg (by rw [not_isDigit_of_isNameStart hc]; decide), if_neg (ne_quote_of_isNameStart hc), if_pos hc, hdrop,
    htake]
  split
  · exact absurd rfl hne
  · rfl

theorem lexeme_digits (hdigits : ∀ d ∈ c :: cs, isDigit d = true)
    (hlength : (c :: cs).length ≤ Datum.digitBound) (hrest : ∀ b ∈ rest.head?, isDigit b = false ∧ b ≠ '.') :
    lexeme c (cs ++ rest) = .ok (⟨"num", .int (Numeral.digitsValue (c :: cs))⟩, rest) := by
  obtain ⟨hc, hcs⟩ := forall_mem_cons.mp hdigits
  obtain ⟨htake, hdrop⟩ := takeWhile_run hcs (fun b hb => (hrest b hb).1)
  rw [lexeme, if_pos hc]
  dsimp only
  rw [hdrop, htake, wholeNumber, if_neg (Nat.not_lt.mpr hlength)]
  split
  · exact absurd rfl (hrest '.' rfl).2
  · rfl

/-- The digits of a number are read as that number, up to what is no digit and no point. -/
theorem lexeme_number {n : Nat} (hn : n < 10 ^ Datum.digitBound)
    (hspelled : (toString n).toList = c :: cs) (hrest : ∀ b ∈ rest.head?, isDigit b = false ∧ b ≠ '.') :
    isDigit c = true ∧ lexeme c (cs ++ rest) = .ok (⟨"num", .int n⟩, rest) := by
  rw [Nat.toString_eq_ofList_toDigits, String.toList_ofList] at hspelled
  have hdigits : ∀ d ∈ c :: cs, isDigit d = true := by
    intro d hd
    rw [← hspelled] at hd
    have hdigit := Nat.isDigit_of_mem_toDigits (by decide) (by decide) hd
    simpa [isDigit_iff, Char.isDigit, UInt32.le_iff_toNat_le] using hdigit
  have hlength : (c :: cs).length ≤ Datum.digitBound := by
    have hpos : 0 < Datum.digitBound := by decide
    rw [← hspelled]
    -- The power is never to be evaluated.
    generalize Datum.digitBound = k at hn hpos ⊢
    exact (Nat.length_toDigits_le_iff (by decide) hpos).mpr hn
  have hvalue : Numeral.digitsValue (c :: cs) = n := by
    rw [← hspelled]
    exact Nat.ofDigitChars_ten_toDigits
  refine ⟨hdigits c (mem_cons_self ..), ?_⟩
  rw [lexeme_digits hdigits hlength hrest, hvalue]

theorem exists_cons_of_number (n : Nat) : ∃ c cs, (toString n).toList = c :: cs := by
  refine exists_cons_of_ne_nil ?_
  rw [Nat.toString_eq_ofList_toDigits, String.toList_ofList]
  exact Nat.toDigits_ne_nil

theorem lexeme_text (hs : '"' ∉ s.toList) (rest : List Char) :
    lexeme '"' (s.toList ++ '"' :: rest) = .ok (⟨"str", .text s⟩, rest) := by
  have hrun : ∀ x ∈ s.toList, decide (x ≠ '"') = true := by
    intro x hx
    refine decide_eq_true ?_
    rintro rfl
    exact hs hx
  have hend : ∀ b ∈ ('"' :: rest).head?, decide (b ≠ '"') = false := by
    rintro b ⟨⟩
    decide
  obtain ⟨htake, hdrop⟩ := takeWhile_run hrun hend
  rw [lexeme, if_neg (by decide), if_pos rfl, hdrop, htake, String.ofList_toList]

theorem lexeme_sign (hs : s ∈ signs) (hb : isStop b = true) (rest : List Char) :
    ∃ c cs, s.toList = c :: cs ∧ isBlank c = false ∧ lexeme c (cs ++ b :: rest) = .ok (⟨s, .null⟩, b :: rest) := by
  simp only [signs, mem_cons, not_mem_nil, or_false] at hs
  rcases isStop_iff.mp hb with (rfl | rfl | rfl | rfl) | rfl | rfl | rfl | rfl
  all_goals
    rcases hs with rfl | rfl | rfl | rfl | rfl | rfl | rfl | rfl | rfl | rfl | rfl | rfl | rfl | rfl | rfl | rfl | rfl |
      rfl | rfl | rfl | rfl <;> exact ⟨_, _, rfl, rfl, rfl⟩

theorem word_of_isIdentifier (h : isIdentifier s = true) :
    ∃ c cs, s.toList = c :: cs ∧ isNameStart c = true ∧ cs.all isNamePart = true ∧ word (c :: cs) = ⟨"id", .text s⟩ := by
  unfold isIdentifier at h
  split at h
  · cases h
  · rename_i c cs hs
    rw [Bool.and_eq_true, Bool.and_eq_true, decide_eq_true_eq] at h
    refine ⟨c, cs, hs, h.1.1, h.1.2, ?_⟩
    rw [word, ← hs, String.ofList_toList, if_neg h.2]

theorem word_of_keyword (h : s ∈ keywords) :
    ∃ c cs, s.toList = c :: cs ∧ isNameStart c = true ∧ cs.all isNamePart = true ∧ word (c :: cs) = ⟨s, .null⟩ := by
  have hletters : ∃ c cs, s.toList = c :: cs ∧ isNameStart c = true ∧ cs.all isNamePart = true := by
    simp only [keywords, mem_cons, not_mem_nil, or_false] at h
    rcases h with rfl | rfl | rfl | rfl | rfl | rfl | rfl | rfl | rfl | rfl | rfl | rfl | rfl <;>
      exact ⟨_, _, rfl, by decide, by decide⟩
  obtain ⟨c, cs, hs, hc, hcs⟩ := hletters
  refine ⟨c, cs, hs, hc, hcs, ?_⟩
  rw [word, ← hs, String.ofList_toList, if_pos h]

/-- What has a spelling is what is read off the front of it, up to where it stops. -/
theorem lexeme_spelling {t : Token} (h : t.HasSpelling) (hb : isStop b = true) (rest : List Char) :
    ∃ c cs, t.spelling.toList = c :: cs ∧ isBlank c = false ∧ lexeme c (cs ++ b :: rest) = .ok (t, b :: rest) := by
  have hend : ∀ x ∈ (b :: rest).head?, isNamePart x = false := by
    rintro x ⟨⟩
    exact not_isNamePart_of_isStop hb
  cases h with
  | name hs =>
    obtain ⟨c, cs, hspelled, hc, hcs, hword⟩ := word_of_isIdentifier hs
    have hlexeme := lexeme_word hc (all_eq_true.mp hcs) hend (cons_ne_nil b rest)
    exact ⟨c, cs, hspelled, not_isBlank_of_isNameStart hc, hword ▸ hlexeme⟩
  | keyword hs =>
    obtain ⟨c, cs, hspelled, hc, hcs, hword⟩ := word_of_keyword hs
    have hlexeme := lexeme_word hc (all_eq_true.mp hcs) hend (cons_ne_nil b rest)
    exact ⟨c, cs, hspelled, not_isBlank_of_isNameStart hc, hword ▸ hlexeme⟩
  | sign hs => exact lexeme_sign hs hb rest
  | @text s hs =>
    refine ⟨'"', s.toList ++ ['"'], ?_, by decide, ?_⟩
    · simp [spelling]
    · rw [append_assoc]
      exact lexeme_text hs (b :: rest)
  | @number n hn =>
    have hdigits : ∀ x ∈ (b :: rest).head?, isDigit x = false ∧ x ≠ '.' := by
      rintro x ⟨⟩
      refine ⟨not_isDigit_of_isStop hb, ?_⟩
      rintro rfl
      revert hb
      decide
    obtain ⟨c, cs, hspelled⟩ := exists_cons_of_number n
    obtain ⟨hc, hlexeme⟩ := lexeme_number hn hspelled hdigits
    exact ⟨c, cs, hspelled, not_isBlank_of_isDigit hc, hlexeme⟩

/-! ## Reading all tokens -/

theorem scan_blank (hb : isBlank b = true) (rest : List Char) : scan (b :: rest) = scan rest := by
  rw [scan, if_pos hb]

theorem scan_spelling {t : Token} (h : t.HasSpelling) (hb : isStop b = true)
    {ts : List Token} (hrest : scan (b :: rest) = .ok ts) : scan (t.spelling.toList ++ b :: rest) = .ok (t :: ts) := by
  obtain ⟨c, cs, hspelled, hc, hlexeme⟩ := lexeme_spelling h hb rest
  rw [hspelled, cons_append, scan, if_neg (by rw [hc]; decide)]
  split
  · rename_i heq
    cases hlexeme.symm.trans heq
  · rename_i heq
    cases hlexeme.symm.trans heq
    rw [hrest]

theorem lex_spelled {ts : List Token} (h : ∀ t ∈ ts, t.HasSpelling) : lex (spelled ts) = .ok ts := by
  have hend : scan [] = .ok [] := by rw [scan]
  rw [lex, spelled, String.toList_append, String.toList_intercalate, map_map]
  induction ts with
  | nil =>
    exact (scan_blank (by decide) []).trans hend
  | cons t ts ih =>
    obtain ⟨ht, hts⟩ := forall_mem_cons.mp h
    cases ts with
    | nil =>
      rw [map_singleton, intercalate_singleton]
      exact scan_spelling ht (b := '\n') (by decide) ((scan_blank (by decide) []).trans hend)
    | cons u ts =>
      rw [map_cons, map_cons, intercalate_cons_cons, append_assoc, append_assoc]
      exact scan_spelling ht (by decide) ((scan_blank (by decide) _).trans (ih hts))

end Cilly.Token
