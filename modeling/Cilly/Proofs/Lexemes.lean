import Cilly.Proofs.Spelling

/-!
# Texts as sequences of lexemes

What the lexemes are is said here without the lexer: whole numbers, numbers with a point, texts between quotation marks,
words and operators (`Lexeme`), each with its characters and its token. A lexeme in front of a text is the longest there
if no other lexeme that the text starts with has more characters (`IsLongest`).

A longest lexeme is one that the next character does not continue (`isLongest_iff`), and that is what the lexer looks
at: it takes off the longest lexeme and nothing else (`lexeme_eq_ok_iff`). So a text has the tokens of the longest lexemes,
with blanks between them, that it consists of, and no other tokens (`lex_eq_ok_iff`).
-/

namespace Cilly.Token

open List

/-! ## Lexemes -/

/-- The signs of the grammar, and the two characters that only make signs when doubled. -/
def operators : List String := signs ++ ["&", "|"]

/-- Characters that make one token. -/
inductive Lexeme where
  | whole (digits : List Char) (some : digits ≠ []) (all : ∀ d ∈ digits, isDigit d = true)
  /-- There need not be digits behind the point. -/
  | point (digits places : List Char) (some : digits ≠ []) (all : ∀ d ∈ digits, isDigit d = true)
    (after : ∀ d ∈ places, isDigit d = true)
  | text (inside : List Char) (unquoted : '"' ∉ inside)
  | word (c : Char) (cs : List Char) (start : isNameStart c = true) (parts : ∀ x ∈ cs, isNamePart x = true)
  | operator (s : String) (listed : s ∈ operators)

namespace Lexeme

def chars : Lexeme → List Char
  | whole digits _ _ => digits
  | point digits places _ _ _ => digits ++ '.' :: places
  | text inside _ => '"' :: (inside ++ ['"'])
  | word c cs _ _ => c :: cs
  | operator s _ => s.toList

/-- The token of a lexeme; a whole number of too many digits has none. -/
def token? : Lexeme → Option Token
  | whole digits _ _ =>
    if digits.length ≤ Datum.digitBound then some ⟨"num", .int (Numeral.digitsValue digits)⟩ else none
  | point digits places _ _ _ => some (pointNumber digits places)
  | text inside _ => some ⟨"str", .text (String.ofList inside)⟩
  | word c cs _ _ =>
    let s := String.ofList (c :: cs)
    some (if s ∈ keywords then ⟨s, .null⟩ else ⟨"id", .text s⟩)
  | operator s _ => some ⟨s, .null⟩

/-- No lexeme that the text starts with is longer than the one in front of it. -/
def IsLongest (l : Lexeme) (rest : List Char) : Prop :=
  ∀ other : Lexeme, other.chars <+: l.chars ++ rest → other.chars.length ≤ l.chars.length

/-! ## Kinds of lexemes -/

inductive Kind where
  | number
  | text
  | word
  | operator
  deriving DecidableEq

def kind : Lexeme → Kind
  | whole _ _ _ | point _ _ _ _ _ => .number
  | text _ _ => .text
  | word _ _ _ _ => .word
  | operator _ _ => .operator

/-- The only kind that lexemes with this first character have. -/
def Kind.ofStart (c : Char) : Kind :=
  if isDigit c then .number else if c = '"' then .text else if isNameStart c then .word else .operator

theorem Kind.of_ofStart_eq_operator {c : Char} (h : Kind.ofStart c = .operator) :
    ¬ isDigit c = true ∧ c ≠ '"' ∧ ¬ isNameStart c = true := by
  unfold Kind.ofStart at h
  split at h
  · cases h
  · rename_i hdigit
    split at h
    · cases h
    · rename_i hquote
      split at h
      · cases h
      · rename_i hname
        exact ⟨hdigit, hquote, hname⟩

theorem mem_operators_of_mem_singles {c : Char} (h : c ∈ singles) : c.toString ∈ operators := by
  simp only [singles, mem_cons, not_mem_nil, or_false] at h
  rcases h with rfl | rfl | rfl | rfl | rfl | rfl | rfl | rfl | rfl | rfl | rfl <;> decide

theorem second?_of_mem_singles {c : Char} (h : c ∈ singles) : second? c = none := by
  simp only [singles, mem_cons, not_mem_nil, or_false] at h
  rcases h with rfl | rfl | rfl | rfl | rfl | rfl | rfl | rfl | rfl | rfl | rfl <;> decide

theorem mem_operators_of_second? {c d : Char} (h : second? c = some d) :
    c.toString ∈ operators ∧ String.ofList [c, d] ∈ operators := by
  unfold second? at h
  split at h <;> cases h <;> decide

/-- An operator is a character that stands alone, or one and its second character. -/
theorem operator_cases {s : String} (h : s ∈ operators) :
    ∃ c, Kind.ofStart c = .operator ∧ isBlank c = false ∧
      (s.toList = [c] ∧ (c ∈ singles ∨ (second? c).isSome) ∨ ∃ d, s.toList = [c, d] ∧ second? c = some d) := by
  have hall : (operators.all fun s => s.toList.head?.any fun c => Kind.ofStart c = .operator ∧ isBlank c = false ∧
      (s.toList.tail = [] ∧ (c ∈ singles ∨ (second? c).isSome) ∨
        s.toList.tail.length = 1 ∧ second? c = s.toList.tail.head?)) = true := by decide
  have hs := all_eq_true.mp hall s h
  cases hchars : s.toList with
  | nil =>
    rw [hchars] at hs
    cases hs
  | cons c rest =>
    rw [hchars] at hs
    obtain ⟨hkind, hblank, ⟨rfl, halone⟩ | ⟨hone, hsecond⟩⟩ := of_decide_eq_true hs
    · exact ⟨c, hkind, hblank, Or.inl ⟨rfl, halone⟩⟩
    · obtain ⟨d, rfl⟩ := length_eq_one_iff.mp hone
      exact ⟨c, hkind, hblank, Or.inr ⟨d, rfl, hsecond⟩⟩

theorem exists_chars (l : Lexeme) : ∃ c cs, l.chars = c :: cs ∧ l.kind = Kind.ofStart c ∧ isBlank c = false := by
  cases l with
  | whole digits hne hall =>
    obtain ⟨d, ds, rfl⟩ := exists_cons_of_ne_nil hne
    have hd := hall d (mem_cons_self ..)
    exact ⟨d, ds, rfl, (if_pos hd).symm, not_isBlank_of_isDigit hd⟩
  | point digits places hne hall _ =>
    obtain ⟨d, ds, rfl⟩ := exists_cons_of_ne_nil hne
    have hd := hall d (mem_cons_self ..)
    exact ⟨d, ds ++ '.' :: places, rfl, (if_pos hd).symm, not_isBlank_of_isDigit hd⟩
  | text inside _ => exact ⟨'"', inside ++ ['"'], rfl, rfl, rfl⟩
  | word c cs hstart _ =>
    refine ⟨c, cs, rfl, ?_, not_isBlank_of_isNameStart hstart⟩
    rw [Kind.ofStart, if_neg (by rw [not_isDigit_of_isNameStart hstart]; decide), if_neg (ne_quote_of_isNameStart hstart),
      if_pos hstart, kind]
  | operator s hs =>
    obtain ⟨c, hkind, hblank, ⟨hchars, -⟩ | ⟨d, hchars, -⟩⟩ := operator_cases hs
    · exact ⟨c, [], hchars, hkind.symm, hblank⟩
    · exact ⟨c, [d], hchars, hkind.symm, hblank⟩

theorem kind_eq_of_append_eq {l other : Lexeme} {xs ys : List Char} (h : l.chars ++ xs = other.chars ++ ys) :
    l.kind = other.kind := by
  obtain ⟨c, cs, hc, hkind, -⟩ := l.exists_chars
  obtain ⟨d, ds, hd, hother, -⟩ := other.exists_chars
  rw [hc, hd] at h
  rw [hkind, hother, (List.cons.inj h).1]

/-! ## The next character -/

/-- Where the runs in front of two equal texts end, the texts go on alike. -/
theorem rest_eq_of_runs {p : Char → Bool} {xs ys xs' ys' : List Char} {b c : Char} (h : xs ++ b :: xs' = ys ++ c :: ys')
    (hxs : ∀ x ∈ xs, p x = true) (hys : ∀ y ∈ ys, p y = true) (hb : p b = false) (hc : p c = false) : xs' = ys' := by
  have hdrop : ∀ {zs zs' : List Char} {z : Char}, (∀ x ∈ zs, p x = true) → p z = false →
      (zs ++ z :: zs').dropWhile p = z :: zs' := by
    intro zs zs' z hzs hz
    refine (takeWhile_run hzs ?_).2
    rintro x ⟨⟩
    exact hz
  have hrest : b :: xs' = c :: ys' := by
    rw [← hdrop hxs hb, h, hdrop hys hc]
  exact (List.cons.inj hrest).2

theorem unquoted_iff {cs : List Char} : '"' ∉ cs ↔ ∀ x ∈ cs, decide (x ≠ '"') = true := by
  constructor
  · intro h x hx
    refine decide_eq_true ?_
    rintro rfl
    exact h hx
  · intro h hmem
    exact absurd (h _ hmem) (by decide)

/-- Whether a lexeme with the character behind it is the start of a longer one. -/
def Continues : Lexeme → Char → Prop
  | whole _ _ _, b => isDigit b = true ∨ b = '.'
  | point _ _ _ _ _, b => isDigit b = true
  | text _ _, _ => False
  | word _ _ _ _, b => isNamePart b = true
  | operator s _, b => s.push b ∈ operators

theorem exists_of_continues {l : Lexeme} {b : Char} (h : l.Continues b) :
    ∃ longer : Lexeme, longer.chars = l.chars ++ [b] := by
  cases l with
  | whole digits hne hall =>
    rcases h with hdigit | rfl
    · refine ⟨.whole (digits ++ [b]) (by simp) ?_, rfl⟩
      intro d hd
      rcases mem_append.mp hd with hd | hd
      · exact hall d hd
      · rwa [mem_singleton.mp hd]
    · exact ⟨.point digits [] hne hall (by simp), rfl⟩
  | point digits places hne hall hafter =>
    refine ⟨.point digits (places ++ [b]) hne hall ?_, by simp [chars]⟩
    intro d hd
    rcases mem_append.mp hd with hd | hd
    · exact hafter d hd
    · rwa [mem_singleton.mp hd]
  | text inside _ => exact absurd h id
  | word c cs hstart hparts =>
    refine ⟨.word c (cs ++ [b]) hstart ?_, rfl⟩
    intro x hx
    rcases mem_append.mp hx with hx | hx
    · exact hparts x hx
    · rwa [mem_singleton.mp hx]
  | operator s _ => exact ⟨.operator (s.push b) h, String.toList_push b⟩

/-- A lexeme that goes on behind another continues it with its next character. -/
theorem continues_of_chars_eq {l longer : Lexeme} {b : Char} {more : List Char}
    (h : longer.chars = l.chars ++ b :: more) : l.Continues b := by
  have hkind : longer.kind = l.kind := kind_eq_of_append_eq ((append_nil _).trans h)
  have hb : b ∈ longer.chars := by simp [h]
  cases l with
  | whole digits hne hall =>
    cases longer with
    | whole digits' _ hall' => exact .inl (hall' b hb)
    | point digits' places' _ hall' hafter' =>
      rcases mem_append.mp hb with hb | hb
      · exact .inl (hall' b hb)
      · rcases mem_cons.mp hb with rfl | hb
        · exact .inr rfl
        · exact .inl (hafter' b hb)
    | _ => cases hkind
  | point digits places hne hall hafter =>
    cases longer with
    | whole digits' _ hdigits =>
      have hpoint : '.' ∈ digits' := by
        rw [show digits' = _ from h]
        simp [chars]
      exact absurd (hdigits '.' hpoint) (by decide)
    | point digits' places' _ hall' hafter' =>
      -- Both stop being digits at the point, so the places of the one go on behind those of the other.
      have hsplit : digits' ++ '.' :: places' = digits ++ '.' :: (places ++ b :: more) := by
        simpa [chars] using h
      have hplaces : places' = places ++ b :: more := rest_eq_of_runs hsplit hall' hall (by decide) (by decide)
      refine hafter' b ?_
      rw [hplaces]
      simp
    | _ => cases hkind
  | text inside hinside =>
    cases longer with
    | text inside' hinside' =>
      have hsplit : inside' ++ '"' :: [] = inside ++ '"' :: b :: more := by
        simpa [chars] using h
      cases rest_eq_of_runs hsplit (unquoted_iff.mp hinside') (unquoted_iff.mp hinside) (by decide) (by decide)
    | _ => cases hkind
  | word c cs hstart hparts =>
    cases longer with
    | word c' cs' hstart' hparts' =>
      refine hparts' b ?_
      rw [(List.cons.inj h).2]
      simp
    | _ => cases hkind
  | operator s hs =>
    cases longer with
    | operator s' hs' =>
      obtain ⟨c, cs, hchars, -⟩ := (operator s hs).exists_chars
      have hlength : s'.toList.length ≤ 2 := by
        obtain ⟨c, -, -, ⟨hone, -⟩ | ⟨d, htwo, -⟩⟩ := operator_cases hs'
        · simp [hone]
        · simp [htwo]
      have hmore : more = [] := by
        rw [show s'.toList = _ from h, hchars, length_append, length_cons, length_cons] at hlength
        exact length_eq_zero_iff.mp (by omega)
      have hs'eq : s' = s.push b := by
        apply String.toList_inj.mp
        rw [String.toList_push, show s'.toList = _ from h, hmore]
        rfl
      rwa [hs'eq] at hs'
    | _ => cases hkind

/-- A lexeme is the longest where the text ends behind it or goes on with a character that does not continue it. -/
theorem isLongest_iff {l : Lexeme} {rest : List Char} : l.IsLongest rest ↔ ∀ b ∈ rest.head?, ¬ l.Continues b := by
  constructor
  · intro hlongest b hb hcontinues
    obtain ⟨longer, hlonger⟩ := exists_of_continues hcontinues
    obtain ⟨rest', rfl⟩ : ∃ rest', rest = b :: rest' := by
      cases rest with
      | nil => cases hb
      | cons _ rest' => cases hb; exact ⟨rest', rfl⟩
    have hle := hlongest longer ⟨rest', by rw [hlonger, append_assoc]; rfl⟩
    rw [hlonger, length_append, length_singleton] at hle
    omega
  · intro hends other hother
    refine Nat.le_of_not_lt fun hlt => ?_
    obtain ⟨more, hmore⟩ : l.chars <+: other.chars :=
      prefix_of_prefix_length_le (prefix_append ..) hother (by omega)
    cases more with
    | nil => rw [← hmore, append_nil] at hlt; omega
    | cons b more =>
      -- The text goes on behind the shorter lexeme as the longer one does.
      obtain ⟨rest', hrest'⟩ := hother
      rw [← hmore, append_assoc] at hrest'
      have hrest : rest = b :: (more ++ rest') := (append_cancel_left hrest').symm
      exact hends b (by rw [hrest]; rfl) (continues_of_chars_eq hmore.symm)

end Lexeme

/-! ## Reading one lexeme -/

open Lexeme

theorem head?_dropWhile {p : Char → Bool} (cs : List Char) : ∀ b ∈ (cs.dropWhile p).head?, p b = false := by
  intro b hb
  have hne : cs.dropWhile p ≠ [] := by
    rintro hnil
    rw [hnil] at hb
    cases hb
  have hhead := head_dropWhile_not p hne
  rw [head?_eq_some_head hne] at hb
  cases hb
  exact hhead

/-- A lexeme is what is to be read off the front of a text: it is the longest there, it has the token, and a word has
something behind it. -/
structure Heads (l : Lexeme) (cs : List Char) (t : Token) (rest : List Char) : Prop where
  text : l.chars ++ rest = cs
  longest : l.IsLongest rest
  token : l.token? = some t
  ended : l.kind = .word → rest ≠ []

theorem heads_of_digit {c : Char} {cs rest : List Char} {t : Token} (hc : isDigit c = true)
    (h : lexeme c cs = .ok (t, rest)) : ∃ l, Heads l (c :: cs) t rest := by
  have hall : ∀ d ∈ c :: cs.takeWhile isDigit, isDigit d = true :=
    forall_mem_cons.mpr ⟨hc, all_eq_true.mp all_takeWhile⟩
  have hsplit : cs.takeWhile isDigit ++ cs.dropWhile isDigit = cs := takeWhile_append_dropWhile
  rw [lexeme, if_pos hc] at h
  dsimp only at h
  split at h
  · rename_i rest' hpoint
    cases h
    refine ⟨.point (c :: cs.takeWhile isDigit) (rest'.takeWhile isDigit) (by simp) hall
        (all_eq_true.mp all_takeWhile),
      ⟨?_, isLongest_iff.mpr ?_, rfl, by simp [kind]⟩⟩
    · simp only [chars, cons_append, append_assoc, takeWhile_append_dropWhile]
      rw [← hpoint, hsplit]
    · intro b hb
      simp [Continues, head?_dropWhile rest' b hb]
  · rename_i hpoint
    cases hnumber : wholeNumber (c :: cs.takeWhile isDigit) with
    | error e => rw [hnumber] at h; cases h
    | ok number =>
      rw [hnumber] at h
      cases h
      refine ⟨.whole (c :: cs.takeWhile isDigit) (by simp) hall, ⟨?_, isLongest_iff.mpr ?_, ?_, by simp [kind]⟩⟩
      · rw [chars, cons_append, hsplit]
      · intro b hb
        simp only [Continues, head?_dropWhile cs b hb, Bool.false_eq_true, false_or]
        rintro rfl
        cases hdrop : cs.dropWhile isDigit with
        | nil => rw [hdrop] at hb; cases hb
        | cons x xs => rw [hdrop] at hb; cases hb; exact hpoint xs hdrop
      · unfold wholeNumber at hnumber
        split at hnumber
        · cases hnumber
        · rename_i hbound
          cases hnumber
          exact if_pos (Nat.le_of_not_lt hbound)

theorem heads_of_quote {cs rest : List Char} {t : Token} (h : lexeme '"' cs = .ok (t, rest)) :
    ∃ l, Heads l ('"' :: cs) t rest := by
  rw [lexeme, if_neg (by decide), if_pos rfl] at h
  split at h
  · cases h
  · rename_i q rest' hdrop
    cases h
    have hq : q = '"' := by
      have hends := head?_dropWhile (p := fun x => decide (x ≠ '"')) cs q (by rw [hdrop]; rfl)
      simpa using hends
    refine ⟨.text (cs.takeWhile (· ≠ '"')) (unquoted_iff.mpr (all_eq_true.mp all_takeWhile)),
      ⟨?_, isLongest_iff.mpr fun _ _ => id, rfl, by simp [kind]⟩⟩
    have hsplit : cs.takeWhile (· ≠ '"') ++ cs.dropWhile (· ≠ '"') = cs := takeWhile_append_dropWhile
    rw [hdrop, hq] at hsplit
    simpa [chars] using hsplit

theorem heads_of_nameStart {c : Char} {cs rest : List Char} {t : Token} (hc : isNameStart c = true)
    (h : lexeme c cs = .ok (t, rest)) : ∃ l, Heads l (c :: cs) t rest := by
  rw [lexeme, if_neg (by rw [not_isDigit_of_isNameStart hc]; decide), if_neg (ne_quote_of_isNameStart hc), if_pos hc] at h
  split at h
  · cases h
  · rename_i hne
    cases h
    refine ⟨.word c (cs.takeWhile isNamePart) hc (all_eq_true.mp all_takeWhile),
      ⟨?_, isLongest_iff.mpr ?_, rfl, ?_⟩⟩
    · simp [chars]
    · intro b hb
      simp [Continues, head?_dropWhile cs b hb]
    · intro _ hnil
      exact hne hnil

theorem push_mem_operators_iff {c b : Char} : c.toString.push b ∈ operators ↔ second? c = some b := by
  have hchars : (c.toString.push b).toList = [c, b] := by simp
  constructor
  · intro h
    obtain ⟨c', -, -, ⟨hone, -⟩ | ⟨d, htwo, hsecond⟩⟩ := operator_cases h
    · rw [hchars] at hone
      cases hone
    · rw [hchars] at htwo
      cases htwo
      exact hsecond
  · intro h
    have hmem := (mem_operators_of_second? h).2
    rwa [← hchars, String.ofList_toList] at hmem

theorem heads_of_other {c : Char} {cs rest : List Char} {t : Token} (hdigit : ¬ isDigit c = true) (hquote : c ≠ '"')
    (hname : ¬ isNameStart c = true) (h : lexeme c cs = .ok (t, rest)) : ∃ l, Heads l (c :: cs) t rest := by
  rw [lexeme, if_neg hdigit, if_neg hquote, if_neg hname] at h
  split at h
  · rename_i hsingle
    cases h
    refine ⟨.operator c.toString (mem_operators_of_mem_singles hsingle),
      ⟨by simp [chars], isLongest_iff.mpr ?_, rfl, by simp [kind]⟩⟩
    intro b _ hcontinues
    have hsecond := push_mem_operators_iff.mp hcontinues
    rw [second?_of_mem_singles hsingle] at hsecond
    cases hsecond
  · split at h
    · cases h
    · rename_i d hsecond
      obtain ⟨hone, htwo⟩ := mem_operators_of_second? hsecond
      -- Alone, the character is the longest lexeme if its second one is not next.
      have halone : (∀ b ∈ cs.head?, b ≠ d) → ∃ l, Heads l (c :: cs) ⟨c.toString, .null⟩ cs := by
        intro hother
        refine ⟨.operator c.toString hone, ⟨by simp [chars], isLongest_iff.mpr ?_, rfl, by simp [kind]⟩⟩
        intro b hb hcontinues
        have hsame := hsecond.symm.trans (push_mem_operators_iff.mp hcontinues)
        exact hother b hb (Option.some.inj hsame).symm
      split at h
      · rename_i c' rest'
        split at h
        · rename_i heq
          cases h
          subst heq
          refine ⟨.operator (String.ofList [c, c']) htwo, ⟨by simp [chars], isLongest_iff.mpr ?_, rfl, by simp [kind]⟩⟩
          intro b _ hcontinues
          obtain ⟨x, -, -, ⟨hlong, -⟩ | ⟨y, hlong, -⟩⟩ := operator_cases hcontinues
          · simp at hlong
          · simp at hlong
        · rename_i hne
          cases h
          apply halone
          rintro b ⟨⟩
          exact hne
      · cases h
        apply halone
        rintro b ⟨⟩

theorem lexeme_point {c : Char} {cs places rest : List Char} (hdigits : ∀ d ∈ c :: cs, isDigit d = true)
    (hplaces : ∀ d ∈ places, isDigit d = true) (hrest : ∀ b ∈ rest.head?, isDigit b = false) :
    lexeme c (cs ++ '.' :: (places ++ rest)) = .ok (pointNumber (c :: cs) places, rest) := by
  obtain ⟨hc, hcs⟩ := forall_mem_cons.mp hdigits
  have hpoint : ∀ b ∈ ('.' :: (places ++ rest)).head?, isDigit b = false := by
    rintro b ⟨⟩
    decide
  obtain ⟨htake, hdrop⟩ := takeWhile_run hcs hpoint
  obtain ⟨htake', hdrop'⟩ := takeWhile_run hplaces hrest
  rw [lexeme, if_pos hc]
  dsimp only
  rw [hdrop, htake]
  show Except.ok (pointNumber _ ((places ++ rest).takeWhile isDigit), (places ++ rest).dropWhile isDigit) = _
  rw [htake', hdrop']

theorem Heads.lexeme_eq {l : Lexeme} {c : Char} {cs rest : List Char} {t : Token} (h : Heads l (c :: cs) t rest) :
    lexeme c cs = .ok (t, rest) := by
  obtain ⟨htext, hlongest, htoken, hended⟩ := h
  have hends := isLongest_iff.mp hlongest
  cases l with
  | whole digits hne hall =>
    obtain ⟨d, ds, rfl⟩ := exists_cons_of_ne_nil hne
    cases htext
    simp only [token?] at htoken
    split at htoken
    · rename_i hbound
      cases htoken
      refine lexeme_digits hall hbound ?_
      intro b hb
      have hstop := hends b hb
      simp only [Continues, not_or, Bool.not_eq_true] at hstop
      exact hstop
    · cases htoken
  | point digits places hne hall hafter =>
    obtain ⟨d, ds, rfl⟩ := exists_cons_of_ne_nil hne
    have htail : cs = ds ++ '.' :: (places ++ rest) := by
      rw [chars, append_assoc] at htext
      exact (List.cons.inj htext).2.symm
    cases (List.cons.inj htext).1
    cases htoken
    rw [htail]
    exact lexeme_point hall hafter fun b hb => Bool.eq_false_iff.mpr (hends b hb)
  | text inside hinside =>
    cases htoken
    have htail : cs = inside ++ '"' :: rest := by
      simpa [chars] using (List.cons.inj htext).2.symm
    cases (List.cons.inj htext).1
    have hlexeme := lexeme_text (s := String.ofList inside) (by rwa [String.toList_ofList]) rest
    rwa [String.toList_ofList, ← htail] at hlexeme
  | word x xs hstart hparts =>
    cases htoken
    cases htext
    refine lexeme_word hstart hparts ?_ (hended rfl)
    intro b hb
    exact Bool.eq_false_iff.mpr (hends b hb)
  | operator s hs =>
    cases htoken
    obtain ⟨x, hkind, -, ⟨hone, halone⟩ | ⟨d, htwo, hsecond⟩⟩ := operator_cases hs
    · obtain ⟨hdigit, hquote, hname⟩ := Kind.of_ofStart_eq_operator hkind
      obtain rfl : s = x.toString := String.toList_inj.mp (by rw [hone]; simp)
      obtain ⟨rfl, rfl⟩ : x = c ∧ rest = cs := by
        simpa [chars] using htext
      rw [lexeme, if_neg hdigit, if_neg hquote, if_neg hname]
      split
      · rfl
      · rename_i hsingle
        obtain ⟨d, hsecond⟩ := Option.isSome_iff_exists.mp (halone.resolve_left hsingle)
        rw [hsecond]
        dsimp only
        split
        · rename_i b rest'
          refine if_neg ?_
          rintro rfl
          exact hends b rfl (push_mem_operators_iff.mpr hsecond)
        · rfl
    · obtain ⟨hdigit, hquote, hname⟩ := Kind.of_ofStart_eq_operator hkind
      obtain rfl : s = String.ofList [x, d] := String.toList_inj.mp (by rw [htwo, String.toList_ofList])
      have hsingle : x ∉ singles := by
        intro hmem
        rw [second?_of_mem_singles hmem] at hsecond
        cases hsecond
      rw [chars, htwo] at htext
      cases htext
      rw [lexeme, if_neg hdigit, if_neg hquote, if_neg hname, if_neg hsingle, hsecond]
      exact if_pos rfl

/-- **The lexer takes off the longest lexeme.** What is read off the front of a text is the token of the longest lexeme
there; a word must have something behind it. -/
theorem lexeme_eq_ok_iff {c : Char} {cs rest : List Char} {t : Token} :
    lexeme c cs = .ok (t, rest) ↔ ∃ l, Heads l (c :: cs) t rest := by
  constructor
  · intro h
    by_cases hdigit : isDigit c = true
    · exact heads_of_digit hdigit h
    by_cases hquote : c = '"'
    · subst hquote
      exact heads_of_quote h
    by_cases hname : isNameStart c = true
    · exact heads_of_nameStart hname h
    exact heads_of_other hdigit hquote hname h
  · rintro ⟨l, hl⟩
    exact hl.lexeme_eq

/-! ## Reading all of a text -/

/-- A lexeme and the blanks behind it. -/
structure Piece where
  lexeme : Lexeme
  gap : List Char
  blank : ∀ b ∈ gap, isBlank b = true

/-- The text of pieces one behind the other. -/
def Piece.text : List Piece → List Char
  | [] => []
  | piece :: pieces => piece.lexeme.chars ++ (piece.gap ++ Piece.text pieces)

/-- Each lexeme is the longest in front of the text that starts with it. -/
def Piece.AllLongest : List Piece → Prop
  | [] => True
  | piece :: pieces => piece.lexeme.IsLongest (piece.gap ++ Piece.text pieces) ∧ Piece.AllLongest pieces

/-- The last lexeme is no word that the text ends with. -/
def Piece.Ended (pieces : List Piece) : Prop :=
  ∀ piece ∈ pieces.getLast?, piece.gap = [] → piece.lexeme.kind ≠ .word

theorem scan_blanks {gap : List Char} (h : ∀ b ∈ gap, isBlank b = true) (cs : List Char) : scan (gap ++ cs) = scan cs := by
  induction gap with
  | nil => rfl
  | cons b gap ih =>
    obtain ⟨hb, hgap⟩ := forall_mem_cons.mp h
    rw [cons_append, scan, if_pos hb, ih hgap]

/-- What is read in a text is its first lexeme and what is read behind it. -/
theorem scan_lexeme {c : Char} {cs : List Char} (hc : isBlank c = false) {ts : List Token} :
    scan (c :: cs) = .ok ts ↔ ∃ t rest ts', lexeme c cs = .ok (t, rest) ∧ scan rest = .ok ts' ∧ ts = t :: ts' := by
  rw [scan, if_neg (by rw [hc]; decide)]
  constructor
  · intro h
    split at h
    · cases h
    · rename_i t rest hlexeme
      dsimp only at h
      split at h
      · cases h
      · rename_i ts' hrest
        cases h
        exact ⟨t, rest, ts', hlexeme, hrest, rfl⟩
  · rintro ⟨t, rest, ts', hlexeme, hrest, rfl⟩
    split
    · rename_i heq
      cases hlexeme.symm.trans heq
    · rename_i heq
      cases hlexeme.symm.trans heq
      rw [hrest]

/-- A text is blanks and then lexemes, each the longest where it stands and with blanks behind it, and the tokens are
those of the lexemes. -/
structure Split (cs : List Char) (ts : List Token) (lead : List Char) (pieces : List Piece) : Prop where
  blank : ∀ b ∈ lead, isBlank b = true
  text : cs = lead ++ Piece.text pieces
  longest : Piece.AllLongest pieces
  tokens : pieces.map (·.lexeme.token?) = ts.map some
  ended : Piece.Ended pieces

theorem Split.cons_blank {b : Char} {cs lead : List Char} {ts : List Token} {pieces : List Piece} (hb : isBlank b = true)
    (h : Split cs ts lead pieces) : Split (b :: cs) ts (b :: lead) pieces where
  blank := forall_mem_cons.mpr ⟨hb, h.blank⟩
  text := by rw [h.text, cons_append]
  longest := h.longest
  tokens := h.tokens
  ended := h.ended

/-- In front of a split text, a longest lexeme is one piece more: the blanks that led are now the blanks behind it. -/
theorem Split.cons_lexeme {l : Lexeme} {cs rest lead : List Char} {t : Token} {ts : List Token} {pieces : List Piece}
    (hl : Heads l cs t rest) (h : Split rest ts lead pieces) :
    Split cs (t :: ts) [] (⟨l, lead, h.blank⟩ :: pieces) where
  blank := by simp
  text := by
    show cs = l.chars ++ (lead ++ Piece.text pieces)
    rw [← h.text, hl.text]
  longest := ⟨h.text ▸ hl.longest, h.longest⟩
  tokens := by rw [map_cons, map_cons, h.tokens, hl.token]
  ended := by
    cases pieces with
    | nil =>
      rintro piece ⟨⟩ hgap hword
      apply hl.ended hword
      rw [h.text, show lead = [] from hgap]
      rfl
    | cons next pieces =>
      intro piece hpiece
      rw [getLast?_cons_cons] at hpiece
      exact h.ended piece hpiece

theorem split_of_scan {cs : List Char} {ts : List Token} (h : scan cs = .ok ts) :
    ∃ lead pieces, Split cs ts lead pieces := by
  match cs with
  | [] =>
    rw [scan] at h
    cases h
    exact ⟨[], [], ⟨by simp, rfl, trivial, rfl, by rintro piece ⟨⟩⟩⟩
  | c :: cs =>
    cases hblank : isBlank c with
    | true =>
      rw [scan, if_pos hblank] at h
      obtain ⟨lead, pieces, hsplit⟩ := split_of_scan h
      exact ⟨c :: lead, pieces, hsplit.cons_blank hblank⟩
    | false =>
      obtain ⟨t, rest, ts', hlexeme, hrest, rfl⟩ := (scan_lexeme hblank).mp h
      have hshorter := length_lexeme hlexeme
      obtain ⟨l, hl⟩ := lexeme_eq_ok_iff.mp hlexeme
      obtain ⟨lead, pieces, hsplit⟩ := split_of_scan hrest
      exact ⟨[], _, hsplit.cons_lexeme hl⟩
termination_by cs.length
decreasing_by all_goals simp_wf <;> omega

theorem Split.scan_eq {cs : List Char} {ts : List Token} {lead : List Char} {pieces : List Piece}
    (h : Split cs ts lead pieces) : scan cs = .ok ts := by
  obtain ⟨hlead, rfl, hlongest, htokens, hended⟩ := h
  rw [scan_blanks hlead]
  clear hlead
  induction pieces generalizing ts with
  | nil => rw [map_eq_nil_iff.mp htokens.symm, Piece.text, scan]
  | cons piece pieces ih =>
    obtain ⟨l, gap, hgap⟩ := piece
    cases ts with
    | nil => cases htokens
    | cons t ts =>
      obtain ⟨htoken, htokens⟩ := List.cons.inj htokens
      obtain ⟨c, cs, hchars, -, hblank⟩ := l.exists_chars
      have hheads : Heads l (c :: (cs ++ (gap ++ Piece.text pieces))) t (gap ++ Piece.text pieces) := by
        refine ⟨by rw [hchars, cons_append], hlongest.1, htoken, ?_⟩
        intro hword hnil
        obtain ⟨rfl, hpieces⟩ := append_eq_nil_iff.mp hnil
        cases pieces with
        | nil => exact hended _ rfl rfl hword
        | cons next pieces =>
          obtain ⟨c', cs', hchars', -⟩ := next.lexeme.exists_chars
          rw [Piece.text, hchars'] at hpieces
          cases hpieces
      have hrest : Piece.Ended pieces := by
        cases pieces with
        | nil => rintro piece ⟨⟩
        | cons next pieces =>
          intro piece hpiece
          exact hended piece (by rw [getLast?_cons_cons]; exact hpiece)
      rw [Piece.text, hchars, cons_append]
      refine (scan_lexeme hblank).mpr ⟨t, _, ts, lexeme_eq_ok_iff.mpr ⟨l, hheads⟩, ?_, rfl⟩
      rw [scan_blanks hgap]
      exact ih hlongest.2 htokens hrest

/-- **The tokens of a text are those of its longest lexemes.** A text has these tokens exactly if it consists of blanks
and of lexemes that are the longest where they stand, with these tokens, and does not end inside a word. -/
theorem lex_eq_ok_iff {text : String} {ts : List Token} :
    lex text = .ok ts ↔ ∃ lead pieces, Split text.toList ts lead pieces := by
  constructor
  · exact split_of_scan
  · rintro ⟨lead, pieces, hsplit⟩
    exact hsplit.scan_eq

end Cilly.Token
