import Cilly.Proofs.Parsing.Complete

/-!
# Parsing is derivability

What a complaint of the parser says, and the sum of the three directions. Showing a token can itself fail, and
does exactly on tokens that hold a whole number with too many digits (`Datum.HoldsLong`).
-/

namespace Cilly

/-- Some whole number in the datum has more digits than may be written. -/
inductive Datum.HoldsLong : Datum → Prop
  | int {i : Int} : 10 ^ digitBound ≤ i.natAbs → HoldsLong (.int i)
  | item {x : Datum} {items : List Datum} : x ∈ items → HoldsLong x → HoldsLong (.list items)

namespace Datum

theorem intText_error {i : Int} {f : Fault} (h : intText i = .error f) :
    f = .digitLimit none ∧ (Datum.int i).HoldsLong := by
  unfold intText at h
  split at h
  · rename_i hlong
    exact ⟨(Except.error.inj h).symm, .int hlong⟩
  · exact absurd h (by simp)

mutual

theorem literal_error : ∀ (d : Datum) {f : Fault}, d.literal = .error f →
    f = .digitLimit none ∧ d.HoldsLong
  | .null | .bool _ | .float _ | .text _ => by simp [literal]
  | .int i => by
    rw [literal]
    exact intText_error
  | .list items => by
    intro h
    rw [literal] at h
    cases hitems : literalItems items with
    | ok parts =>
      rw [hitems] at h
      cases h
    | error g =>
      rw [hitems] at h
      cases h
      obtain ⟨hf, x, hx, hlong⟩ := literalItems_error items hitems
      exact ⟨hf, .item hx hlong⟩

theorem literalItems_error : ∀ (items : List Datum) {f : Fault}, literalItems items = .error f →
    f = .digitLimit none ∧ ∃ x ∈ items, x.HoldsLong
  | [] => by simp [literalItems]
  | x :: xs => by
    intro h
    rw [literalItems] at h
    cases hx : x.literal with
    | error g =>
      rw [hx] at h
      cases h
      obtain ⟨hf, hlong⟩ := literal_error x hx
      exact ⟨hf, x, by simp, hlong⟩
    | ok head =>
      rw [hx] at h
      cases hxs : literalItems xs with
      | ok tail =>
        rw [hxs] at h
        cases h
      | error g =>
        rw [hxs] at h
        cases h
        obtain ⟨hf, y, hy, hlong⟩ := literalItems_error xs hxs
        exact ⟨hf, y, by simp [hy], hlong⟩

end

end Datum

namespace Node

open Grammar

theorem mismatch_cases (tag : String) (ts : List Token) :
    (∃ found, mismatch tag ts = .expected tag found) ∨
      mismatch tag ts = .fault (.digitLimit none) ∧ ∃ t ∈ ts, t.value.HoldsLong := by
  unfold mismatch
  cases hlit : (Token.current ts).toDatum.literal with
  | ok found => exact Or.inl ⟨found, rfl⟩
  | error f =>
    obtain ⟨rfl, hlong⟩ := Datum.literal_error _ hlit
    refine Or.inr ⟨rfl, ?_⟩
    -- of the tag and the value only the value can be too long, and the end mark has none
    cases hlong with
    | item hmem hlong =>
      simp only [List.mem_cons, List.not_mem_nil, or_false] at hmem
      rcases hmem with rfl | rfl
      · cases hlong
      · cases ts with
        | nil => cases hlong
        | cons t rest => exact ⟨t, List.mem_cons_self, hlong⟩

theorem message_illegal (tag : String) :
    (ParseError.illegal tag).message = "cilly parser : " ++ ("非法token: " ++ tag) := by
  have hlit : "cilly parser : 非法token: " = "cilly parser : " ++ "非法token: " := by decide
  show "cilly parser : 非法token: " ++ tag = _
  rw [hlit, String.append_assoc]

theorem message_expected (tag found : String) :
    (ParseError.expected tag found).message =
      "cilly parser : " ++ ("期望" ++ (tag ++ (",实际为" ++ found))) := by
  have hlit : "cilly parser : 期望" = "cilly parser : " ++ "期望" := by decide
  show "cilly parser : 期望" ++ tag ++ ",实际为" ++ found = _
  rw [hlit, String.append_assoc, String.append_assoc, String.append_assoc]

/-- A complaint is one of the parser's own unless it would have to show a number that is too long. -/
theorem Blames.report {ts : List Token} {err : ParseError} (h : Blames ts err) :
    (err.category = .reported ∧ ∃ text, err.message = "cilly parser : " ++ text) ∨
      err = .fault (.digitLimit none) ∧ ∃ t ∈ ts, t.value.HoldsLong := by
  rcases h with ⟨tag, rfl⟩ | ⟨tag, used, rest, rfl, rfl⟩
  · exact Or.inl ⟨rfl, "非法token: " ++ tag, message_illegal tag⟩
  · rcases mismatch_cases tag rest with ⟨found, hfound⟩ | ⟨hfault, t, ht, hlong⟩
    · rw [hfound]
      exact Or.inl ⟨rfl, _, message_expected tag found⟩
    · exact Or.inr ⟨hfault, t, List.mem_append_right used ht, hlong⟩

/-- A sequence of statements is read back up to the end of the tokens. -/
theorem parseProgram_complete : ∀ {ts : List Token} {ss : List Node}, Statements ts ss →
    parseProgram ts = .ok ss := by
  intro ts ss
  induction ss generalizing ts with
  | nil =>
    intro hss
    cases hss
    rw [parseProgram]
    rfl
  | cons s ss ih =>
    intro hss
    cases hss with
    | @cons ts us _ _ hs hss =>
      have helse : Token.peek us ≠ "else" := by
        have h : Token.peek (us ++ []) ≠ "else" := hss.peek_ne_else (by decide)
        rwa [List.append_nil] at h
      obtain ⟨h1, heq1⟩ := hs.parse us (fun _ => helse)
      obtain ⟨t, vs, hts, -, heof, -⟩ := hs.head
      have hpeek : Token.peek (ts ++ us) ≠ "eof" := by
        rw [hts]
        exact heof
      rw [parseProgram, if_neg hpeek, heq1]
      dsimp only
      rw [ih hss]

end Node

end Cilly
