import Cilly.Proofs.Floats

/-!
# Equal data

Equality of data is symmetric and transitive, but not reflexive: NaN is equal to nothing, and neither is a list with
NaN in it. Texts are equal only if they are the same.
-/

namespace Cilly

variable {a b : Datum}

namespace Datum

theorem scalarEq_iff : a.scalarEq b = true ↔ (a = .null ∧ b = .null) ∨
    (∃ s, a = .text s ∧ b = .text s) ∨ ∃ x y, a.numeric? = some x ∧ b.numeric? = some y ∧ x.eq y = true := by
  cases a <;> cases b <;> simp [scalarEq, numeric?]
  exact eq_comm

theorem eq_scalar (h : ∀ xs ys, a = .list xs → b = .list ys → False) : a.eq b = a.scalarEq b := by
  rw [eq]
  exact h

theorem scalarEq_symm (h : a.scalarEq b = true) : b.scalarEq a = true := by
  rw [scalarEq_iff] at h ⊢
  rcases h with ⟨ha, hb⟩ | ⟨s, ha, hb⟩ | ⟨x, y, hx, hy, heq⟩
  · exact Or.inl ⟨hb, ha⟩
  · exact Or.inr (Or.inl ⟨s, hb, ha⟩)
  · exact Or.inr (Or.inr ⟨y, x, hy, hx, Numeric.eq_symm heq⟩)

theorem scalarEq_trans {c : Datum} (h : a.scalarEq b = true) (h' : b.scalarEq c = true) :
    a.scalarEq c = true := by
  rw [scalarEq_iff] at h h' ⊢
  rcases h with ⟨rfl, rfl⟩ | ⟨s, rfl, rfl⟩ | ⟨x, y, hx, hy, heq⟩
  · exact h'
  · exact h'
  · rcases h' with ⟨rfl, rfl⟩ | ⟨s, rfl, rfl⟩ | ⟨y', z, hy', hz, heq'⟩
    · cases hy
    · cases hy
    · cases hy.symm.trans hy'
      exact Or.inr (Or.inr ⟨x, z, hx, hz, Numeric.eq_trans heq heq'⟩)

theorem exists_list_of_eq {xs : List Datum} (h : (Datum.list xs).eq b = true) :
    ∃ ys, b = .list ys ∧ eqItems xs ys = true := by
  cases b with
  | list ys =>
    rw [eq] at h
    exact ⟨ys, rfl, h⟩
  | null | bool | int | float | text =>
    rw [eq_scalar (by simp), scalarEq_iff] at h
    simp [numeric?] at h

theorem scalarEq_of_eq (h : a.eq b = true) (ha : ∀ xs, a ≠ .list xs) : a.scalarEq b = true := by
  rwa [eq_scalar fun xs _ hxs _ => ha xs hxs] at h

mutual

theorem eq_symm : ∀ {a b : Datum}, a.eq b = true → b.eq a = true
  | .list xs, b, h => by
    obtain ⟨ys, rfl, hitems⟩ := exists_list_of_eq h
    rw [eq]
    exact eqItems_symm hitems
  | .null, b, h | .bool _, b, h | .int _, b, h | .float _, b, h | .text _, b, h => by
    have hsymm := scalarEq_symm (scalarEq_of_eq h (by simp))
    rwa [eq_scalar (by simp)]

theorem eqItems_symm : ∀ {xs ys : List Datum}, eqItems xs ys = true → eqItems ys xs = true
  | [], [], _ => rfl
  | x :: xs, y :: ys, h => by
    rw [eqItems, Bool.and_eq_true] at h ⊢
    exact ⟨eq_symm h.1, eqItems_symm h.2⟩

end

mutual

theorem eq_trans : ∀ {a b c : Datum}, a.eq b = true → b.eq c = true → a.eq c = true
  | .list xs, b, c, h, h' => by
    obtain ⟨ys, rfl, hitems⟩ := exists_list_of_eq h
    obtain ⟨zs, rfl, hitems'⟩ := exists_list_of_eq h'
    rw [eq]
    exact eqItems_trans hitems hitems'
  | .null, b, c, h, h' | .bool _, b, c, h, h' | .int _, b, c, h, h' | .float _, b, c, h, h'
  | .text _, b, c, h, h' => by
    have hscalar := scalarEq_of_eq h (by simp)
    have hb : ∀ ys, b ≠ .list ys := by
      rintro ys rfl
      obtain ⟨zs, hzs, -⟩ := exists_list_of_eq (eq_symm h)
      cases hzs
    rw [eq_scalar (by simp)]
    exact scalarEq_trans hscalar (scalarEq_of_eq h' hb)

theorem eqItems_trans : ∀ {xs ys zs : List Datum}, eqItems xs ys = true → eqItems ys zs = true →
    eqItems xs zs = true
  | [], [], _, _, h' => h'
  | x :: xs, y :: ys, z :: zs, h, h' => by
    rw [eqItems, Bool.and_eq_true] at h h' ⊢
    exact ⟨eq_trans h.1 h'.1, eqItems_trans h.2 h'.2⟩

end

theorem text_eq_iff {s : String} : (Datum.text s).eq b = true ↔ b = .text s := by
  rw [eq_scalar (by simp), scalarEq_iff]
  simp [numeric?]

theorem eq_text_iff {s : String} : a.eq (.text s) = true ↔ a = .text s :=
  ⟨fun h => text_eq_iff.mp (eq_symm h), fun h => h ▸ text_eq_iff.mpr rfl⟩

end Datum

end Cilly
