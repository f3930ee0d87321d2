import Cilly.Datum.Basic
import Mathlib

/-!
# Equal numbers

A floating-point number is told by its sign, the bits of its exponent and those of its mantissa, and comparison looks
at nothing else: two numbers that compare equal are the same, except for the two zeros (`float_eq_of_beq`). What a
finite number stands for is a binary fraction, and different fractions in their packed form are different numbers
(`fraction_unique`). So equality of numbers, exact across their kinds, is symmetric and transitive
(`Numeric.eq_symm`, `Numeric.eq_trans`); it is not reflexive, since NaN is equal to nothing.
-/

namespace Cilly

open Float.Model Float.Model.UnpackedFloat BitVec Numeric

variable {a : UnpackedFloat} {e i : Int} {m : Nat} {s : Sign} {x y : Float}

theorem unpacked_beq_iff {b : UnpackedFloat} : a.beq b = true ↔
    a ≠ .notANumber ∧ a = b ∨ (∃ s, a = .zero s) ∧ ∃ t, b = .zero t := by
  unfold UnpackedFloat.beq
  rw [beq_iff_eq]
  cases a with
  | notANumber => simp [UnpackedFloat.compare]
  | zero s =>
    cases b with
    | notANumber | zero => simp [UnpackedFloat.compare]
    | infinity t => cases t <;> simp [UnpackedFloat.compare]
    | finite t => cases t <;> simp [UnpackedFloat.compare]
  | infinity s =>
    cases b with
    | infinity t => cases s <;> cases t <;> simp [UnpackedFloat.compare] <;> decide
    | notANumber | zero | finite => cases s <;> simp [UnpackedFloat.compare]
  | finite s m e hm =>
    cases b with
    | finite t m' e' hm' =>
      cases s <;> cases t <;> simp [UnpackedFloat.compare, Ordering.then_eq_eq] <;> exact and_comm
    | infinity t => cases t <;> simp [UnpackedFloat.compare]
    | notANumber | zero => cases s <;> simp [UnpackedFloat.compare]

/-! ## Bits -/

section

variable (b : BitVec 64)

theorem toNat_unpackMantissa : (@unpackMantissa .binary64 b).toNat = b.toNat % 2 ^ 52 := by
  simp [unpackMantissa]

theorem toNat_unpackExponent : (@unpackExponent .binary64 b).toNat = b.toNat / 2 ^ 52 % 2 ^ 11 := by
  simp [unpackExponent, Nat.shiftRight_eq_div_pow]

theorem toNat_unpackSign : (@unpackSign .binary64 b).toNat = b.toNat / 2 ^ 63 % 2 := by
  simp [unpackSign, Nat.shiftRight_eq_div_pow]

theorem toNat_withImplicit :
    (1#1 ++ @unpackMantissa .binary64 b).toNat = 2 ^ 52 + (@unpackMantissa .binary64 b).toNat := by
  have hm : (@unpackMantissa .binary64 b).toNat < 2 ^ 52 := isLt _
  rw [toNat_append]
  exact (Nat.shiftLeft_add_eq_or_of_lt hm 1).symm

end

theorem ofBitVec_inj {s t : BitVec 1} (h : Sign.ofBitVec s = Sign.ofBitVec t) : s = t := by
  have hs := s.isLt
  have ht := t.isLt
  have hne : ∀ u : BitVec 1, u ≠ 0#1 → u.toNat ≠ 0 := fun u hu hzero => hu (eq_of_toNat_eq hzero)
  unfold Sign.ofBitVec at h
  by_cases hs0 : s = 0#1 <;> by_cases ht0 : t = 0#1
  · rw [hs0, ht0]
  · rw [if_pos hs0, if_neg ht0] at h
    cases h
  · rw [if_neg hs0, if_pos ht0] at h
    cases h
  · have := hne s hs0
    have := hne t ht0
    exact eq_of_toNat_eq (by omega)

/-- The bits of a number that is unpacked: its sign, exponent and mantissa. -/
def floatFields : UnpackedFloat → Sign × Int × Nat
  | .notANumber => (.positive, 2047, 1)
  | .infinity s => (s, 2047, 0)
  | .zero s => (s, 0, 0)
  | .finite s m e _ => if m < 2 ^ 52 then (s, 0, m) else (s, e + 1075, m - 2 ^ 52)

theorem floatFields_unpack (b : BitVec 64) (h : UnpackedFloat.unpack .binary64 b ≠ .notANumber) :
    floatFields (UnpackedFloat.unpack .binary64 b) =
      (Sign.ofBitVec (@unpackSign .binary64 b), ((@unpackExponent .binary64 b).toNat : Int),
        (@unpackMantissa .binary64 b).toNat) := by
  have hm : (@unpackMantissa .binary64 b).toNat < 2 ^ 52 := isLt _
  unfold UnpackedFloat.unpack at h ⊢
  dsimp only at h ⊢
  split
  · rename_i hexp
    split
    · rename_i hzero
      rw [hexp, hzero]
      rfl
    · rename_i hzero
      rw [if_pos hexp, if_neg hzero] at h
      exact absurd rfl h
  · split
    · rename_i hexp
      split
      · rename_i hzero
        rw [hexp, hzero]
        rfl
      · rw [floatFields, if_pos hm, hexp]
        rfl
    · have hbias : ((Format.exponentBias .binary64 : Nat) : Int) = 1023 := rfl
      rw [floatFields, toNat_withImplicit, if_neg (by omega), Nat.add_sub_cancel_left, hbias]
      congr 2
      exact Int.sub_add_cancel _ 1075

theorem unpack_inj {b b' : BitVec 64} (h : UnpackedFloat.unpack .binary64 b = UnpackedFloat.unpack .binary64 b')
    (hnumber : UnpackedFloat.unpack .binary64 b ≠ .notANumber) : b = b' := by
  have hfields := floatFields_unpack b hnumber
  rw [h, floatFields_unpack b' (h ▸ hnumber), Prod.mk.injEq, Prod.mk.injEq] at hfields
  obtain ⟨hsign, hexponent, hmantissa⟩ := hfields
  have hsign := congrArg BitVec.toNat (ofBitVec_inj hsign)
  have hexponent := Int.ofNat.inj hexponent
  rw [toNat_unpackSign, toNat_unpackSign] at hsign
  rw [toNat_unpackExponent, toNat_unpackExponent] at hexponent
  rw [toNat_unpackMantissa, toNat_unpackMantissa] at hmantissa
  have := b.isLt
  have := b'.isLt
  exact BitVec.eq_of_toNat_eq (by omega)

/-! ## Fractions -/

def isNegative : Sign → Bool
  | .positive => false
  | .negative => true

/-- The fraction that a number stands for. -/
def fraction? : UnpackedFloat → Option Binary
  | .notANumber | .infinity _ => none
  | .zero s => some ⟨isNegative s, 0, -1074⟩
  | .finite s m e _ => some ⟨isNegative s, m, e⟩

theorem isNegative_ofBitVec (b : BitVec 64) :
    isNegative (Sign.ofBitVec (@unpackSign .binary64 b)) = decide (b.toNat / 2 ^ 63 = 1) := by
  have hsign := toNat_unpackSign b
  have hlt := b.isLt
  unfold Sign.ofBitVec
  by_cases hzero : @unpackSign .binary64 b = 0#1
  · have hne : ¬ b.toNat / 2 ^ 63 = 1 := by
      rintro h
      rw [h, hzero] at hsign
      cases hsign
    rw [if_pos hzero, decide_eq_false hne, isNegative]
  · have hne : (@unpackSign .binary64 b).toNat ≠ 0 := fun h => hzero (eq_of_toNat_eq h)
    have hone : b.toNat / 2 ^ 63 = 1 := by omega
    rw [if_neg hzero, decide_eq_true hone, isNegative]

theorem ofFloat?_eq (x : Float) : Binary.ofFloat? x = fraction? x.toModel.unpack := by
  show _ = fraction? (UnpackedFloat.unpack .binary64 x.toBits.toBitVec)
  unfold Binary.ofFloat? UnpackedFloat.unpack
  dsimp only
  rw [show x.toBits.toNat = x.toBits.toBitVec.toNat from rfl, ← toNat_unpackMantissa, ← toNat_unpackExponent,
    ← isNegative_ofBitVec]
  by_cases hfull : @unpackExponent .binary64 x.toBits.toBitVec = -1#11
  · rw [if_pos hfull, if_pos (by rw [hfull]; rfl)]
    split <;> rfl
  · have hfull' : (@unpackExponent .binary64 x.toBits.toBitVec).toNat ≠ 2047 :=
      fun h => hfull (BitVec.eq_of_toNat_eq h)
    rw [if_neg hfull, if_neg hfull']
    by_cases hzero : @unpackExponent .binary64 x.toBits.toBitVec = 0#11
    · rw [if_pos hzero, if_pos (by rw [hzero]; rfl)]
      split
      · rename_i hf
        rw [hf]
        rfl
      · rw [hzero]
        rfl
    · have hzero' : (@unpackExponent .binary64 x.toBits.toBitVec).toNat ≠ 0 :=
        fun h => hzero (BitVec.eq_of_toNat_eq h)
      rw [if_neg hzero, if_neg hzero', ← toNat_withImplicit]
      rfl

/-- A number has at most 53 bits, and fewer only where the exponent is the least. -/
def Packed : UnpackedFloat → Prop
  | .finite _ m e _ => m < 2 ^ 53 ∧ -1074 ≤ e ∧ (e = -1074 ∨ 2 ^ 52 ≤ m)
  | _ => True

theorem packed_unpack (x : Float) : Packed x.toModel.unpack := by
  show Packed (UnpackedFloat.unpack .binary64 x.toBits.toBitVec)
  have hm : (@unpackMantissa .binary64 x.toBits.toBitVec).toNat < 2 ^ 52 := BitVec.isLt _
  have happend := toNat_withImplicit x.toBits.toBitVec
  have hbias : ((Format.exponentBias .binary64 : Nat) : Int) = 1023 := rfl
  have hbits : ((Format.mantissaBitsWithoutImplicit .binary64 : Nat) : Int) = 52 := rfl
  unfold UnpackedFloat.unpack
  dsimp only
  split
  · split <;> trivial
  · split
    · rename_i hzero
      split
      · trivial
      · rw [hzero, hbias, hbits]
        exact ⟨by omega, by simp, Or.inl (by simp)⟩
    · rename_i hzero
      have hne : (@unpackExponent .binary64 x.toBits.toBitVec).toNat ≠ 0 := fun h => hzero (BitVec.eq_of_toNat_eq h)
      rw [hbias, hbits]
      exact ⟨by omega, by omega, Or.inr (by omega)⟩

theorem fraction_unique {n m' : Nat} {e' : Int} (h : n * 2 ^ (-e).toNat = m * 2 ^ e.toNat)
    (h' : n * 2 ^ (-e').toNat = m' * 2 ^ e'.toNat) (hle : e ≤ e') : m = m' * 2 ^ (e' - e).toNat := by
  refine Nat.eq_of_mul_eq_mul_right (Nat.two_pow_pos (e.toNat + (-e').toNat)) ?_
  calc m * 2 ^ (e.toNat + (-e').toNat)
    _ = n * 2 ^ (-e).toNat * 2 ^ (-e').toNat := by rw [Nat.pow_add, ← Nat.mul_assoc, h]
    _ = m' * 2 ^ e'.toNat * 2 ^ (-e).toNat := by rw [Nat.mul_right_comm, h']
    _ = m' * 2 ^ ((e' - e).toNat + (e.toNat + (-e').toNat)) := by
      rw [Nat.mul_assoc, ← Nat.pow_add, show e'.toNat + (-e).toNat = (e' - e).toNat + (e.toNat + (-e').toNat) by omega]
    _ = m' * 2 ^ (e' - e).toNat * 2 ^ (e.toNat + (-e').toNat) := by rw [Nat.pow_add, Nat.mul_assoc]

theorem packed_unique {n m' : Nat} {e' : Int} (h : n * 2 ^ (-e).toNat = m * 2 ^ e.toNat)
    (h' : n * 2 ^ (-e').toNat = m' * 2 ^ e'.toNat) (hm : m < 2 ^ 53) (hm' : m' < 2 ^ 53)
    (hpacked : -1074 ≤ e ∧ (e = -1074 ∨ 2 ^ 52 ≤ m)) (hpacked' : -1074 ≤ e' ∧ (e' = -1074 ∨ 2 ^ 52 ≤ m')) :
    m = m' ∧ e = e' := by
  -- with a greater exponent there would be a bit more in the other mantissa
  have hgreater : ∀ {m m' : Nat} {e e' : Int}, n * 2 ^ (-e).toNat = m * 2 ^ e.toNat →
      n * 2 ^ (-e').toNat = m' * 2 ^ e'.toNat → m < 2 ^ 53 → -1074 ≤ e → (e' = -1074 ∨ 2 ^ 52 ≤ m') → ¬ e < e' := by
    intro m m' e e' h h' hm he hbits hlt
    have hmul := fraction_unique h h' (Int.le_of_lt hlt)
    have htwo : 2 ^ 1 ≤ 2 ^ (e' - e).toNat := Nat.pow_le_pow_right Nat.two_pos (by omega)
    have hle : m' * 2 ^ 1 ≤ m := by
      rw [hmul]
      exact Nat.mul_le_mul_left m' htwo
    omega
  have heq : e = e' := Int.le_antisymm (Int.not_lt.mp (hgreater h' h hm' hpacked'.1 hpacked.2))
    (Int.not_lt.mp (hgreater h h' hm hpacked.1 hpacked'.2))
  subst heq
  have hmul := fraction_unique h h' (Int.le_refl e)
  rw [Int.sub_self, Int.toNat_zero, Nat.pow_zero, Nat.mul_one] at hmul
  exact ⟨hmul, rfl⟩

theorem compareInt_eq_iff {b : Binary} : (Binary.compareInt i b == .eq) = true ↔
    i.natAbs * b.den = b.num ∧ (if b.negative then i ≤ 0 else 0 ≤ i) := by
  have hden : 0 < b.den := Nat.two_pow_pos _
  unfold Binary.compareInt
  rw [beq_iff_eq, Int.compare_eq_eq]
  cases b.negative
  · simp only [Bool.false_eq_true, if_false]
    constructor
    · intro h
      have hle : 0 ≤ i := by
        refine Int.le_of_not_gt fun hlt => ?_
        have := Int.mul_neg_of_neg_of_pos hlt (Int.ofNat_lt.mpr hden)
        omega
      refine ⟨?_, hle⟩
      rw [← Int.natAbs_of_nonneg hle] at h
      exact_mod_cast h
    · rintro ⟨h, hle⟩
      rw [← Int.natAbs_of_nonneg hle, ← h]
      push_cast
      rfl
  · simp only [if_true]
    constructor
    · intro h
      have hle : i ≤ 0 := by
        refine Int.le_of_not_gt fun hlt => ?_
        have := Int.mul_pos hlt (Int.ofNat_lt.mpr hden)
        omega
      refine ⟨?_, hle⟩
      have hneg : i = -(i.natAbs : Int) := by omega
      rw [hneg, Int.neg_mul] at h
      have := Int.neg_inj.mp h
      exact_mod_cast this
    · rintro ⟨h, hle⟩
      have hneg : i = -(i.natAbs : Int) := by omega
      rw [hneg, Int.neg_mul, ← h]
      simp

/-- A number is equal to an integer. -/
def IsInt (a : UnpackedFloat) (i : Int) : Prop := ∃ b, fraction? a = some b ∧ (Binary.compareInt i b == .eq) = true

theorem IsInt.unique {j : Int} (hi : IsInt a i) (hj : IsInt a j) : i = j := by
  obtain ⟨b, hb, hi⟩ := hi
  obtain ⟨b', hb', hj⟩ := hj
  cases hb.symm.trans hb'
  rw [compareInt_eq_iff] at hi hj
  have habs : i.natAbs = j.natAbs := Nat.eq_of_mul_eq_mul_right (Nat.two_pow_pos _) (hi.1.trans hj.1.symm)
  have hi := hi.2
  have hj := hj.2
  cases hsign : b.negative <;> rw [hsign] at hi hj
  · have hi : 0 ≤ i := hi
    have hj : 0 ≤ j := hj
    omega
  · have hi : i ≤ 0 := hi
    have hj : j ≤ 0 := hj
    omega

theorem ne_zero_of_isInt {hm : 0 < m} (h : IsInt (.finite s m e hm) i) :
    i ≠ 0 := by
  rintro rfl
  obtain ⟨b, hb, hi⟩ := h
  cases hb
  rw [compareInt_eq_iff] at hi
  have hnum : 0 = m * 2 ^ e.toNat := by simpa [Binary.num] using hi.1
  exact absurd hnum (Nat.ne_of_lt (Nat.mul_pos hm (Nat.two_pow_pos _)))

theorem eq_zero_of_isInt (h : IsInt (.zero s) i) : i = 0 := by
  obtain ⟨b, hb, hi⟩ := h
  cases hb
  rw [compareInt_eq_iff] at hi
  have hmul := hi.1.trans (Nat.zero_mul _)
  rcases Nat.mul_eq_zero.mp hmul with hzero | hzero
  · exact Int.natAbs_eq_zero.mp hzero
  · exact absurd hzero (Nat.ne_of_gt (Nat.two_pow_pos _))

theorem beq_of_isInt {a' : UnpackedFloat} (ha : Packed a) (ha' : Packed a') (h : IsInt a i)
    (h' : IsInt a' i) : a.beq a' = true := by
  rw [unpacked_beq_iff]
  cases a with
  | notANumber | infinity =>
    obtain ⟨b, hb, -⟩ := h
    cases hb
  | zero s =>
    cases a' with
    | notANumber | infinity =>
      obtain ⟨b, hb, -⟩ := h'
      cases hb
    | zero t => exact Or.inr ⟨⟨s, rfl⟩, t, rfl⟩
    | finite t m e hm => exact absurd (eq_zero_of_isInt h) (ne_zero_of_isInt h')
  | finite s m e hm =>
    cases a' with
    | notANumber | infinity =>
      obtain ⟨b, hb, -⟩ := h'
      cases hb
    | zero t => exact absurd (eq_zero_of_isInt h') (ne_zero_of_isInt h)
    | finite t m' e' hm' =>
      have hne := ne_zero_of_isInt h
      obtain ⟨b, hb, hi⟩ := h
      obtain ⟨b', hb', hi'⟩ := h'
      cases hb
      cases hb'
      rw [compareInt_eq_iff] at hi hi'
      have hsign : s = t := by
        have h := hi.2
        have h' := hi'.2
        cases s <;> cases t <;>
          simp only [isNegative, Bool.false_eq_true, if_false, if_true] at h h' <;> first | rfl | omega
      obtain ⟨rfl, rfl⟩ := packed_unique hi.1 hi'.1 ha.1 ha'.1 ha.2 ha'.2
      subst hsign
      exact Or.inl ⟨by simp, rfl⟩

theorem IsInt.of_beq {a' : UnpackedFloat} (h : IsInt a i) (hbeq : a.beq a' = true) : IsInt a' i := by
  rcases unpacked_beq_iff.mp hbeq with ⟨-, rfl⟩ | ⟨⟨s, rfl⟩, t, rfl⟩
  · exact h
  · rw [eq_zero_of_isInt h]
    exact ⟨_, rfl, by rw [compareInt_eq_iff]; simp [Binary.num]⟩

/-! ## Numbers -/

theorem eq_zero_of_unpack (h : x.toModel.unpack = .zero s) :
    (float x).eq (.int 0) = true := by
  rw [eq, ofFloat?_eq, h, fraction?, Option.any_some, compareInt_eq_iff]
  simp [Binary.num]

/-- **Equal numbers are the same** unless they are zeros. -/
theorem float_eq_of_beq (h : (x == y) = true) (hx : (float x).eq (.int 0) = false) : x = y := by
  rcases unpacked_beq_iff.mp (show x.toModel.unpack.beq y.toModel.unpack = true from h) with
    ⟨hnumber, heq⟩ | ⟨⟨s, hzero⟩, -⟩
  · have hbits : x.toModel.toBits = y.toModel.toBits := UInt64.toBitVec_inj.mp (unpack_inj heq hnumber)
    obtain ⟨⟨bits, valid⟩⟩ := x
    obtain ⟨⟨bits', valid'⟩⟩ := y
    cases hbits
    rfl
  · rw [eq_zero_of_unpack hzero] at hx
    cases hx

theorem beq_symm (h : (x == y) = true) : (y == x) = true := by
  have h : x.toModel.unpack.beq y.toModel.unpack = true := h
  show y.toModel.unpack.beq x.toModel.unpack = true
  rw [unpacked_beq_iff] at h ⊢
  rcases h with ⟨hnumber, heq⟩ | ⟨hx, hy⟩
  · exact Or.inl ⟨heq ▸ hnumber, heq.symm⟩
  · exact Or.inr ⟨hy, hx⟩

theorem beq_trans {z : Float} (h : (x == y) = true) (h' : (y == z) = true) : (x == z) = true := by
  have h : x.toModel.unpack.beq y.toModel.unpack = true := h
  have h' : y.toModel.unpack.beq z.toModel.unpack = true := h'
  show x.toModel.unpack.beq z.toModel.unpack = true
  rw [unpacked_beq_iff] at h h' ⊢
  rcases h with ⟨hnumber, heq⟩ | ⟨hx, s, hy⟩
  · rw [heq]
    exact h'
  · rcases h' with ⟨-, heq'⟩ | ⟨-, hz⟩
    · exact Or.inr ⟨hx, s, heq' ▸ hy⟩
    · exact Or.inr ⟨hx, hz⟩

namespace Numeric

theorem eq_int_iff : (float x).eq (.int i) = true ↔ IsInt x.toModel.unpack i := by
  rw [eq, ofFloat?_eq, Option.any_eq_true]
  rfl

theorem eq_symm : ∀ {a b : Numeric}, a.eq b = true → b.eq a = true
  | .int i, .int j, h => by simpa [eq, eq_comm] using h
  | .float x, .float y, h => beq_symm h
  | .int i, .float y, h => h
  | .float x, .int j, h => h

theorem eq_trans : ∀ {a b c : Numeric}, a.eq b = true → b.eq c = true → a.eq c = true
  | .int i, .int j, c, h, h' => by
    have heq : i = j := by simpa [eq] using h
    rw [heq]
    exact h'
  | .int i, .float y, .int k, h, h' => by
    have heq : i = k := IsInt.unique (eq_int_iff.mp (eq_symm h)) (eq_int_iff.mp h')
    simp [eq, heq]
  | .int i, .float y, .float z, h, h' =>
    eq_symm (eq_int_iff.mpr ((eq_int_iff.mp (eq_symm h)).of_beq h'))
  | .float x, .int j, .int k, h, h' => by
    have heq : j = k := by simpa [eq] using h'
    rw [← heq]
    exact h
  | .float x, .int j, .float z, h, h' =>
    beq_of_isInt (packed_unpack x) (packed_unpack z) (eq_int_iff.mp h) (eq_int_iff.mp (eq_symm h'))
  | .float x, .float y, .int k, h, h' =>
    eq_int_iff.mpr ((eq_int_iff.mp h').of_beq (beq_symm h))
  | .float x, .float y, .float z, h, h' => beq_trans h h'

end Numeric

end Cilly
