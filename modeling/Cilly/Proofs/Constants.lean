import Cilly.Proofs.Compiling
import Cilly.Proofs.Magnitudes

/-!
# Constants

Equal constants share a place in the table, and numbers are equal across their kinds: a program that has both `1` and
`1.0` may load the one for the other. Without a floating-point number that is equal to an integer, every constant is
loaded as it is written (`const_eq`).
-/

namespace Cilly

open Node Datum

/-- The constants that code may have, by the tokens that the program was made of. -/
inductive IsConstant (tokens : List Token) : Datum → Prop
  | int (i : Int) : IsConstant tokens (.number (.int i))
  | float {x : Float} : ⟨"num", .float x⟩ ∈ tokens → IsConstant tokens (.number (.float x))
  | text (s : String) : IsConstant tokens (.string (.text s))

/-- No floating-point number among the tokens is equal to an integer. -/
def Fractional (tokens : List Token) : Prop :=
  ∀ x : Float, ⟨"num", .float x⟩ ∈ tokens → ∀ i : Int, (float x).eq (.int i) = false

/-- Values that are tagged are equal if their tags are the same and what they tag is equal. -/
theorem Datum.tagged_eq_iff {tag tag' : String} {d d' : Datum} :
    (list [.text tag, d]).eq (.list [.text tag', d']) = true ↔ tag = tag' ∧ d.eq d' = true := by
  have htag : (text tag).eq (.text tag') = true ↔ tag = tag' := by
    rw [text_eq_iff]
    exact ⟨fun h => (text.inj h).symm, fun h => h ▸ rfl⟩
  rw [eq, eqItems, eqItems, eqItems]
  simp only [Bool.and_eq_true, Bool.and_true, htag]

theorem IsConstant.eq_of_eq {tokens : List Token} (hfractional : Fractional tokens) {c d : Datum}
    (hc : IsConstant tokens c) (hd : IsConstant tokens d) (h : c.eq d = true) : c = d := by
  cases hc with
  | int i =>
    cases hd with
    | int j =>
      have hij : (Numeric.int i).eq (.int j) = true := (tagged_eq_iff.mp h).2
      rw [of_decide_eq_true hij]
    | @float x hx =>
      have heq := eq_symm (tagged_eq_iff.mp h).2
      rw [hfractional x hx i] at heq
      cases heq
    | text s => exact absurd (tagged_eq_iff.mp h).1 (by decide)
  | @float x hx =>
    cases hd with
    | int j =>
      have heq := (tagged_eq_iff.mp h).2
      rw [hfractional x hx j] at heq
      cases heq
    | @float y hy =>
      have heq : (x == y) = true := (tagged_eq_iff.mp h).2
      rw [float_eq_of_beq heq (hfractional x hx 0)]
    | text s => exact absurd (tagged_eq_iff.mp h).1 (by decide)
  | text s =>
    cases hd with
    | int j => exact absurd (tagged_eq_iff.mp h).1 (by decide)
    | float => exact absurd (tagged_eq_iff.mp h).1 (by decide)
    | text t => rw [text_eq_iff.mp (tagged_eq_iff.mp h).2]

/-! ## The constants of a program -/

theorem Datum.Drawn.isConstant {tokens : List Token} {bound : Nat} {c : Datum} (h : c.Drawn tokens bound)
    (hlexed : ∀ t ∈ tokens, t.Lexed) : IsConstant tokens c := by
  cases h with
  | number hmem =>
    rcases (hlexed _ hmem).literal .num rfl with ⟨i, rfl⟩ | ⟨x, rfl⟩
    · exact .int i
    · exact .float hmem
  | text hmem =>
    obtain ⟨s, rfl⟩ := (hlexed _ hmem).literal .str rfl
    exact .text s
  | index => exact .int _
  | name hmem =>
    obtain ⟨s, rfl⟩ := (hlexed _ hmem).name rfl
    exact .text s

/-- **Constants are loaded as they are written.** -/
theorem Program.LaidOut.const_eq {prims : List String} {body : List Node} {p : Program}
    (h : p.LaidOut prims body) (hbody : AreStats body) (hlexed : ∀ t ∈ leavesAll body, t.Lexed)
    (hfractional : Fractional (leavesAll body)) {i : Nat} {c : Datum} (hc : IsConstant (leavesAll body) c)
    (hconst : p.HasConst i c) : p.consts[i]? = some c := by
  obtain ⟨d, hd, heq⟩ := hconst
  obtain ⟨x, hx, hconstant⟩ := h.origin d (Array.mem_of_getElem? hd)
  have hdrawn := ((Layout.program_within prims hbody).1 x hx).drawn hconstant
  rcases heq with rfl | heq
  · exact hd
  · rw [hd, (hdrawn.isConstant hlexed).eq_of_eq hfractional hc heq]

end Cilly
