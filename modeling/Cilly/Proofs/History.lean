import Cilly.Proofs.Effects
import Cilly.Proofs.OperandStack
import Cilly.Proofs.Parameters

/-!
# How a state has come about

At any time, what lies on the stack and which scopes are open is the work of earlier steps of the same call, which no step
since then has taken back. `Since` is a run along which nothing of its first machine is taken away, and `Backed` says of a
view that it has come about that way: each operand was on top of the stack when its code had ended, and each scope was opened when the
machine came to its first instruction.

A history is carried on step by step: operands are taken (`Backed.drop`) and new ones come on top (`Backed.push`), scopes are
opened (`Backed.enter`) and left (`Backed.leave`), and whatever is not taken away stays (`Backed.advance`).
-/

namespace Cilly

open Node List

namespace Machine

/-- The scopes of the first machine are there in the second one, and as long. -/
def Sized (m m' : Machine) : Prop :=
  ∀ (id : Nat) (cells : Array Datum), m.store[id]? = some cells →
    ∃ cells', m'.store[id]? = some cells' ∧ cells'.size = cells.size

/-- What is pending, open or on the stack in the first machine is so in the second one, below what has come on top. -/
structure Over (m m' : Machine) : Prop where
  frames : m.frames <:+ m'.frames
  chain : m.chain <:+ m'.chain
  stack : m.stack.items <:+ m'.stack.items
  sized : Sized m m'

/-- A run along which nothing of its first machine is taken away. -/
inductive Since (m₁ : Machine) : Machine → Prop
  | refl : Since m₁ m₁
  | step {m m' : Machine} {w : Int} : Since m₁ m → m.next = (.ok w, m') → Over m₁ m' → Since m₁ m'

section

variable {m m' m'' : Machine}

theorem Sized.refl (m : Machine) : Sized m m := fun _ cells h => ⟨cells, h, rfl⟩

theorem Sized.trans (h : Sized m m') (h' : Sized m' m'') : Sized m m'' := by
  intro id cells hcells
  obtain ⟨cells', hcells', hsize⟩ := h id cells hcells
  obtain ⟨cells'', hcells'', hsize'⟩ := h' id cells' hcells'
  exact ⟨cells'', hcells'', hsize'.trans hsize⟩

theorem Sized.of_eq (h : m'.store = m.store) : Sized m m' := fun _ cells hcells => ⟨cells, by rw [h, hcells], rfl⟩

theorem Sized.of_push {cells : Array Datum} (h : m'.store = m.store.push cells) : Sized m m' := by
  intro id cells' hcells'
  refine ⟨cells', ?_, rfl⟩
  rw [h, Array.getElem?_push_lt (Array.getElem?_eq_some_iff.mp hcells').1]
  exact (Array.getElem?_eq_getElem _).symm.trans hcells'

theorem Sized.of_set {id i : Nat} {cells : Array Datum} {v : Datum} (hcells : m.store[id]? = some cells)
    (h : m'.store = m.store.setIfInBounds id (cells.setIfInBounds i v)) : Sized m m' := by
  intro id' cells' hcells'
  rw [h, Array.getElem?_setIfInBounds]
  by_cases heq : id = id'
  · subst heq
    cases hcells.symm.trans hcells'
    rw [if_pos rfl, if_pos (Array.getElem?_eq_some_iff.mp hcells).1]
    exact ⟨_, rfl, by simp⟩
  · rw [if_neg heq]
    exact ⟨cells', hcells', rfl⟩

theorem Over.refl (m : Machine) : Over m m := ⟨suffix_refl _, suffix_refl _, suffix_refl _, .refl m⟩

theorem Over.trans (h : Over m m') (h' : Over m' m'') : Over m m'' :=
  ⟨h.frames.trans h'.frames, h.chain.trans h'.chain, h.stack.trans h'.stack, h.sized.trans h'.sized⟩

theorem Since.over (h : Since m m') : Over m m' := by
  cases h with
  | refl => exact .refl m
  | step _ _ hover => exact hover

theorem Since.trans (h : Since m m') (h' : Since m' m'') : Since m m'' := by
  induction h' with
  | refl => exact h
  | step _ hnext hover ih => exact .step ih hnext (h.over.trans hover)

end

/-- A step opens a scope: for a block that is entered, or for the parameters of a function that is called. -/
structure Opens (p : Program) (o : Open) (m m' : Machine) : Prop where
  step : ∃ w, m.next = (.ok w, m')
  pc : m'.pc = o.inside
  chain : m'.chain = m.store.size :: m.chain
  cells : ∃ cells, m'.store[m.store.size]? = some cells ∧ cells.size = o.names.length
  /-- It is none of the scopes that the program has from the start. -/
  fresh : p.scopes.size ≤ m.store.size

/-- Operands, open scopes and pending calls that a view describes have come about before a machine, on top of what there was
when the function was entered. -/
structure Backed (p : Program) (view : View) (base : Machine) (items : List Datum) (chain : List Nat)
    (frames : List Frame) (m : Machine) : Prop where
  operands : ∀ {k e : Nat}, view.ends[k]? = some e → ∃ m₁ : Machine, m₁.pc = e ∧ m₁.stack.items = items.drop k ∧
    m₁.chain = chain ∧ m₁.frames = frames ∧ Since m₁ m
  scopes : ∀ {d : Nat} {o : Open}, view.scopes[d]? = some o → ∃ m₀ m₁ : Machine, Opens p o m₀ m₁ ∧
    m₁.stack.items = base.stack.items ∧ m₁.chain = chain.drop d ∧ m₁.frames = frames ∧ Since m₁ m
  below : base.stack.items <:+ items
  outer : base.chain <:+ chain
  frames : frames = base.frames
  depth : items.length = base.stack.items.length + view.ends.length
  nesting : chain.length + (if view.home.isSome then 1 else 0) = base.chain.length + view.scopes.length
  since : Since base m

namespace Backed

variable {p : Program} {view : View} {base m m' : Machine} {items : List Datum} {chain : List Nat} {frames : List Frame}
  {w : Int}

theorem advance (h : Backed p view base items chain frames m)
    (hkept : ∀ {m₁ : Machine}, Since m₁ m → m₁.frames <:+ frames → m₁.chain <:+ chain → m₁.stack.items <:+ items →
      Since m₁ m') : Backed p view base items chain frames m' := by
  refine { h with operands := fun hk => ?_, scopes := fun hd => ?_, since := ?_ }
  · obtain ⟨m₁, hpc, hitems, hchain, hframes, hsince⟩ := h.operands hk
    refine ⟨m₁, hpc, hitems, hchain, hframes, hkept hsince ?_ ?_ ?_⟩
    · exact hframes ▸ suffix_refl _
    · exact hchain ▸ suffix_refl _
    · exact hitems ▸ drop_suffix _ _
  · obtain ⟨m₀, m₁, hopens, hitems, hchain, hframes, hsince⟩ := h.scopes hd
    refine ⟨m₀, m₁, hopens, hitems, hchain, hframes, hkept hsince ?_ ?_ ?_⟩
    · exact hframes ▸ suffix_refl _
    · exact hchain ▸ drop_suffix _ _
    · exact hitems ▸ h.below
  · exact hkept h.since (h.frames ▸ suffix_refl _) h.outer h.below

theorem step (h : Backed p view base items chain frames m) (hnext : m.next = (.ok w, m')) (hitems : items <:+ m'.stack.items)
    (hchain : chain <:+ m'.chain) (hframes : frames <:+ m'.frames) (hsized : Sized m m') :
    Backed p view base items chain frames m' :=
  h.advance fun hsince hf hc hi =>
    .step hsince hnext ⟨hf.trans hframes, hc.trans hchain, hi.trans hitems, hsince.over.sized.trans hsized⟩

theorem drop (h : Backed p view base items chain frames m) {t : Nat} (ht : t ≤ view.ends.length) :
    Backed p { view with ends := view.ends.drop t } base (items.drop t) chain frames m := by
  have hdepth := h.depth
  refine { h with operands := fun {k e} hk => ?_, below := ?_, depth := ?_ }
  · rw [getElem?_drop] at hk
    obtain ⟨m₁, hpc, hitems, hrest⟩ := h.operands hk
    exact ⟨m₁, hpc, by rw [drop_drop, hitems], hrest⟩
  · refine suffix_of_suffix_length_le h.below (drop_suffix t items) ?_
    rw [length_drop]
    omega
  · rw [length_drop]
    simp only [length_drop]
    omega

theorem push (h : Backed p view base items chain frames m) {e : Nat} {v : Datum} (hpc : m.pc = e)
    (hitems : m.stack.items = v :: items) (hchain : m.chain = chain) (hframes : m.frames = frames) :
    Backed p { view with ends := e :: view.ends } base (v :: items) chain frames m := by
  refine { h with operands := fun {k e'} hk => ?_, below := ?_, depth := ?_ }
  · cases k with
    | zero =>
      cases hk
      exact ⟨m, hpc, hitems, hchain, hframes, .refl⟩
    | succ k => exact h.operands hk
  · exact h.below.trans (suffix_cons v items)
  · rw [length_cons, length_cons, h.depth]
    omega

theorem enter (h : Backed p view base items chain frames m') {o : Open} (hends : view.ends = []) (hopens : Opens p o m m')
    (hchain : m.chain = chain) (hitems : m'.stack.items = items) (hframes : m'.frames = frames) :
    Backed p { view with scopes := o :: view.scopes } base items m'.chain frames m' := by
  have hcons : m'.chain = m.store.size :: chain := by rw [hopens.chain, hchain]
  refine { h with operands := fun {k e} hk => ?_, scopes := fun {d o'} hd => ?_, outer := ?_, nesting := ?_ }
  · rw [hends] at hk
    simp at hk
  · cases d with
    | zero =>
      cases hd
      refine ⟨m, m', hopens, ?_, rfl, hframes, .refl⟩
      -- the function has nothing on the stack here
      rw [hitems]
      refine (IsSuffix.eq_of_length h.below ?_).symm
      rw [h.depth, hends]
      rfl
    | succ d =>
      obtain ⟨m₀, m₁, hopens', hitems', hchain', hrest⟩ := h.scopes hd
      exact ⟨m₀, m₁, hopens', hitems', by rw [hchain', hcons]; rfl, hrest⟩
  · rw [hcons]
    exact h.outer.trans (suffix_cons _ _)
  · have hnesting := h.nesting
    rw [hcons, length_cons, length_cons]
    dsimp only
    omega

theorem leave (h : Backed p view base items chain frames m) {top : Open} {outer : List Open} {id : Nat} {rest : List Nat}
    (hends : view.ends = []) (hscopes : view.scopes = top :: outer) (hchain : chain = id :: rest)
    (hown : (if view.home.isSome then 1 else 0) ≤ outer.length) :
    Backed p { view with scopes := outer } base items rest frames m := by
  have hnesting := h.nesting
  rw [hchain, hscopes, length_cons, length_cons] at hnesting
  refine { h with operands := fun {k e} hk => ?_, scopes := fun {d o'} hd => ?_, outer := ?_, nesting := ?_ }
  · rw [hends] at hk
    simp at hk
  · have hd : view.scopes[d + 1]? = some o' := by
      rw [hscopes]
      exact hd
    obtain ⟨m₀, m₁, hopens, hitems, hchain', hrest⟩ := h.scopes hd
    exact ⟨m₀, m₁, hopens, hitems, by rw [hchain', hchain]; rfl, hrest⟩
  · rcases suffix_cons_iff.mp (hchain ▸ h.outer) with heq | hsuffix
    · have hlength := congrArg List.length heq
      rw [length_cons] at hlength
      omega
    · exact hsuffix
  · dsimp only
    omega

end Backed

end Machine

end Cilly
