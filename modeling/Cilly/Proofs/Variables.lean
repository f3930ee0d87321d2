import Cilly.Proofs.Acting
import Cilly.Proofs.Equality
import Cilly.Proofs.Interpreter
import Cilly.Proofs.Scopes
import Mathlib.Data.List.Forall2
import Mathlib.Data.List.Nodup

/-!
# Where variables are kept

The reference interpreter has the values of a scope by their names, and a machine has them in cells. `Stored` says that a machine
has the variables of a function in the scopes that it has open: a scope has all its names from the start, those that are declared so far in front.
Compilation finds a name in the scopes as they are declared so far (`find?_named`), and there the machine finds
the variable (`Stored.lookup`, `Stored.assign`).
-/

namespace Cilly

open Datum Reference List

variable {i : Nat} {names : List String}

namespace Reference

open Node

/-! ## Names -/

/-- The names that a block declares. -/
def declaredAll (ns : List Node) : List String := ns.flatMap declared

theorem declares_eq : ∀ {n : Node}, IsStat n → (∀ t ∈ leaves n, t.Lexed) → declares n = (declared n).map text
  | _, .ifThen _ hyes, h => by
    rw [leaves] at h
    rw [declares, declared, declares_eq hyes fun t ht => h t (mem_append_right _ ht)]
  | _, .ifElse _ hyes hno, h => by
    rw [leaves] at h
    rw [declares, declared, map_append,
      declares_eq hyes fun t ht => h t (mem_append_right _ (mem_append_left _ ht)),
      declares_eq hno fun t ht => h t (mem_append_right _ (mem_append_right _ ht))]
  | _, .loop _ hbody, h => by
    rw [leaves] at h
    rw [declares, declared, declares_eq hbody fun t ht => h t (mem_append_right _ ht)]
  | _, .define x _ _, h | _, .function x _ _, h => by
    rw [leaves] at h
    obtain ⟨s, hs⟩ := (h _ (mem_cons_self ..)).name rfl
    dsimp only at hs
    rw [hs]
    rfl
  | _, .exprStat _, _ | _, .print _, _ | _, .breakLoop, _ | _, .continueLoop, _ | _, .block _, _ | _, .assign _ _, _
  | _, .return, _ | _, .returnValue _, _ => rfl

theorem declaresAll_eq : ∀ {ns : List Node}, AreStats ns → (∀ t ∈ leavesAll ns, t.Lexed) →
    declaresAll ns = (declaredAll ns).map text
  | _, .nil, _ => rfl
  | _, .cons hn hns, h => by
    rw [leavesAll] at h
    obtain ⟨hfirst, hrest⟩ := forall_mem_append.mp h
    rw [declaresAll, declaredAll, flatMap_cons, map_append, declares_eq hn hfirst, declaresAll_eq hns hrest]
    rfl

/-- What compilation has in its scopes: the names that are declared so far, and outside of them nothing. -/
def Named (scopes : Scopes) (visible : List (Array Datum)) : Prop :=
  ∃ outside, visible = scopes.map (fun names => (names.map text).toArray) ++ outside ∧ ∀ names ∈ outside, names = #[]

namespace Named

variable {scopes : Scopes} {visible : List (Array Datum)}

theorem declare (h : Named scopes visible) (hopen : names ≠ [] → scopes ≠ []) :
    Named (scopes.declare names) (extended visible (names.map text)) := by
  obtain ⟨outside, rfl, houtside⟩ := h
  cases scopes with
  | nil =>
    have hnames : names = [] := Decidable.byContradiction fun hne => hopen hne rfl
    subst hnames
    exact ⟨outside, by simp [Scopes.declare], houtside⟩
  | cons top outer => exact ⟨outside, by simp [Scopes.declare, extended], houtside⟩

theorem block (h : Named scopes visible) : Named ([] :: scopes) (#[] :: visible) := by
  obtain ⟨outside, rfl, houtside⟩ := h
  exact ⟨outside, rfl, houtside⟩

theorem parameters (names : List String) : Named [names] [(names.map text).toArray] :=
  ⟨[], by simp, by simp⟩

end Named

/-- The place of a name: how many scopes out, and where in the scope. -/
def position? (x : String) : Scopes → Option (Nat × Nat)
  | [] => none
  | names :: scopes =>
    match names.findIdx? (· == x) with
    | some i => some (0, i)
    | none => (position? x scopes).map fun (depth, i) => (depth + 1, i)

theorem nameIndex?_texts (names : List String) (x : String) :
    nameIndex? (names.map text).toArray (.text x) = names.findIdx? (· == x) := by
  have htext : ∀ y : String, (text y).eq (.text x) = (y == x) := by
    intro y
    rw [Bool.eq_iff_iff, text_eq_iff, beq_iff_eq]
    exact ⟨fun h => (text.inj h).symm, fun h => h ▸ rfl⟩
  rw [nameIndex?, findIdx?_toArray, findIdx?_map]
  exact congrArg (names.findIdx? ·) (funext htext)

theorem find?_named {scopes : Scopes} {visible : List (Array Datum)} (h : Named scopes visible) (x : String) :
    Assembly.find? (.text x) visible = position? x scopes := by
  obtain ⟨outside, rfl, houtside⟩ := h
  induction scopes with
  | nil =>
    induction outside with
    | nil => rfl
    | cons names outside ih =>
      obtain ⟨hempty, houtside⟩ := forall_mem_cons.mp houtside
      have hrest : Assembly.find? (.text x) outside = none := ih houtside
      rw [hempty]
      show Assembly.find? (.text x) (#[] :: outside) = none
      rw [Assembly.find?, hrest, show nameIndex? #[] (.text x) = none from nameIndex?_texts [] x]
      rfl
  | cons names scopes ih =>
    rw [map_cons, cons_append, Assembly.find?, position?, nameIndex?_texts]
    cases names.findIdx? (· == x) with
    | some i => rfl
    | none => exact congrArg (Option.map fun (depth, i) => (depth + 1, i)) ih

/-! ## Cells -/

/-- All that was in the store is still there, but for the given scopes. -/
def Untouched (own : List Nat) (store store' : Array (Array Datum)) : Prop :=
  ∀ (id : Nat) (cells : Array Datum), id ∉ own → store[id]? = some cells → store'[id]? = some cells

/-- The open scopes have cells for their names, and the cells have the values of the variables. Scopes that the program has from the start
are none of them. -/
inductive Stored (p : Program) (store : Array (Array Datum)) : Scopes → Env → List Nat → Prop
  | nil (chain : List Nat) : Stored p store [] [] chain
  | cons {names : List String} {full : Scopes} {vars : Variables} {env : Env} {id : Nat} {chain : List Nat} :
      names.Nodup → store[id]? = some (names.map vars).toArray → p.scopes.size ≤ id → id ∉ chain.take env.length →
      Stored p store full env chain → Stored p store (names :: full) (vars :: env) (id :: chain)

theorem map_set (hnodup : names.Nodup) {x : String} (hx : names[i]? = some x)
    (vars : Variables) (v : Datum) :
    (names.map vars).toArray.setIfInBounds i v = (names.map (vars.set x v)).toArray := by
  rw [setIfInBounds_toArray]
  congr 1
  refine ext_getElem? fun j => ?_
  obtain ⟨hlt, hget⟩ := List.getElem?_eq_some_iff.mp hx
  rw [getElem?_set, getElem?_map, getElem?_map]
  by_cases hij : i = j
  · subst hij
    rw [if_pos rfl, length_map, if_pos hlt, hx]
    simp [Variables.set]
  · rw [if_neg hij]
    cases hy : names[j]? with
    | none => rfl
    | some y =>
      obtain ⟨hlt', hget'⟩ := List.getElem?_eq_some_iff.mp hy
      have hne : y ≠ x := by
        rintro rfl
        exact hij ((Nodup.getElem_inj_iff hnodup).mp (hget.trans hget'.symm))
      simp [Variables.set, hne]

namespace Stored

variable {p : Program} {store store' : Array (Array Datum)} {scopes full : Scopes} {env : Env} {chain : List Nat}
  {x : String} {v : Datum}

theorem length (h : Stored p store full env chain) : full.length = env.length := by
  induction h with
  | nil => rfl
  | cons _ _ _ _ _ ih => rw [length_cons, length_cons, ih]

/-- The scopes of the function are in the store, behind those of the program. -/
theorem own (h : Stored p store full env chain) : ∀ id ∈ chain.take env.length, p.scopes.size ≤ id ∧ id < store.size := by
  induction h with
  | nil chain => simp
  | cons _ hcells hfresh _ _ ih =>
    rw [length_cons, take_succ_cons]
    exact forall_mem_cons.mpr ⟨⟨hfresh, (Array.getElem?_eq_some_iff.mp hcells).1⟩, ih⟩

theorem congr (h : Stored p store full env chain)
    (hsame : ∀ (id : Nat) (cells : Array Datum), id ∈ chain.take env.length → store[id]? = some cells →
      store'[id]? = some cells) : Stored p store' full env chain := by
  induction h with
  | nil chain => exact .nil chain
  | cons hnodup hcells hfresh hother _ ih =>
    rw [length_cons, take_succ_cons] at hsame
    exact .cons hnodup (hsame _ _ (mem_cons_self ..) hcells) hfresh hother
      (ih fun id cells hid => hsame id cells (mem_cons_of_mem _ hid))

theorem extended (h : Stored p store full env chain) (hextends : Extends store store') :
    Stored p store' full env chain := h.congr fun id cells _ hcells => hextends id cells hcells

theorem getElem?_of_prefix {all : List String} (h : names <+: all) (hi : names.findIdx? (· == x) = some i) :
    all[i]? = some x := by
  obtain ⟨hlt, heq, -⟩ := findIdx?_eq_some_iff_getElem.mp hi
  obtain ⟨rest, rfl⟩ := h
  rw [getElem?_append_left hlt, getElem?_eq_getElem hlt, eq_of_beq heq]

theorem lookup_eq_none (hposition : position? x scopes = none) : lookup x scopes env = none := by
  induction scopes generalizing env with
  | nil => rfl
  | cons names scopes ih =>
    rw [position?] at hposition
    cases hi : names.findIdx? (· == x) with
    | some i =>
      rw [hi] at hposition
      cases hposition
    | none =>
      rw [hi] at hposition
      have hnot : x ∉ names := fun hmem => by simpa using findIdx?_eq_none_iff.mp hi x hmem
      cases env with
      | nil => rfl
      | cons vars env =>
        rw [lookup, if_neg hnot]
        exact ih (Option.map_eq_none_iff.mp hposition)

/-- **A variable is found** where compilation has found its name. -/
theorem lookup (h : Stored p store full env chain) (hbegins : Forall₂ IsPrefix scopes full) {depth : Nat}
    (hposition : position? x scopes = some (depth, i)) : ∃ id cells v, chain[depth]? = some id ∧
      store[id]? = some cells ∧ cells[i]? = some v ∧ lookup x scopes env = some v := by
  induction hbegins generalizing env chain depth with
  | nil => cases hposition
  | @cons names all scopes full hnames _ ih =>
    cases h with
    | @cons _ _ vars env id chain _ hcells _ _ hrest =>
      rw [position?] at hposition
      cases hi : names.findIdx? (· == x) with
      | some j =>
        rw [hi] at hposition
        cases hposition
        have hmem : x ∈ names := by
          obtain ⟨hlt, heq, -⟩ := findIdx?_eq_some_iff_getElem.mp hi
          exact eq_of_beq heq ▸ getElem_mem hlt
        refine ⟨id, _, vars x, rfl, hcells, ?_, by rw [lookup, if_pos hmem]⟩
        rw [getElem?_toArray, getElem?_map, getElem?_of_prefix hnames hi]
        rfl
      | none =>
        rw [hi] at hposition
        obtain ⟨⟨outer, j⟩, hposition, heq⟩ := Option.map_eq_some_iff.mp hposition
        cases heq
        have hnot : x ∉ names := fun hmem => by simpa using findIdx?_eq_none_iff.mp hi x hmem
        obtain ⟨id', cells, v, hid, hcells', hv, hlookup⟩ := ih hrest hposition
        exact ⟨id', cells, v, hid, hcells', hv, by rw [lookup, if_neg hnot, hlookup]⟩

/-- **A variable gets a value** where compilation has found its name. -/
theorem assign (h : Stored p store full env chain) (hbegins : Forall₂ IsPrefix scopes full) {depth i : Nat}
    (hposition : position? x scopes = some (depth, i)) (v : Datum) : ∃ id cells env', chain[depth]? = some id ∧
      id ∈ chain.take env.length ∧ store[id]? = some cells ∧ i < cells.size ∧
      Reference.assign x v scopes env = some env' ∧
      Stored p (store.setIfInBounds id (cells.setIfInBounds i v)) full env' chain := by
  induction hbegins generalizing env chain depth with
  | nil => cases hposition
  | @cons names all scopes full hnames _ ih =>
    cases h with
    | @cons _ _ vars env id chain hnodup hcells hfresh hother hrest =>
      rw [length_cons, take_succ_cons]
      rw [position?] at hposition
      have hlt := (Array.getElem?_eq_some_iff.mp hcells).1
      cases hi : names.findIdx? (· == x) with
      | some j =>
        rw [hi] at hposition
        cases hposition
        have hmem : x ∈ names := by
          obtain ⟨hlt, heq, -⟩ := findIdx?_eq_some_iff_getElem.mp hi
          exact eq_of_beq heq ▸ getElem_mem hlt
        have hname := getElem?_of_prefix hnames hi
        refine ⟨id, _, vars.set x v :: env, rfl, mem_cons_self .., hcells, ?_,
          by rw [Reference.assign, if_pos hmem], .cons hnodup ?_ hfresh hother (hrest.congr fun id' cells hid hcells' => ?_)⟩
        · simpa using (List.getElem?_eq_some_iff.mp hname).1
        · rw [Array.getElem?_setIfInBounds_self_of_lt hlt, map_set hnodup hname]
        · rw [Array.getElem?_setIfInBounds_ne (by rintro rfl; exact hother hid)]
          exact hcells'
      | none =>
        rw [hi] at hposition
        obtain ⟨⟨outer, j⟩, hposition, heq⟩ := Option.map_eq_some_iff.mp hposition
        cases heq
        have hnot : x ∉ names := fun hmem => by simpa using findIdx?_eq_none_iff.mp hi x hmem
        obtain ⟨id', cells, env', hid, hown, hcells', hlt', hassign, hstored⟩ := ih hrest hposition
        have hlength : env'.length = env.length := by rw [← hstored.length, hrest.length]
        refine ⟨id', cells, vars :: env', hid, mem_cons_of_mem _ hown, hcells', hlt',
          by rw [Reference.assign, if_neg hnot, hassign]; rfl, .cons hnodup ?_ hfresh (hlength ▸ hother) hstored⟩
        rw [Array.getElem?_setIfInBounds_ne (by rintro rfl; exact hother hown)]
        exact hcells

/-- A variable of the innermost scope gets its first value, behind those that are declared so far. -/
theorem define {names : List String} (h : Stored p store full env chain)
    (hbegins : Forall₂ IsPrefix ((names ++ [x]) :: scopes) full) (v : Datum) : ∃ id cells, chain[0]? = some id ∧
      id ∈ chain.take env.length ∧ store[id]? = some cells ∧ names.length < cells.size ∧
      Stored p (store.setIfInBounds id (cells.setIfInBounds names.length v)) full (define x v env) chain := by
  cases hbegins with
  | @cons _ all _ full hnames _ =>
    cases h with
    | @cons _ _ vars env id chain hnodup hcells hfresh hother hrest =>
      obtain ⟨more, rfl⟩ := hnames
      have hx : ((names ++ [x]) ++ more)[names.length]? = some x := by
        rw [append_assoc, getElem?_append_right (Nat.le_refl _), Nat.sub_self]
        rfl
      have hlt := (Array.getElem?_eq_some_iff.mp hcells).1
      refine ⟨id, _, rfl, by simp, hcells, by simp, .cons hnodup ?_ hfresh hother
        (hrest.congr fun id' cells hid hcells' => ?_)⟩
      · rw [Array.getElem?_setIfInBounds_self_of_lt hlt, map_set hnodup hx]
      · rw [Array.getElem?_setIfInBounds_ne (by rintro rfl; exact hother hid)]
        exact hcells'

theorem enter (h : Stored p store full env chain) (hstatic : p.scopes.size ≤ store.size) {names : List String}
    (hnodup : names.Nodup) (vars : Variables) :
    Stored p (store.push (names.map vars).toArray) (names :: full) (vars :: env) (store.size :: chain) := by
  refine .cons hnodup Array.getElem?_push_size hstatic (fun hmem => ?_) (h.extended (.push _ _))
  have hlt := (h.own _ hmem).2
  omega

end Stored

namespace Untouched

variable {own : List Nat} {store store' store'' : Array (Array Datum)} {cells : Array Datum}

theorem of_extends (h : Extends store store') : Untouched own store store' := fun id cells _ hcells => h id cells hcells

theorem refl (own : List Nat) (store : Array (Array Datum)) : Untouched own store store := fun _ _ _ h => h

theorem trans (h : Untouched own store store') (h' : Untouched own store' store'') : Untouched own store store'' :=
  fun id cells hid hcells => h' id cells hid (h id cells hid hcells)

theorem set {id : Nat} (hid : id ∈ own) (store : Array (Array Datum)) (cells : Array Datum) :
    Untouched own store (store.setIfInBounds id cells) := by
  intro id' cells' hid' hcells'
  rw [Array.getElem?_setIfInBounds_ne (by rintro rfl; exact hid' hid)]
  exact hcells'

theorem push (h : Untouched (store.size :: own) (store.push cells) store') : Untouched own store store' := by
  intro id cells' hid hcells'
  have hlt := (Array.getElem?_eq_some_iff.mp hcells').1
  refine h id cells' (fun hmem => ?_) (Extends.push store cells id cells' hcells')
  rcases mem_cons.mp hmem with heq | hmem
  · omega
  · exact hid hmem

theorem all (h : Untouched [] store store') : Extends store store' := fun id cells hcells => h id cells (by simp) hcells

/-- The scopes that a program has from the start are never touched. -/
theorem static {p : Program} (h : Untouched own store store') (hown : ∀ id ∈ own, p.scopes.size ≤ id)
    (hstatic : Extends p.scopes store) : Extends p.scopes store' := by
  intro id cells hcells
  have hlt := (Array.getElem?_eq_some_iff.mp hcells).1
  refine h id cells (fun hmem => ?_) (hstatic id cells hcells)
  have := hown id hmem
  omega

end Untouched

/-! ## Parameters -/

theorem map_parameters (hnodup : names.Nodup) {args : List Datum} (h : names.length = args.length) :
    names.map (parameters names args) = args := by
  induction names generalizing args with
  | nil => exact (length_eq_zero_iff.mp h.symm).symm
  | cons x names ih =>
    cases args with
    | nil => cases h
    | cons v args =>
      obtain ⟨hx, hnodup⟩ := nodup_cons.mp hnodup
      have hrest : names.map (parameters (x :: names) (v :: args)) = names.map (parameters names args) := by
        refine map_congr_left fun y hy => ?_
        have hne : (y == x) = false := beq_eq_false_iff_ne.mpr fun heq => hx (heq ▸ hy)
        rw [parameters, parameters, zip_cons_cons, lookup_cons, hne]
      rw [map_cons, hrest, ih hnodup (Nat.succ.inj h)]
      simp [parameters]

theorem map_texts {xs : List Datum} (h : ∀ x ∈ xs, ∃ s, x = .text s) : (texts xs).map text = xs := by
  induction xs with
  | nil => rfl
  | cons x xs ih =>
    obtain ⟨⟨s, rfl⟩, hxs⟩ := forall_mem_cons.mp h
    exact congrArg (text s :: ·) (ih hxs)

end Reference

end Cilly
