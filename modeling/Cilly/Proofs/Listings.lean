import Cilly.Program.Listing
import Cilly.Proofs.Parameters
import Cilly.Proofs.Stepping
import Cilly.Proofs.WellFormed

/-!
# The names in a listing

A listing shows beside each access to a variable the name that it finds by its own account of the scopes: whenever a
block is entered it opens the next of the recorded scopes, so that the first block gets the first of them, and so on.

But the parameters of a function are recorded as a scope too, and no instruction of the code enters it: a call opens it. So
the scope that a listing opens for a block falls behind the block's own by as many scopes as there were functions up to
there (`Lists.block`), and for a parameter, whose scope the listing has not open at all, it looks into the block around the
definition (`LooksUp.parameter`). `listing_names` says for every access of a program which name is shown.
-/

namespace Cilly

open Node

variable {address hi i lo scope : Nat} {depth : Int} {ends : List Nat} {instr : Instr} {names : Array Datum}
  {op : Opcode} {r : Progress} {s : OpenScopes} {set : Setting} {x : Scene}

/-! ## The order of the blocks -/

namespace Scene

variable (x : Scene)

/-- Whether a block is entered. -/
def isEnter : Bool := x.instr.entered?.isSome

/-- Whether the body of a function is entered. -/
def isBody : Bool := x.isEnter && x.view.home == some x.address

end Scene

/-- How many scenes of a kind stand in front of an address. -/
def countBefore (kind : Scene → Bool) (all : List Scene) (address : Nat) : Nat :=
  all.countP fun x => kind x && decide (x.address < address)

/-- How many blocks are entered in front of an address, in the order of the code. -/
def blocksBefore (all : List Scene) (address : Nat) : Nat := countBefore Scene.isEnter all address

/-- How many of them are bodies of functions. -/
def bodiesBefore (all : List Scene) (address : Nat) : Nat := countBefore Scene.isBody all address

theorem countBefore_append {kind : Scene → Bool} {front back : List Scene}
    (hfront : ∀ x ∈ front, x.address < address) (hback : ∀ x ∈ back, address ≤ x.address) :
    countBefore kind (front ++ back) address = front.countP kind := by
  have hnone : back.countP (fun x => kind x && decide (x.address < address)) = 0 := by
    refine List.countP_eq_zero.mpr fun x hx => ?_
    simp [Nat.not_lt.mpr (hback x hx)]
  rw [countBefore, List.countP_append, hnone, Nat.add_zero]
  refine List.countP_congr fun x hx => ?_
  simp [hfront x hx]

theorem Ordered.of_cons {spot : Spot} {spots : List Spot} (h : Ordered lo hi (spot :: spots)) :
    spot.address = lo ∧ ∃ middle, spot.instr.Spans lo middle ∧ Ordered middle hi spots := by
  cases h with
  | cons hspans hrest => exact ⟨rfl, _, hspans, hrest⟩

/-! ## Reading from front to back -/

/-- How far a listing has been read: the scopes that it has open, and how many functions it has come into. -/
structure Progress where
  scopes : OpenScopes
  bodies : Nat

namespace Progress

variable (p : Program)

/-- Behind an instruction. -/
def after (r : Progress) (x : Scene) : Progress :=
  match x.instr with
  | .enter _ => ⟨r.scopes.enter p.scopes, if x.isBody then r.bodies + 1 else r.bodies⟩
  | .leave => { r with scopes := r.scopes.leave }
  | _ => r

def past (r : Progress) (xs : List Scene) : Progress := xs.foldl (after p) r

theorem past_append (r : Progress) (xs ys : List Scene) : r.past p (xs ++ ys) = (r.past p xs).past p ys :=
  List.foldl_append

end Progress

/-- Something holds of each instruction and of how far a listing has been read in front of it. -/
def Along (p : Program) (Q : Progress → Scene → Prop) : Progress → List Scene → Prop
  | _, [] => True
  | r, x :: xs => Q r x ∧ Along p Q (r.after p x) xs

section

variable {p : Program} {Q : Progress → Scene → Prop} {r : Progress} {x : Scene} {xs ys : List Scene}

theorem Along.append_iff : Along p Q r (xs ++ ys) ↔ Along p Q r xs ∧ Along p Q (r.past p xs) ys := by
  induction xs generalizing r with
  | nil => simp [Along, Progress.past]
  | cons x xs ih =>
    rw [List.cons_append, Along, Along, ih, and_assoc]
    rfl

theorem Instr.In.scopesAfter (h : x.instr.In p x.address) (r : Progress) :
    p.scopesAfter r.scopes x.instr.op = (r.after p x).scopes := by
  obtain ⟨⟨address, instr, shape⟩, view, subject⟩ := x
  cases instr with
  | plain op | branch op =>
    obtain ⟨hop, -⟩ := h
    cases op with
    | enterScope | leaveScope => cases hop
    | _ => rfl
  | _ => rfl

theorem mapM_range {α : Type} {f : Nat → Except Fault α} {xs : List α} (h : ∀ k x, xs[k]? = some x → f k = .ok x) :
    (List.range xs.length).mapM f = .ok xs := by
  induction xs using List.reverseRecOn with
  | nil => rfl
  | append_singleton xs x ih =>
    have hfront : (List.range xs.length).mapM f = .ok xs := ih fun k y hk => h k y (by
      rw [List.getElem?_append_left (List.getElem?_eq_some_iff.mp hk).1]
      exact hk)
    have hlast : f xs.length = .ok x := h _ _ (by simp)
    rw [List.length_append, List.length_singleton, List.range_succ, List.mapM_append, hfront, List.mapM_cons, hlast]
    rfl

theorem Program.operands_of_holds {w : Int} {operands : List Int} (h : p.Holds address (w :: operands)) :
    p.operands address operands.length = .ok operands :=
  mapM_range fun k x hk => itemAt_of_getElem? (h (k + 1) x hk)

theorem Program.linesFrom_of_holds {operands : List Int}
    (h : p.Holds address (op.word :: operands)) : p.linesFrom address s = (do
      let head ← p.line s address op
      let tail ← p.linesFrom (address + op.size) (p.scopesAfter s op)
      return head :: tail) := by
  obtain ⟨hlt, hword⟩ := Array.getElem?_eq_some_iff.mp (h 0 op.word rfl)
  have hsize := op.size_pos
  rw [Program.linesFrom, dif_pos (show address < p.code.size from hlt), show p.code[address] = op.word from hword,
    Opcode.ofWord?_word]
  dsimp only
  rw [show address + (op.size - 1) + 1 = address + op.size by omega]

theorem Program.linesFrom_cons {operands : List Int} {rows : List String}
    (hholds : p.Holds address (op.word :: operands)) (h : p.linesFrom address s = .ok rows) :
    ∃ row rest, rows = row :: rest ∧ p.line s address op = .ok row ∧
      p.linesFrom (address + op.size) (p.scopesAfter s op) = .ok rest := by
  rw [Program.linesFrom_of_holds hholds] at h
  obtain ⟨row, hrow, h⟩ := Except.bind_eq_ok.mp h
  obtain ⟨rest, hrest, h⟩ := Except.bind_eq_ok.mp h
  cases h
  exact ⟨row, rest, rfl, hrow, hrest⟩

/-- **The rows of a listing are those of the instructions**, each with the scopes that are open in front of it. -/
theorem rows_of_along (hordered : Ordered lo hi (xs.map (·.toSpot)))
    (hfollows : p.Follows (xs.map (·.toSpot))) (hend : hi = p.code.size) {rows : List String}
    (hrows : p.linesFrom lo r.scopes = .ok rows) (halong : Along p Q r xs) :
    List.Forall₂ (fun x row => ∃ r, Q r x ∧ p.line r.scopes x.address x.instr.op = .ok row) xs rows := by
  induction xs generalizing lo r rows with
  | nil =>
    cases hordered
    rw [Program.linesFrom, dif_neg (by omega)] at hrows
    cases hrows
    exact .nil
  | cons x xs ih =>
    obtain ⟨hin, hrest⟩ := follows_cons.mp hfollows
    obtain ⟨hfirst, halong⟩ := halong
    obtain ⟨haddress, middle, hspans, hordered⟩ := hordered.of_cons
    obtain ⟨operands, -, hholds, -⟩ := hin.words
    rw [← haddress] at hrows hspans
    have hmiddle := hin.middle hspans
    obtain ⟨row, rest, rfl, hrow, hrows⟩ := Program.linesFrom_cons hholds hrows
    rw [hin.scopesAfter (x := x) r, ← hmiddle] at hrows
    exact .cons ⟨r, hfirst, hrow⟩ (ih hordered hrest hrows halong)

end

/-! ## The numbers of blocks -/

/-- The next scope that a listing opens is that of the number of the next block. -/
structure Numbered (p : Program) (all : List Scene) (r : Progress) (x : Scene) : Prop where
  blocks : blocksBefore all x.address + 1 = r.scopes.next
  bodies : bodiesBefore all x.address = r.bodies
  inside : x.isEnter = true → blocksBefore all (x.address + 2) = r.scopes.next ∧
    bodiesBefore all (x.address + 2) = (r.after p x).bodies

section

variable {p : Program} {all front xs : List Scene} {r : Progress} {x : Scene}

theorem OpenScopes.next_leave (s : OpenScopes) : s.leave.next = s.next := by
  unfold leave
  split <;> rfl

theorem OpenScopes.enter_of_some {scopes : Array (Array Datum)}
    (h : scopes[s.next]? = some names) : s.enter scopes = ⟨s.names.push names, s.next + 1⟩ := by
  rw [enter, h]

theorem Progress.after_of_enter {count : Nat} (h : x.instr = .enter count) :
    r.after p x = ⟨r.scopes.enter p.scopes, if x.isBody then r.bodies + 1 else r.bodies⟩ := by
  rw [after, h]

theorem Progress.next_after (h : x.isEnter = true → r.scopes.next < p.scopes.size) :
    (r.after p x).scopes.next = r.scopes.next + [x].countP Scene.isEnter := by
  cases hinstr : x.instr with
  | enter count =>
    have hlt := h (by simp [Scene.isEnter, hinstr, Instr.entered?])
    rw [after_of_enter hinstr, OpenScopes.enter_of_some (Array.getElem?_eq_getElem hlt)]
    simp [Scene.isEnter, hinstr, Instr.entered?]
  | leave => simp [after, Scene.isEnter, hinstr, Instr.entered?, OpenScopes.next_leave]
  | _ => simp [after, Scene.isEnter, hinstr, Instr.entered?]

theorem Progress.bodies_after : (r.after p x).bodies = r.bodies + [x].countP Scene.isBody := by
  cases hinstr : x.instr with
  | enter count =>
    rw [after_of_enter hinstr, List.countP_singleton]
    cases x.isBody <;> rfl
  | _ => simp [after, Scene.isBody, Scene.isEnter, hinstr, Instr.entered?]

/-- Blocks are entered in the order of their numbers. The induction is on what is still to be read. -/
theorem along_numbered (hall : all = front ++ xs) (hfront : ∀ x ∈ front, x.address < lo)
    (hordered : Ordered lo hi (xs.map (·.toSpot))) (hnext : r.scopes.next = front.countP Scene.isEnter + 1)
    (hbodies : r.bodies = front.countP Scene.isBody) (henough : all.countP Scene.isEnter < p.scopes.size) :
    Along p (Numbered p all) r xs := by
  induction xs generalizing front lo r with
  | nil => trivial
  | cons x xs ih =>
    obtain ⟨haddress, middle, hspans, hordered⟩ := hordered.of_cons
    have hbehind : ∀ y ∈ xs, middle ≤ y.address :=
      fun y hy => (hordered.bounds y.toSpot (List.mem_map_of_mem hy)).1
    have hhere : ∀ y ∈ x :: xs, lo ≤ y.address := by
      intro y hy
      rcases List.mem_cons.mp hy with rfl | hy
      · exact Nat.le_of_eq haddress.symm
      · exact Nat.le_trans (Nat.le_of_lt hspans.1) (hbehind y hy)
    have hfront' : ∀ y ∈ front ++ [x], y.address < middle := by
      intro y hy
      rcases List.mem_append.mp hy with hy | hy
      · exact Nat.lt_trans (hfront y hy) hspans.1
      · rw [List.mem_singleton.mp hy]
        exact haddress ▸ hspans.1
    have hall' : all = (front ++ [x]) ++ xs := by
      rw [hall, List.append_assoc]
      rfl
    refine ⟨⟨?_, ?_, fun henter => ?_⟩, ih hall' hfront' hordered ?_ ?_⟩
    · rw [hall, haddress, blocksBefore, countBefore_append hfront hhere, hnext]
    · rw [hall, haddress, bodiesBefore, countBefore_append hfront hhere, hbodies]
    · have hmiddle : middle = x.address + 2 := by
        cases hinstr : x.instr with
        | enter count =>
          have hsize := hspans.2.resolve_left (by simp [hinstr])
          simpa [hinstr, Instr.size, haddress] using hsize
        | _ => simp [Scene.isEnter, hinstr, Instr.entered?] at henter
      rw [← hmiddle, hall', blocksBefore, bodiesBefore, countBefore_append hfront' hbehind,
        countBefore_append hfront' hbehind, List.countP_append, List.countP_append, Progress.bodies_after, hnext,
        hbodies, List.countP_singleton, if_pos henter]
      exact ⟨rfl, rfl⟩
    · have hlt : x.isEnter = true → r.scopes.next < p.scopes.size := by
        intro henter
        rw [hall', List.countP_append, List.countP_append, List.countP_singleton, if_pos henter] at henough
        omega
      rw [Progress.next_after hlt, hnext, List.countP_append]
      omega
    · rw [Progress.bodies_after, hbodies, List.countP_append]

end

/-! ## The scopes that a listing has open -/

/-- The open scopes of a listing, innermost first. -/
def OpenScopes.inward (s : OpenScopes) : List (Array Datum) := s.names.toList.reverse

/-- A block is the one that a scope was recorded for, and a listing opens some scope for it. -/
structure Opens (p : Program) (all : List Scene) (home : Option Nat) (o : Open) (shown : Array Datum) : Prop where
  proper : home ≠ some o.inside
  shown : p.scopes[blocksBefore all o.inside]? = some shown
  own : p.scopes[blocksBefore all o.inside + bodiesBefore all o.inside]? = some o.names.toArray

/-- What a listing has open, innermost first, inside of a block of a function: a scope for each block of the function, and
behind these what is open where the function is defined. There is none for the parameters. -/
inductive Lists (p : Program) (all : List Scene) : Option Nat → List Open → List (Array Datum) → Prop
  | program {o : Open} {shown base : Array Datum} : Opens p all none o shown → p.scopes[1]? = some shown →
      Lists p all none [o] [shown, base]
  | block {home : Option Nat} {scopes : List Open} {listed : List (Array Datum)} {o : Open} {shown : Array Datum} :
      Lists p all home scopes listed → Opens p all home o shown → Lists p all home (o :: scopes) (shown :: listed)
  | body {definition : Scene} {listed : List (Array Datum)} {o params : Open} {shown : Array Datum} :
      definition ∈ all → definition.address + 2 = params.inside →
      Lists p all definition.view.home definition.view.scopes listed →
      p.scopes[blocksBefore all params.inside + bodiesBefore all params.inside + 1]? = some params.names.toArray →
      Opens p all (some params.inside) o shown → Lists p all (some params.inside) [o, params] (shown :: listed)

namespace Lists

variable {p : Program} {all : List Scene} {home : Option Nat} {scopes : List Open} {listed : List (Array Datum)}

theorem head (h : Lists p all home scopes listed) :
    ∃ o outer shown rest, scopes = o :: outer ∧ listed = shown :: rest ∧ Opens p all home o shown := by
  cases h with
  | program hopens _ => exact ⟨_, _, _, _, rfl, rfl, hopens⟩
  | block _ hopens => exact ⟨_, _, _, _, rfl, rfl, hopens⟩
  | body _ _ _ _ hopens => exact ⟨_, _, _, _, rfl, rfl, hopens⟩

/-- The outermost scopes are the empty one and that of the program. -/
theorem outermost (h : Lists p all home scopes listed) :
    ∃ inner shown base, listed = inner ++ [shown, base] ∧ p.scopes[1]? = some shown := by
  induction h with
  | program _ hfirst => exact ⟨[], _, _, rfl, hfirst⟩
  | @block _ _ _ _ shown _ _ ih | @body _ _ _ _ shown _ _ _ _ _ ih =>
    obtain ⟨inner, first, base, rfl, hfirst⟩ := ih
    exact ⟨shown :: inner, first, base, rfl, hfirst⟩

/-- What is open so many scopes out: the scope opened for a block, or, where the parameters would be, the one opened
for the block around the definition. -/
theorem getElem? (h : Lists p all home scopes listed) {d : Nat} {o : Open} (ho : scopes[d]? = some o) :
    (∃ shown, listed[d]? = some shown ∧ Opens p all home o shown) ∨
      home = some o.inside ∧
        p.scopes[blocksBefore all o.inside + bodiesBefore all o.inside + 1]? = some o.names.toArray ∧
        ∃ definition ∈ all, definition.address + 2 = o.inside ∧ ∃ around outer shown,
          definition.view.scopes = around :: outer ∧ listed[d]? = some shown ∧
          p.scopes[blocksBefore all around.inside]? = some shown := by
  induction h generalizing d with
  | program hopens _ =>
    cases d with
    | zero =>
      cases ho
      exact Or.inl ⟨_, rfl, hopens⟩
    | succ d => simp at ho
  | block _ hopens ih =>
    cases d with
    | zero =>
      cases ho
      exact Or.inl ⟨_, rfl, hopens⟩
    | succ d => exact ih ho
  | body hmem haddress hlists hparams hopens =>
    match d with
    | 0 =>
      cases ho
      exact Or.inl ⟨_, rfl, hopens⟩
    | 1 =>
      cases ho
      obtain ⟨around, outer, shown, rest, hscopes, rfl, haround⟩ := hlists.head
      exact Or.inr ⟨rfl, hparams, _, hmem, haddress, around, outer, shown, hscopes, rfl, haround.shown⟩
    | d + 2 => simp at ho

end Lists

/-! ## Statements -/

/-- Variables are accessed where the listing has those scopes open. -/
def Named (p : Program) (all : List Scene) (r : Progress) (x : Scene) : Prop :=
  ∀ y, x.subject = .variable y → Lists p all x.view.home x.view.scopes r.scopes.inward

theorem Named.of_none {p : Program} {all : List Scene} (h : x.subject = .none) :
    Named p all r x := by
  intro y hy
  rw [h] at hy
  cases hy

/-- What is known where a listing comes to the code of a statement that has recorded those scopes. -/
structure Ready (p : Program) (all : List Scene) (home : Option Nat) (around : List Open) (r : Progress)
    (recorded : List Scope) (xs : List Scene) : Prop where
  lists : Lists p all home around r.scopes.inward
  recorded : ∀ j scope, recorded[j]? = some scope → p.scopes[r.scopes.next + r.bodies + j]? = some scope.names.toArray
  numbered : Along p (Numbered p all) r xs
  members : ∀ x ∈ xs, x ∈ all

/-- A listing has come through the code of a statement: it has the scopes open that it had, and has passed so many. -/
structure Listed (p : Program) (all : List Scene) (r : Progress) (count : Nat) (xs : List Scene) : Prop where
  named : Along p (Named p all) r xs
  inward : (r.past p xs).scopes.inward = r.scopes.inward
  count : (r.past p xs).scopes.next + (r.past p xs).bodies = r.scopes.next + r.bodies + count

/-- How a listing comes through the code of a statement that has recorded those scopes. -/
def Lines (p : Program) (all : List Scene) (home : Option Nat) (around : List Open) (recorded : List Scope)
    (xs : List Scene) : Prop :=
  ∀ r, Ready p all home around r recorded xs → Listed p all r recorded.length xs

/-- Instructions that neither enter nor leave a block. -/
def Instr.Flat (instr : Instr) : Prop := instr.entered? = none ∧ instr ≠ .leave

/-- Such an instruction; a variable is accessed where those scopes are open. -/
def Scene.Flat (home : Option Nat) (around : List Open) (x : Scene) : Prop :=
  x.instr.Flat ∧ ∀ y, x.subject = .variable y → x.view.home = home ∧ x.view.scopes = around

theorem Setting.scene_flat {subject : Subject}
    (h : instr.Flat) : (set.scene address instr ends subject).Flat set.home set.scopes := ⟨h, fun _ _ => ⟨rfl, rfl⟩⟩

theorem Setting.scene_flat_none {home : Option Nat}
    {around : List Open} (h : instr.Flat) : (set.scene address instr ends .none).Flat home around :=
  ⟨h, fun _ hsubject => by cases hsubject⟩

namespace OpenScopes

variable {s : OpenScopes} {shown : Array Datum} {rest : List (Array Datum)}

theorem inward_push (next : Nat) : inward ⟨s.names.push shown, next⟩ = shown :: s.inward := by simp [inward]

theorem inward_leave (h : s.inward = shown :: rest) (hrest : rest ≠ []) : s.leave.inward = rest := by
  have hlist : s.names.toList = rest.reverse ++ [shown] := by
    rw [← List.reverse_reverse s.names.toList, show s.names.toList.reverse = shown :: rest from h, List.reverse_cons]
  have hsize : 1 < s.names.size := by
    have hpos := List.length_pos_of_ne_nil hrest
    rw [← Array.length_toList, hlist, List.length_append, List.length_reverse]
    exact Nat.lt_add_of_pos_left hpos
  rw [leave, if_pos hsize]
  simp [inward, hlist]

end OpenScopes

namespace Lines

variable {p : Program} {all xs ys : List Scene} {home : Option Nat} {around : List Open} {recorded more : List Scope}

theorem append (h : Lines p all home around recorded xs) (h' : Lines p all home around more ys) :
    Lines p all home around (recorded ++ more) (xs ++ ys) := by
  intro r hready
  obtain ⟨hfirst, hsecond⟩ := Along.append_iff.mp hready.numbered
  have hlisted := h r ⟨hready.lists, fun j scope hj => hready.recorded j scope (by
    rw [List.getElem?_append_left (List.getElem?_eq_some_iff.mp hj).1]
    exact hj), hfirst, members_left hready.members⟩
  have hlisted' := h' (r.past p xs) ⟨hlisted.inward ▸ hready.lists, fun j scope hj => by
    rw [hlisted.count, Nat.add_assoc]
    refine hready.recorded _ scope ?_
    rw [List.getElem?_append_right (Nat.le_add_right ..), Nat.add_sub_cancel_left]
    exact hj, hsecond, members_right hready.members⟩
  refine ⟨Along.append_iff.mpr ⟨hlisted.named, hlisted'.named⟩, ?_, ?_⟩
  · rw [Progress.past_append, hlisted'.inward, hlisted.inward]
  · rw [Progress.past_append, hlisted'.count, hlisted.count, List.length_append, Nat.add_assoc]

theorem flat (h : ∀ x ∈ xs, x.Flat home around) : Lines p all home around [] xs := by
  intro r hready
  have hlists := hready.lists
  have hpast : Along p (Named p all) r xs ∧ r.past p xs = r := by
    clear hready
    induction xs with
    | nil => exact ⟨trivial, rfl⟩
    | cons x xs ih =>
      obtain ⟨⟨henter, hleave⟩, hview⟩ := h x (List.mem_cons_self ..)
      obtain ⟨hrest, hpast⟩ := ih fun y hy => h y (List.mem_cons_of_mem _ hy)
      have hafter : r.after p x = r := by
        rw [Progress.after]
        cases hinstr : x.instr with
        | enter count => simp [hinstr, Instr.entered?] at henter
        | leave => exact absurd hinstr hleave
        | _ => rfl
      refine ⟨⟨fun y hy => ?_, by rwa [hafter]⟩, ?_⟩
      · obtain ⟨hhome, hscopes⟩ := hview y hy
        rwa [hhome, hscopes]
      · show (r.after p x).past p xs = r
        rw [hafter, hpast]
  exact ⟨hpast.1, by rw [hpast.2], by rw [hpast.2]; rfl⟩

theorem single {set : Setting} {subject : Subject} (h : instr.Flat) :
    Lines p all set.home set.scopes [] [set.scene address instr ends subject] :=
  flat (List.forall_mem_singleton.mpr (Setting.scene_flat h))

theorem behind (h : Lines p all home around recorded xs) (hflat : ∀ x ∈ ys, x.Flat home around) :
    Lines p all home around recorded (ys ++ xs) := (flat hflat).append h

theorem before (h : Lines p all home around recorded xs) (hflat : ∀ x ∈ ys, x.Flat home around) :
    Lines p all home around recorded (xs ++ ys) := by
  have hend : Lines p all home around [] ys := flat hflat
  have hall := h.append hend
  rwa [List.append_nil] at hall

theorem cons {x : Scene} (h : Lines p all home around recorded xs) (hflat : x.Flat home around) :
    Lines p all home around recorded (x :: xs) := h.behind (List.forall_mem_singleton.mpr hflat)

end Lines

section

variable {p : Program} {all xs : List Scene} {set : Setting} {here last count : Nat} {names params : List Datum}
  {inner : List Scope}

theorem Lists.ne_nil {home : Option Nat} {scopes : List Open} {listed : List (Array Datum)}
    (h : Lists p all home scopes listed) : listed ≠ [] := by
  obtain ⟨_, _, _, _, -, rfl, -⟩ := h.head
  exact List.cons_ne_nil _ _

/-- The next scope is opened for a block that is entered. -/
theorem Numbered.opens (h : Numbered p all r x) (home : Option Nat) (hx : x.instr = .enter count)
    (hproper : home ≠ some (x.address + 2))
    (hown : p.scopes[r.scopes.next + (r.after p x).bodies]? = some names.toArray) :
    ∃ shown, p.scopes[r.scopes.next]? = some shown ∧ Opens p all home ⟨x.address + 2, names⟩ shown := by
  have hlt := (Array.getElem?_eq_some_iff.mp hown).1
  obtain ⟨shown, hshown⟩ : ∃ shown, p.scopes[r.scopes.next]? = some shown := ⟨_, Array.getElem?_eq_getElem (by omega)⟩
  obtain ⟨hblocks, hbodies⟩ := h.inside (by simp [Scene.isEnter, hx, Instr.entered?])
  exact ⟨shown, hshown, hproper, by rwa [hblocks], by rwa [hblocks, hbodies]⟩

/-- A block: what is opened where it is entered is closed where it is left. -/
theorem Lines.enclosed {y : Scene} {home : Option Nat} {scopes : List Open} {shown : Array Datum} {k : Nat}
    (h : Lines p all home scopes inner xs) (hx : x.instr = .enter count ∧ x.subject = .none)
    (hy : y.instr = .leave ∧ y.subject = .none) (hshown : p.scopes[r.scopes.next]? = some shown)
    (hopen : r.scopes.inward ≠ []) (hlists : Lists p all home scopes (shown :: r.scopes.inward))
    (hbodies : (r.after p x).bodies + 1 = r.bodies + k)
    (hrecorded : ∀ j scope, inner[j]? = some scope →
      p.scopes[r.scopes.next + r.bodies + (j + k)]? = some scope.names.toArray)
    (hnumbered : Along p (Numbered p all) r (x :: (xs ++ [y]))) (hmembers : ∀ z ∈ xs, z ∈ all) :
    Listed p all r (inner.length + k) (x :: (xs ++ [y])) := by
  have hafter : (r.after p x).scopes = ⟨r.scopes.names.push shown, r.scopes.next + 1⟩ := by
    rw [Progress.after_of_enter hx.1, OpenScopes.enter_of_some hshown]
  have hinward : (r.after p x).scopes.inward = shown :: r.scopes.inward := by rw [hafter, OpenScopes.inward_push]
  have hnext : (r.after p x).scopes.next = r.scopes.next + 1 := by rw [hafter]
  have hlisted : Listed p all (r.after p x) inner.length xs := by
    refine h _ ⟨hinward ▸ hlists, fun j scope hj => ?_, (Along.append_iff.mp hnumbered.2).1, hmembers⟩
    have hstored := hrecorded j scope hj
    rwa [show r.scopes.next + r.bodies + (j + k) = (r.after p x).scopes.next + (r.after p x).bodies + j by omega] at hstored
  have hpast : r.past p (x :: (xs ++ [y])) =
      { (r.after p x).past p xs with scopes := ((r.after p x).past p xs).scopes.leave } := by
    show (r.after p x).past p (xs ++ [y]) = _
    rw [Progress.past_append]
    show ((r.after p x).past p xs).after p y = _
    rw [Progress.after, hy.1]
  refine ⟨⟨.of_none hx.2, Along.append_iff.mpr ⟨hlisted.named, .of_none hy.2, trivial⟩⟩, ?_, ?_⟩
  · rw [hpast]
    exact OpenScopes.inward_leave (hlisted.inward.trans hinward) hopen
  · have hcount := hlisted.count
    rw [hpast]
    show (OpenScopes.leave _).next + ((r.after p x).past p xs).bodies = _
    rw [OpenScopes.next_leave]
    omega

/-- A block that is not the body of a function gets the next scope, and it has recorded one. -/
theorem Lines.block (hhome : ∀ entry, set.home = some entry → entry < here)
    (h : Lines p all set.home (⟨here + 2, names⟩ :: set.scopes) inner xs) :
    Lines p all set.home set.scopes (.block names :: inner) (set.scene here (.enter count) [] .none ::
      (xs ++ [(set.inBlock (here + 2) names).scene last .leave [] .none])) := by
  intro r hready
  have hbodies : (r.after p (set.scene here (.enter count) [] .none)).bodies = r.bodies := by
    have hne : set.home ≠ some here := fun heq => absurd (hhome _ heq) (Nat.lt_irrefl _)
    simpa [Progress.bodies_after, Scene.isBody, Scene.isEnter, Setting.scene, Setting.view] using fun _ => hne
  obtain ⟨shown, hshown, hopens⟩ := hready.numbered.1.opens set.home rfl
    (fun heq => absurd (hhome _ heq) (by simp [Setting.scene])) (hbodies ▸ hready.recorded 0 _ rfl)
  exact h.enclosed ⟨rfl, rfl⟩ ⟨rfl, rfl⟩ hshown hready.lists.ne_nil (hready.lists.block hopens) (by rw [hbodies])
    (fun j scope hj => hready.recorded (j + 1) scope hj) hready.numbered (members_left (members_tail hready.members))

/-- A function: its parameters have recorded a scope, but the next scope is opened for its body. -/
theorem Lines.function {target : Nat}
    (h : Lines p all (some (here + 2)) [⟨here + 2 + 2, names⟩, ⟨here + 2, params⟩] inner xs) :
    Lines p all set.home set.scopes (.parameters params :: .block names :: inner)
      (set.scene here (.jump target) [] .none ::
        ((set.inFunction (here + 2) params).scene (here + 2) (.enter count) [] .none ::
          (xs ++ [((set.inFunction (here + 2) params).inBlock (here + 2 + 2) names).scene last .leave [] .none]))) := by
  intro r hready
  obtain ⟨-, hnumbered⟩ := hready.numbered
  rw [show r.after p (set.scene here (.jump target) [] .none) = r from rfl] at hnumbered
  have hbodies : (r.after p ((set.inFunction (here + 2) params).scene (here + 2) (.enter count) [] .none)).bodies =
      r.bodies + 1 := by
    simp [Progress.bodies_after, Scene.isBody, Scene.isEnter, Setting.scene, Setting.view, Setting.inFunction, Instr.entered?]
  have hown := hready.recorded 1 _ rfl
  rw [Nat.add_assoc, ← hbodies] at hown
  obtain ⟨shown, hshown, hopens⟩ := hnumbered.1.opens (some (here + 2)) rfl (by simp [Setting.scene]) hown
  have hstored : p.scopes[blocksBefore all (here + 2) + bodiesBefore all (here + 2) + 1]? = some params.toArray := by
    rw [Nat.add_right_comm, show blocksBefore all (here + 2) + 1 = _ from hnumbered.1.blocks,
      show bodiesBefore all (here + 2) = _ from hnumbered.1.bodies]
    exact hready.recorded 0 _ rfl
  have hjump : set.scene here (.jump target) [] .none ∈ all := hready.members _ (List.mem_cons_self ..)
  have hlists : Lists p all (some (here + 2)) [⟨here + 2 + 2, names⟩, ⟨here + 2, params⟩] (shown :: r.scopes.inward) :=
    @Lists.body p all _ _ _ ⟨here + 2, params⟩ _ hjump rfl hready.lists hstored hopens
  have hlisted := h.enclosed
    (y := ((set.inFunction (here + 2) params).inBlock (here + 2 + 2) names).scene last .leave [] .none)
    ⟨rfl, rfl⟩ ⟨rfl, rfl⟩ hshown hready.lists.ne_nil hlists (by rw [hbodies])
    (fun j scope hj => hready.recorded (j + 2) scope hj) hnumbered (members_left (members_tail (members_tail hready.members)))
  exact ⟨⟨.of_none rfl, hlisted.named⟩, hlisted.inward, hlisted.count⟩

/-- The block of a program gets the first scope that is recorded behind the empty one. -/
theorem Lines.program (h : Lines p all none [⟨2, names⟩] inner xs)
    (hscopes : p.scopes.toList = #[] :: (Scope.block names :: inner).map fun scope => scope.names.toArray)
    (hmembers : ∀ x ∈ xs, x ∈ all)
    (hnumbered : Along p (Numbered p all) ⟨.initial p.scopes, 0⟩ (Setting.scene ⟨[], [], none⟩ 0 (.enter count) [] .none ::
      (xs ++ [(Setting.inBlock ⟨[], [], none⟩ 2 names).scene last .leave [] .none]))) :
    Along p (Named p all) ⟨.initial p.scopes, 0⟩ (Setting.scene ⟨[], [], none⟩ 0 (.enter count) [] .none ::
      (xs ++ [(Setting.inBlock ⟨[], [], none⟩ 2 names).scene last .leave [] .none])) := by
  have hrecorded : ∀ j, p.scopes[j + 1]? = ((Scope.block names :: inner)[j]?).map fun scope => scope.names.toArray := by
    intro j
    rw [← Array.getElem?_toList, hscopes, List.getElem?_cons_succ, List.getElem?_map]
  have hfirst : p.scopes[1]? = some names.toArray := hrecorded 0
  have hinward : (OpenScopes.initial p.scopes).inward = [#[]] := by
    rw [OpenScopes.inward, OpenScopes.initial, Array.take_eq_extract, Array.toList_extract, hscopes]
    rfl
  obtain ⟨shown, hshown, hopens⟩ := hnumbered.1.opens none rfl (by simp) (hrecorded 0)
  obtain rfl : names.toArray = shown := Option.some.inj (hfirst.symm.trans hshown)
  refine (h.enclosed (k := 1) ⟨rfl, rfl⟩ ⟨rfl, rfl⟩ hshown (by simp [hinward]) ?_ rfl (fun j scope hj => ?_) hnumbered
    hmembers).named
  · rw [hinward]
    exact .program hopens hfirst
  · show p.scopes[1 + 0 + (j + 1)]? = _
    rw [Nat.add_zero, Nat.add_comm, hrecorded (j + 1), List.getElem?_cons_succ, hj]
    rfl

end

namespace Layout

variable (prims : List String)

section

variable {set : Setting} {c : Names}

theorem flat_operands : Instr.EveryOperand Instr.Flat := by
  constructor <;> intros <;> exact ⟨rfl, by simp⟩

theorem storing_flat (x : Datum) : (c.storing x).Flat := by
  unfold Names.storing
  split <;> exact ⟨rfl, by simp⟩

theorem assigning_flat (x : Datum) : (c.assigning prims x).Flat := by
  unfold Names.assigning
  split <;> exact ⟨rfl, by simp⟩

theorem Scene.Of.flat (h : x.Of set) (hflat : x.instr.Flat) : x.Flat set.home set.scopes :=
  ⟨hflat, fun _ _ => ⟨h.home, h.scopes⟩⟩

theorem expression_flat {e : Node} (he : IsExpr e) (below : List Nat) (start : Nat) :
    ∀ x ∈ expressionScenes prims set c below start e, x.Flat set.home set.scopes := by
  intro x hx
  have hspot : x.toSpot ∈ expression prims set.shape c start e := by
    rw [← expressionScenes_toSpot prims set c he below start]
    exact List.mem_map_of_mem hx
  exact Scene.Of.flat ((expression_strand prims set c he below start).of x hx) (flat_operands.expression he start _ hspot)

theorem printed_flat {es : List Node} (hes : AreExprs es) (start : Nat) :
    ∀ x ∈ printedScenes prims set c start es, x.Flat set.home set.scopes := by
  intro x hx
  have hspot : x.toSpot ∈ printed prims set.shape c start es := by
    rw [← printedScenes_toSpot prims set c hes start]
    exact List.mem_map_of_mem hx
  exact Scene.Of.flat ((printed_strand prims set c hes start).of x hx) (flat_operands.printed hes start _ hspot)

end

variable {p : Program} {all : List Scene}

theorem expression_then_lines {c : Names} {e : Node} (he : IsExpr e) {start last : Nat}
    {subject : Subject} (hflat : instr.Flat) :
    Lines p all set.home set.scopes []
      (expressionScenes prims set c [] start e ++ [set.scene last instr ends subject]) :=
  .behind (.single hflat) (expression_flat prims he [] start)

mutual

theorem statement_lines : ∀ {n : Node}, IsStat n → ∀ (set : Setting) (s : Point),
    (∀ entry, set.home = some entry → entry < s.here) →
    Lines p all set.home set.scopes (scopes n) (statementScenes prims set s n)
  | _, .exprStat he, set, s, _ => by
    rw [scopes, statementScenes]
    · exact expression_then_lines prims he ⟨rfl, by simp⟩
    all_goals simp
  | _, .print hargs, set, s, _ => by
    rw [scopes, statementScenes]
    · exact .behind (.single ⟨rfl, by simp⟩) (printed_flat prims hargs _)
    all_goals simp
  | _, @IsStat.ifThen cond yes hcond hyes, set, s, hhome => by
    rw [scopes, statementScenes]
    have hyes := statement_lines hyes set (s.skip (width prims s.toNames cond + 2))
      fun entry h => Nat.lt_add_right _ (hhome entry h)
    exact (hyes.cons (Setting.scene_flat ⟨rfl, by simp⟩)).behind (expression_flat prims hcond [] _)
  | _, @IsStat.ifElse cond yes no hcond hyes hno, set, s, hhome => by
    rw [scopes, statementScenes]
    have hmiddle := (statement_laid prims hyes set.shape (s.skip (width prims s.toNames cond + 2))).ordered.le
    have hyes := statement_lines hyes set (s.skip (width prims s.toNames cond + 2))
      fun entry h => Nat.lt_add_right _ (hhome entry h)
    have hno := statement_lines hno set
      ((next prims (s.skip (width prims s.toNames cond + 2)) yes).skip 2) fun entry h => by
        have hlt := hhome entry h
        rw [Point.skip_here] at hmiddle ⊢
        omega
    exact ((hyes.append (hno.cons (Setting.scene_flat_none ⟨rfl, by simp⟩))).cons
      (Setting.scene_flat ⟨rfl, by simp⟩)).behind (expression_flat prims hcond [] _)
  | _, @IsStat.loop cond body hcond hbody, set, s, hhome => by
    rw [scopes, statementScenes]
    have hbody := fun stop => statement_lines hbody (set.inLoop s.here stop)
      (s.skip (width prims s.toNames cond + 2)) fun entry h => Nat.lt_add_right _ (hhome entry h)
    exact (((hbody _).before (List.forall_mem_singleton.mpr (Setting.scene_flat_none ⟨rfl, by simp⟩))).cons
      (Setting.scene_flat ⟨rfl, by simp⟩)).behind (expression_flat prims hcond [] _)
  | _, .breakLoop, set, s, _ => by
    rw [scopes, statementScenes]
    · split <;> exact .single ⟨rfl, by simp⟩
    all_goals simp
  | _, .continueLoop, set, s, _ => by
    rw [scopes, statementScenes]
    · split <;> exact .single ⟨rfl, by simp⟩
    all_goals simp
  | _, .block hbody, set, s, hhome => by
    rw [scopes, statementScenes]
    exact .block hhome (statements_lines hbody (set.inBlock _ _) s.inBlock
      fun entry h => Nat.lt_add_right _ (hhome entry h))
  | _, @IsStat.function x xs body hbody, set, s, hhome => by
    rw [scopes, scopes, statementScenes_function, statementScenes]
    have hinside := statements_lines hbody ((set.inFunction (s.here + 2) xs).inBlock (s.here + 2 + 2) (declaresAll body))
      (s.inFunction x xs).inBlock fun entry h => by
        cases h
        exact Nat.lt_add_of_pos_right (by decide)
    exact (Lines.function hinside).before (List.forall_mem_cons.mpr ⟨Setting.scene_flat_none ⟨rfl, by simp⟩,
      List.forall_mem_cons.mpr ⟨Setting.scene_flat ⟨rfl, by simp⟩,
        List.forall_mem_singleton.mpr (Setting.scene_flat (storing_flat x))⟩⟩)
  | _, .define x hvalue hne, set, s, _ => by
    rw [scopes_variable hne, statementScenes_variable _ hne]
    exact expression_then_lines prims hvalue (storing_flat x)
  | _, .assign x hvalue, set, s, _ => by
    rw [scopes, statementScenes]
    · exact expression_then_lines prims hvalue (assigning_flat prims x)
    all_goals simp
  | _, .return, set, s, _ => by
    rw [scopes, statementScenes]
    · split <;> exact .single ⟨rfl, by simp⟩
    all_goals simp
  | _, .returnValue hvalue, set, s, _ => by
    rw [scopes, statementScenes]
    · split <;> exact expression_then_lines prims hvalue ⟨rfl, by simp⟩
    all_goals simp

theorem statements_lines : ∀ {ns : List Node}, AreStats ns → ∀ (set : Setting) (s : Point),
    (∀ entry, set.home = some entry → entry < s.here) →
    Lines p all set.home set.scopes (scopesAll ns) (statementsScenes prims set s ns)
  | _, .nil, set, s, _ => by
    rw [scopesAll, statementsScenes]
    exact .flat (by simp)
  | _, .cons hn hns, set, s, hhome => by
    rw [scopesAll, statementsScenes]
    have hle := (statement_laid prims hn set.shape s).ordered.le
    exact (statement_lines hn set s hhome).append (statements_lines hns set _
      fun entry h => Nat.lt_of_lt_of_le (hhome entry h) hle)

end

end Layout

/-! ## Programs -/

section

variable {prims : List String} {body : List Node} {p : Program}

theorem Program.LaidOut.enough_scopes (h : p.LaidOut prims body) (hbody : AreStats body) :
    (Layout.scenes prims body).countP Scene.isEnter < p.scopes.size := by
  have hcount : (Layout.scenes prims body).countP Scene.isEnter =
      (Layout.blockSizes (Node.scopes (.block body))).length := by
    rw [← (h.tallied hbody).blocks, ← Layout.program_toSpot prims hbody, List.filterMap_map,
      List.length_filterMap_eq_countP]
    rfl
  have hsize : p.scopes.size = (Node.scopes (.block body)).length + 1 := by
    rw [← Array.length_toList, h.scopes, List.length_cons, List.length_map]
  have hle := List.length_filterMap_le Scope.block? (Node.scopes (.block body))
  rw [hcount, hsize, Layout.blockSizes, List.length_map]
  omega

/-- **A listing has scopes open as `Lists` says wherever a variable is accessed.** -/
theorem Program.LaidOut.along_named (h : p.LaidOut prims body) (hbody : AreStats body) :
    Along p (Named p (Layout.scenes prims body)) ⟨.initial p.scopes, 0⟩ (Layout.scenes prims body) := by
  have hordered := (Layout.program_laid prims hbody).ordered
  rw [← Layout.program_toSpot prims hbody] at hordered
  have hnumbered := along_numbered (r := ⟨.initial p.scopes, 0⟩) (List.nil_append _).symm (List.forall_mem_nil _) hordered
    rfl rfl (h.enough_scopes hbody)
  -- the same list is walked along and counted in; only the former is opened
  suffices hwalk : ∀ xs, xs = Layout.scenes prims body → Along p (Numbered p (Layout.scenes prims body)) _ xs →
      Along p (Named p (Layout.scenes prims body)) _ xs from hwalk _ rfl hnumbered
  intro xs hxs hnumbered
  have hmembers : ∀ x ∈ xs, x ∈ Layout.scenes prims body := fun x hx => hxs ▸ hx
  generalize Layout.scenes prims body = all at hnumbered hmembers
  rw [Layout.scenes, Layout.statementScenes] at hxs
  subst hxs
  have hinside : Lines p all none [⟨2, declaresAll body⟩] (scopesAll body) (Layout.statementsScenes prims
      (Setting.inBlock ⟨[], [], none⟩ 2 (declaresAll body)) (Layout.origin body).inBlock body) :=
    Layout.statements_lines prims hbody (Setting.inBlock ⟨[], [], none⟩ 2 (declaresAll body)) _ (by rintro _ ⟨⟩)
  have hscopes := h.scopes
  rw [Node.scopes] at hscopes
  exact hinside.program hscopes (members_left (members_tail hmembers)) hnumbered

end

/-- The name at an index of a recorded scope, as a listing shows it. -/
def Program.label (p : Program) (scope index : Nat) : Datum :=
  ((p.scopes[scope]?).bind (·[index]?)).getD (.text "Error:OOB")

/-- The recorded scope in which a listing looks up the name of the variable at an index, so many scopes out. -/
inductive LooksUp (p : Program) (primitives : List String) (all : List Scene) (x : Scene) (own : String) (index : Nat) :
    Int → Nat → Prop
  /-- For a variable of a block, the scope of the block's number. Its own is as many scopes further on as functions have been
  come into. -/
  | block {d : Nat} {o : Open} : x.view.scopes[d]? = some o → x.view.home ≠ some o.inside →
      p.label (blocksBefore all o.inside + bodiesBefore all o.inside) index = .text own →
      LooksUp p primitives all x own index d (blocksBefore all o.inside)
  /-- For a parameter, the scope that it would be for the block around the definition of the function. -/
  | parameter {d : Nat} {o around : Open} {definition : Scene} {outer : List Open} : x.view.scopes[d]? = some o →
      x.view.home = some o.inside →
      p.label (blocksBefore all o.inside + bodiesBefore all o.inside + 1) index = .text own →
      definition ∈ all → definition.address + 2 = o.inside → definition.view.scopes = around :: outer →
      LooksUp p primitives all x own index d (blocksBefore all around.inside)
  /-- For a primitive that is used as a variable, the scope of the program. -/
  | primitive : primitives[index]? = some own → LooksUp p primitives all x own index (-2) 1

/-- The row of an access to a variable: the name that is shown is the one that is looked up. -/
structure Scene.AccessRow (p : Program) (primitives : List String) (all : List Scene) (x : Scene) (depth : Int)
    (index : Nat) (own name row : String) : Prop where
  subject : x.subject = .variable (.text own)
  label : ∃ scope, LooksUp p primitives all x own index depth scope ∧ p.label scope index = .text name
  row : ∃ outward place, Datum.intText depth = .ok outward ∧ Datum.intText index = .ok place ∧ row =
    Decimal.padded 4 x.address ++ "\t" ++ " ".intercalate [x.instr.op.mnemonic, outward, place, "(" ++ name ++ ")"]

section

variable {prims : List String} {body : List Node} {p : Program} {s : OpenScopes}

theorem itemAt_toOption {α : Type} (xs : Array α) (i : Nat) : (itemAt xs (i : Int)).toOption = xs[i]? := by
  cases h : xs[i]? with
  | some x =>
    rw [itemAt_of_getElem? h]
    rfl
  | none =>
    have hsize := Array.getElem?_eq_none_iff.mp h
    cases hitem : itemAt xs (i : Int) with
    | error f => rfl
    | ok x => exact absurd (lt_size_of_itemAt hitem) (by omega)

theorem OpenScopes.nameAt_of_itemAt
    (hitem : itemAt s.names (-depth - 1) = .ok names) (hscope : p.scopes[scope]? = some names) :
    s.nameAt depth i = p.label scope i := by
  rw [nameAt, hitem]
  dsimp only
  rw [itemAt_toOption, Program.label, hscope]
  rfl

theorem OpenScopes.nameAt_of_inward {d : Nat} (hnames : s.inward[d]? = some names)
    (hscope : p.scopes[scope]? = some names) : s.nameAt d i = p.label scope i := by
  have hitem := itemAt_reverse hnames
  rw [inward, List.reverse_reverse, Array.toArray_toList] at hitem
  exact nameAt_of_itemAt hitem hscope

theorem Program.line_of_access {index : Int} {name row : String}
    (hop : op = .loadVar ∨ op = .storeVar) (hholds : p.Holds address [op.word, depth, index])
    (hname : s.nameAt depth index = .text name) (hrow : p.line s address op = .ok row) :
    ∃ outward place, Datum.intText depth = .ok outward ∧ Datum.intText index = .ok place ∧ row =
      Decimal.padded 4 address ++ "\t" ++ " ".intercalate [op.mnemonic, outward, place, "(" ++ name ++ ")"] := by
  have hsize : op.size - 1 = 2 := by rcases hop with rfl | rfl <;> rfl
  have hnote : p.referent s op [depth, index] = .ok (some name) := by
    rcases hop with rfl | rfl <;>
    · rw [Program.referent, hname]
      rfl
  obtain ⟨operands, hoperands, hrow⟩ := Except.bind_eq_ok.mp hrow
  obtain ⟨note, hnote', hrow⟩ := Except.bind_eq_ok.mp hrow
  obtain ⟨shown, hshown, hrow⟩ := Except.bind_eq_ok.mp hrow
  rw [hsize] at hoperands
  obtain rfl : [depth, index] = operands := Except.ok.inj ((Program.operands_of_holds hholds).symm.trans hoperands)
  obtain rfl : some name = note := Except.ok.inj (hnote.symm.trans hnote')
  rw [List.mapM_cons] at hshown
  obtain ⟨outward, hdepth, hshown⟩ := Except.bind_eq_ok.mp hshown
  obtain ⟨rest, hrest, hshown⟩ := Except.bind_eq_ok.mp hshown
  rw [List.mapM_cons] at hrest
  obtain ⟨place, hindex, hrest⟩ := Except.bind_eq_ok.mp hrest
  cases hrest
  cases hshown
  exact ⟨outward, place, hdepth, hindex, (Except.ok.inj hrow).symm⟩

theorem Program.label_of_names {names : List Datum} {y : Datum}
    (hscope : p.scopes[scope]? = some names.toArray) (hy : names[i]? = some y) : p.label scope i = y := by
  rw [Program.label, hscope]
  show (names.toArray[i]?).getD _ = y
  rw [List.getElem?_toArray, hy]
  rfl

theorem Program.LaidOut.label_text (h : p.LaidOut prims body) (htexts : HasTexts body) (scope i : Nat) :
    ∃ name, p.label scope i = .text name := by
  unfold Program.label
  cases hscope : p.scopes[scope]? with
  | none => exact ⟨_, rfl⟩
  | some names =>
    cases hname : names[i]? with
    | none => exact ⟨"Error:OOB", by rw [Option.bind_some, hname]; rfl⟩
    | some y =>
      obtain ⟨name, hy⟩ := h.names_texts htexts names (Array.mem_toList_iff.mpr (Array.mem_of_getElem? hscope)) y
        (Array.mem_toList_iff.mpr (Array.mem_of_getElem? hname))
      exact ⟨name, by rw [Option.bind_some, hname, hy]; rfl⟩

theorem Program.LaidOut.looksUp (h : p.LaidOut prims body) (hbody : AreStats body) (htexts : HasTexts body)
    (hx : x ∈ Layout.scenes prims body) {index : Int}
    (hinstr : x.instr = .load depth index ∨ x.instr = .store depth index)
    (hnamed : Named p (Layout.scenes prims body) r x) :
    ∃ (own : String) (i scope : Nat), x.subject = .variable (.text own) ∧ index = i ∧
      LooksUp p prims (Layout.scenes prims body) x own i depth scope ∧
      r.scopes.nameAt depth index = p.label scope i := by
  obtain ⟨y, hsubject, ⟨d, i, o, rfl, rfl, ho, hname⟩ | ⟨-, own, -, heq, rfl, i, rfl, hown⟩⟩ :=
    Layout.found_of_access hbody htexts hx hinstr
  · rcases (hnamed y hsubject).getElem? ho with ⟨shown, hshown, hopens⟩ |
      ⟨hhome, hparams, definition, hmem, haddress, around, outer, shown, hscopes, hshown, hscope⟩
    · have hlabel := Program.label_of_names hopens.own hname
      obtain ⟨own, hown⟩ := h.label_text htexts _ i
      rw [← hlabel, hown] at hsubject
      exact ⟨own, i, _, hsubject, rfl, .block ho hopens.proper hown, OpenScopes.nameAt_of_inward hshown hopens.shown⟩
    · have hlabel := Program.label_of_names hparams hname
      obtain ⟨own, hown⟩ := h.label_text htexts _ i
      rw [← hlabel, hown] at hsubject
      exact ⟨own, i, _, hsubject, rfl, .parameter ho hhome hown hmem haddress hscopes,
        OpenScopes.nameAt_of_inward hshown hscope⟩
  · -- the offset 1 counts from the outermost scope, and finds the one of the program
    obtain ⟨inner, shown, base, hinward, hfirst⟩ := (hnamed y hsubject).outermost
    have hnames : r.scopes.names.toList = base :: shown :: inner.reverse := by
      rw [← List.reverse_reverse r.scopes.names.toList, show r.scopes.names.toList.reverse = _ from hinward]
      simp
    have hitem : itemAt r.scopes.names ((1 : Nat) : Int) = .ok shown := by
      refine itemAt_of_getElem? ?_
      rw [← Array.getElem?_toList, hnames]
      rfl
    cases Datum.text_eq_iff.mp heq
    exact ⟨own, i, 1, hsubject, rfl, .primitive hown, OpenScopes.nameAt_of_itemAt hitem hfirst⟩

/-- Where there is no function the name of a variable is looked up in its own scope. -/
theorem LooksUp.own {all : List Scene} {own : String}
    (h : LooksUp p prims all x own i depth scope) (hx : x ∈ all) (hnone : ∀ z ∈ all, z.view.home = none)
    (hdepth : 0 ≤ depth) : p.label scope i = .text own := by
  cases h with
  | @block d o _ _ hown =>
    have hzero : bodiesBefore all o.inside = 0 := by
      refine List.countP_eq_zero.mpr fun z hz => ?_
      simp [Scene.isBody, hnone z hz]
    rwa [hzero] at hown
  | parameter _ hhome =>
    rw [hnone x hx] at hhome
    cases hhome
  | primitive => omega

end

/-- **The names that a listing shows.** Let a text be compiled with any primitives, and let its listing be made. It has a row
for each instruction, and the row of an access to a variable ends with a name, which is looked up as `LooksUp` says: in
general not in the scope of the variable. Where the program has no function, it is the name of the variable, unless that is
a primitive. -/
theorem Program.listing_names {text shown : String} {body : List Node} {primitives : List String} {p : Program}
    (htext : Node.ofText text = .ok (.program body)) (hp : Program.ofNode primitives (.program body) = .ok p)
    (hlisting : p.listing = .ok shown) :
    ∃ rows, shown = "\n".intercalate rows ∧ List.Forall₂ (fun x row => ∀ depth index : Int,
      x.instr = .load depth index ∨ x.instr = .store depth index → ∃ (i : Nat) (own name : String), index = i ∧
        x.AccessRow p primitives (Layout.scenes primitives body) depth i own name row ∧
        ((∀ z ∈ Layout.scenes primitives body, z.view.home = none) → 0 ≤ depth → name = own))
      (Layout.scenes primitives body) rows := by
  obtain ⟨_, ⟨⟩, hbody⟩ := areStats_of_text htext
  have htexts := hasTexts_of_text htext
  have hlaid := Program.laidOut hbody hp
  obtain ⟨rows, hrows, rfl⟩ : ∃ rows, p.linesFrom 0 (.initial p.scopes) = .ok rows ∧ shown = "\n".intercalate rows := by
    obtain ⟨rows, hrows, hlisting⟩ := Except.bind_eq_ok.mp hlisting
    cases hlisting
    exact ⟨rows, hrows, rfl⟩
  have hordered := (Layout.program_laid primitives hbody).ordered
  have hfollows := hlaid.follows
  rw [← Layout.program_toSpot primitives hbody] at hordered hfollows
  have hforall := rows_of_along (r := ⟨.initial p.scopes, 0⟩) hordered hfollows hlaid.size.symm hrows
    (hlaid.along_named hbody)
  refine ⟨rows, rfl, ((List.forall₂_and_left _ _).mpr ⟨fun x hx => hx, hforall⟩).imp ?_⟩
  rintro x row ⟨hx, r, hnamed, hrow⟩ depth index hinstr
  obtain ⟨own, i, scope, hsubject, rfl, hlooks, hname⟩ := hlaid.looksUp hbody htexts hx hinstr hnamed
  obtain ⟨name, hlabel⟩ := hlaid.label_text htexts scope i
  have hin := hfollows _ (List.mem_map_of_mem hx)
  have hholds : p.Holds x.address [x.instr.op.word, depth, (i : Int)] ∧
      (x.instr.op = .loadVar ∨ x.instr.op = .storeVar) := by
    rcases hinstr with hinstr | hinstr
    · rw [hinstr] at hin ⊢
      exact ⟨hin, Or.inl rfl⟩
    · rw [hinstr] at hin ⊢
      exact ⟨hin, Or.inr rfl⟩
  have hshown := Program.line_of_access hholds.2 hholds.1 (hname.trans hlabel) hrow
  refine ⟨i, own, name, rfl, ⟨hsubject, ⟨scope, hlooks, hlabel⟩, hshown⟩, fun hnone hdepth => ?_⟩
  have hsame := hlabel.symm.trans (hlooks.own hx hnone hdepth)
  cases hsame
  rfl

/-- A parameter is listed under the name of the function. -/
theorem Program.parameter_listed_by_another_name :
    ∃ (p : Program) (body : List Node) (shown : String) (x : Scene) (row : String),
      Node.ofText "var f = fun(x) \x7b print(x); \x7d;\n" = .ok (.program body) ∧
      Program.ofNode [] (.program body) = .ok p ∧ p.listing = .ok shown ∧ x ∈ Layout.scenes [] body ∧
      x.AccessRow p [] (Layout.scenes [] body) 1 0 "x" "f" row := by
  let body : List Node :=
    [.define (.text "f") (.function [.text "x"] (.block [.print [.name (.text "x")]]))]
  let p : Program :=
    { code := #[13, 1, 9, 13, 13, 0, 5, 1, 0, 7, 8, 14, 16, 1, 0, 6, 0, 0, 14]
      consts := #[.number (.int 0)]
      scopes := #[#[], #[.text "f"], #[.text "x"], #[]]
      routines := #[⟨.text "f", [.text "x"], some 4⟩] }
  have htext : Node.ofText "var f = fun(x) \x7b print(x); \x7d;\n" = .ok (.program body) := by cbv
  have hp : Program.ofNode [] (.program body) = .ok p := by cbv
  have hlisting : p.listing.toOption.isSome = true := by decide +kernel
  obtain ⟨shown, hshown⟩ : ∃ shown, p.listing = .ok shown := by
    cases h : p.listing with
    | error f =>
      rw [h] at hlisting
      cases hlisting
    | ok shown => exact ⟨shown, rfl⟩
  obtain ⟨rows, -, hforall⟩ := listing_names htext hp hshown
  have hlength : 3 < (Layout.scenes [] body).length := by decide +kernel
  have hinstr : ((Layout.scenes [] body).get ⟨3, hlength⟩).instr = .load 1 0 := by cbv
  have hview : ((Layout.scenes [] body).get ⟨3, hlength⟩).view = ⟨[], [⟨6, []⟩, ⟨4, [.text "x"]⟩], some 4⟩ := by rfl
  have hsubject : ((Layout.scenes [] body).get ⟨3, hlength⟩).subject = .variable (.text "x") := by rfl
  have haround : ∀ z ∈ Layout.scenes [] body, z.address + 2 = 4 → z.view.scopes.head?.map Open.inside = some 2 := by
    decide +kernel
  have hblocks : blocksBefore (Layout.scenes [] body) 2 = 1 := by decide +kernel
  obtain ⟨i, own, name, hi, ⟨hown, ⟨scope, hlooks, hlabel⟩, hrow⟩, -⟩ :=
    hforall.get hlength (hforall.length_eq ▸ hlength) 1 0 (Or.inl hinstr)
  obtain rfl : i = 0 := by omega
  obtain rfl : own = "x" := by
    rw [hsubject] at hown
    cases hown
    rfl
  obtain rfl : name = "f" := by
    generalize hdepth : (1 : Int) = depth at hlooks
    cases hlooks with
    | @block d o ho hproper =>
      obtain rfl : d = 1 := by omega
      rw [hview] at ho hproper
      cases ho
      exact absurd rfl hproper
    | @parameter d o around definition outer ho _ _ hmem haddress hscopes =>
      obtain rfl : d = 1 := by omega
      rw [hview] at ho
      cases ho
      have hinside := haround definition hmem haddress
      rw [hscopes] at hinside
      rw [Option.some.inj hinside, hblocks] at hlabel
      cases hlabel
      rfl
    | primitive => omega
  exact ⟨p, body, shown, _, _, htext, hp, hshown, List.get_mem _ _, hown, ⟨scope, hlooks, hlabel⟩, hrow⟩

end Cilly
