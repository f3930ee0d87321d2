import Cilly.Proofs.Geometry

/-!
# Where instructions lead

Behind every instruction of a layout stands another one, and what lies around the two is related. Inside a
statement both lie inside the same blocks, loops and functions (`Onward`); what comes behind a statement is the
next statement of its block, the end of the block, or an instruction that closes a loop, a branch or a
function (`After`). `Links` says what holds of each kind of instruction. The code of a program is followed by
its end, which counts as an instruction that is refused.
-/

namespace Cilly

open List

variable {all : List Spot} {body : List Node} {shape : List Mark} {start stop : Nat}

/-! ## Loops of a shape -/

theorem innermost?_eq_some (h : innermost? shape = some (start, stop)) :
    ∃ inner outer, shape = inner ++ .loop start stop :: outer ∧ ∀ start stop, .loop start stop ∉ inner := by
  induction shape with
  | nil => cases h
  | cons mark shape ih =>
    cases mark with
    | loop start' stop' =>
      cases h
      exact ⟨[], shape, rfl, by simp⟩
    | block | loose | function =>
      obtain ⟨inner, outer, rfl, hinner⟩ := ih h
      exact ⟨_ :: inner, outer, rfl, by simpa using hinner⟩

theorem innermost?_append {inner outer : List Mark} {start stop : Nat} (h : ∀ start stop, .loop start stop ∉ inner) :
    innermost? (inner ++ .loop start stop :: outer) = some (start, stop) := by
  induction inner with
  | nil => rfl
  | cons mark inner ih =>
    have ih := ih fun start stop hmem => h start stop (mem_cons_of_mem _ hmem)
    cases mark with
    | loop start' stop' => exact absurd (mem_cons_self ..) (h start' stop')
    | block | loose | function => exact ih

/-- The shape of a statement: its loops have their first instructions among the given ones. -/
structure Headed (all : List Spot) (shape : List Mark) : Prop where
  heads : ∀ inner start stop outer, shape = inner ++ .loop start stop :: outer →
    ∃ y ∈ all, y.address = start ∧ y.shape = .loop start stop :: outer
  tight : .loose ∉ shape

theorem Headed.nil (all : List Spot) : Headed all [] := ⟨by simp, by simp⟩

theorem Headed.cons {all : List Spot} {shape : List Mark} (h : Headed all shape) {mark : Mark}
    (hmark : ∀ start stop, mark ≠ .loop start stop) (htight : mark ≠ .loose) : Headed all (mark :: shape) := by
  refine ⟨?_, by simpa using ⟨htight.symm, h.tight⟩⟩
  intro inner start stop outer heq
  cases inner with
  | nil =>
    cases heq
    exact absurd rfl (hmark start stop)
  | cons mark' inner =>
    cases heq
    exact h.heads inner start stop outer rfl

theorem Headed.loop {all : List Spot} {shape : List Mark} (h : Headed all shape) {start stop : Nat}
    (hhead : ∃ y ∈ all, y.address = start ∧ y.shape = .loop start stop :: shape) :
    Headed all (.loop start stop :: shape) := by
  refine ⟨?_, by simpa using h.tight⟩
  intro inner start' stop' outer heq
  cases inner with
  | nil =>
    cases heq
    exact hhead
  | cons mark' inner =>
    cases heq
    exact h.heads inner start' stop' outer rfl

/-! ## Links -/

/-- What stands at the first address of a statement: it may be the first instruction of a loop. -/
def Enters (shape : List Mark) (y : Spot) : Prop :=
  y.shape = shape ∨ ∃ stop, y.shape = .loop y.address stop :: shape

/-- What stands behind a statement. -/
def After (shape : List Mark) (y : Spot) : Prop :=
  y.shape = .loose :: shape ∨ (∃ rest, shape = .block :: rest) ∧ Enters shape y

/-- What is reached from a place with no scope being entered or left. -/
inductive Onward : List Mark → Spot → Prop
  | enters {shape : List Mark} {y : Spot} : Enters shape y → Onward shape y
  | again {stop : Nat} {shape : List Mark} {y : Spot} :
      y.shape = .loop y.address stop :: shape → Onward (.loose :: .loop y.address stop :: shape) y
  | after {shape : List Mark} {y : Spot} : After shape y → Onward shape y
  | afterLoose {shape : List Mark} {y : Spot} : After shape y → Onward (.loose :: shape) y
  | afterLoop {start stop : Nat} {shape : List Mark} {y : Spot} :
      After shape y → Onward (.loop start stop :: shape) y

/-- An address is that of an instruction with a property. -/
def Stands (all : List Spot) (address : Nat) (P : Spot → Prop) : Prop := ∃ y ∈ all, y.address = address ∧ P y

/-- What an instruction leads to. -/
def Spot.Links (all : List Spot) (x : Spot) : Prop :=
  match x.instr with
  | .const _ => Stands all (x.address + 2) (Onward x.shape)
  | .primitive _ | .call _ => Stands all (x.address + 2) (·.shape = x.shape)
  | .load .. | .store .. => Stands all (x.address + 3) (Onward x.shape)
  | .plain _ => Stands all (x.address + 1) (Onward x.shape)
  | .jump target => Stands all target (Onward x.shape)
  | .branch _ target => Stands all target (Onward x.shape) ∧ Stands all (x.address + 2) (Onward x.shape)
  | .breakLoop => ∃ start stop, innermost? x.shape = some (start, stop)
  | .continueLoop target =>
    .loose ∉ x.shape ∧ ∃ inner stop outer, x.shape = inner ++ .loop target stop :: outer ∧
      (∀ start stop, .loop start stop ∉ inner) ∧
      Stands all target fun y => y.shape = .loop target stop :: outer
  | .enter _ => Stands all (x.address + 2) (Enters (.block :: x.shape))
  | .leave => ∃ shape, x.shape = .block :: shape ∧ Stands all (x.address + 1) (After shape)
  | .return | .returnValue => .function ∈ x.shape
  | .refused => True

/-- Everything in a piece of code links up, and something stands at its start. -/
structure Linked (all : List Spot) (start : Nat) (P : Spot → Prop) (spots : List Spot) : Prop where
  first : Stands all start P
  links : ∀ x ∈ spots, x.Links all

section

variable {all spots more : List Spot} {shape : List Mark} {address start : Nat} {P Q : Spot → Prop}

theorem Stands.imp (h : Stands all address P) (hPQ : ∀ y, P y → Q y) : Stands all address Q := by
  obtain ⟨y, hy, haddress, hP⟩ := h
  exact ⟨y, hy, haddress, hPQ y hP⟩

theorem Stands.onward (h : Stands all address (·.shape = shape)) : Stands all address (Onward shape) :=
  Stands.imp h fun _ hy => .enters (Or.inl hy)

theorem Linked.single {instr : Instr} (hall : ∀ x ∈ [(⟨start, instr, shape⟩ : Spot)], x ∈ all)
    (hlinks : Spot.Links all ⟨start, instr, shape⟩) :
    Linked all start (·.shape = shape) [⟨start, instr, shape⟩] :=
  ⟨⟨⟨start, instr, shape⟩, hall _ (by simp), rfl, rfl⟩, by simpa using hlinks⟩

theorem Linked.append (h : Linked all start P spots) (h' : Linked all address Q more) :
    Linked all start P (spots ++ more) := by
  refine ⟨h.first, fun x hx => ?_⟩
  rcases mem_append.mp hx with hx | hx
  · exact h.links x hx
  · exact h'.links x hx

theorem Linked.cons {instr : Instr} (hall : ∀ x ∈ (⟨start, instr, shape⟩ : Spot) :: more, x ∈ all)
    (hlinks : Spot.Links all ⟨start, instr, shape⟩) (h' : Linked all address Q more) :
    Linked all start (·.shape = shape) (⟨start, instr, shape⟩ :: more) :=
  (Linked.single (by simpa using hall _ (mem_cons_self ..)) hlinks).append h'

theorem Linked.enters (h : Linked all start (·.shape = shape) spots) : Linked all start (Enters shape) spots :=
  ⟨h.first.imp fun _ => Or.inl, h.links⟩

theorem subset_tail {x : Spot} (h : ∀ y ∈ x :: more, y ∈ all) : ∀ y ∈ more, y ∈ all :=
  fun y hy => h y (mem_cons_of_mem _ hy)

theorem subset_left (h : ∀ x ∈ spots ++ more, x ∈ all) : ∀ x ∈ spots, x ∈ all :=
  fun x hx => h x (mem_append_left _ hx)

theorem subset_right (h : ∀ x ∈ spots ++ more, x ∈ all) : ∀ x ∈ more, x ∈ all :=
  fun x hx => h x (mem_append_right _ hx)

end

/-! ## Expressions -/

section

variable {all : List Spot} {set : Setting} {ends ends' : List Nat} {start stop : Nat} {scenes : List Scene}

/-- An instruction that goes on. A call comes back to where it is made. -/
theorem Scene.Passes.links {x : Scene} (h : x.Passes stop ends) (hend : Stands all stop (Onward x.shape))
    (hcall : x.instr.isCall = false ∨ Stands all stop (·.shape = x.shape)) : x.toSpot.Links all := by
  obtain ⟨⟨-, hspans⟩, hgoes⟩ := h
  unfold Spot.Links
  cases hinstr : x.instr with
  | refused => trivial
  | const | plain | load | store =>
    rw [hinstr] at hspans
    obtain rfl := hspans.resolve_left (by simp)
    exact hend
  | call | primitive =>
    rw [hinstr] at hspans
    obtain rfl := hspans.resolve_left (by simp)
    exact hcall.resolve_left (by simp [hinstr, Instr.isCall])
  | _ => simp [hinstr, Instr.isStraight] at hgoes

theorem Strand.linked (h : Strand set ends start ends' stop scenes) (hall : ∀ x ∈ scenes.map (·.toSpot), x ∈ all)
    (hend : Stands all stop (·.shape = set.shape)) :
    Linked all start (·.shape = set.shape) (scenes.map (·.toSpot)) := by
  induction h with
  | nil => exact ⟨hend, forall_mem_nil _⟩
  | single hpasses => exact .single hall (hpasses.links (Stands.onward hend) (Or.inr hend))
  | append _ _ ih ih' =>
    rw [map_append] at hall ⊢
    have hlast := ih' (subset_right hall) hend
    exact (ih (subset_left hall) hlast.first).append hlast
  | skipping _ _ _ ih =>
    rw [map_cons, map_append] at hall ⊢
    have hrest := subset_tail hall
    have hskipped := Linked.single (subset_tail (subset_right hrest)) (Stands.onward hend)
    have hjump := Linked.cons (subset_right hrest) (Stands.onward hend) hskipped
    have hright := (ih (subset_left hrest) hjump.first).append hjump
    exact .cons hall ⟨Stands.onward hskipped.first, Stands.onward hright.first⟩ hright

end

namespace Layout

open Node

variable (primitives : List String)

theorem expression_linked {c : Names} {e : Node} (he : IsExpr e)
    (hall : ∀ x ∈ expression primitives shape c start e, x ∈ all)
    (hend : Stands all (start + width primitives c e) (·.shape = shape)) :
    Linked all start (·.shape = shape) (expression primitives shape c start e) := by
  rw [← expressionScenes_toSpot primitives ⟨shape, [], none⟩ c he []] at hall ⊢
  exact (expression_strand primitives ⟨shape, [], none⟩ c he [] start).linked hall hend

/-! ## Statements -/

section

variable {all spots : List Spot} {shape : List Mark} {start : Nat}

theorem block_linked {s : Point}
    (hall : ∀ x ∈ statement primitives shape s (.block body), x ∈ all)
    (hend : Stands all (next primitives s (.block body)).here (After shape))
    (hbody : (∀ x ∈ statements primitives (.block :: shape) s.inBlock body, x ∈ all) →
      Stands all (nextAll primitives s.inBlock body).here (Enters (.block :: shape)) →
      Linked all s.inBlock.here (Enters (.block :: shape))
        (statements primitives (.block :: shape) s.inBlock body)) :
    Linked all s.here (·.shape = shape) (statement primitives shape s (.block body)) := by
  rw [statement] at hall ⊢
  rw [next] at hend
  have hinside := subset_tail hall
  have hleave := Linked.single (subset_right hinside) ⟨shape, rfl, hend⟩
  have hstats := hbody (subset_left hinside) (hleave.first.imp fun _ => Or.inl)
  exact .cons hall hstats.first (hstats.append hleave)

theorem straight_linked {n : Node} (h : n.Straight) {s : Point} (hall : ∀ x ∈ statement primitives shape s n, x ∈ all)
    (hend : Stands all (next primitives s n).here (After shape)) :
    Linked all s.here (Enters shape) (statement primitives shape s n) := by
  rw [← statementScenes_toSpot primitives h.isStat ⟨shape, [], none⟩] at hall ⊢
  obtain ⟨front, ends, last, instr, subject, hscenes, hfront, hpasses, hcall⟩ :=
    straight_cases primitives h ⟨shape, [], none⟩ s
  rw [hscenes, map_append] at hall ⊢
  have hinstr := Linked.single (subset_right hall)
    (hpasses.links (hend.imp fun _ => .after) (Or.inl hcall))
  exact ((hfront.linked (subset_left hall) hinstr.first).append hinstr).enters

end

mutual

theorem statement_linked : ∀ {n : Node}, IsStat n → ∀ {shape : List Mark} {s : Point},
    (∀ x ∈ statement primitives shape s n, x ∈ all) →
    Stands all (next primitives s n).here (After shape) → Headed all shape →
    Linked all s.here (Enters shape) (statement primitives shape s n)
  | _, .exprStat he, _, _, hall, hend, _ => straight_linked primitives (.exprStat he) hall hend
  | _, .print hargs, _, _, hall, hend, _ => straight_linked primitives (.print hargs) hall hend
  | _, .ifThen hcond hyes, shape, s, hall, hend, hheads => by
    rw [statement] at hall ⊢
    rw [next] at hend
    have hinside := statement_linked hyes (subset_tail (subset_right hall)) hend hheads
    have hbranch := Linked.cons (subset_right hall)
      ⟨hend.imp fun _ => .after, hinside.first.imp fun _ => .enters⟩ hinside
    exact ((expression_linked primitives hcond (subset_left hall) hbranch.first).append hbranch).enters
  | _, .ifElse hcond hyes hno, shape, s, hall, hend, hheads => by
    rw [statement] at hall ⊢
    rw [next] at hend
    have hbranches := subset_tail (subset_right hall)
    have hno := statement_linked hno (subset_tail (subset_right hbranches)) hend hheads
    have hjump := Linked.cons (subset_right hbranches) (hend.imp fun _ => .afterLoose) hno
    have hyes := (statement_linked hyes (subset_left hbranches) (hjump.first.imp fun _ => Or.inl)
      hheads).append hjump
    have hbranch := Linked.cons (subset_right hall)
      ⟨hno.first.imp fun _ => .enters, hyes.first.imp fun _ => .enters⟩ hyes
    exact ((expression_linked primitives hcond (subset_left hall) hbranch.first).append hbranch).enters
  | _, @IsStat.loop cond body hcond hbody, shape, s, hall, hend, hheads => by
    rw [statement] at hall ⊢
    rw [next] at hend
    generalize hlast : next primitives (s.skip (width primitives s.toNames cond + 2)) body = last at hall hend
    have htail := subset_right hall
    have hrest := subset_tail htail
    have htest := expression_linked primitives hcond (subset_left hall) ⟨_, htail _ (mem_cons_self ..), rfl, rfl⟩
    have hhead : Stands all s.here fun y => y.shape = .loop y.address (last.here + 2) :: shape := by
      obtain ⟨y, hy, haddress, hshape⟩ := htest.first
      exact ⟨y, hy, haddress, show y.shape = .loop y.address _ :: _ by rw [hshape, haddress]⟩
    have hagain : Stands all s.here (Onward (.loose :: .loop s.here (last.here + 2) :: shape)) := by
      obtain ⟨y, hy, haddress, hshape⟩ := hhead
      exact ⟨y, hy, haddress, haddress ▸ .again hshape⟩
    have hjump := Linked.single (subset_right hrest) hagain
    have hinside := (statement_linked hbody (subset_left hrest) (by
      rw [hlast]
      exact hjump.first.imp fun _ => Or.inl) (hheads.loop htest.first)).append hjump
    have hbranch := Linked.cons htail ⟨hend.imp fun _ => .afterLoop, hinside.first.imp fun _ => .enters⟩ hinside
    refine ⟨hhead.imp fun _ hy => Or.inr ⟨_, hy⟩, (htest.append hbranch).links⟩
  | _, .breakLoop, shape, s, hall, hend, hheads => by
    rw [statement] at hall ⊢
    cases hloop : innermost? shape with
    | none =>
      rw [hloop] at hall
      exact (Linked.single hall trivial).enters
    | some loop =>
      rw [hloop] at hall
      exact (Linked.single hall ⟨loop.1, loop.2, hloop⟩).enters
  | _, .continueLoop, shape, s, hall, hend, hheads => by
    rw [statement] at hall ⊢
    cases hloop : innermost? shape with
    | none =>
      rw [hloop] at hall
      exact (Linked.single hall trivial).enters
    | some loop =>
      rw [hloop] at hall
      obtain ⟨inner, outer, hshape, hinner⟩ := innermost?_eq_some hloop
      exact (Linked.single hall ⟨hheads.tight, inner, loop.2, outer, hshape, hinner,
        hheads.heads inner loop.1 loop.2 outer hshape⟩).enters
  | _, .block hbody, shape, s, hall, hend, hheads =>
    (block_linked primitives hall hend fun hall' hend' =>
      statements_linked hbody hall' hend' (hheads.cons (by simp) (by simp))).enters
  | _, .function x xs hbody, shape, s, hall, hend, hheads => by
    rw [statement_function] at hall ⊢
    rw [next_function, Point.declare_here] at hend
    have hrest := subset_right (subset_tail hall)
    have hstore := Linked.single (subset_tail (subset_tail hrest))
      ((storing_passes ⟨shape, [], none⟩ 0 x).links (hend.imp fun _ => .after) (Or.inl (isCall_storing x)))
    have hconst := Linked.cons (subset_tail hrest) (Stands.onward hstore.first) hstore
    have hreturn := Linked.cons hrest (mem_cons_of_mem _ (mem_cons_self ..)) hconst
    have hinside := (block_linked primitives (subset_left (subset_tail hall))
      (hreturn.first.imp fun _ => Or.inl) fun hall' hend' => statements_linked hbody hall' hend'
        ((hheads.cons (by simp) (by simp)).cons (by simp) (by simp))).append hreturn
    exact (Linked.cons hall (Stands.onward hconst.first) hinside).enters
  | _, .define x hvalue hne, _, _, hall, hend, _ => straight_linked primitives (.define x hvalue hne) hall hend
  | _, .assign x hvalue, _, _, hall, hend, _ => straight_linked primitives (.assign x hvalue) hall hend
  | _, .return, shape, s, hall, hend, hheads => by
    rw [statement] at hall ⊢
    refine (Linked.single hall ?_).enters
    split
    · assumption
    · trivial
  | _, .returnValue hvalue, shape, s, hall, hend, hheads => by
    rw [statement] at hall ⊢
    have hreturn := Linked.single (subset_right hall) (by
      split
      · assumption
      · trivial)
    exact ((expression_linked primitives hvalue (subset_left hall) hreturn.first).append hreturn).enters

theorem statements_linked : ∀ {ns : List Node}, AreStats ns → ∀ {shape : List Mark} {s : Point},
    (∀ x ∈ statements primitives (.block :: shape) s ns, x ∈ all) →
    Stands all (nextAll primitives s ns).here (Enters (.block :: shape)) → Headed all (.block :: shape) →
    Linked all s.here (Enters (.block :: shape)) (statements primitives (.block :: shape) s ns)
  | _, .nil, shape, s, hall, hend, hheads => by
    rw [nextAll] at hend
    exact ⟨hend, by simp [Layout.statements]⟩
  | _, .cons hn hns, shape, s, hall, hend, hheads => by
    rw [Layout.statements] at hall ⊢
    rw [nextAll] at hend
    have hrest := statements_linked hns (subset_right hall) hend hheads
    exact (statement_linked hn (subset_left hall)
      (hrest.first.imp fun _ hy => Or.inr ⟨⟨shape, rfl⟩, hy⟩) hheads).append hrest

end

/-! ## Programs -/

/-- The instructions of a program, with the end of its code behind them. -/
def extent (body : List Node) : List Spot :=
  program primitives body ++ [⟨(finish primitives body).here, .refused, [.loose]⟩]

theorem program_linked (h : AreStats body) :
    Linked (extent primitives body) 0 (·.shape = []) (program primitives body) := by
  have hend : Stands (extent primitives body) (finish primitives body).here (After []) :=
    ⟨⟨_, .refused, [.loose]⟩, by simp [extent], rfl, Or.inl rfl⟩
  exact block_linked primitives (fun x hx => by simp [extent, program, hx]) hend fun hall' hend' =>
    statements_linked primitives h hall' hend' ((Headed.nil _).cons (by simp) (by simp))

theorem program_laid (h : AreStats body) :
    Laid [] 0 (finish primitives body).here (program primitives body) :=
  statement_laid primitives (.block h) [] (origin body)

/-- The end counts as an instruction without breaking the order. -/
theorem extent_ordered (h : AreStats body) :
    Ordered 0 ((finish primitives body).here + 1) (extent primitives body) :=
  (program_laid primitives h).ordered.append (.single _ ⟨Nat.lt_succ_self _, Or.inl rfl⟩)

theorem break_inside_loop (h : AreStats body) {address : Nat}
    (hspot : ⟨address, .breakLoop, shape⟩ ∈ program primitives body) :
    ∃ start stop around, innermost? shape = some (start, stop) ∧ address < stop ∧
      ⟨stop - 2, .jump start, around⟩ ∈ program primitives body := by
  obtain ⟨start, stop, hloop⟩ := (program_linked primitives h).links _ hspot
  obtain ⟨inner, outer, rfl, -⟩ := innermost?_eq_some hloop
  obtain ⟨hlt, around, hjump⟩ := ((program_laid primitives h).closed _ hspot start stop (by simp)).resolve_left
    (by simp)
  exact ⟨start, stop, around, hloop, hlt, hjump⟩

end Layout

end Cilly
