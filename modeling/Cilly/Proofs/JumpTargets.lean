import Cilly.Proofs.Acceptance
import Cilly.Proofs.ControlFlow
import Mathlib.Data.List.Forall2

/-!
# Jumps out of functions

The code of a function stands in the middle of the code around its definition, and almost every jump in it stays in it. The
jumps that do not are those of a `break`, which lead nowhere, and those of a `continue` without a loop in its own function, which
lead back to the loop around the definition. A `break` or `continue` is refused only if there is no loop around it at all, be it
outside of the function.

Pieces of code are put together with the bodies of functions in them and the bodies around them (`Charted`). What is known of
the loop around a piece says whether a `continue` in it leads out of a body (`Nested`).
-/

namespace Cilly

open Node List

variable {instr : Instr} {s : Point} {start stop : Nat}

/-! ## Jumps -/

/-- Where an instruction jumps to, if it does. -/
def Instr.target? : Instr → Option Int
  | .jump target | .branch _ target | .continueLoop target => some target
  | .breakLoop => some (-1)
  | _ => none

def Line.target? (line : Line) : Option Int := if line.op.isJump then line.operands.head? else none

/-- Whether a jump from an address leads out of a body that the address is in. -/
def Body.loses (b : Body) (address : Nat) (target : Int) : Bool :=
  decide (b.start ≤ address ∧ address < b.stop) && !decide ((b.start : Int) ≤ target ∧ target < b.stop)

/-- Whether something that may jump leads out of one of the bodies that it is in. -/
def leadsOut (bodies : List Body) (address : Nat) (target? : Option Int) : Bool :=
  bodies.any fun b => target?.any (b.loses address)

def Line.leadsOut (bodies : List Body) (line : Line) : Bool := Cilly.leadsOut bodies line.address line.target?

/-- What must lead out of a function if it is compiled at all. -/
def Mention.strays (m : Mention) : Bool :=
  match m.use with
  | .breakLoop => m.context.withinFunction
  | .continueLoop => !m.context.withinOwnLoop
  | _ => false

/-- How an instruction leads out of a body because of what is mentioned. -/
inductive Line.Strays (lines : List Line) (bodies : List Body) : Line → Mention → Prop
  | breakLoop {address : Nat} {c : Context} : Strays lines bodies ⟨address, .jump, [-1]⟩ ⟨c, .breakLoop⟩
  /-- The loop starts in front of the body, and its last jump stands behind the body. -/
  | continueLoop {address target last : Nat} {c : Context} {b : Body} : b ∈ bodies → b.Contains address →
      target < b.start → b.stop ≤ last → ⟨last, .jump, [(target : Int)]⟩ ∈ lines →
      Strays lines bodies ⟨address, .jump, [(target : Int)]⟩ ⟨c, .continueLoop⟩

section

variable {bodies more : List Body} {address : Nat} {target? : Option Int}

theorem leadsOut_iff : leadsOut bodies address target? = true ↔
    ∃ b ∈ bodies, b.Contains address ∧ ∃ target, target? = some target ∧ ¬ ((b.start : Int) ≤ target ∧ target < b.stop) := by
  unfold leadsOut
  rw [any_eq_true]
  refine exists_congr fun b => and_congr_right fun _ => ?_
  cases target? with
  | none => simp
  | some target =>
    simp only [Option.any_some, Body.loses, Bool.and_eq_true, decide_eq_true_eq, Bool.not_eq_true', decide_eq_false_iff_not,
      Option.some.injEq, exists_eq_left']
    rfl

theorem leadsOut_append : leadsOut (bodies ++ more) address target? =
    (leadsOut bodies address target? || leadsOut more address target?) := any_append

theorem leadsOut_of_apart (h : ∀ b ∈ bodies, ¬ b.Contains address) : leadsOut bodies address target? = false := by
  rw [Bool.eq_false_iff, Ne, leadsOut_iff]
  rintro ⟨b, hb, hcontains, -⟩
  exact h b hb hcontains

theorem leadsOut_of_inside (h : ∀ target, target? = some target → ∀ b ∈ bodies, (b.start : Int) ≤ target ∧ target < b.stop) :
    leadsOut bodies address target? = false := by
  rw [Bool.eq_false_iff, Ne, leadsOut_iff]
  rintro ⟨b, hb, -, target, htarget, hout⟩
  exact hout (h target htarget b hb)

end

/-! ## Pieces of code -/

/-- How an instruction of a layout leads out of a body because of what is mentioned. -/
inductive Spot.Strays (bodies : List Body) : Spot → Mention → Prop
  | breakLoop {address : Nat} {shape : List Mark} {c : Context} : Strays bodies ⟨address, .breakLoop, shape⟩ ⟨c, .breakLoop⟩
  | continueLoop {address target stop : Nat} {shape : List Mark} {c : Context} {b : Body} : b ∈ bodies → b.Contains address →
      target < b.start → b.stop + 2 ≤ stop → .loop target stop ∈ shape →
      Strays bodies ⟨address, .continueLoop target, shape⟩ ⟨c, .continueLoop⟩

theorem Spot.Strays.mono {bodies more : List Body} {x : Spot} {m : Mention} (h : x.Strays bodies m) (hsub : bodies ⊆ more) :
    x.Strays more m := by
  cases h with
  | breakLoop => exact .breakLoop
  | continueLoop hb hcontains hstart hstop hloop => exact .continueLoop (hsub hb) hcontains hstart hstop hloop

/-- A piece of code, with the bodies around it and those in it: what leads out of a body does so because of what is mentioned,
and for each mention that strays there is such a jump. -/
structure Charted (outer : List Body) (lo hi : Nat) (bodies : List Body) (spots : List Spot) (ms : List Mention) : Prop where
  le : lo ≤ hi
  within : ∀ b ∈ bodies, b.Within ⟨lo, hi⟩
  bounds : ∀ x ∈ spots, (⟨lo, hi⟩ : Body).Contains x.address
  strays : Forall₂ (Spot.Strays (outer ++ bodies))
    (spots.filter fun x => leadsOut (outer ++ bodies) x.address x.instr.target?) (ms.filter Mention.strays)

namespace Charted

variable {outer bodies bodies' : List Body} {lo middle hi : Nat} {spots more : List Spot} {ms ns : List Mention}

theorem append (h : Charted outer lo middle bodies spots ms) (h' : Charted outer middle hi bodies' more ns) :
    Charted outer lo hi (bodies ++ bodies') (spots ++ more) (ms ++ ns) := by
  have hle := h.le
  have hle' := h'.le
  refine ⟨by omega, fun b hb => ?_, fun x hx => ?_, ?_⟩
  · rcases mem_append.mp hb with hb | hb
    · exact ⟨(h.within b hb).1, Nat.le_trans (h.within b hb).2 hle'⟩
    · exact ⟨Nat.le_trans hle (h'.within b hb).1, (h'.within b hb).2⟩
  · rcases mem_append.mp hx with hx | hx
    · exact ⟨(h.bounds x hx).1, Nat.lt_of_lt_of_le (h.bounds x hx).2 hle'⟩
    · exact ⟨Nat.le_trans hle (h'.bounds x hx).1, (h'.bounds x hx).2⟩
  · -- the bodies of each part do not contain the instructions of the other
    have hfirst : ∀ x ∈ spots, leadsOut (outer ++ (bodies ++ bodies')) x.address x.instr.target? =
        leadsOut (outer ++ bodies) x.address x.instr.target? := by
      intro x hx
      have hapart : ∀ b ∈ bodies', ¬ b.Contains x.address := by
        intro b hb hcontains
        have hbound : x.address < middle := (h.bounds x hx).2
        have hstart : middle ≤ b.start := (h'.within b hb).1
        exact absurd hcontains.1 (by omega)
      rw [← append_assoc, leadsOut_append, leadsOut_of_apart hapart, Bool.or_false]
    have hsecond : ∀ x ∈ more, leadsOut (outer ++ (bodies ++ bodies')) x.address x.instr.target? =
        leadsOut (outer ++ bodies') x.address x.instr.target? := by
      intro x hx
      have hapart : ∀ b ∈ bodies, ¬ b.Contains x.address := by
        intro b hb hcontains
        have hbound : middle ≤ x.address := (h'.bounds x hx).1
        have hstop : b.stop ≤ middle := (h.within b hb).2
        exact absurd hcontains.2 (by omega)
      rw [leadsOut_append, leadsOut_append, leadsOut_append, leadsOut_of_apart hapart, Bool.false_or]
    rw [filter_append, filter_append, filter_congr hfirst, filter_congr hsecond]
    refine rel_append (h.strays.imp fun x m hstrays => hstrays.mono ?_) (h'.strays.imp fun x m hstrays => hstrays.mono ?_)
    · rw [← append_assoc]
      exact subset_append_left _ _
    · exact append_subset.mpr ⟨subset_append_left _ _,
        fun b hb => mem_append_right _ (mem_append_right _ hb)⟩

theorem nil (lo : Nat) (h : ∀ m ∈ ms, m.strays = false) : Charted outer lo lo [] [] ms := by
  have hms : ms.filter Mention.strays = [] := filter_eq_nil_iff.mpr fun m hm => by simp [h m hm]
  refine ⟨Nat.le_refl _, by simp, by simp, ?_⟩
  rw [hms]
  exact .nil

/-- One instruction and one mention: it leads out of a body if the mention strays. -/
theorem single {shape : List Mark} {m : Mention} (hlt : lo < hi)
    (h : leadsOut outer lo instr.target? = m.strays) (hstrays : m.strays = true → Spot.Strays outer ⟨lo, instr, shape⟩ m) :
    Charted outer lo hi [] [⟨lo, instr, shape⟩] [m] := by
  refine ⟨Nat.le_of_lt hlt, by simp, forall_mem_singleton.mpr ⟨Nat.le_refl _, hlt⟩, ?_⟩
  rw [append_nil]
  cases hm : m.strays with
  | false =>
    rw [filter_cons_of_neg (by simp [h, hm]), filter_cons_of_neg (by simp [hm])]
    exact .nil
  | true =>
    rw [filter_cons_of_pos (by simp [h, hm]), filter_cons_of_pos (by simp [hm])]
    exact .cons (hstrays hm) .nil

theorem stays {shape : List Mark} (hlt : lo < hi) (h : leadsOut outer lo instr.target? = false) :
    Charted outer lo hi [] [⟨lo, instr, shape⟩] [] := by
  refine ⟨Nat.le_of_lt hlt, by simp, forall_mem_singleton.mpr ⟨Nat.le_refl _, hlt⟩, ?_⟩
  rw [append_nil, filter_cons_of_neg (by simp [h])]
  exact .nil

theorem plain {shape : List Mark} (hlt : lo < hi) (h : instr.target? = none) :
    Charted outer lo hi [] [⟨lo, instr, shape⟩] [] := by
  refine stays hlt (leadsOut_of_inside ?_)
  intro target htarget
  rw [h] at htarget
  cases htarget

theorem cons {x : Spot} (h : Charted outer lo middle [] [x] []) (h' : Charted outer middle hi bodies spots ms) :
    Charted outer lo hi bodies (x :: spots) ms := h.append h'

theorem before (h : Charted outer lo middle bodies spots ms) (h' : Charted outer middle hi [] more []) :
    Charted outer lo hi bodies (spots ++ more) ms := by
  have hall := h.append h'
  rwa [append_nil, append_nil] at hall

theorem mention (h : Charted outer lo hi bodies spots ms) (hns : ∀ m ∈ ns, m.strays = false) :
    Charted outer lo hi bodies spots (ns ++ ms) := (nil lo hns).append h

theorem mentionLast (h : Charted outer lo hi bodies spots ms) (hns : ∀ m ∈ ns, m.strays = false) :
    Charted outer lo hi bodies spots (ms ++ ns) := by
  have hall := h.append (nil hi hns)
  rwa [append_nil, append_nil] at hall

theorem body (h : Charted (⟨lo, hi⟩ :: outer) lo hi bodies spots ms) : Charted outer lo hi (⟨lo, hi⟩ :: bodies) spots ms := by
  have hsame : ∀ x ∈ spots, leadsOut (outer ++ ⟨lo, hi⟩ :: bodies) x.address x.instr.target? =
      leadsOut (⟨lo, hi⟩ :: outer ++ bodies) x.address x.instr.target? := by
    intro x _
    rw [Bool.eq_iff_iff, leadsOut_iff, leadsOut_iff]
    exact exists_congr fun b => and_congr_left fun _ => perm_middle.mem_iff
  refine ⟨h.le, forall_mem_cons.mpr ⟨⟨Nat.le_refl _, Nat.le_refl _⟩, h.within⟩, h.bounds, ?_⟩
  rw [filter_congr hsame]
  exact h.strays.imp fun x m hstrays => hstrays.mono (perm_middle.symm.subset)

end Charted

/-! ## What lies around -/

/-- Bodies around a range of addresses and the address behind it. -/
def Encloses (outer : List Body) (lo hi : Nat) : Prop := ∀ b ∈ outer, b.start ≤ lo ∧ hi < b.stop

namespace Encloses

variable {outer : List Body} {lo hi lo' hi' : Nat}

theorem narrow (h : Encloses outer lo hi) (hlo : lo ≤ lo') (hhi : hi' ≤ hi) : Encloses outer lo' hi' := by
  intro b hb
  obtain ⟨hstart, hstop⟩ := h b hb
  exact ⟨by omega, by omega⟩

theorem stays (h : Encloses outer lo hi) {target : Nat} (hlo : lo ≤ target) (hhi : target ≤ hi) (address : Nat) :
    leadsOut outer address (some (target : Int)) = false := by
  refine leadsOut_of_inside ?_
  intro target' htarget b hb
  cases htarget
  obtain ⟨hstart, hstop⟩ := h b hb
  exact ⟨by omega, by omega⟩

end Encloses

/-- The definition of a function: a jump over its body, the body with its return, and what stores the function. -/
theorem Charted.function {outer bodies : List Body} {lo last : Nat} {spots : List Spot} {ms : List Mention}
    {around shape : List Mark} {id : Datum} {store : Instr} (h : Charted (⟨lo + 2, last + 1⟩ :: outer) (lo + 2) last bodies spots ms)
    (hout : Encloses outer lo (last + 6)) (hstore : store.target? = none) :
    Charted outer lo (last + 6) (⟨lo + 2, last + 1⟩ :: bodies) (⟨lo, .jump (last + 1), shape⟩ ::
      (spots ++ [⟨last, .return, around⟩, ⟨last + 1, .const id, shape⟩, ⟨last + 3, store, shape⟩])) ms := by
  have hle := h.le
  have hreturn : Charted (⟨lo + 2, last + 1⟩ :: outer) last (last + 1) [] [⟨last, .return, around⟩] [] :=
    .plain (Nat.lt_succ_self _) rfl
  have hbehind : Charted outer (last + 1) (last + 6) [] [⟨last + 1, .const id, shape⟩, ⟨last + 3, store, shape⟩] [] :=
    .cons (.plain (by omega) rfl) (.plain (by omega) hstore)
  rw [append_cons]
  exact .cons (.stays (by omega) (hout.stays (by omega) (by omega) _)) ((h.before hreturn).body.before hbehind)

theorem Scene.Passes.target? {x : Scene} {ends : List Nat} (h : x.Passes stop ends) : x.instr.target? = none := by
  have hgoes := h.goes
  cases hinstr : x.instr with
  | jump | branch | breakLoop | continueLoop => simp [hinstr, Instr.isStraight] at hgoes
  | _ => rfl

theorem Strand.charted {set : Setting} {ends ends' : List Nat} {scenes : List Scene} {outer : List Body}
    (h : Strand set ends start ends' stop scenes) (hout : Encloses outer start stop) :
    Charted outer start stop [] (scenes.map (·.toSpot)) [] := by
  induction h with
  | nil => exact .nil _ (forall_mem_nil _)
  | single hpasses => exact .plain hpasses.spans.1 hpasses.target?
  | append h h' ih ih' =>
    rw [map_append]
    exact (ih (hout.narrow (Nat.le_refl _) h'.level.ordered.le)).append
      (ih' (hout.narrow h.level.ordered.le (Nat.le_refl _)))
  | skipping _ _ h ih =>
    have hle := h.level.ordered.le
    rw [map_cons, map_append]
    exact .cons (.stays (Nat.lt_add_of_pos_right (by decide)) (hout.stays (by omega) (by omega) _))
      ((ih (hout.narrow (by omega) (by omega))).before (.cons (.stays (Nat.lt_add_of_pos_right (by decide))
        (hout.stays (by omega) (Nat.le_refl _) _)) (.plain (Nat.lt_succ_self _) rfl)))

/-- What is known of the bodies and of the innermost loop around a range of addresses. -/
structure Nested (c : Context) (outer : List Body) (shape : List Mark) (lo hi : Nat) : Prop where
  encloses : Encloses outer lo hi
  function : c.withinFunction = true ↔ outer ≠ []
  reach : ∀ start stop, innermost? shape = some (start, stop) → start ≤ lo ∧ hi + 2 ≤ stop
  /-- A loop of the innermost function is in all bodies. -/
  own : ∀ start stop, innermost? shape = some (start, stop) → c.withinOwnLoop = true → ∀ b ∈ outer, b.start ≤ start
  /-- Any other loop is around a body. -/
  alien : ∀ start stop, innermost? shape = some (start, stop) → c.withinOwnLoop = false →
    ∃ b ∈ outer, start < b.start ∧ b.stop + 2 ≤ stop

namespace Nested

variable {c c' : Context} {outer : List Body} {shape shape' : List Mark} {lo hi lo' hi' : Nat}

theorem narrow (h : Nested c outer shape lo hi) (hfunction : c'.withinFunction = c.withinFunction)
    (hloop : c'.withinOwnLoop = c.withinOwnLoop) (hshape : innermost? shape' = innermost? shape) (hlo : lo ≤ lo')
    (hhi : hi' ≤ hi) : Nested c' outer shape' lo' hi' := by
  refine ⟨h.encloses.narrow hlo hhi, by rw [hfunction, h.function], ?_, ?_, ?_⟩
  · intro start stop hinner
    obtain ⟨hstart, hstop⟩ := h.reach start stop (hshape ▸ hinner)
    exact ⟨by omega, by omega⟩
  · intro start stop hinner hown
    exact h.own start stop (hshape ▸ hinner) (hloop ▸ hown)
  · intro start stop hinner hown
    exact h.alien start stop (hshape ▸ hinner) (hloop ▸ hown)

theorem inLoop (h : Nested c outer shape lo (hi + 2)) (hlo : lo ≤ lo') :
    Nested c.inLoop outer (.loop lo (hi + 2) :: shape) lo' hi := by
  refine ⟨h.encloses.narrow hlo (Nat.le_add_right _ _), h.function, ?_, ?_, ?_⟩
  · intro start stop hinner
    cases hinner
    exact ⟨hlo, Nat.le_refl _⟩
  · intro start stop hinner _ b hb
    cases hinner
    exact (h.encloses b hb).1
  · intro start stop _ hown
    cases hown

/-- Inside a function, up to its return. The loop around it is not one of its own. -/
theorem inFunction (h : Nested c outer shape lo (hi + 6)) :
    Nested c.inFunction (⟨lo + 2, hi + 1⟩ :: outer) (.function :: shape) (lo + 2) hi := by
  refine ⟨?_, by simp [Context.inFunction], ?_, ?_, ?_⟩
  · exact forall_mem_cons.mpr
      ⟨⟨Nat.le_refl _, Nat.lt_succ_self _⟩, h.encloses.narrow (Nat.le_add_right _ _) (Nat.le_add_right _ _)⟩
  · intro start stop hinner
    obtain ⟨hstart, hstop⟩ := h.reach start stop hinner
    exact ⟨by omega, by omega⟩
  · intro start stop _ hown
    cases hown
  · intro start stop hinner _
    obtain ⟨hstart, hstop⟩ := h.reach start stop hinner
    refine ⟨_, mem_cons_self .., ?_, ?_⟩
    · show start < lo + 2
      omega
    · show hi + 1 + 2 ≤ stop
      omega

theorem inBlock {prims : List String} {s : Point} {body : List Node}
    (h : Nested c outer shape s.here (Layout.next prims s (.block body)).here) :
    Nested c.inBlock outer (.block :: shape) s.inBlock.here (Layout.nextAll prims s.inBlock body).here := by
  rw [Layout.next] at h
  exact h.narrow rfl rfl rfl (Nat.le_add_right _ _) (Nat.le_succ _)

end Nested

namespace Layout

variable {p : Program} {prims : List String}

section

variable {c : Context} {outer : List Body} {shape : List Mark} {here : Nat}

/-- A `break` leads out of every body around it. -/
theorem break_charted (h : Nested c outer shape here (here + 2)) :
    Charted outer here (here + 2) [] [⟨here, .breakLoop, shape⟩] [⟨c, .breakLoop⟩] := by
  refine .single (by omega) ?_ fun _ => .breakLoop
  show leadsOut outer here (some (-1)) = c.withinFunction
  rw [Bool.eq_iff_iff, leadsOut_iff, h.function]
  constructor
  · rintro ⟨b, hb, -⟩
    exact ne_nil_of_mem hb
  · intro hne
    obtain ⟨b, hb⟩ := exists_mem_of_ne_nil _ hne
    obtain ⟨hstart, hstop⟩ := h.encloses b hb
    exact ⟨b, hb, ⟨hstart, by omega⟩, _, rfl, by omega⟩

/-- A `continue` leads out of a body if its loop is around the body. -/
theorem continue_charted (h : Nested c outer shape here (here + 2))
    (hinner : innermost? shape = some (start, stop)) :
    Charted outer here (here + 2) [] [⟨here, .continueLoop start, shape⟩] [⟨c, .continueLoop⟩] := by
  obtain ⟨hstart, hstop⟩ := h.reach start stop hinner
  cases hown : c.withinOwnLoop with
  | true =>
    have hstrays : Mention.strays ⟨c, .continueLoop⟩ = false := by simp [Mention.strays, hown]
    refine .single (by omega) ?_ fun hm => absurd hm (by simp [hstrays])
    rw [hstrays]
    refine leadsOut_of_inside fun target htarget b hb => ?_
    cases htarget
    have hin := h.own start stop hinner hown b hb
    have hbehind := (h.encloses b hb).2
    exact ⟨by omega, by omega⟩
  | false =>
    have hstrays : Mention.strays ⟨c, .continueLoop⟩ = true := by simp [Mention.strays, hown]
    -- the innermost loop is around a function, and so is its start
    obtain ⟨b, hb, hbefore, hbehind⟩ := h.alien start stop hinner hown
    have hcontains : b.Contains here := ⟨(h.encloses b hb).1, Nat.lt_of_lt_of_le (by omega) (h.encloses b hb).2⟩
    have hmem : .loop start stop ∈ shape := by
      obtain ⟨inner, around, rfl, -⟩ := innermost?_eq_some hinner
      simp
    refine .single (by omega) ?_ fun _ => .continueLoop hb hcontains hbefore hbehind hmem
    rw [hstrays, leadsOut_iff]
    exact ⟨b, hb, hcontains, _, rfl, by omega⟩

end

/-! ## Expressions and statements -/

section

variable {c : Context} {names : Names} {outer : List Body} {shape : List Mark}

mutual

/-- What is compiled as an expression mentions nothing that strays: there is no function in it. -/
theorem expression_tame : ∀ {e : Node}, IsExpr e → ∀ {start : Nat}, p.Follows (expression prims shape names start e) →
    ∀ m ∈ mentions c e, m.strays = false
  | _, .name x, _, _ => by
    rw [mentions]
    exact forall_mem_singleton.mpr rfl
  | _, .literal kind d, _, _ => by simp [mentions]
  | _, .unary he, _, hfollows => by
    rw [expression] at hfollows
    rw [mentions]
    exact expression_tame he (follows_append.mp hfollows).1
  | _, @IsExpr.binary op l r hl hr, start, hfollows => by
    obtain ⟨⟨_, hleft⟩, _, hright⟩ : (∃ start, p.Follows (expression prims shape names start l)) ∧
        ∃ start, p.Follows (expression prims shape names start r) := by
      rw [expression] at hfollows
      cases hshort : CompileM.shortcutOf? op with
      | some pair =>
        simp only [hshort, follows_append, follows_cons] at hfollows
        exact ⟨⟨_, hfollows.1⟩, _, hfollows.2.2.1⟩
      | none =>
        cases hswap : CompileM.swappedOf? op with
        | some o =>
          simp only [hshort, hswap, follows_append] at hfollows
          exact ⟨⟨_, hfollows.2.1⟩, _, hfollows.1⟩
        | none =>
          simp only [hshort, hswap, follows_append] at hfollows
          exact ⟨⟨_, hfollows.1⟩, _, hfollows.2.1⟩
    rw [mentions]
    split
    · exact forall_mem_append.mpr ⟨expression_tame hr hright, expression_tame hl hleft⟩
    · exact forall_mem_append.mpr ⟨expression_tame hl hleft, expression_tame hr hright⟩
  | _, .call hcallee hargs, _, hfollows => by
    rw [expression] at hfollows
    obtain ⟨hinside, hcalling⟩ := follows_append.mp hfollows
    cases hcallee with
    | name x =>
      rw [mentions]
      exact forall_mem_cons.mpr ⟨rfl, arguments_tame hargs hinside⟩
    | literal | unary | binary | call | function => exact (hcalling _ (mem_singleton_self _)).elim
  | _, .function xs _, _, hfollows => by
    rw [expression] at hfollows
    · exact (hfollows _ (mem_singleton_self _)).elim
    all_goals simp

theorem arguments_tame : ∀ {es : List Node}, AreExprs es → ∀ {start : Nat},
    p.Follows (arguments prims shape names start es) → ∀ m ∈ argumentMentions c es, m.strays = false
  | _, .nil, _, _ => by simp [argumentMentions]
  | _, .cons he hes, _, hfollows => by
    rw [arguments] at hfollows
    obtain ⟨hrest, hfirst⟩ := follows_append.mp hfollows
    rw [argumentMentions]
    exact forall_mem_append.mpr ⟨arguments_tame hes hrest, expression_tame he hfirst⟩

end

theorem printed_tame {es : List Node} (hes : AreExprs es)
    (hfollows : p.Follows (printed prims shape names start es)) : ∀ m ∈ mentionsEach c es, m.strays = false := by
  induction es generalizing start with
  | nil => simp [mentionsEach]
  | cons e es ih =>
    obtain _ | ⟨he, hes⟩ := hes
    rw [printed] at hfollows
    simp only [follows_append, follows_cons] at hfollows
    rw [mentionsEach]
    exact forall_mem_append.mpr ⟨expression_tame he hfollows.1, ih hes hfollows.2.2⟩

theorem straight_tame {n : Node} (h : n.Straight) (hfollows : p.Follows (statement prims shape s n)) :
    ∀ m ∈ mentions c n, m.strays = false := by
  cases h with
  | exprStat he =>
    rw [statement] at hfollows
    rw [mentions]
    exact expression_tame he (follows_append.mp hfollows).1
  | print hargs =>
    rw [statement] at hfollows
    rw [mentions]
    exact printed_tame hargs (follows_append.mp hfollows).1
  | define x hvalue hne =>
    rw [statement_variable _ hne] at hfollows
    rw [mentions_variable hne]
    exact forall_mem_append.mpr
      ⟨expression_tame hvalue (follows_append.mp hfollows).1, forall_mem_singleton.mpr rfl⟩
  | assign x hvalue =>
    rw [statement] at hfollows
    rw [mentions]
    exact forall_mem_append.mpr
      ⟨expression_tame hvalue (follows_append.mp hfollows).1, forall_mem_singleton.mpr rfl⟩

theorem strays_parameters : ∀ (c : Context) (xs : List Datum), ∀ m ∈ parameterMentions c xs, m.strays = false
  | _, [] => forall_mem_nil _
  | c, x :: xs => forall_mem_cons.mpr ⟨rfl, strays_parameters (c.declare [x]) xs⟩

theorem expression_charted {e : Node} (he : IsExpr e)
    (hout : Encloses outer start (start + width prims names e))
    (hfollows : p.Follows (expression prims shape names start e)) :
    Charted outer start (start + width prims names e) [] (expression prims shape names start e) (mentions c e) := by
  have hcharted := (expression_strand prims ⟨shape, [], none⟩ names he [] start).charted hout
  rw [expressionScenes_toSpot prims _ _ he] at hcharted
  exact hcharted.mentionLast (expression_tame he hfollows)

theorem straight_charted {n : Node} (h : n.Straight) (hout : Encloses outer s.here (next prims s n).here)
    (hfollows : p.Follows (statement prims shape s n)) :
    Charted outer s.here (next prims s n).here (bodiesOf prims (sites prims shape s n))
      (statement prims shape s n) (mentions c n) := by
  have hcharted := (straight_strand prims h ⟨shape, [], none⟩ s).charted hout
  rw [statementScenes_toSpot prims h.isStat] at hcharted
  rw [sites_straight prims h]
  exact hcharted.mentionLast (straight_tame h hfollows)

end

theorem block_charted {c : Context} {outer bodies : List Body} {shape : List Mark} {body : List Node}
    (hbody : p.Follows (statements prims (.block :: shape) s.inBlock body) →
      Charted outer s.inBlock.here (nextAll prims s.inBlock body).here bodies
        (statements prims (.block :: shape) s.inBlock body) (mentionsAll c.inBlock body))
    (hfollows : p.Follows (statement prims shape s (.block body))) :
    Charted outer s.here (next prims s (.block body)).here bodies (statement prims shape s (.block body))
      (mentions c (.block body)) := by
  rw [statement] at hfollows
  rw [statement, mentions, next]
  simp only [follows_append, follows_cons] at hfollows
  exact .cons (.plain (Nat.lt_add_of_pos_right (by decide)) rfl) ((hbody hfollows.2.1).before (.plain (Nat.lt_succ_self _) rfl))

mutual

theorem statement_charted : ∀ {n : Node}, IsStat n → ∀ {c : Context} {outer : List Body} {shape : List Mark} {s : Point},
    Nested c outer shape s.here (next prims s n).here → p.Follows (statement prims shape s n) →
      Charted outer s.here (next prims s n).here (bodiesOf prims (sites prims shape s n))
        (statement prims shape s n) (mentions c n)
  | _, .exprStat he, _, _, _, _, h, hfollows => straight_charted (.exprStat he) h.encloses hfollows
  | _, .print hargs, _, _, _, _, h, hfollows => straight_charted (.print hargs) h.encloses hfollows
  | _, @IsStat.ifThen cond yes hcond hyes, c, outer, shape, s, h, hfollows => by
    have hle : s.here + (width prims s.toNames cond + 2) ≤ _ :=
      (statement_laid prims hyes shape (s.skip (width prims s.toNames cond + 2))).ordered.le
    simp only [next, statement, follows_append, follows_cons] at h hfollows
    simp only [next, statement, sites, mentions]
    have hinside : Nested c outer shape (s.skip (width prims s.toNames cond + 2)).here _ :=
      h.narrow rfl rfl rfl (Nat.le_add_right _ _) (Nat.le_refl _)
    have htest := expression_charted (c := c) hcond (h.encloses.narrow (Nat.le_refl _) (by omega)) hfollows.1
    have hyes := statement_charted hyes hinside hfollows.2.2
    exact htest.append (.cons (.stays (by simp) (h.encloses.stays (by omega) (Nat.le_refl _) _)) hyes)
  | _, @IsStat.ifElse cond yes no hcond hyes hno, c, outer, shape, s, h, hfollows => by
    have hle : s.here + (width prims s.toNames cond + 2) ≤ _ :=
      (statement_laid prims hyes shape (s.skip (width prims s.toNames cond + 2))).ordered.le
    have hle' : (next prims (s.skip (width prims s.toNames cond + 2)) yes).here + 2 ≤ _ :=
      (statement_laid prims hno shape (.skip _ 2)).ordered.le
    simp only [next, statement, follows_append, follows_cons] at h hfollows
    simp only [next, statement, sites, mentions, bodiesOf_append]
    obtain ⟨hcondFollows, -, hyesFollows, -, hnoFollows⟩ := hfollows
    have hinside : Nested c outer shape (s.skip (width prims s.toNames cond + 2)).here _ :=
      h.narrow rfl rfl rfl (Nat.le_add_right _ _) (Nat.le_trans (Nat.le_add_right _ 2) hle')
    have hbehind : Nested (c.after yes) outer shape
        ((next prims (s.skip (width prims s.toNames cond + 2)) yes).skip 2).here _ :=
      h.narrow rfl rfl rfl (by rw [Point.skip_here]; omega) (Nat.le_refl _)
    have htest := expression_charted (c := c) hcond (h.encloses.narrow (Nat.le_refl _) (by omega)) hcondFollows
    have hyes := statement_charted hyes hinside hyesFollows
    have hno := statement_charted hno hbehind hnoFollows
    exact htest.append (.cons (.stays (by simp) (h.encloses.stays (by omega) (by omega) _)) (hyes.append
      (.cons (.stays (by simp) (h.encloses.stays (by omega) (Nat.le_refl _) _)) hno)))
  | _, @IsStat.loop cond body hcond hbody, c, outer, shape, s, h, hfollows => by
    have hle : s.here + (width prims s.toNames cond + 2) ≤ _ :=
      (statement_laid prims hbody shape (s.skip (width prims s.toNames cond + 2))).ordered.le
    simp only [next, statement, Point.skip_here, follows_append, follows_cons] at h hfollows
    simp only [next, statement, sites, mentions, Point.skip_here]
    obtain ⟨hcondFollows, -, hbodyFollows, -⟩ := hfollows
    have hinside : Nested c.inLoop outer _ (s.skip (width prims s.toNames cond + 2)).here _ :=
      h.inLoop (Nat.le_add_right _ _)
    have htest := expression_charted (c := c) hcond (h.encloses.narrow (Nat.le_refl _) (by omega)) hcondFollows
    have hbody := statement_charted hbody hinside hbodyFollows
    exact htest.append (.cons (.stays (by simp) (h.encloses.stays (by omega) (Nat.le_refl _) _)) (hbody.before
      (.stays (by omega) (h.encloses.stays (Nat.le_refl _) (by omega) _))))
  | _, .breakLoop, c, outer, shape, s, h, hfollows => by
    simp only [next, statement] at h hfollows
    simp only [next, statement, sites, mentions]
    cases hinner : innermost? shape with
    | none =>
      rw [hinner] at hfollows
      exact (hfollows _ (mem_singleton_self _)).elim
    | some loop => exact break_charted h
  | _, .continueLoop, c, outer, shape, s, h, hfollows => by
    simp only [next, statement] at h hfollows
    simp only [next, statement, sites, mentions]
    cases hinner : innermost? shape with
    | none =>
      rw [hinner] at hfollows
      exact (hfollows _ (mem_singleton_self _)).elim
    | some loop => exact continue_charted h hinner
  | _, .block hbody, c, outer, shape, s, h, hfollows => by
    simp only [sites]
    exact block_charted (fun hinside => statements_charted hbody h.inBlock hinside) hfollows
  | _, @IsStat.function x xs body hbody, c, outer, shape, s, h, hfollows => by
    rw [next_function, Point.declare_here] at h
    rw [statement_function] at hfollows
    rw [next_function, statement_function, sites, sites, mentions, Point.declare_here]
    simp only [follows_append, follows_cons] at hfollows
    -- inside, the body of the function itself is around as well
    have hnested : Nested ((c.know [x]).inFunction.declare xs) _ (.function :: shape) (s.inFunction x xs).here _ :=
      h.inFunction.narrow rfl rfl rfl (Nat.le_refl _) (Nat.le_refl _)
    have hinside := block_charted (fun hinside => statements_charted hbody hnested.inBlock hinside) hfollows.2.1
    have hstore : (s.storing x).target? = none := by
      unfold Names.storing
      split <;> rfl
    exact .mention (.mentionLast (hinside.function h.encloses hstore) (forall_mem_singleton.mpr rfl))
      (strays_parameters _ xs)
  | _, .define x hvalue hne, _, _, _, _, h, hfollows => straight_charted (.define x hvalue hne) h.encloses hfollows
  | _, .assign x hvalue, _, _, _, _, h, hfollows => straight_charted (.assign x hvalue) h.encloses hfollows
  | _, .return, c, outer, shape, s, _, _ => by
    simp only [next, statement, sites, mentions]
    refine Charted.mention (.plain (by simp) ?_) (forall_mem_singleton.mpr rfl)
    split <;> rfl
  | _, .returnValue hvalue, c, outer, shape, s, h, hfollows => by
    simp only [next, statement] at h hfollows
    simp only [next, statement, sites, mentions]
    obtain ⟨hfollows, -⟩ := follows_append.mp hfollows
    have hvalue := expression_charted (c := c) hvalue (h.encloses.narrow (Nat.le_refl _) (Nat.le_succ _)) hfollows
    refine (hvalue.before (.plain (Nat.lt_succ_self _) ?_)).mention (forall_mem_singleton.mpr rfl)
    split <;> rfl

theorem statements_charted : ∀ {ns : List Node}, AreStats ns →
    ∀ {c : Context} {outer : List Body} {shape : List Mark} {s : Point},
    Nested c outer shape s.here (nextAll prims s ns).here → p.Follows (statements prims shape s ns) →
      Charted outer s.here (nextAll prims s ns).here (bodiesOf prims (sitesAll prims shape s ns))
        (statements prims shape s ns) (mentionsAll c ns)
  | _, .nil, c, outer, shape, s, _, _ => by
    rw [Layout.statements, mentionsAll, nextAll, sitesAll]
    exact .nil s.here (forall_mem_nil _)
  | _, @AreStats.cons n ns hn hns, c, outer, shape, s, h, hfollows => by
    have hle := (statement_laid prims hn shape s).ordered.le
    have hle' := (statements_laid prims hns shape (next prims s n)).ordered.le
    rw [nextAll] at h
    rw [Layout.statements] at hfollows
    rw [Layout.statements, mentionsAll, nextAll, sitesAll, bodiesOf_append]
    obtain ⟨hfirst, hrest⟩ := follows_append.mp hfollows
    have hn := statement_charted hn (h.narrow rfl rfl rfl (Nat.le_refl _) hle') hfirst
    have hbehind : Nested (c.after n) outer shape (next prims s n).here _ := h.narrow rfl rfl rfl hle (Nat.le_refl _)
    exact hn.append (statements_charted hns hbehind hrest)

end

theorem program_charted {body : List Node} (hbody : AreStats body) (hfollows : p.Follows (program prims body)) :
    Charted [] 0 (finish prims body).here (bodies prims body) (program prims body) (programMentions body) := by
  have hnested : Nested (outset body) [] [] (origin body).here (finish prims body).here := by
    refine ⟨forall_mem_nil _, by simp [outset], ?_, ?_, ?_⟩
    all_goals
      intro start stop hinner
      cases hinner
  rw [programMentions_eq]
  exact statement_charted (.block hbody) hnested hfollows

end Layout

/-! ## Compiled programs -/

section

variable {p : Program} {prims : List String} {body : List Node}

theorem Instr.Reads.target? {operands : List Int} (h : instr.Reads p operands) (address : Nat) :
    Line.target? ⟨address, instr.op, operands⟩ = instr.target? := by
  cases instr with
  | plain op =>
    cases op with
    | jump | jumpTrue | jumpFalse => cases h.1
    | _ => rfl
  | branch op target =>
    obtain ⟨hop, rfl⟩ := h
    cases op with
    | jumpTrue | jumpFalse => rfl
    | _ => cases hop
  | jump target | continueLoop target =>
    have h : operands = [(target : Int)] := h
    rw [h]
    rfl
  | breakLoop =>
    have h : operands = [-1] := h
    rw [h]
    rfl
  | _ => rfl

namespace Program.LaidOut

theorem leadsOut_lineAt (h : p.LaidOut prims body) (bodies : List Body) {x : Spot}
    (hx : x ∈ Layout.program prims body) :
    (p.lineAt x.address x.instr.op).leadsOut bodies = leadsOut bodies x.address x.instr.target? := by
  obtain ⟨operands, hreads, hline⟩ := h.lineAt hx
  rw [hline, Line.leadsOut, hreads.target?]

theorem jump_mem_lines (h : p.LaidOut prims body) {address target : Nat} {shape : List Mark}
    (hx : ⟨address, .jump target, shape⟩ ∈ Layout.program prims body) :
    ⟨address, .jump, [(target : Int)]⟩ ∈ p.lines prims body := by
  obtain ⟨operands, hreads, hline⟩ := h.lineAt hx
  have hoperands : operands = [(target : Int)] := hreads
  rw [← hoperands]
  exact hline ▸ mem_map_of_mem hx

theorem strays (h : p.LaidOut prims body) (hbody : AreStats body) {bodies : List Body} {x : Spot} {m : Mention}
    (hx : x ∈ Layout.program prims body) (hstrays : x.Strays bodies m) :
    (p.lineAt x.address x.instr.op).Strays (p.lines prims body) bodies m := by
  obtain ⟨operands, hreads, hline⟩ := h.lineAt hx
  rw [hline]
  cases hstrays with
  | breakLoop =>
    have hoperands : operands = [-1] := hreads
    rw [hoperands]
    exact .breakLoop
  | @continueLoop address target stop shape c b hb hcontains hbefore hbehind hloop =>
    have hoperands : operands = [(target : Int)] := hreads
    -- the loop is closed by a jump back to its start
    obtain ⟨-, around, hjump⟩ := ((Layout.program_laid prims hbody).closed _ hx target stop hloop).resolve_left (by simp)
    rw [hoperands]
    exact .continueLoop hb hcontains hbefore (by omega) (h.jump_mem_lines hjump)

theorem filter_leadsOut (h : p.LaidOut prims body) (bodies : List Body) :
    (p.lines prims body).filter (Line.leadsOut bodies) =
      ((Layout.program prims body).filter fun x => leadsOut bodies x.address x.instr.target?).map
        fun x => p.lineAt x.address x.instr.op := by
  rw [Program.lines, filter_map]
  exact congrArg _ (filter_congr fun x hx => h.leadsOut_lineAt bodies hx)

theorem strays_lines (h : p.LaidOut prims body) (hbody : AreStats body) :
    Forall₂ (Line.Strays (p.lines prims body) (Layout.bodies prims body))
      ((p.lines prims body).filter (Line.leadsOut (Layout.bodies prims body)))
      ((programMentions body).filter Mention.strays) := by
  have hcharted := Layout.program_charted hbody h.follows
  have hmem : ∀ x ∈ (Layout.program prims body).filter
      fun x => leadsOut (Layout.bodies prims body) x.address x.instr.target?, x ∈ Layout.program prims body :=
    fun x hx => mem_of_mem_filter hx
  rw [h.filter_leadsOut, forall₂_map_left_iff]
  exact ((forall₂_and_left _ _).mpr ⟨hmem, hcharted.strays⟩).imp fun x m hx => h.strays hbody hx.1 hx.2

end Program.LaidOut

end

/-- **Jumps out of functions.** A `break` or `continue` without any loop around it is refused. In a program that is compiled,
the jumps that lead out of the body of a function are those of the breaks in functions and of the continues that have no loop in
their own function, in order. -/
theorem Program.jumps_out_of_functions {tokens : List Token} {ast : Node} (hparse : Node.parse tokens = .ok ast)
    (primitives : List String) : ∃ body, ast = .program body ∧
      ((∃ m ∈ programMentions body, (m.use = .breakLoop ∨ m.use = .continueLoop) ∧ m.context.withinLoop = false) →
        ∃ e, Program.ofNode primitives ast = .error e) ∧
      ∀ p, Program.ofNode primitives ast = .ok p → ∃ lines, p.decode = some lines ∧
        (∀ b ∈ Layout.bodies primitives body, ∃ address, address + 2 = b.start ∧ ⟨address, .jump, [(b.stop : Int)]⟩ ∈ lines) ∧
        List.Forall₂ (Line.Strays lines (Layout.bodies primitives body))
          (lines.filter (Line.leadsOut (Layout.bodies primitives body))) ((programMentions body).filter Mention.strays) := by
  obtain ⟨body, rfl⟩ := Node.exists_program_of_parse hparse
  have hbody := (Node.areStats_of_parse hparse).1
  refine ⟨body, rfl, ?_, fun p hp => ?_⟩
  · rintro ⟨m, hm, huse, hloop⟩
    rcases Program.settled hparse primitives with ⟨p, -, hfine⟩ | ⟨e, herror, -⟩
    · refine absurd ⟨m, hm, ?_⟩ hfine
      rcases huse with huse | huse <;> simp [Mention.wrong, huse, hloop]
    · exact ⟨e, herror⟩
  · have hlaid := Program.laidOut hbody hp
    refine ⟨_, hlaid.decode hbody, fun b hb => ?_, hlaid.strays_lines hbody⟩
    obtain ⟨site, hsite, rfl⟩ := List.mem_map.mp hb
    exact ⟨site.point.here, rfl, hlaid.jump_mem_lines ((Layout.program_sited primitives hbody).skipped site hsite)⟩

/-- `while (true) { var f = fun() { continue; }; }`: the `continue` in the function leads back to the loop around it. -/
theorem Program.continue_out_of_function :
    ∃ (body : List Node) (p : Program) (lines : List Line), Program.ofNode [] (.program body) = .ok p ∧
      p.decode = some lines ∧ Layout.bodies [] body = [⟨9, 15⟩] ∧
      lines.filter (Line.leadsOut [⟨9, 15⟩]) = [⟨11, .jump, [2]⟩] ∧
      List.Forall₂ (Line.Strays lines [⟨9, 15⟩]) [⟨11, .jump, [2]⟩] ((programMentions body).filter Mention.strays) := by
  let sign (tag : String) : Token := ⟨tag, .null⟩
  let tokens : List Token :=
    [sign "while", sign "(", sign "true", sign ")", sign "\x7b", sign "var", ⟨"id", .text "f"⟩, sign "=", sign "fun", sign "(",
      sign ")", sign "\x7b", sign "continue", sign ";", sign "\x7d", sign ";", sign "\x7d"]
  let body : List Node :=
    [.loop (.literal .true [.null]) (.block [.define (.text "f") (.function [] (.block [.continueLoop]))])]
  let p : Program :=
    { code := #[13, 0, 3, 11, 23, 13, 1, 9, 15, 13, 0, 9, 2, 14, 16, 1, 0, 6, 0, 0, 14, 9, 2, 14]
      consts := #[.number (.int 0)]
      scopes := #[#[], #[], #[.text "f"], #[], #[]]
      routines := #[⟨.text "f", [], some 9⟩] }
  have hparse : Node.parse tokens = .ok (.program body) := by cbv
  have hp : Program.ofNode [] (.program body) = .ok p := by cbv
  obtain ⟨body', hbody', -, hcompiled⟩ := Program.jumps_out_of_functions hparse []
  cases hbody'
  obtain ⟨lines, hdecode, -, hstrays⟩ := hcompiled p hp
  have hbodies : Layout.bodies [] body = [⟨9, 15⟩] := by cbv
  have hlines : p.decode.map (·.filter (Line.leadsOut [⟨9, 15⟩])) = some [⟨11, .jump, [2]⟩] := by cbv
  rw [hbodies] at hstrays
  rw [hdecode] at hlines
  have hjumps : lines.filter (Line.leadsOut [⟨9, 15⟩]) = [⟨11, .jump, [2]⟩] := Option.some.inj hlines
  rw [hjumps] at hstrays
  exact ⟨body, p, lines, hp, hdecode, hbodies, hjumps, hstrays⟩

end Cilly
