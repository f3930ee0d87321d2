import Cilly.Proofs.Acting
import Cilly.Proofs.Scopes

/-!
# Compiled code follows its layout

The one pass over what compilation does. For every tree of a text that compiles, the code that comes out
holds the instructions of the layout, the point afterwards is the one that the layout says, and whatever
was there before is kept. All later facts about compiled programs come from the layout.

Code counts as finished from an address on (`Agrees`): words of a node are final once the node is
compiled, since an operand is patched only by the node that emitted it.
-/

namespace Cilly

open List Opcode Point

variable {a a' b c : Assembly} {body : List Node} {current : Option Nat} {fs : List Scope} {i : Nat}
  {op placeholder : Int} {outer : List Nat} {p : Program} {primitives : List String} {s : Point} {spots : List Spot}
  {value : Node} {x : Datum}

namespace Assembly

/-- What the layout of the next statement depends on. -/
def point (a : Assembly) : Point := { visible := a.openScopes, routines := a.routines, here := a.code.size }

def names (a : Assembly) : Names := a.point.toNames

theorem place?_eq (a : Assembly) (x : Datum) : a.place? x = a.names.place? a.primitives x := rfl

@[simp] theorem withCode_names (a : Assembly) (code : Array Int) : (a.withCode code).names = a.names := rfl

/-- A scope has been opened inside the given ones, for the code of the given function. -/
def opened (a : Assembly) (outer : List Nat) (current : Option Nat) : Assembly :=
  { a with scopes := a.scopes.push #[], chain := a.scopes.size :: outer, current := current }

/-- The table has the entry of a function that is defined here. -/
def defined (a : Assembly) (x : Datum) (params : List Datum) : Assembly :=
  { a with routines := a.names.define x params (a.code.size + 2) }

/-- Inside a loop with the given first address, whose test may jump out from another. -/
def looping (a : Assembly) (start exit : Nat) : Assembly := { a with breaks := #[exit], continues := #[start] }

@[simp] theorem looping_code (a : Assembly) (start exit : Nat) : (a.looping start exit).code = a.code := rfl

@[simp] theorem looping_point (a : Assembly) (start exit : Nat) : (a.looping start exit).point = a.point := rfl

@[simp] theorem looping_primitives (a : Assembly) (start exit : Nat) :
    (a.looping start exit).primitives = a.primitives := rfl

theorem opened_point {a : Assembly} {outer : List Nat} {current : Option Nat}
    (h : ∀ i ∈ outer, i < a.scopes.size) :
    (a.opened outer current).point =
      { a.point with visible := #[] :: outer.map fun i => a.scopes.getD i #[] } := by
  have houter : outer.map (fun i => (a.scopes.push #[]).getD i #[]) =
      outer.map fun i => a.scopes.getD i #[] := by
    refine map_congr_left fun i hi => ?_
    simp [Array.getD_eq_getD_getElem?, Array.getElem?_push, Nat.ne_of_lt (h i hi)]
  simp only [point, openScopes, opened, map_cons, houter]
  simp [Array.getD_eq_getD_getElem?]

end Assembly

/-! ## Finished code -/

/-- From an address on, the program has the words of the code. -/
def Program.Agrees (p : Program) (start : Nat) (code : Array Int) : Prop :=
  ∀ (i : Nat) (w : Int), start ≤ i → code[i]? = some w → p.code[i]? = some w

namespace Program.Agrees

variable {p : Program} {start : Nat} {code before : Array Int}

theorem mono (h : p.Agrees start code) {later : Nat} (hle : start ≤ later) : p.Agrees later code :=
  fun i w hi hw => h i w (Nat.le_trans hle hi) hw

theorem of_extends (h : p.Agrees start code) (hext : Extends before code) : p.Agrees start before :=
  fun i w hi hw => h i w hi (hext i w hw)

theorem holds {words : List Int} (h : p.Agrees start (before ++ words.toArray))
    (hle : start ≤ before.size) : p.Holds before.size words := by
  intro i w hw
  refine h (before.size + i) w (by omega) ?_
  rw [Array.getElem?_append_right (by omega)]
  simpa using hw

/-- An instruction that was emitted with a placeholder and patched later: what came before it is finished,
it has its operand, and what came after it is finished. -/
theorem patched {operand : Int} (h : p.Agrees start (code.setIfInBounds (before.size + 1) operand))
    (hext : Extends (before ++ #[op, placeholder]) code) (hle : start ≤ before.size) :
    p.Agrees start before ∧ p.Holds before.size [op, operand] ∧ p.Agrees (before.size + 2) code := by
  have hop : code[before.size]? = some op := hext _ _ (by simp)
  have hplace : code[before.size + 1]? = some placeholder := hext _ _ (by simp)
  have hlt : before.size + 1 < code.size := (Array.getElem?_eq_some_iff.mp hplace).1
  have hother : ∀ (i : Nat) (w : Int), start ≤ i → i ≠ before.size + 1 → code[i]? = some w →
      p.code[i]? = some w := by
    intro i w hi hne hw
    exact h i w hi (by rw [Array.getElem?_setIfInBounds_ne (by omega), hw])
  refine ⟨?_, ?_, ?_⟩
  · intro i w hi hw
    have hlt' : i < before.size := (Array.getElem?_eq_some_iff.mp hw).1
    exact hother i w hi (by omega) ((Extends.append before #[op, placeholder]).trans hext i w hw)
  · intro i w hw
    match i, hw with
    | 0, hw =>
      cases hw
      exact hother _ _ hle (by omega) hop
    | 1, hw =>
      cases hw
      exact h _ _ (by omega) (by rw [Array.getElem?_setIfInBounds_self_of_lt hlt])
  · intro i w hi hw
    exact hother i w (by omega) (by omega) hw

end Program.Agrees

namespace CompileM

open Acting Node Layout

/-! ## Pieces of code -/

/-- Code has been added, as wide as it should be and following its layout, and nothing was changed. -/
structure Lays (a a' : Assembly) (width : Nat) (spots : List Spot) : Prop where
  code : Extends a.code a'.code
  consts : Extends a.consts a'.consts
  size : a'.code.size = a.code.size + width
  follows : ∀ (p : Program), p.Agrees a.code.size a'.code → Extends a'.consts p.consts →
    p.Follows spots
  origin : ∀ c ∈ a'.consts, c ∈ a.consts ∨ ∃ spot ∈ spots, spot.instr.constant? = some c
  pooled : a'.consts.size ≤ a.consts.size + width

namespace Lays

variable {a b c : Assembly} {v w : Nat} {spots more : List Spot}

theorem cast (h : Lays a b v spots) (hw : v = w) (hspots : spots = more) : Lays a b w more := by
  rwa [hw, hspots] at h

theorem nil (a : Assembly) : Lays a a 0 [] :=
  ⟨.refl _, .refl _, rfl, fun _ _ _ => .nil, fun _ => Or.inl, Nat.le_refl _⟩

theorem origin_append {xs ys zs : Array Datum}
    (h : ∀ c ∈ ys, c ∈ xs ∨ ∃ spot ∈ spots, spot.instr.constant? = some c)
    (h' : ∀ c ∈ zs, c ∈ ys ∨ ∃ spot ∈ more, spot.instr.constant? = some c) :
    ∀ c ∈ zs, c ∈ xs ∨ ∃ spot ∈ spots ++ more, spot.instr.constant? = some c := by
  intro c hc
  rcases h' c hc with hc | ⟨spot, hspot, hconst⟩
  · rcases h c hc with hc | ⟨spot, hspot, hconst⟩
    · exact Or.inl hc
    · exact Or.inr ⟨spot, mem_append_left _ hspot, hconst⟩
  · exact Or.inr ⟨spot, mem_append_right _ hspot, hconst⟩

theorem trans (h : Lays a b v spots) (h' : Lays b c w more) : Lays a c (v + w) (spots ++ more) := by
  have hpooled := h.pooled
  have hpooled' := h'.pooled
  refine ⟨h.code.trans h'.code, h.consts.trans h'.consts, by rw [h'.size, h.size, Nat.add_assoc], ?_, ?_, by omega⟩
  · intro p hcode hconsts
    exact follows_append.mpr
      ⟨h.follows p (hcode.of_extends h'.code) (h'.consts.trans hconsts),
        h'.follows p (hcode.mono h.code.size_le) hconsts⟩
  · exact origin_append h.origin h'.origin

theorem words (a : Assembly) (words : List Int) (instr : Instr) (shape : List Mark)
    (hinstr : ∀ (p : Program), p.Holds a.code.size words → instr.In p a.code.size) :
    Lays a (a.withCode (a.code ++ words.toArray)) words.length [⟨a.code.size, instr, shape⟩] := by
  refine ⟨.append _ _, .refl _, by simp, ?_, fun _ => Or.inl, Nat.le_add_right _ _⟩
  intro p hcode _
  exact follows_cons.mpr ⟨hinstr p (hcode.holds (Nat.le_refl _)), .nil⟩

theorem plain (a : Assembly) (op : Opcode) (hop : op.isPlain = true) (shape : List Mark) :
    Lays a (a.withCode (a.code ++ #[op.word])) 1 [⟨a.code.size, .plain op, shape⟩] :=
  words a [op.word] (.plain op) shape fun _ h => ⟨hop, h⟩

/-- An instruction between two pieces that got its operand after the second. -/
theorem hole (h : Lays a b v spots)
    (h' : Lays (b.withCode (b.code ++ #[op, placeholder])) c w more) (operand : Int) (instr : Instr)
    (shape : List Mark)
    (hinstr : ∀ (p : Program), p.Holds b.code.size [op, operand] → instr.In p b.code.size) :
    Lays a (c.withCode (c.code.setIfInBounds (b.code.size + 1) operand)) (v + w + 2)
      (spots ++ ⟨b.code.size, instr, shape⟩ :: more) := by
  have hle : a.code.size ≤ b.code.size := h.code.size_le
  have hext : Extends (b.code ++ #[op, placeholder]) c.code := h'.code
  have hpooled := h.pooled
  have hpooled' : c.consts.size ≤ b.consts.size + w := h'.pooled
  refine ⟨?_, h.consts.trans h'.consts, ?_, ?_, ?_, by rw [Assembly.withCode_consts]; omega⟩
  · exact ((h.code.trans (.append _ _)).trans hext).setIfInBounds (by omega) _
  · have hb := h.size
    have hc := h'.size
    simp only [Assembly.withCode_code, Array.size_append, size_toArray, length_cons,
      length_nil] at hc
    simp only [Assembly.withCode_code, Array.size_setIfInBounds]
    omega
  · intro p hcode hconsts
    obtain ⟨hbefore, hholds, hafter⟩ := hcode.patched hext hle
    have hspots := h.follows p hbefore (h'.consts.trans hconsts)
    have hmore := h'.follows p (by simpa using hafter) hconsts
    exact follows_append.mpr
      ⟨hspots, follows_cons.mpr ⟨hinstr p hholds, hmore⟩⟩
  · refine origin_append h.origin fun c hc => (h'.origin c hc).imp_right ?_
    rintro ⟨spot, hspot, hconst⟩
    exact ⟨spot, mem_cons_of_mem _ hspot, hconst⟩

end Lays

/-! ## Expressions -/

/-- Only code and constants have changed. -/
structure Keeps (a a' : Assembly) : Prop where
  scopes : a'.scopes = a.scopes
  chain : a'.chain = a.chain
  routines : a'.routines = a.routines
  current : a'.current = a.current
  breaks : a'.breaks = a.breaks
  continues : a'.continues = a.continues
  primitives : a'.primitives = a.primitives

namespace Keeps

variable {a b c : Assembly}

theorem trans (h : Keeps a b) (h' : Keeps b c) : Keeps a c where
  scopes := h'.scopes.trans h.scopes
  chain := h'.chain.trans h.chain
  routines := h'.routines.trans h.routines
  current := h'.current.trans h.current
  breaks := h'.breaks.trans h.breaks
  continues := h'.continues.trans h.continues
  primitives := h'.primitives.trans h.primitives

theorem withCode (a : Assembly) (code : Array Int) : Keeps a (a.withCode code) :=
  ⟨rfl, rfl, rfl, rfl, rfl, rfl, rfl⟩

theorem names (h : Keeps a b) : b.names = a.names := by
  simp [Assembly.names, Assembly.point, Assembly.openScopes, h.scopes, h.chain, h.routines]

end Keeps

theorem lays_pooled {c : Datum} {op : Opcode} {instr : Instr} (hconst : instr.constant? = some c)
    (hinstr : ∀ (p : Program) (i : Nat) (d : Datum), p.Holds a.code.size [op.word, (i : Int)] → p.consts[i]? = some d →
      d = c ∨ d.eq c = true → instr.In p a.code.size)
    (h : outcome (addConst c >>= fun i => discard (emit1 op i)) a = (.ok (), a')) :
    Keeps a a' ∧ ∀ shape, Lays a a' 2 [⟨a.code.size, instr, shape⟩] := by
  obtain ⟨i, consts, hadd, hext, horigin, hpooled, d, hd, hdc⟩ := outcome_addConst (a := a) c
  rw [bind_ok hadd, outcome_discard, outcome_emit1] at h
  cases h
  refine ⟨⟨rfl, rfl, rfl, rfl, rfl, rfl, rfl⟩, fun shape => ⟨.append _ _, hext, by simp, ?_,
    fun c hc => (horigin c hc).imp_right fun h => ⟨_, mem_singleton_self _, by rw [h]; exact hconst⟩, Nat.le_succ_of_le hpooled⟩⟩
  intro p hcode hconsts
  exact follows_cons.mpr ⟨hinstr p i d (hcode.holds (Nat.le_refl _)) (hconsts i d hd) hdc, .nil⟩

theorem lays_const {c : Datum} (h : outcome (emitConst c) a = (.ok (), a')) :
    Keeps a a' ∧ ∀ shape, Lays a a' 2 [⟨a.code.size, .const c, shape⟩] :=
  lays_pooled rfl (fun _ i d hholds hd hdc => ⟨i, hholds, d, hd, hdc⟩) h

theorem lays_primitive {text : String}
    (h : outcome (addConst (.string (.text text)) >>= fun i => discard (emit1 .callPrimitive i)) a = (.ok (), a')) :
    Keeps a a' ∧ ∀ shape, Lays a a' 2 [⟨a.code.size, .primitive (.text text), shape⟩] :=
  lays_pooled rfl (fun _ i d hholds hd hdc => ⟨i, hholds, d, hd, hdc⟩) h

/-- What becomes of an expression. -/
def LaysExpr (e : Node) (a a' : Assembly) : Prop :=
  Keeps a a' ∧ ∀ shape, Lays a a' (width a.primitives a.names e)
    (expression a.primitives shape a.names a.code.size e)

theorem lays_literal {kind : LiteralKind} {fields : List Datum}
    (h : outcome (emitLiteral kind fields) a = (.ok (), a')) : LaysExpr (.literal kind fields) a a' := by
  cases kind with
  | null | true | false =>
    cases h
    exact ⟨.withCode _ _, fun shape => (Lays.plain a _ rfl shape).cast (by simp [width]) (by
      simp [expression, loadingLiteral])⟩
  | num | str =>
    obtain ⟨hkeeps, hlays⟩ := lays_const h
    exact ⟨hkeeps, fun shape => (hlays shape).cast (by simp [width]) (by
      simp [expression, loadingLiteral])⟩

theorem lookup_ok {place : Place} (h : outcome (lookup x) a = (.ok place, b)) :
    b = a ∧ a.names.place? a.primitives x = some place := by
  unfold lookup at h
  rw [bind_ok (outcome_get a)] at h
  cases hplace : a.place? x with
  | none =>
    rw [hplace] at h
    obtain ⟨_, _, _, hthrow⟩ := bind_eq_ok.mp h
    cases hthrow
  | some place' =>
    rw [hplace] at h
    cases h
    exact ⟨rfl, hplace⟩

theorem lays_name (h : outcome (emitName x) a = (.ok (), a')) :
    LaysExpr (.name x) a a' := by
  unfold emitName at h
  obtain ⟨place, b, hlookup, hrest⟩ := bind_eq_ok.mp h
  obtain ⟨rfl, hplace⟩ := lookup_ok hlookup
  cases place with
  | routine id =>
    obtain ⟨hkeeps, hlays⟩ := lays_const hrest
    exact ⟨hkeeps, fun shape => (hlays shape).cast (by simp [width, hplace]) (by
      simp [expression, Names.loading, hplace])⟩
  | «variable» _ i | primitive i =>
    cases hrest
    refine ⟨.withCode _ _, fun shape => (Lays.words _ [_, _, _] (.load _ i) shape fun _ hp => hp).cast
      (by simp [width, hplace]) ?_⟩
    simp [expression, Names.loading, hplace, Place.operands]

theorem throw_ok {α β : Type} {b : β} {x : CompileM α} {e : α → CompileError}
    (h : outcome (x >>= fun y => (throw (e y) : CompileM β)) a = (.ok b, a')) : False := by
  obtain ⟨_, _, _, hthrow⟩ := bind_eq_ok.mp h
  cases hthrow

theorem lays_shortcut {skip skipped : Opcode} {v w : Nat}
    {left right : List Spot} (shape : List Mark) (hskip : skip.isBranch = true)
    (hskipped : skipped.isPlain = true) (hleft : Lays a b v left)
    (hright : Lays (b.withCode (b.code ++ #[skip.word, -1])) c w right)
    (h : outcome (do
      let done ← emit1 .jump (-1)
      patchHere b.code.size
      emit skipped
      patchHere done) c = (.ok (), a')) :
    Keeps c a' ∧ Lays a a' (v + w + 5)
      (left ++ ⟨b.code.size, .branch skip (c.code.size + 2), shape⟩ ::
        (right ++ [⟨c.code.size, .jump (c.code.size + 3), shape⟩,
          ⟨c.code.size + 2, .plain skipped, shape⟩])) := by
  have hle : b.code.size + 2 ≤ c.code.size := by simpa using hright.code.size_le
  rw [bind_ok (outcome_emit1 _ _), bind_ok (outcome_patchHere (by simp; omega)),
    bind_ok (outcome_emit _), outcome_patchHere (by simp)] at h
  cases h
  refine ⟨.withCode _ _, ?_⟩
  have hfirst := hleft.hole hright ((c.code.size + 2 : Nat) : Int) (.branch skip (c.code.size + 2))
    shape fun p hp => ⟨hskip, hp⟩
  have hsecond := hfirst.hole (Lays.plain (c.withCode (c.code.setIfInBounds (b.code.size + 1)
    ((c.code.size + 2 : Nat) : Int) ++ #[jump.word, -1])) skipped hskipped shape)
    ((c.code.size + 3 : Nat) : Int) (.jump (c.code.size + 3)) shape fun p hp => by
      simpa [Instr.In] using hp
  have hcode : (c.code ++ #[jump.word, -1]).setIfInBounds (b.code.size + 1)
        ((c.code.size + 2 : Nat) : Int) =
      c.code.setIfInBounds (b.code.size + 1) ((c.code.size + 2 : Nat) : Int) ++ #[jump.word, -1] :=
    Array.setIfInBounds_append_left (by omega)
  simp only [Assembly.withCode_code, Assembly.withCode_withCode, Array.size_append, size_toArray,
    length_cons, length_nil, Array.size_setIfInBounds] at hsecond ⊢
  rw [hcode]
  exact hsecond.cast (by omega) (by simp)

theorem lays_both {first second : Node} (op : Opcode) (hop : op.isPlain = true)
    (h : LaysExpr first a b) (h' : LaysExpr second b c) : Keeps a (c.withCode (c.code ++ #[op.word])) ∧ ∀ shape,
      Lays a (c.withCode (c.code ++ #[op.word])) (width a.primitives a.names first + (width a.primitives a.names second + 1))
        (expression a.primitives shape a.names a.code.size first ++
          (expression a.primitives shape a.names (a.code.size + width a.primitives a.names first) second ++
            [⟨a.code.size + width a.primitives a.names first + width a.primitives a.names second, .plain op, shape⟩])) := by
  obtain ⟨hkeeps, hlays⟩ := h
  obtain ⟨hkeeps', hlays'⟩ := h'
  rw [hkeeps.primitives, hkeeps.names] at hlays'
  refine ⟨(hkeeps.trans hkeeps').trans (.withCode _ _), fun shape => ?_⟩
  have hboth := (hlays shape).trans ((hlays' shape).trans (Lays.plain c op hop shape))
  rwa [(hlays' shape).size, (hlays shape).size] at hboth

/-- The function or primitive that is called changes nothing either. -/
theorem calleeOf_ok {callee : Callee}
    (h : outcome (calleeOf x) a = (.ok callee, b)) : b = a ∧
      match callee with
      | .routine id => a.names.routineIndex? x = some id
      | .primitive text => a.names.routineIndex? x = none ∧ x = .text text ∧
        ∃ i, a.names.place? a.primitives x = some (.primitive i)
      | .none => True := by
  unfold calleeOf at h
  rw [bind_ok (outcome_get a)] at h
  cases hindex : a.routineIndex? x with
  | some id =>
    rw [hindex] at h
    cases h
    exact ⟨rfl, hindex⟩
  | none =>
    rw [hindex] at h
    obtain ⟨place, c, hlookup, hrest⟩ := bind_eq_ok.mp h
    obtain ⟨rfl, hplace⟩ := lookup_ok hlookup
    split at hrest <;> cases hrest
    · exact ⟨rfl, hindex, rfl, _, hplace⟩
    · exact ⟨rfl, trivial⟩

theorem refuseCall_ok {callee : Node} {args : List Node}
    (h : outcome (refuseCall callee args) a = (.ok (), a')) : False := by
  unfold refuseCall at h
  exact throw_ok h

theorem visitArguments_cons {e : Node} (he : IsExpr e) (es : List Node) :
    visitArguments (e :: es) = visitArguments es >>= fun _ => visit e := by
  rw [visitArguments]
  rintro raw rfl
  cases he

theorem visit_variable (hvalue : IsExpr value) (hne : ∀ params body, value ≠ .function params body) :
    visit (.define x value) = visit value >>= fun _ => declare x >>= fun index => emit2 .storeVar 0 index := by
  rw [visit]
  · exact hne
  · cases hvalue <;> simp

mutual

theorem lays_expr : ∀ {e : Node}, IsExpr e → ∀ {a a' : Assembly},
    outcome (visit e) a = (.ok (), a') → LaysExpr e a a'
  | _, .name x, a, a', h => lays_name (by rwa [visit] at h)
  | _, .literal kind d, a, a', h => lays_literal (by rwa [visit] at h)
  | _, @IsExpr.unary op e he, a, a', h => by
    rw [visit] at h
    obtain ⟨_, b, hvisit, hrest⟩ := bind_eq_ok.mp h
    obtain ⟨hkeeps, hlays⟩ := lays_expr he hvisit
    cases hop : unaryOf? op with
    | none =>
      rw [hop] at hrest
      exact (throw_ok hrest).elim
    | some o =>
      rw [hop] at hrest
      dsimp only at hrest
      rw [outcome_emit] at hrest
      cases hrest
      refine ⟨hkeeps.trans (.withCode _ _), fun shape =>
        ((hlays shape).trans (Lays.plain b (.unary o) rfl shape)).cast (by simp [width]) ?_⟩
      simp [expression, applyingUnary, hop, (hlays shape).size]
  | _, @IsExpr.binary op l r hl hr, a, a', h => by
    rw [visit] at h
    cases hshort : shortcutOf? op with
    | some pair =>
      obtain ⟨skip, skipped⟩ := pair
      rw [hshort] at h
      obtain ⟨_, b, hvisit, h⟩ := bind_eq_ok.mp h
      rw [bind_ok (outcome_emit1 _ _)] at h
      obtain ⟨_, c, hvisit', h⟩ := bind_eq_ok.mp h
      obtain ⟨hkeeps, hlays⟩ := lays_expr hl hvisit
      obtain ⟨hkeeps', hlays'⟩ := lays_expr hr hvisit'
      obtain ⟨hskip, hskipped⟩ := shortcutOf?_isPlain hshort
      have hrest := fun shape => lays_shortcut shape hskip hskipped (hlays shape) (hlays' shape) h
      refine ⟨((hkeeps.trans (.withCode _ _)).trans hkeeps').trans (hrest []).1, fun shape => ?_⟩
      have hb := (hlays shape).size
      have hc := (hlays' shape).size
      have hall := (hrest shape).2
      simp only [Assembly.withCode_code, Assembly.withCode_primitives, Assembly.withCode_names,
        hkeeps.primitives, hkeeps.names, Array.size_append, size_toArray, length_cons,
        length_nil] at hc hall
      exact hall.cast (by simp [width, hshort]) (by simp [expression, hshort, hb, hc])
    | none =>
      rw [hshort] at h
      dsimp only at h
      cases hswap : swappedOf? op with
      | some o =>
        rw [hswap] at h
        obtain ⟨_, b, hvisit, h⟩ := bind_eq_ok.mp h
        obtain ⟨_, c, hvisit', h⟩ := bind_eq_ok.mp h
        rw [outcome_emit] at h
        cases h
        obtain ⟨hkeeps, hlays⟩ := lays_both (.binary o) rfl (lays_expr hr hvisit) (lays_expr hl hvisit')
        refine ⟨hkeeps, fun shape => (hlays shape).cast ?_ (by simp [expression, hshort, hswap])⟩
        simp [width, hshort]
        omega
      | none =>
        rw [hswap] at h
        obtain ⟨_, b, hvisit, h⟩ := bind_eq_ok.mp h
        obtain ⟨_, c, hvisit', h⟩ := bind_eq_ok.mp h
        cases hop : binaryOf? op with
        | none =>
          rw [hop] at h
          exact (throw_ok h).elim
        | some o =>
          rw [hop] at h
          dsimp only at h
          rw [outcome_emit] at h
          cases h
          obtain ⟨hkeeps, hlays⟩ := lays_both (.binary o) rfl (lays_expr hl hvisit) (lays_expr hr hvisit')
          refine ⟨hkeeps, fun shape => (hlays shape).cast ?_ (by simp [expression, applyingBinary, hshort, hswap, hop])⟩
          simp [width, hshort]
          omega
  | _, @IsExpr.call f args hf hargs, a, a', h => by
    cases hf with
    | name x =>
      rw [visit] at h
      obtain ⟨callee, b, hcallee, h⟩ := bind_eq_ok.mp h
      obtain ⟨rfl, hindex⟩ := calleeOf_ok hcallee
      cases callee with
      | none => exact (refuseCall_ok h).elim
      | routine id =>
        obtain ⟨_, c, hvisit, h⟩ := bind_eq_ok.mp h
        obtain ⟨hkeeps, hlays⟩ := lays_arguments hargs hvisit
        rw [outcome_discard, outcome_emit1] at h
        cases h
        refine ⟨hkeeps.trans (.withCode _ _), fun shape =>
          ((hlays shape).trans (Lays.words c [_, _] (.call id) shape fun _ hp => hp)).cast
            (by simp [width]) ?_⟩
        simp [expression, Names.calling, hindex, (hlays shape).size]
      | primitive text =>
        obtain ⟨hnone, htext, i, hplace⟩ := hindex
        cases htext
        obtain ⟨_, c, hvisit, h⟩ := bind_eq_ok.mp h
        obtain ⟨hkeeps, hlays⟩ := lays_arguments hargs hvisit
        obtain ⟨hkeeps', hlays'⟩ := lays_primitive h
        refine ⟨hkeeps.trans hkeeps', fun shape =>
          ((hlays shape).trans (hlays' shape)).cast (by simp [width]) ?_⟩
        simp [expression, Names.calling, hnone, hplace, (hlays shape).size]
    | literal | unary | binary | call | function =>
      rw [visit] at h
      · exact (refuseCall_ok h).elim
      all_goals simp
  | _, .function xs _, a, a', h => by
    rw [visit] at h
    cases h

theorem lays_arguments : ∀ {es : List Node}, AreExprs es → ∀ {a a' : Assembly},
    outcome (visitArguments es) a = (.ok (), a') → Keeps a a' ∧ ∀ shape,
      Lays a a' (widths a.primitives a.names es)
        (arguments a.primitives shape a.names a.code.size es)
  | _, .nil, a, a', h => by
    rw [visitArguments] at h
    cases h
    exact ⟨.withCode _ _, fun _ => (Lays.nil a).cast (by simp [widths]) (by simp [arguments])⟩
  | _, @AreExprs.cons e es he hes, a, a', h => by
    rw [visitArguments_cons he] at h
    obtain ⟨_, b, hrest, hfirst⟩ := bind_eq_ok.mp h
    obtain ⟨hkeeps, hlays⟩ := lays_arguments hes hrest
    obtain ⟨hkeeps', hlays'⟩ := lays_expr he hfirst
    rw [hkeeps.primitives, hkeeps.names] at hlays'
    refine ⟨hkeeps.trans hkeeps', fun shape =>
      ((hlays shape).trans (hlays' shape)).cast (by simp [widths]) ?_⟩
    simp [arguments, (hlays shape).size]

end

/-! ## Statements -/

/-- The open scopes are different ones, and exist. -/
structure Sane (a : Assembly) : Prop where
  bounded : ∀ i ∈ a.chain, i < a.scopes.size
  distinct : a.chain.Nodup

/-- No two names of a scope are equal. -/
def Tidy (a : Assembly) : Prop := ∀ names ∈ a.scopes, names.toList.Pairwise fun x y => x.eq y = false

/-- Only the innermost of the open scopes may have changed, and no loop or function is left or entered. -/
structure Grows (a a' : Assembly) : Prop where
  chain : a'.chain = a.chain
  current : a'.current = a.current
  continues : a'.continues = a.continues
  breaks : a'.breaks.isEmpty = a.breaks.isEmpty
  primitives : a'.primitives = a.primitives
  scopes : a.scopes.size ≤ a'.scopes.size
  others : ∀ i < a.scopes.size, a.chain.head? ≠ some i → a'.scopes[i]? = a.scopes[i]?

theorem Keeps.grows (h : Keeps a b) : Grows a b where
  chain := h.chain
  current := h.current
  continues := h.continues
  breaks := by rw [h.breaks]
  primitives := h.primitives
  scopes := Nat.le_of_eq (by rw [h.scopes])
  others := by simp [h.scopes]

namespace Grows

variable {a b c : Assembly}

theorem trans (h : Grows a b) (h' : Grows b c) : Grows a c where
  chain := h'.chain.trans h.chain
  current := h'.current.trans h.current
  continues := h'.continues.trans h.continues
  breaks := h'.breaks.trans h.breaks
  primitives := h'.primitives.trans h.primitives
  scopes := Nat.le_trans h.scopes h'.scopes
  others i hi hne := by
    rw [h'.others i (Nat.lt_of_lt_of_le hi h.scopes) (by rwa [h.chain]), h.others i hi hne]

theorem sane (h : Grows a b) (hsane : Sane a) : Sane b where
  bounded i hi := Nat.lt_of_lt_of_le (hsane.bounded i (h.chain ▸ hi)) h.scopes
  distinct := h.chain ▸ hsane.distinct

end Grows

/-- The marks around a statement are those that the loops around it have left behind. -/
structure Surrounds (shape : List Mark) (a : Assembly) : Prop where
  continues : a.continues.back? = (innermost? shape).map fun loop => loop.1
  breaks : a.breaks.isEmpty = (innermost? shape).isNone
  current : a.current.isSome = true ↔ .function ∈ shape

namespace Surrounds

variable {shape : List Mark} {a b : Assembly}

theorem grows (h : Surrounds shape a) (hg : Grows a b) : Surrounds shape b :=
  ⟨by rw [hg.continues, h.continues], by rw [hg.breaks, h.breaks], by rw [hg.current, h.current]⟩

theorem block (h : Surrounds shape a) (hbreaks : b.breaks.isEmpty = a.breaks.isEmpty)
    (hcontinues : b.continues = a.continues) (hcurrent : b.current = a.current) :
    Surrounds (.block :: shape) b :=
  ⟨by rw [hcontinues, h.continues]; rfl, by rw [hbreaks, h.breaks]; rfl, by simp [hcurrent, h.current]⟩

theorem function (h : Surrounds shape a) (hbreaks : b.breaks.isEmpty = a.breaks.isEmpty)
    (hcontinues : b.continues = a.continues) (hcurrent : b.current.isSome = true) :
    Surrounds (.function :: shape) b :=
  ⟨by rw [hcontinues, h.continues]; rfl, by rw [hbreaks, h.breaks]; rfl, by simp [hcurrent]⟩

theorem loop (h : Surrounds shape a) (hcurrent : b.current = a.current) (start stop exit : Nat) :
    Surrounds (.loop start stop :: shape) (b.looping start exit) :=
  ⟨rfl, rfl, by
    show b.current.isSome = true ↔ _
    simp [hcurrent, h.current]⟩

end Surrounds

/-- The state apart from its code has grown, and the given scopes have been opened. -/
structure Advances (a a' : Assembly) (scopes : List Scope) : Prop where
  grows : Grows a a'
  tidy : Tidy a → Tidy a'
  opened : ∀ i, a'.scopes[a.scopes.size + i]? = (scopes[i]?).map fun scope => scope.names.toArray

namespace Advances

variable {a b c : Assembly} {fs gs : List Scope}

theorem size (h : Advances a b fs) : b.scopes.size = a.scopes.size + fs.length := by
  have hle : b.scopes.size ≤ a.scopes.size + fs.length :=
    Array.getElem?_eq_none_iff.mp (by rw [h.opened, getElem?_eq_none (Nat.le_refl _)]; rfl)
  have hge : a.scopes.size + fs.length ≤ b.scopes.size := by
    rcases Nat.eq_zero_or_pos fs.length with hzero | hpos
    · rw [hzero]
      exact h.grows.scopes
    · have hlast := h.opened (fs.length - 1)
      rw [getElem?_eq_getElem (by omega)] at hlast
      have := (Array.getElem?_eq_some_iff.mp hlast).1
      omega
  omega

theorem of_size (hgrows : Grows a b) (htidy : Tidy a → Tidy b) (hsize : b.scopes.size = a.scopes.size) :
    Advances a b [] :=
  ⟨hgrows, htidy, fun i => by rw [Array.getElem?_eq_none (by omega)]; rfl⟩

theorem trans (hsane : Sane a) (h : Advances a b fs) (h' : Advances b c gs) : Advances a c (fs ++ gs) := by
  refine ⟨h.grows.trans h'.grows, fun ht => h'.tidy (h.tidy ht), fun i => ?_⟩
  by_cases hi : i < fs.length
  · -- the scope was opened after `a`, so it is none of those still open
    have hhead : b.chain.head? ≠ some (a.scopes.size + i) := by
      intro hhead
      rw [h.grows.chain] at hhead
      have := hsane.bounded _ (mem_of_mem_head? hhead)
      omega
    rw [h'.grows.others _ (by rw [h.size]; omega) hhead, h.opened, getElem?_append_left hi]
  · rw [show a.scopes.size + i = b.scopes.size + (i - fs.length) by rw [h.size]; omega, h'.opened,
      getElem?_append_right (by omega)]

end Advances

theorem Keeps.advances (h : Keeps a b) : Advances a b [] := by
  refine .of_size h.grows ?_ (by rw [h.scopes])
  unfold Tidy
  rw [h.scopes]
  exact id

/-- What becomes of statements that lead to a point, leave instructions and open scopes. -/
structure Compiled (a a' : Assembly) (next : Point) (spots : List Spot) (scopes : List Scope) : Prop where
  advances : Advances a a' scopes
  lays : ∃ width, Lays a a' width spots
  point : a'.point = next

namespace Compiled

variable {a b c : Assembly} {s t : Point} {spots more : List Spot} {fs gs : List Scope}

theorem nil (a : Assembly) : Compiled a a a.point [] [] :=
  ⟨(Keeps.withCode a a.code).advances, ⟨0, .nil a⟩, rfl⟩

theorem trans (hsane : Sane a) (h : Compiled a b s spots fs) (h' : Compiled b c t more gs) :
    Compiled a c t (spots ++ more) (fs ++ gs) := by
  obtain ⟨v, hv⟩ := h.lays
  obtain ⟨w, hw⟩ := h'.lays
  exact ⟨h.advances.trans hsane h'.advances, ⟨_, hv.trans hw⟩, h'.point⟩

theorem cast (h : Compiled a b s spots fs) (hpoint : s = t) (hspots : spots = more) (hfs : fs = gs) :
    Compiled a b t more gs := by rwa [hpoint, hspots, hfs] at h

theorem size_le (h : Compiled a b s spots fs) : a.code.size ≤ b.code.size := by
  obtain ⟨_, hlays⟩ := h.lays
  exact hlays.code.size_le

theorem here (h : Compiled a b s spots fs) : b.code.size = s.here := by
  rw [← h.point]
  rfl

theorem words (a : Assembly) (words : List Int) (instr : Instr) (shape : List Mark)
    (hinstr : ∀ (p : Program), p.Holds a.code.size words → instr.In p a.code.size) :
    Compiled a (a.withCode (a.code ++ words.toArray)) (a.point.skip words.length)
      [⟨a.code.size, instr, shape⟩] [] := by
  refine ⟨(Keeps.withCode _ _).advances, ⟨_, .words a words instr shape hinstr⟩, ?_⟩
  simp [Assembly.point, Point.skip, Assembly.openScopes]

theorem plain (a : Assembly) (op : Opcode) (hop : op.isPlain = true) (shape : List Mark) :
    Compiled a (a.withCode (a.code ++ #[op.word])) (a.point.skip 1) [⟨a.code.size, .plain op, shape⟩] [] :=
  words a [op.word] (.plain op) shape fun _ h => ⟨hop, h⟩

/-- Two statements with an instruction between them that gets its operand last. -/
theorem hole (hsane : Sane a) (h : Compiled a b s spots fs)
    (h' : Compiled (b.withCode (b.code ++ #[op, placeholder])) c t more gs) (operand : Int) (instr : Instr)
    (shape : List Mark)
    (hinstr : ∀ (p : Program), p.Holds b.code.size [op, operand] → instr.In p b.code.size) :
    Compiled a (c.withCode (c.code.setIfInBounds (b.code.size + 1) operand)) t
      (spots ++ ⟨b.code.size, instr, shape⟩ :: more) (fs ++ gs) := by
  obtain ⟨v, hv⟩ := h.lays
  obtain ⟨w, hw⟩ := h'.lays
  have hsaneb : Sane b := h.advances.grows.sane hsane
  have hrest := ((Keeps.withCode b _).advances.trans hsaneb h'.advances).trans hsaneb
    (Keeps.withCode c (c.code.setIfInBounds (b.code.size + 1) operand)).advances
  refine ⟨by simpa using h.advances.trans hsane hrest, ⟨_, hv.hole hw operand instr shape hinstr⟩, ?_⟩
  rw [← h'.point]
  simp [Assembly.point, Assembly.openScopes]

end Compiled

theorem Lays.compiled {w : Nat} (h : Lays a b w spots)
    (hkeeps : Keeps a b) : Compiled a b (a.point.skip w) spots [] := by
  refine ⟨hkeeps.advances, ⟨_, h⟩, ?_⟩
  simp [Assembly.point, skip, Assembly.openScopes, hkeeps.scopes, hkeeps.chain, hkeeps.routines, h.size]

theorem LaysExpr.compiled {e : Node} (h : LaysExpr e a a') (shape : List Mark) :
    Compiled a a' (a.point.skip (width a.primitives a.names e))
      (expression a.primitives shape a.names a.code.size e) [] :=
  (h.2 shape).compiled h.1

/-! ### Scopes -/

theorem Tidy.declare {id : Nat} (h : Tidy a) (hlt : id < a.scopes.size)
    (hnew : nameIndex? (a.scopes.getD id #[]) x = none) :
    Tidy { a with scopes := a.scopes.setIfInBounds id ((a.scopes.getD id #[]).push x) } := by
  have hget : a.scopes.getD id #[] = a.scopes[id] := by simp [Array.getD, hlt]
  rw [hget] at hnew ⊢
  intro names hnames
  rcases Array.mem_or_eq_of_mem_setIfInBounds hnames with hold | rfl
  · exact h names hold
  · rw [Array.toList_push, pairwise_append]
    refine ⟨h _ (Array.getElem_mem hlt), by simp, ?_⟩
    intro y hy z hz
    rw [mem_singleton.mp hz]
    have hall := Array.findIdx?_eq_none_iff.mp hnew y (Array.mem_toList_iff.mp hy)
    simpa using hall

/-- A declaration adds a name to the innermost scope and does nothing else. -/
theorem declare_ok (hsane : Sane a)
    (h : outcome (declare x) a = (.ok i, a')) :
    Instr.store 0 i = a.names.storing x ∧ a'.code = a.code ∧ a'.consts = a.consts ∧
      Advances a a' [] ∧ a'.point = a.point.declare x := by
  unfold declare at h
  rw [bind_ok (outcome_get a)] at h
  cases hchain : a.chain with
  | nil =>
    rw [hchain] at h
    cases h
  | cons id outer =>
    rw [hchain] at h
    dsimp only at h
    cases hindex : nameIndex? (a.scopes.getD id #[]) x with
    | some _ =>
      rw [hindex] at h
      exact (throw_ok h).elim
    | none =>
      rw [hindex] at h
      cases h
      have hlt : id < a.scopes.size := hsane.bounded id (by simp [hchain])
      have hout : id ∉ outer := by
        have := hsane.distinct
        rw [hchain] at this
        exact (nodup_cons.mp this).1
      refine ⟨?_, rfl, rfl, .of_size ⟨hchain.symm, rfl, rfl, rfl, rfl, ?_, ?_⟩ (fun ht => ht.declare hlt hindex)
        (by simp), ?_⟩
      · have hinnermost : a.names.innermost = a.scopes.getD id #[] := by
          simp [Assembly.names, Assembly.point, Names.innermost, Assembly.openScopes, hchain]
        simp only [Names.storing, Names.slot, hinnermost, hindex]
      · simp
      · intro j hj hne
        have hji : id ≠ j := by
          rintro rfl
          exact hne (by simp [hchain])
        exact Array.getElem?_setIfInBounds_ne hji
      · have hsame : outer.map (fun j => (a.scopes.setIfInBounds id
            ((a.scopes.getD id #[]).push x)).getD j #[]) =
            outer.map fun j => a.scopes.getD j #[] := by
          refine map_congr_left fun j hj => ?_
          have hne : id ≠ j := fun heq => hout (heq ▸ hj)
          simp only [Array.getD_eq_getD_getElem?, Array.getElem?_setIfInBounds_ne hne]
        simp only [Assembly.point, Point.declare, Assembly.openScopes, hchain, map_cons, hsame]
        simp [Array.getD_eq_getD_getElem?, hlt]

theorem declareAll_ok : ∀ (xs : List Datum) {a a' : Assembly}, Sane a →
    outcome (declareAll xs) a = (.ok (), a') →
    a'.code = a.code ∧ a'.consts = a.consts ∧ Advances a a' [] ∧ a'.point = xs.foldl Point.declare a.point
  | [], a, a', _, h => by
    rw [declareAll] at h
    cases h
    exact ⟨rfl, rfl, (Keeps.withCode a a.code).advances, rfl⟩
  | x :: xs, a, a', hsane, h => by
    rw [declareAll] at h
    obtain ⟨_, b, hfirst, hrest⟩ := bind_eq_ok.mp h
    rw [outcome_discard] at hfirst
    cases hx : outcome (declare x) a with
    | mk r b' =>
      rw [hx] at hfirst
      cases r with
      | error e => cases hfirst
      | ok i =>
        cases hfirst
        obtain ⟨-, hcode, hconsts, hadv, hpoint⟩ := declare_ok hsane hx
        obtain ⟨hcode', hconsts', hadv', hpoint'⟩ := declareAll_ok xs (hadv.grows.sane hsane) hrest
        refine ⟨hcode'.trans hcode, hconsts'.trans hconsts, hadv.trans hsane hadv', ?_⟩
        rw [hpoint', hpoint, foldl_cons]

theorem innermost_getElem? (hchain : a.chain = i :: outer)
    (hlt : i < a.scopes.size) : a.scopes[i]? = some a.names.innermost := by
  simp [Assembly.names, Assembly.point, Names.innermost, Assembly.openScopes, hchain, Array.getD_eq_getD_getElem?, hlt]

/-- What was compiled in a scope of its own, once that scope is closed. -/
theorem Compiled.scoped
    {fs : List Scope} (h : Compiled (a.opened outer current) c s spots fs) (hsane : Sane a)
    (scope : Scope) (hscope : c.names.innermost = scope.names.toArray) :
    Compiled a { c with chain := a.chain, current := a.current }
      { s with visible := a.openScopes } spots (scope :: fs) := by
  obtain ⟨⟨hgrows, htidy, hopened⟩, ⟨w, hlays⟩, hpoint⟩ := h
  have hold : ∀ i < a.scopes.size, c.scopes[i]? = a.scopes[i]? := by
    intro i hi
    rw [hgrows.others i (by simp [Assembly.opened]; omega) (by simp [Assembly.opened]; omega)]
    simp [Assembly.opened, Array.getElem?_push, Nat.ne_of_lt hi]
  have hsize : a.scopes.size ≤ c.scopes.size := by
    have := hgrows.scopes
    simp only [Assembly.opened, Array.size_push] at this
    omega
  refine ⟨⟨⟨rfl, rfl, hgrows.continues, hgrows.breaks, hgrows.primitives, hsize, fun i hi _ => hold i hi⟩,
    ?_, ?_⟩, ⟨w, hlays.code, hlays.consts, hlays.size, hlays.follows, hlays.origin, hlays.pooled⟩, ?_⟩
  · intro ht
    refine htidy fun names hnames => ?_
    rcases Array.mem_push.mp hnames with hnames | rfl
    · exact ht names hnames
    · simp
  · intro i
    cases i with
    | zero =>
      have hlt : a.scopes.size < c.scopes.size := by
        have := hgrows.scopes
        simp only [Assembly.opened, Array.size_push] at this
        omega
      have hfirst := innermost_getElem? (a := c) hgrows.chain hlt
      rwa [hscope] at hfirst
    | succ i =>
      have hrest := hopened i
      simp only [Assembly.opened, Array.size_push] at hrest
      rw [show a.scopes.size + (i + 1) = a.scopes.size + 1 + i by omega]
      exact hrest
  · rw [← hpoint]
    have hopen : a.chain.map (fun i => c.scopes.getD i #[]) = a.openScopes := by
      refine map_congr_left fun i hi => ?_
      simp only [Array.getD_eq_getD_getElem?, hold i (hsane.bounded i hi)]
    exact congrArg (fun visible => ({ visible, routines := c.routines, here := c.code.size } : Point)) hopen

theorem Sane.looping (h : Sane a) (code : Array Int) (start exit : Nat) :
    Sane ((a.withCode code).looping start exit) := ⟨h.bounded, h.distinct⟩

theorem Compiled.looped {start exit : Nat}
    (h : Compiled (a.looping start exit) c s spots fs) :
    Compiled a { c with breaks := a.breaks, continues := a.continues } s spots fs := by
  obtain ⟨⟨hgrows, htidy, hopened⟩, ⟨w, hlays⟩, hpoint⟩ := h
  exact ⟨⟨⟨hgrows.chain, hgrows.current, rfl, rfl, hgrows.primitives, hgrows.scopes, hgrows.others⟩,
    htidy, hopened⟩, ⟨w, hlays.code, hlays.consts, hlays.size, hlays.follows, hlays.origin, hlays.pooled⟩, hpoint⟩

theorem scopeSize_ok {n : Nat} (h : outcome scopeSize a = (.ok n, a')) :
    a' = a ∧ n = a.names.slot := by
  unfold scopeSize at h
  rw [bind_ok (outcome_get a)] at h
  cases hopen : a.openScopes with
  | nil =>
    rw [hopen] at h
    cases h
  | cons names outer =>
    rw [hopen] at h
    cases h
    exact ⟨rfl, by simp [Assembly.names, Assembly.point, Names.slot, Names.innermost, hopen]⟩

theorem closeScope_ok (hchain : a.chain = i :: outer)
    (h : outcome closeScope a = (.ok (), a')) : a' = { a with chain := outer } := by
  unfold closeScope at h
  rw [bind_ok (outcome_get a), hchain] at h
  cases h
  rfl

theorem Sane.opened
    (hbounded : ∀ i ∈ outer, i < a.scopes.size) (hdistinct : outer.Nodup) :
    Sane (a.opened outer current) where
  bounded i hi := by
    simp only [Assembly.opened, Array.size_push]
    rcases mem_cons.mp hi with rfl | hi
    · omega
    · exact Nat.lt_succ_of_lt (hbounded i hi)
  distinct := nodup_cons.mpr ⟨fun hmem => Nat.lt_irrefl _ (hbounded _ hmem), hdistinct⟩

/-- What compiling a block comes to. It leaves nothing open, and its last word leaves its scope. -/
structure CompiledBlock (a a' : Assembly) (next : Point) (spots : List Spot) (scopes : List Scope) : Prop where
  compiled : Compiled a a' next spots scopes
  closed : a'.openScopes = a.openScopes
  back : a'.code.back? = some leaveScope.word

theorem compiled_block {names : List Datum}
    {body : CompileM Unit} (shape : List Mark) (hsane : Sane a) (hnames : s.innermost = names.toArray)
    (hbody : ∀ {b c : Assembly}, Sane b → b.point = a.point.inBlock → b.primitives = a.primitives →
      b.breaks.isEmpty = a.breaks.isEmpty → b.continues = a.continues → b.current = a.current →
      outcome body b = (.ok (), c) →
      Compiled b c s spots fs)
    (h : outcome (do
      openScope
      let enter ← emit1 .enterScope (-1)
      body
      emit .leaveScope
      let size ← scopeSize
      patchWords enter (some (size : Int)) none
      closeScope) a = (.ok (), a')) :
    CompiledBlock a a' { here := s.here + 1, visible := a.openScopes, routines := s.routines }
      (⟨a.code.size, .enter s.slot, shape⟩ :: (spots ++ [⟨s.here, .leave, .block :: shape⟩]))
      (.block names :: fs) := by
  have hb : Sane (a.opened a.chain a.current) := .opened hsane.bounded hsane.distinct
  have hpoint := @Assembly.opened_point a a.chain a.current hsane.bounded
  rw [bind_ok outcome_openScope] at h
  change outcome _ (a.opened a.chain a.current) = _ at h
  rw [bind_ok (outcome_emit1 _ _)] at h
  obtain ⟨_, c, hvisit, h⟩ := bind_eq_ok.mp h
  rw [bind_ok (outcome_emit _)] at h
  obtain ⟨size, d, hsize, h⟩ := bind_eq_ok.mp h
  obtain ⟨rfl, rfl⟩ := scopeSize_ok hsize
  have hinside := hbody ((Keeps.withCode _ _).grows.sane hb)
    (by simpa [Assembly.point, Point.inBlock, Assembly.openScopes] using hpoint) rfl rfl rfl rfl hvisit
  have hleave := hinside.trans ((Keeps.withCode _ _).grows.sane hb)
    (Compiled.words c [Opcode.leaveScope.word] .leave (.block :: shape) fun _ hp => hp)
  have hblock := (Compiled.nil (a.opened a.chain a.current)).hole hb hleave s.slot (.enter s.slot) shape
    fun _ hp => hp
  have hslot : (c.withCode (c.code ++ #[Opcode.leaveScope.word])).names.slot = s.slot := by
    rw [Assembly.withCode_names, Assembly.names, hinside.point]
  have hsize : (a.opened a.chain a.current).code.size + 2 ≤ c.code.size := by simpa using hinside.size_le
  rw [hslot, bind_ok (outcome_patchWords (by simp; omega))] at h
  have hclose := closeScope_ok (by
    rw [Assembly.withCode_chain, Assembly.withCode_chain, hinside.advances.grows.chain]; rfl) h
  subst hclose
  have hcurrent : c.current = a.current := hinside.advances.grows.current
  have hall := hblock.scoped hsane (.block names) (by
    rw [Assembly.withCode_names, Assembly.withCode_names, Assembly.names, hinside.point]
    exact hnames)
  simp only [← hcurrent] at hall
  refine ⟨hall.cast ?_ ?_ (by simp), congrArg (fun s => s.visible) hall.point, ?_⟩
  · rw [hinside.point]
    rfl
  · rw [← hinside.point]
    rfl
  · simp only [Assembly.withCode_code, Array.back?_eq_getElem?, Array.size_setIfInBounds]
    rw [Array.getElem?_setIfInBounds_ne (by simp; omega)]
    simp

/-! ### Functions -/

theorem Compiled.of_state (h : Advances a a' []) (hcode : a'.code = a.code)
    (hconsts : a'.consts = a.consts) : Compiled a a' a'.point [] [] := by
  refine ⟨h, ⟨0, ?_, ?_, by rw [hcode, Nat.add_zero], fun _ _ _ => .nil, ?_, Nat.le_of_eq (by rw [hconsts, Nat.add_zero])⟩, rfl⟩
  · rw [hcode]
    exact .refl _
  · rw [hconsts]
    exact .refl _
  · rw [hconsts]
    exact fun _ => Or.inl

/-- Before the body of a function is compiled, there is a jump over it and the table has its entry. -/
theorem outcome_defined (a : Assembly) (x : Datum) (params : List Datum) (rest : Nat → Nat → CompileM Unit) :
    outcome (do
      let id ← routineFor x params
      let skip ← emit1 .jump (-1)
      let entry ← nextAddress
      setEntry id entry
      rest id skip) a =
    outcome (rest (a.names.routineFor x) a.code.size)
      ((a.defined x params).withCode (a.code ++ #[Opcode.jump.word, -1])) := by
  have hsize : (a.code ++ #[Opcode.jump.word, (-1 : Int)]).size = a.code.size + 2 := by simp
  cases hindex : a.names.routineIndex? x with
  | some id =>
    have hfor : outcome (routineFor x params) a = (.ok id, a) := by
      unfold routineFor
      rw [bind_ok (outcome_get a), show a.routineIndex? x = some id from hindex]
      rfl
    rw [bind_ok hfor]
    simp only [Assembly.defined, Names.define, Names.routineFor, hindex, ← hsize]
    rfl
  | none =>
    have hfor : outcome (routineFor x params) a =
        (.ok a.routines.size, { a with routines := a.routines.push ⟨x, params, some (-1)⟩ }) := by
      unfold routineFor
      rw [bind_ok (outcome_get a), show a.routineIndex? x = none from hindex]
      rfl
    rw [bind_ok hfor]
    simp only [Assembly.defined, Names.define, Names.routineFor, hindex, ← hsize]
    rfl

theorem emitFinalReturn_ok (h : a.code.back? = some leaveScope.word) :
    outcome emitFinalReturn a = (.ok (), a.withCode (a.code ++ #[return.word])) := by
  unfold emitFinalReturn
  rw [bind_ok (outcome_get a), h]
  rfl

theorem foldl_declare : ∀ (xs : List Datum) (s : Point) (names : Array Datum) (outer : List (Array Datum)),
    s.visible = names :: outer →
    xs.foldl Point.declare s = { s with visible := (names ++ xs.toArray) :: outer }
  | [], s, names, outer, h => by simp [← h]
  | x :: xs, s, names, outer, h => by
    rw [foldl_cons, foldl_declare xs (s.declare x) (names.push x) outer (by simp [Point.declare, h])]
    simp [Point.declare, h]

theorem compiled_routine {id : Nat} {xs : List Datum}
    {fs : List Scope} (shape : List Mark) (hsane : Sane a)
    (hparams : outcome (declareAll xs) (a.opened [] (some id)) = (.ok (), b))
    (hbody : Sane b → b.point = { a.point with visible := [xs.toArray] } →
      b.primitives = a.primitives → b.breaks.isEmpty = a.breaks.isEmpty → b.continues = a.continues →
      b.current.isSome = true → CompiledBlock b c s spots fs) :
    outcome emitFinalReturn c = (.ok (), c.withCode (c.code ++ #[Opcode.return.word])) ∧
    Compiled a { c.withCode (c.code ++ #[Opcode.return.word]) with chain := a.chain, current := a.current }
      { here := s.here + 1, visible := a.openScopes, routines := s.routines }
      (spots ++ [⟨s.here, .return, .loose :: .function :: shape⟩]) (.parameters xs :: fs) := by
  have hopened := @Assembly.opened_point a [] (some id) (by simp)
  have hsanea : Sane (a.opened [] (some id)) := .opened (by simp) (by simp)
  obtain ⟨hcode, hconsts, hadv, hpoint⟩ := declareAll_ok xs hsanea hparams
  rw [hopened, foldl_declare _ _ #[] [] rfl, Array.empty_append] at hpoint
  obtain ⟨hinside, hclosed, hback⟩ := hbody (hadv.grows.sane hsanea) hpoint hadv.grows.primitives
    hadv.grows.breaks hadv.grows.continues (by rw [hadv.grows.current]; rfl)
  have hreturn := (Compiled.of_state hadv hcode hconsts).trans hsanea
    (hinside.trans (hadv.grows.sane hsanea) (Compiled.words c [Opcode.return.word] .return
      (.loose :: .function :: shape) fun _ hp => hp))
  have hparam : c.names.innermost = xs.toArray := by
    have hvisible : b.openScopes = [xs.toArray] := congrArg (fun s => s.visible) hpoint
    rw [Names.innermost, Assembly.names, Assembly.point, hclosed, hvisible]
    rfl
  refine ⟨emitFinalReturn_ok hback, (hreturn.scoped hsane (.parameters xs) ?_).cast ?_ ?_ (by simp)⟩
  · rw [Assembly.withCode_names]
    exact hparam
  · rw [hinside.point]
    rfl
  · rw [← hinside.point]
    rfl

theorem compiled_function {xs : List Datum} {body : Node}
    {fs : List Scope} (shape : List Mark) (hsane : Sane a)
    (hbody : ∀ {b c : Assembly}, Sane b → b.point = a.point.inFunction x xs →
      b.primitives = a.primitives → b.breaks.isEmpty = a.breaks.isEmpty → b.continues = a.continues →
      b.current.isSome = true → outcome (visit body) b = (.ok (), c) → CompiledBlock b c s spots fs)
    (h : outcome (visit (.define x (.function xs body))) a = (.ok (), a')) :
    Compiled a a'
      (({ here := s.here + 6, visible := a.openScopes, routines := s.routines } : Point).declare x)
      (⟨a.code.size, .jump (s.here + 1), shape⟩ ::
        (spots ++ [⟨s.here, .return, .loose :: .function :: shape⟩,
          ⟨s.here + 1, .const (.number (.int (a.names.routineFor x))), shape⟩,
          ⟨s.here + 3, a.names.storing x, shape⟩]))
      (.parameters xs :: fs) := by
  rw [visit, outcome_defined, bind_ok (outcome_get _), bind_ok (outcome_modify _ _)] at h
  have hdefined : Compiled a (a.defined x xs) (a.defined x xs).point [] [] :=
    .of_state (.of_size ⟨rfl, rfl, rfl, rfl, rfl, Nat.le_refl _, fun _ _ _ => rfl⟩ id rfl) rfl rfl
  obtain ⟨_, c, hparams, h⟩ := bind_eq_ok.mp h
  obtain ⟨_, d, hvisit, h⟩ := bind_eq_ok.mp h
  obtain ⟨hreturn, hown⟩ := compiled_routine shape
    (a := (a.defined x xs).withCode (a.code ++ #[jump.word, -1]))
    ⟨hsane.bounded, hsane.distinct⟩ hparams fun hb hpoint hprims hbreaks hconts hcurrent => hbody hb
      (hpoint.trans (by simp [inFunction, Assembly.point, Assembly.defined, Assembly.names]))
      hprims hbreaks hconts hcurrent hvisit
  rw [bind_ok hreturn, bind_ok (outcome_modify _ _)] at h
  have hhere : d.code.size + 1 = s.here + 1 := by
    simpa [Assembly.point] using congrArg here hown.point
  have hjump := hdefined.hole hsane hown ((d.code ++ #[return.word]).size : Int)
    (.jump (s.here + 1)) shape fun p hp => by simpa [hhere, Instr.In] using hp
  have hsize : a.code.size + 2 ≤ d.code.size + 1 := by simpa using hown.size_le
  rw [bind_ok (outcome_patchHere (by simp; omega))] at h
  obtain ⟨index, e, hdeclare, h⟩ := bind_eq_ok.mp h
  have hsanee := hjump.advances.grows.sane hsane
  obtain ⟨hindex, hcode, hconsts, hadv, hpoint⟩ := declare_ok hsanee hdeclare
  obtain ⟨_, g, hconst, h⟩ := bind_eq_ok.mp h
  obtain ⟨hkeeps, hlays⟩ := lays_const hconst
  rw [outcome_emit2] at h
  cases h
  have hall := hjump.trans hsane ((Compiled.of_state hadv hcode hconsts).trans hsanee
    (((hlays shape).compiled hkeeps).trans (hadv.grows.sane hsanee)
      (Compiled.words g [_, _, _] (.store 0 index) shape fun _ hp => hp)))
  have hstore : Instr.store 0 index = a.names.storing x := by
    rw [hindex, Assembly.names, hjump.point]
    rfl
  refine hall.cast ?_ ?_ (by simp)
  · rw [((hlays shape).compiled hkeeps).point, hpoint, hjump.point, skip_skip, declare_skip]
    rfl
  · rw [(hlays shape).size, hcode, hstore]
    simp [Assembly.defined, hhere]

/-! ### All statements -/

/-- The point inside a branch or a loop: behind its test and the jump that may skip it. -/
theorem point_behind_test {x : Int}
    (h : Compiled a b s spots fs) : (b.withCode (b.code ++ #[op, x])).point = s.skip 2 := by
  rw [← h.point]
  simp [Assembly.point, skip, Assembly.openScopes]

theorem lays_printed : ∀ {es : List Node}, AreExprs es → ∀ {a a' : Assembly},
    outcome (visitPrinted es) a = (.ok (), a') → Keeps a a' ∧ ∀ shape,
      Lays a a' (printedWidth a.primitives a.names es)
        (printed a.primitives shape a.names a.code.size es) := by
  intro es
  induction es with
  | nil =>
    intro _ a a' h
    rw [visitPrinted] at h
    cases h
    exact ⟨.withCode _ _, fun _ => (Lays.nil a).cast (by simp [printedWidth]) (by simp [printed])⟩
  | cons e es ih =>
    rintro (_ | ⟨he, hes⟩) a a' h
    rw [visitPrinted] at h
    obtain ⟨_, b, hfirst, h⟩ := bind_eq_ok.mp h
    rw [bind_ok (outcome_emit _)] at h
    obtain ⟨hkeeps, hlays⟩ := lays_expr he hfirst
    obtain ⟨hkeeps', hlays'⟩ := ih hes h
    rw [Assembly.withCode_primitives, Assembly.withCode_names, hkeeps.primitives, hkeeps.names] at hlays'
    refine ⟨(hkeeps.trans (.withCode _ _)).trans hkeeps', fun shape =>
      ((hlays shape).trans ((Lays.plain b .printItem rfl shape).trans (hlays' shape))).cast ?_ ?_⟩
    · simp [printedWidth, Nat.add_assoc]
    · simp [printed, (hlays shape).size]

/-- Two branches behind a test. The jump over the second is emitted before the test gets its operand. -/
theorem compiled_branches {t u : Point} {more others : List Spot}
    {gs : List Scope} {other : CompileM Unit} (shape : List Mark) (hsane : Sane a)
    (htest : Compiled a b s spots [])
    (hyes : Compiled (b.withCode (b.code ++ #[jumpFalse.word, -1])) c t more fs)
    (hno : ∀ {d e : Assembly}, Sane d → d.point = t.skip 2 → Grows a d →
      outcome other d = (.ok (), e) → Compiled d e u others gs)
    (h : outcome (do
      let done ← emit1 .jump (-1)
      patchHere b.code.size
      other
      patchHere done) c = (.ok (), a')) :
    Compiled a a' u (spots ++ ⟨b.code.size, .branch .jumpFalse (c.code.size + 2), shape⟩ ::
      (more ++ ⟨c.code.size, .jump u.here, .loose :: shape⟩ :: others)) (fs ++ gs) := by
  have hsize : b.code.size + 2 ≤ c.code.size := by simpa using hyes.size_le
  have hcode : (c.code ++ #[jump.word, -1]).setIfInBounds (b.code.size + 1)
        ((c.code.size + 2 : Nat) : Int) =
      c.code.setIfInBounds (b.code.size + 1) ((c.code.size + 2 : Nat) : Int) ++ #[jump.word, -1] :=
    Array.setIfInBounds_append_left (by omega)
  rw [bind_ok (outcome_emit1 _ _), bind_ok (outcome_patchHere (by simp; omega))] at h
  simp only [Assembly.withCode_code, Assembly.withCode_withCode, Array.size_append, size_toArray,
    length_cons, length_nil, Nat.zero_add, Nat.reduceAdd] at h
  rw [hcode] at h
  have hfirst := htest.hole hsane hyes ((c.code.size + 2 : Nat) : Int) (.branch .jumpFalse (c.code.size + 2))
    shape fun _ hp => ⟨rfl, hp⟩
  generalize hd : c.withCode (c.code.setIfInBounds (b.code.size + 1) ((c.code.size + 2 : Nat) : Int)) = d
    at hfirst
  have hsize : d.code.size = c.code.size := by simp [← hd]
  have hstate : c.withCode (c.code.setIfInBounds (b.code.size + 1) ((c.code.size + 2 : Nat) : Int) ++
      #[jump.word, -1]) = d.withCode (d.code ++ #[jump.word, -1]) := by simp [← hd]
  rw [hstate] at h
  obtain ⟨_, e, hvisit, h⟩ := bind_eq_ok.mp h
  have hgrows := hfirst.advances.grows.trans (Keeps.withCode d (d.code ++ #[jump.word, -1])).grows
  have hother := hno (hgrows.sane hsane) (point_behind_test hfirst) hgrows hvisit
  have hsize' : d.code.size + 2 ≤ e.code.size := by simpa using hother.size_le
  rw [outcome_patchHere (by omega), ← hsize] at h
  cases h
  refine (hfirst.hole hsane hother e.code.size (.jump e.code.size) (.loose :: shape)
    fun _ hp => hp).cast rfl ?_ (by simp)
  rw [hother.here, hsize]
  simp

/-- A loop around its body. The jumps out of it that were recorded are forgotten again. -/
theorem compiled_loop {t : Point} {more : List Spot}
    {start exit : Nat} (shape : List Mark) (hsane : Sane a) (htest : Compiled a b s spots [])
    (hbody : Compiled ((b.withCode (b.code ++ #[jumpFalse.word, -1])).looping start exit) c t more fs)
    (h : outcome (do
      discard (emit1 .jump start)
      patchHere b.code.size
      modify fun a => { a with breaks := b.breaks, continues := b.continues }) c = (.ok (), a')) :
    Compiled a a' (t.skip 2) (spots ++ ⟨b.code.size, .branch .jumpFalse (t.here + 2), shape⟩ ::
      (more ++ [⟨t.here, .jump start, .loose :: shape⟩])) fs := by
  have hjump := hbody.trans ((htest.advances.grows.sane hsane).looping _ _ _)
    (Compiled.words c [jump.word, start] (.jump start) (.loose :: shape) fun _ hp => hp)
  have hsize : b.code.size + 2 ≤ c.code.size := by simpa using hbody.size_le
  have hemit : outcome (discard (emit1 .jump start)) c =
      (.ok (), c.withCode (c.code ++ #[jump.word, start])) := rfl
  rw [bind_ok hemit, bind_ok (outcome_patchHere (by simp; omega)), outcome_modify] at h
  cases h
  refine (htest.hole hsane hjump.looped ((c.code ++ #[jump.word, (start : Int)]).size : Int)
    (.branch .jumpFalse (t.here + 2)) shape fun p hp => ?_).cast ?_ ?_ (by simp)
  · simpa [Instr.In, isBranch, hbody.here] using hp
  · rw [hbody.point]
    rfl
  · rw [hbody.here]

theorem compiled_define (shape : List Mark) (hsane : Sane a)
    (hvalue : IsExpr value) (hne : ∀ params body, value ≠ .function params body)
    (h : outcome (visit (.define x value)) a = (.ok (), a')) :
    Compiled a a' (next a.primitives a.point (.define x value))
      (statement a.primitives shape a.point (.define x value)) (scopes (.define x value)) := by
  rw [visit_variable hvalue hne] at h
  rw [next_variable _ hne, statement_variable _ hne, scopes_variable hne]
  obtain ⟨_, b, hvisit, h⟩ := bind_eq_ok.mp h
  have hexpr := (lays_expr hvalue hvisit).compiled shape
  have hsaneb := hexpr.advances.grows.sane hsane
  obtain ⟨index, c, hdeclare, h⟩ := bind_eq_ok.mp h
  obtain ⟨hindex, hcode, hconsts, hadv, hpoint⟩ := declare_ok hsaneb hdeclare
  rw [outcome_emit2] at h
  cases h
  have hstoring : Instr.store 0 index = a.names.storing x := by
    rw [hindex, Assembly.names, hexpr.point]
    rfl
  have hstore := (Compiled.of_state hadv hcode hconsts).trans hsaneb
    (Compiled.words c [_, _, _] (.store 0 index) shape fun _ hp => hp)
  refine (hexpr.trans hsane hstore).cast ?_ ?_ rfl
  · rw [hpoint, hexpr.point, declare_skip, skip_skip]
    rfl
  · rw [hcode, hexpr.here, hstoring]
    rfl

theorem compiled_assign (shape : List Mark) (hsane : Sane a)
    (hvalue : IsExpr value) (h : outcome (visit (.assign x value)) a = (.ok (), a')) :
    Compiled a a' (next a.primitives a.point (.assign x value))
      (statement a.primitives shape a.point (.assign x value)) [] := by
  rw [visit] at h
  obtain ⟨_, b, hvisit, h⟩ := bind_eq_ok.mp h
  have hexpr := lays_expr hvalue hvisit
  unfold emitAssign at h
  obtain ⟨place, c, hlookup, h⟩ := bind_eq_ok.mp h
  obtain ⟨rfl, hplace⟩ := lookup_ok hlookup
  rw [hexpr.1.names, hexpr.1.primitives] at hplace
  have hstore : outcome (emit2 .storeVar place.operands.1 place.operands.2) c = (.ok (), a') ∧
      Instr.store place.operands.1 place.operands.2 = a.point.assigning a.primitives x := by
    have hplace' : a.point.place? a.primitives x = some place := hplace
    cases place with
    | routine id => exact (throw_ok h).elim
    | «variable» depth i => exact ⟨h, by simp only [Names.assigning, hplace']⟩
    | primitive i => exact ⟨h, by simp only [Names.assigning, hplace']⟩
  obtain ⟨hstore, hassigning⟩ := hstore
  rw [outcome_emit2] at hstore
  cases hstore
  refine ((hexpr.compiled shape).trans hsane
    (Compiled.words c [_, _, _] (.store place.operands.1 place.operands.2) shape fun _ hp => hp)).cast ?_ ?_ rfl
  · rw [(hexpr.compiled shape).point, skip_skip, Layout.next]
    rfl
  · rw [(hexpr.compiled shape).here, statement, ← hassigning]
    rfl

theorem compiled_scope (shape : List Mark) (hsane : Sane a)
    (hbody : AreStats body) (hshape : Surrounds shape a)
    (hstats : ∀ {b c : Assembly}, Sane b → Surrounds (.block :: shape) b →
      outcome (visitAll body) b = (.ok (), c) →
      Compiled b c (nextAll b.primitives b.point body)
        (Layout.statements b.primitives (.block :: shape) b.point body) (scopesAll body))
    (h : outcome (visit (.block body)) a = (.ok (), a')) :
    CompiledBlock a a' (next a.primitives a.point (.block body))
      (statement a.primitives shape a.point (.block body)) (scopes (.block body)) := by
  rw [visit, visitBlock] at h
  rw [Layout.next, statement, scopes]
  refine compiled_block shape hsane (nextAll_innermost a.primitives hbody a.point) ?_ h
  intro b c hb hpoint hprims hbreaks hcontinues hcurrent hvisit
  have hinside := hstats hb (hshape.block hbreaks hcontinues hcurrent) hvisit
  rwa [hprims, hpoint] at hinside

mutual

theorem compiled_stat : ∀ {n : Node}, IsStat n → ∀ {a a' : Assembly} (shape : List Mark), Sane a →
    Surrounds shape a → outcome (visit n) a = (.ok (), a') →
    Compiled a a' (next a.primitives a.point n) (statement a.primitives shape a.point n) (scopes n)
  | _, @IsStat.exprStat e he, a, a', shape, hsane, hshape, h => by
    rw [visit] at h
    obtain ⟨_, b, hvisit, h⟩ := bind_eq_ok.mp h
    have hexpr := lays_expr he hvisit
    rw [outcome_emit] at h
    cases h
    refine ((hexpr.compiled shape).trans hsane (Compiled.plain b .pop rfl shape)).cast ?_ ?_ ?_
    · rw [(hexpr.compiled shape).point, Point.skip_skip, Layout.next]
      rfl
    · rw [(hexpr.2 shape).size, statement]
      rfl
    · simp [scopes]
  | _, .print hargs, a, a', shape, hsane, hshape, h => by
    rw [visit] at h
    obtain ⟨_, b, hvisit, h⟩ := bind_eq_ok.mp h
    obtain ⟨hkeeps, hlays⟩ := lays_printed hargs hvisit
    rw [outcome_emit] at h
    cases h
    have hprinted := (hlays shape).compiled hkeeps
    refine (hprinted.trans hsane (Compiled.plain b .printNewline rfl shape)).cast ?_ ?_ ?_
    · rw [hprinted.point, Point.skip_skip, Layout.next]
      rfl
    · rw [(hlays shape).size, statement]
      rfl
    · simp [scopes]
  | _, @IsStat.ifThen cond yes hcond hyes, a, a', shape, hsane, hshape, h => by
    rw [visit] at h
    obtain ⟨_, b, hvisit, h⟩ := bind_eq_ok.mp h
    have htest := (lays_expr hcond hvisit).compiled shape
    rw [bind_ok (outcome_emit1 _ _)] at h
    obtain ⟨_, c, hvisit', h⟩ := bind_eq_ok.mp h
    have hgrows := htest.advances.grows.trans (Keeps.withCode b (b.code ++ #[Opcode.jumpFalse.word, -1])).grows
    have hyes := compiled_stat hyes shape (hgrows.sane hsane) (hshape.grows hgrows) hvisit'
    have hsize : b.code.size + 2 ≤ c.code.size := by simpa using hyes.size_le
    rw [outcome_patchHere (by omega)] at h
    cases h
    rw [hgrows.primitives, point_behind_test htest, Point.skip_skip] at hyes
    refine (htest.hole hsane hyes c.code.size (.branch .jumpFalse c.code.size) shape
      fun _ hp => ⟨rfl, hp⟩).cast ?_ ?_ ?_
    · rw [Layout.next]
      rfl
    · rw [htest.here, hyes.here, statement]
      rfl
    · simp [scopes]
  | _, @IsStat.ifElse cond yes no hcond hyes hno, a, a', shape, hsane, hshape, h => by
    rw [visit] at h
    obtain ⟨_, b, hvisit, h⟩ := bind_eq_ok.mp h
    have htest := (lays_expr hcond hvisit).compiled shape
    rw [bind_ok (outcome_emit1 _ _)] at h
    obtain ⟨_, c, hvisit', h⟩ := bind_eq_ok.mp h
    have hgrows := htest.advances.grows.trans (Keeps.withCode b (b.code ++ #[Opcode.jumpFalse.word, -1])).grows
    have hyes := compiled_stat hyes shape (hgrows.sane hsane) (hshape.grows hgrows) hvisit'
    have hsize : b.code.size + 2 ≤ c.code.size := by simpa using hyes.size_le
    rw [hgrows.primitives, point_behind_test htest, Point.skip_skip] at hyes
    generalize ht : next a.primitives (a.point.skip (width a.primitives a.names cond + 2)) yes = t at hyes
    have hother : ∀ {d e : Assembly}, Sane d → d.point = t.skip 2 → Grows a d →
        outcome (visit no) d = (.ok (), e) → Compiled d e (next a.primitives (t.skip 2) no)
          (statement a.primitives shape (t.skip 2) no) (scopes no) := by
      intro d e hd hpoint hgrows' hvisit'
      have hno := compiled_stat hno shape hd (hshape.grows hgrows') hvisit'
      rwa [hgrows'.primitives, hpoint] at hno
    refine (compiled_branches shape hsane htest hyes hother h).cast ?_ ?_ ?_
    · rw [Layout.next, ← ht]
      rfl
    · rw [htest.here, hyes.here, statement, ← ht]
      rfl
    · simp [scopes]
  | _, @IsStat.loop cond body hcond hbody, a, a', shape, hsane, hshape, h => by
    rw [visit, bind_ok outcome_nextAddress] at h
    obtain ⟨_, b, hvisit, h⟩ := bind_eq_ok.mp h
    generalize hshape' : Mark.loop a.code.size ((next a.primitives
      (a.point.skip (width a.primitives a.names cond + 2)) body).here + 2) :: shape = around
    have htest := (lays_expr hcond hvisit).compiled around
    rw [bind_ok (outcome_emit1 _ _), bind_ok (outcome_get _), bind_ok (outcome_modify _ _)] at h
    obtain ⟨_, c, hvisit', h⟩ := bind_eq_ok.mp h
    have hinside := compiled_stat hbody around ((htest.advances.grows.sane hsane).looping
        (b.code ++ #[Opcode.jumpFalse.word, -1]) a.code.size b.code.size)
      (hshape' ▸ hshape.loop (b := b.withCode (b.code ++ #[Opcode.jumpFalse.word, -1]))
        htest.advances.grows.current _ _ _) hvisit'
    rw [Assembly.looping_primitives, Assembly.withCode_primitives, htest.advances.grows.primitives,
      Assembly.looping_point, point_behind_test htest, Point.skip_skip] at hinside
    refine (compiled_loop around hsane htest hinside h).cast ?_ ?_ ?_
    · rw [Layout.next]
      rfl
    · rw [htest.here, statement, ← hshape']
      rfl
    · simp [scopes]
  | _, .breakLoop, a, a', shape, hsane, hshape, h => by
    rw [visit, bind_ok (outcome_get a)] at h
    cases hloop : innermost? shape with
    | none =>
      rw [hshape.breaks, hloop] at h
      cases h
    | some loop =>
      rw [hshape.breaks, hloop] at h
      cases h
      have hjump := Compiled.words a [Opcode.jump.word, -1] .breakLoop shape fun _ hp => hp
      have hpush : Advances (a.withCode (a.code ++ #[Opcode.jump.word, -1]))
          { a.withCode (a.code ++ #[Opcode.jump.word, -1]) with
            breaks := a.breaks.push (a.code.size + 1) } [] :=
        .of_size ⟨rfl, rfl, rfl, by simp [hshape.breaks, hloop], rfl, Nat.le_refl _, fun _ _ _ => rfl⟩ id rfl
      have hall := hjump.trans hsane (.of_state hpush rfl rfl)
      refine hall.cast ?_ ?_ ?_
      · rw [Layout.next]
        exact hjump.point
      · rw [statement, hloop]
        rfl
      · simp [scopes]
  | _, .continueLoop, a, a', shape, hsane, hshape, h => by
    rw [visit, bind_ok (outcome_get a), hshape.continues] at h
    cases hloop : innermost? shape with
    | none =>
      rw [hloop] at h
      cases h
    | some loop =>
      obtain ⟨start, stop⟩ := loop
      rw [hloop] at h
      cases h
      refine (Compiled.words a [_, _] (.continueLoop start) shape fun _ hp => hp).cast ?_ ?_ ?_
      · rw [Layout.next]
        rfl
      · rw [statement, hloop]
        rfl
      · simp [scopes]
  | _, .block hbody, a, a', shape, hsane, hshape, h =>
    (compiled_scope shape hsane hbody hshape (fun hb hshape' => compiled_stats hbody _ hb hshape') h).compiled
  | _, .function x xs hbody, a, a', shape, hsane, hshape, h => by
    rw [Layout.next, statement, scopes]
    refine compiled_function shape hsane ?_ h
    intro b c hb hpoint hprims hbreaks hcontinues hcurrent hvisit
    have hinside := compiled_scope (.function :: shape) hb hbody (hshape.function hbreaks hcontinues hcurrent)
      (fun hb hshape' => compiled_stats hbody _ hb hshape') hvisit
    rwa [hprims, hpoint] at hinside
  | _, .define x hvalue hne, a, a', shape, hsane, hshape, h => compiled_define shape hsane hvalue hne h
  | _, .assign x hvalue, a, a', shape, hsane, hshape, h =>
    (compiled_assign shape hsane hvalue h).cast rfl rfl (by simp [scopes])
  | _, .return, a, a', shape, hsane, hshape, h => by
    rw [visit, bind_ok (outcome_get a)] at h
    cases hcurrent : a.current with
    | none =>
      rw [hcurrent] at h
      cases h
    | some id =>
      rw [hcurrent] at h
      cases h
      refine (Compiled.words a [_] .return shape fun _ hp => hp).cast ?_ ?_ ?_
      · rw [Layout.next]
        rfl
      · rw [statement, if_pos (hshape.current.mp (by rw [hcurrent]; rfl))]
        rfl
      · simp [scopes]
  | _, .returnValue hvalue, a, a', shape, hsane, hshape, h => by
    rw [visit, bind_ok (outcome_get a)] at h
    cases hcurrent : a.current with
    | none =>
      rw [hcurrent] at h
      cases h
    | some id =>
      rw [hcurrent] at h
      obtain ⟨_, b, hvisit, h⟩ := bind_eq_ok.mp h
      have hexpr := (lays_expr hvalue hvisit).compiled shape
      rw [outcome_emit] at h
      cases h
      refine (hexpr.trans hsane (Compiled.words b [_] .returnValue shape fun _ hp => hp)).cast ?_ ?_ ?_
      · rw [hexpr.point, Point.skip_skip, Layout.next]
        rfl
      · rw [hexpr.here, statement, if_pos (hshape.current.mp (by rw [hcurrent]; rfl))]
        rfl
      · simp [scopes]

theorem compiled_stats : ∀ {ns : List Node}, AreStats ns → ∀ {a a' : Assembly} (shape : List Mark), Sane a →
    Surrounds shape a → outcome (visitAll ns) a = (.ok (), a') →
    Compiled a a' (nextAll a.primitives a.point ns) (statements a.primitives shape a.point ns)
      (scopesAll ns)
  | _, .nil, a, a', shape, hsane, hshape, h => by
    rw [visitAll] at h
    cases h
    refine (Compiled.nil a).cast ?_ ?_ ?_
    · rw [nextAll]
    · rw [Layout.statements]
    · rw [scopesAll]
  | _, .cons hn hns, a, a', shape, hsane, hshape, h => by
    rw [visitAll] at h
    obtain ⟨_, b, hvisit, h⟩ := bind_eq_ok.mp h
    have hfirst := compiled_stat hn shape hsane hshape hvisit
    have hgrows := hfirst.advances.grows
    have hrest := compiled_stats hns shape (hgrows.sane hsane) (hshape.grows hgrows) h
    rw [hgrows.primitives, hfirst.point] at hrest
    refine (hfirst.trans hsane hrest).cast ?_ ?_ ?_
    · rw [nextAll]
    · rw [Layout.statements]
    · rw [scopesAll]

end

/-! ## Programs -/

theorem outcome_addRoutine (a : Assembly) (x : Datum) (params : List Datum) :
    outcome (discard (addRoutine x params)) a =
      (.ok (), { a with routines := a.routines.push ⟨x, params, some (-1)⟩ }) := rfl

mutual

theorem register_stat : ∀ {n : Node}, IsStat n → ∀ (a : Assembly),
    outcome (register n) a = (.ok (), { a with routines := a.routines ++ (registered n).toArray })
  | _, .block hbody, a => by
    rw [register, register_stats hbody, registered]
  | _, .function x xs hbody, a => by
    rw [register, outcome_addRoutine, registered]
    simp
  | _, @IsStat.define x value hvalue hne, a => by
    cases hvalue with
    | function xs hbody => exact absurd rfl (hne _ _)
    | name | literal | unary | binary | call => simp [register, registered]
  | _, .exprStat _, a | _, .print _, a | _, .ifThen _ _, a | _, .ifElse _ _ _, a | _, .loop _ _, a | _, .breakLoop, a
  | _, .continueLoop, a | _, .assign _ _, a | _, .return, a | _, .returnValue _, a => by simp [register, registered]

theorem register_stats : ∀ {ns : List Node}, AreStats ns → ∀ (a : Assembly),
    outcome (registerAll ns) a = (.ok (), { a with routines := a.routines ++ (registeredAll ns).toArray })
  | _, .nil, a => by simp [registerAll, registeredAll]
  | _, .cons hn hns, a => by
    rw [registerAll, bind_ok (register_stat hn a), register_stats hns, registeredAll]
    simp

end

end CompileM

/-- **What a program compiles to.** Its code is laid out, and its scopes are those of the text, behind an empty one. -/
structure Program.LaidOut (primitives : List String) (body : List Node) (p : Program) : Prop where
  follows : p.Follows (Layout.program primitives body)
  size : p.code.size = (Layout.finish primitives body).here
  routines : p.routines = (Layout.finish primitives body).routines
  tidy : ∀ names ∈ p.scopes, names.toList.Pairwise fun x y => x.eq y = false
  scopes : p.scopes.toList = #[] :: (Node.scopes (.block body)).map fun scope => scope.names.toArray
  origin : ∀ c ∈ p.consts, ∃ spot ∈ Layout.program primitives body, spot.instr.constant? = some c
  pooled : p.consts.size ≤ p.code.size

open Acting CompileM in
theorem Program.exists_compiled {node : Node}
    (h : Program.ofNode primitives node = .ok p) :
    ∃ a, outcome (compile node) { primitives := primitives } = (.ok (), a) ∧ p = a.program := by
  unfold Program.ofNode at h
  split at h
  · rename_i a hrun
    cases h
    exact ⟨a, hrun, rfl⟩
  · cases h

open Acting CompileM in
theorem Program.laidOut
    (hbody : Node.AreStats body) (h : Program.ofNode primitives (.program body) = .ok p) :
    p.LaidOut primitives body := by
  obtain ⟨a, hrun, rfl⟩ := Program.exists_compiled h
  rw [compile, register, bind_ok (register_stats hbody _)] at hrun
  generalize hb : ({ primitives := primitives, routines := #[] ++ (Layout.registeredAll body).toArray } :
    Assembly) = b at hrun
  have hpoint : b.point = Layout.origin body := by simp [← hb, Assembly.point, Layout.origin, Assembly.openScopes]
  have hsane : Sane b := ⟨by simp [← hb], by simp [← hb]⟩
  have hshape : Surrounds [] b := ⟨by simp [← hb, innermost?], by simp [← hb, innermost?], by simp [← hb]⟩
  have htidy : Tidy b := by simp [← hb, Tidy]
  have hvisit : visit (.program body) = visit (.block body) := by rw [visit, visit]
  rw [hvisit] at hrun
  obtain ⟨hadvances, ⟨_, hlays⟩, hend⟩ := compiled_stat (.block hbody) [] hsane hshape hrun
  have hprims : b.primitives = primitives := by rw [← hb]
  rw [hprims, hpoint] at hlays hend
  have hsize : b.scopes.size = 1 := by rw [← hb]; rfl
  have hfirst : a.scopes[0]? = some #[] := by
    have hchain : a.chain = [0] := by rw [hadvances.grows.chain, ← hb]
    have hlt : 0 < a.scopes.size := by
      have := hadvances.grows.scopes
      omega
    rw [innermost_getElem? hchain hlt, Assembly.names, hend, Names.innermost, Layout.next]
    rfl
  refine ⟨?_, ?_, ?_, hadvances.tidy htidy, ?_, ?_, ?_⟩
  · exact hlays.follows a.program (fun _ _ _ hw => hw) (.refl _)
  · exact congrArg (fun s => s.here) hend
  · exact congrArg (fun s => s.routines) hend
  · refine ext_getElem? fun i => ?_
    rw [Array.getElem?_toList]
    cases i with
    | zero => exact hfirst
    | succ i =>
      rw [getElem?_cons_succ, getElem?_map, ← hadvances.opened i, hsize, Nat.add_comm 1 i]
      rfl
  · intro c hc
    refine (hlays.origin c hc).resolve_left ?_
    simp [← hb]
  · have hpooled := hlays.pooled
    have hsize := hlays.size
    simp only [← hb, size_toArray, length_nil] at hpooled hsize
    rwa [← hsize] at hpooled

theorem Program.LaidOut.params
    (h : p.LaidOut primitives body) (hbody : Node.AreStats body) {f : Function} (hf : f ∈ Node.functionsAll body) :
    f.params.toArray ∈ p.scopes := by
  have hscope := Node.parameters_mem_scopes (.block hbody) (by rwa [Node.functions])
  rw [← Array.mem_toList_iff, h.scopes]
  exact mem_cons_of_mem _ (mem_map_of_mem (f := fun scope : Scope => scope.names.toArray) hscope)

end Cilly
