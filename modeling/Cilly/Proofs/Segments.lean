import Cilly.Proofs.Acting
import Cilly.Proofs.Written

/-!
# Segments of code

Compiling appends words and constants. The one thing it changes afterwards is the operand of an instruction that it
has itself emitted with a placeholder. So every tree, whatever it holds, leaves alone the code and the constants that
it finds: it spares every segment of the code that stands when it is begun, and its parents spare the segment that it
has emitted, since a placeholder of theirs lies before or behind that segment.

Constants that come are literals of the tree, indices of functions and names of primitives.
-/

namespace Cilly

open List

/-- The words from one address up to another are kept, so are the constants, and the constants that came are wanted and
no more than the words that came. -/
structure Assembly.Spared (Wanted : Datum → Prop) (first stop : Nat) (a a' : Assembly) : Prop where
  size : a.code.size ≤ a'.code.size
  code : ∀ i, first ≤ i → i < stop → a'.code[i]? = a.code[i]?
  consts : Extends a.consts a'.consts
  origin : ∀ d ∈ a'.consts, d ∈ a.consts ∨ Wanted d
  growth : a'.consts.size + a.code.size ≤ a.consts.size + a'.code.size

namespace Assembly.Spared

variable {Wanted : Datum → Prop} {first stop : Nat} {a b c : Assembly}

theorem trans (h : Spared Wanted first stop a b) (h' : Spared Wanted first stop b c) : Spared Wanted first stop a c := by
  refine ⟨Nat.le_trans h.size h'.size, ?_, h.consts.trans h'.consts, ?_, ?_⟩
  · intro i hfirst hstop
    rw [h'.code i hfirst hstop, h.code i hfirst hstop]
  · intro d hd
    rcases h'.origin d hd with hd | hd
    · exact h.origin d hd
    · exact Or.inr hd
  · have hfirst := h.growth
    have hsecond := h'.growth
    omega

theorem narrow (h : Spared Wanted first stop a b) {first' stop' : Nat} (hfirst : first ≤ first') (hstop : stop' ≤ stop) :
    Spared Wanted first' stop' a b :=
  ⟨h.size, fun i hi hi' => h.code i (Nat.le_trans hfirst hi) (Nat.lt_of_lt_of_le hi' hstop), h.consts, h.origin,
    h.growth⟩

theorem of_frozen (hcode : b.code = a.code) (hconsts : b.consts = a.consts) : Spared Wanted first stop a b :=
  ⟨Nat.le_of_eq (congrArg Array.size hcode.symm), fun i _ _ => by rw [hcode], hconsts ▸ .refl _,
    fun d hd => Or.inl (hconsts ▸ hd), Nat.le_of_eq (by rw [hcode, hconsts])⟩

theorem append (a : Assembly) (words : Array Int) (hstop : stop ≤ a.code.size) :
    Spared Wanted first stop a (a.withCode (a.code ++ words)) := by
  refine ⟨by simp, ?_, .refl _, fun _ => Or.inl, by simp⟩
  intro i _ hi
  exact Array.getElem?_append_left (Nat.lt_of_lt_of_le hi hstop)

theorem set (a : Assembly) {k : Nat} (hk : k < first ∨ stop ≤ k) (word : Int) :
    Spared Wanted first stop a (a.withCode (a.code.setIfInBounds k word)) := by
  refine ⟨by simp, ?_, .refl _, fun _ => Or.inl, by simp⟩
  intro i hfirst hi
  refine Array.getElem?_setIfInBounds_ne ?_
  rintro rfl
  rcases hk with hk | hk
  · exact Nat.not_lt.mpr hfirst hk
  · exact Nat.not_lt.mpr hk hi

end Assembly.Spared

/-- Only names and the state of loops and functions have changed. -/
structure Assembly.SameCode (a a' : Assembly) : Prop where
  code : a'.code = a.code
  consts : a'.consts = a.consts

/-- Doing nothing is within a relation, and so are what is done in two steps, names added to the innermost scope and
functions added to the table or given their address. -/
class Assembly.Allows (R : Assembly → Assembly → Prop) : Prop where
  refl : ∀ a, R a a
  trans : ∀ {a b c}, R a b → R b c → R a c
  name : ∀ {a : Assembly} {i outer} (x : Datum), a.chain = i :: outer →
    R a { a with scopes := a.scopes.setIfInBounds i ((a.scopes.getD i #[]).push x) }
  routine : ∀ (a : Assembly) r, R a { a with routines := a.routines.push r }
  entry : ∀ (a : Assembly) id address, R a { a with routines := a.routines.modify id fun r => { r with entry := some address } }

instance : Assembly.Allows Assembly.SameCode where
  refl _ := ⟨rfl, rfl⟩
  trans h h' := ⟨h'.code.trans h.code, h'.consts.trans h.consts⟩
  name _ _ := ⟨rfl, rfl⟩
  routine _ _ := ⟨rfl, rfl⟩
  entry _ _ _ := ⟨rfl, rfl⟩

namespace CompileM

open Acting Assembly Node

/-! ## Actions that spare a segment -/

/-- Once a segment of the code is there, the action leaves it alone if it succeeds; and what it gives is as told. -/
def Spares (Wanted : Datum → Prop) (first stop : Nat) {α : Type} (x : CompileM α) (P : α → Prop) : Prop :=
  ∀ ⦃a : Assembly⦄ ⦃r : α⦄ ⦃a' : Assembly⦄, stop ≤ a.code.size → outcome x a = (.ok r, a') →
    P r ∧ Spared Wanted first stop a a'

/-- What the action does to the state, if it succeeds, is within a relation. -/
def Confined {α : Type} (R : Assembly → Assembly → Prop) (x : CompileM α) : Prop :=
  ∀ ⦃a : Assembly⦄ ⦃r : α⦄ ⦃a' : Assembly⦄, outcome x a = (.ok r, a') → R a a'

/-- The action changes neither code nor constants if it succeeds. -/
abbrev Frozen {α : Type} (x : CompileM α) : Prop := Confined SameCode x

namespace Confined

variable {α β : Type} {R : Assembly → Assembly → Prop} [Allows R]

theorem pure (r : α) : Confined R (pure r) := by
  rintro a _ _ ⟨⟩
  exact Allows.refl a

omit [Allows R] in
theorem throw (e : CompileError) : Confined R (throw e : CompileM α) := by
  rintro a _ _ ⟨⟩

theorem get : Confined R get := by
  rintro a _ _ ⟨⟩
  exact Allows.refl a

theorem bind {x : CompileM α} {f : α → CompileM β} (hx : Confined R x) (hf : ∀ r, Confined R (f r)) :
    Confined R (x >>= f) := by
  intro a s c h
  obtain ⟨r, b, hxr, hfr⟩ := bind_eq_ok.mp h
  exact Allows.trans (hx hxr) (hf r hfr)

theorem discard {x : CompileM α} (h : Confined R x) : Confined R (discard x) := h.bind fun _ => pure _

omit [Allows R] in
theorem of_get {f : Assembly → CompileM β} (h : ∀ a r a', outcome (f a) a = (.ok r, a') → R a a') :
    Confined R (MonadState.get >>= f) := by
  intro a r a' hf
  rw [bind_ok (outcome_get a)] at hf
  exact h a r a' hf

omit [Allows R] in
theorem modify {f : Assembly → Assembly} (h : ∀ a, R a (f a)) : Confined R (modify f) := by
  rintro a _ _ ⟨⟩
  exact h a

theorem ofFault (r : Except Fault α) : Confined R (ofFault r) := by
  intro a x a' h
  obtain ⟨-, rfl⟩ := ofFault_eq_ok.mp h
  exact Allows.refl _

theorem nextAddress : Confined R nextAddress := get.bind fun _ => pure _

theorem scopeSize : Confined R scopeSize := by
  refine get.bind fun a => ?_
  split
  · exact throw _
  · exact pure _

theorem declare (x : Datum) : Confined R (declare x) := by
  refine of_get fun a r a' h => ?_
  split at h
  · cases h
  · rename_i hchain
    dsimp only at h
    split at h
    · obtain ⟨_, _, _, hthrow⟩ := bind_eq_ok.mp h
      cases hthrow
    · cases h
      exact Allows.name x hchain

theorem declareAll (xs : List Datum) : Confined R (declareAll xs) := by
  induction xs with
  | nil => exact pure ()
  | cons x xs ih => exact (declare x).discard.bind fun _ => ih

theorem lookup (x : Datum) : Confined R (lookup x) := by
  refine get.bind fun a => ?_
  split
  · exact pure _
  · exact (ofFault _).bind fun _ => throw _

theorem addRoutine (x : Datum) (params : List Datum) : Confined R (addRoutine x params) := by
  refine of_get fun a r a' h => ?_
  cases h
  exact Allows.routine a _

theorem routineFor (x : Datum) (params : List Datum) : Confined R (routineFor x params) := by
  refine get.bind fun a => ?_
  split
  · exact pure _
  · exact addRoutine x params

theorem setEntry (id address : Nat) : Confined R (setEntry id address) := modify fun a => Allows.entry a id _

theorem calleeOf (x : Datum) : Confined R (calleeOf x) := by
  refine get.bind fun a => ?_
  split
  · exact pure _
  · refine (lookup x).bind fun place => ?_
    split
    · exact pure _
    · exact pure _

theorem refuseCall (callee : Node) (args : List Node) : Confined R (refuseCall callee args) :=
  (ofFault _).bind fun _ => throw _

theorem registerDefine (x : Datum) (value : Node) : Confined R (register (.define x value)) := by
  rw [CompileM.register.eq_def]
  dsimp only
  split
  · exact (addRoutine x _).discard
  · refine (ofFault _).bind fun _ => ?_
    split
    · exact (addRoutine x _).discard
    · exact pure _
  · exact pure _

theorem registerSurplus (n : Node) (extra : List Datum) : Confined R (register (.surplus n extra)) := by
  cases n with
  | program | block => exact throw _
  | _ => exact pure _

mutual

theorem register : ∀ n : Node, Confined R (register n)
  | .program body => registerAll body
  | .block body => registerAll body
  | .define x value => registerDefine x value
  | .procedure .. => throw _
  | .nonSequence _ => throw _
  | .odd _ => ofFault _
  | .surplus n extra => registerSurplus n extra
  | .statements _ | .assign .. | .print _ | .ifThen .. | .ifElse .. | .loop .. | .breakLoop | .continueLoop | .return
  | .returnValue _ | .exprStat _ | .unary .. | .binary .. | .call .. | .function .. | .name _ | .literal .. | .quote _ => pure ()

theorem registerAll : ∀ ns : List Node, Confined R (registerAll ns)
  | [] => pure ()
  | n :: ns => (register n).bind fun _ => registerAll ns

end

end Confined

theorem Frozen.closeScope : Frozen closeScope := by
  refine Confined.get.bind fun a => ?_
  split
  · exact .throw _
  · exact .modify fun _ => ⟨rfl, rfl⟩

namespace Spares

variable {Wanted : Datum → Prop} {first stop : Nat} {α β : Type}

theorem bind {x : CompileM α} {f : α → CompileM β} {P : α → Prop} {Q : β → Prop} (hx : Spares Wanted first stop x P)
    (hf : ∀ r, P r → Spares Wanted first stop (f r) Q) : Spares Wanted first stop (x >>= f) Q := by
  intro a s c hstop h
  obtain ⟨r, b, hxr, hfr⟩ := bind_eq_ok.mp h
  obtain ⟨hr, hab⟩ := hx hstop hxr
  obtain ⟨hs, hbc⟩ := hf r hr (Nat.le_trans hstop hab.size) hfr
  exact ⟨hs, hab.trans hbc⟩

theorem of_frozen {x : CompileM α} (h : Frozen x) : Spares Wanted first stop x fun _ => True := by
  intro a r a' _ hx
  obtain ⟨hcode, hconsts⟩ := h hx
  exact ⟨trivial, .of_frozen hcode hconsts⟩

theorem discard {x : CompileM α} {P : α → Prop} (h : Spares Wanted first stop x P) :
    Spares Wanted first stop (discard x) fun _ => True :=
  h.bind fun _ _ => of_frozen (.pure _)

theorem throw {P : α → Prop} (e : CompileError) : Spares Wanted first stop (throw e : CompileM α) P := by
  rintro a _ _ _ ⟨⟩

theorem emit1 (op : Opcode) (operand : Int) :
    Spares Wanted first stop (emit1 op operand) fun r => r + 1 < first ∨ stop ≤ r + 1 := by
  intro a r a' hstop h
  rw [outcome_emit1] at h
  cases h
  exact ⟨.inr (Nat.le_succ_of_le hstop), .append a _ hstop⟩

theorem emit (op : Opcode) : Spares Wanted first stop (emit op) fun _ => True := by
  intro a r a' hstop h
  rw [outcome_emit] at h
  cases h
  exact ⟨trivial, .append a _ hstop⟩

theorem emit2 (op : Opcode) (x y : Int) : Spares Wanted first stop (emit2 op x y) fun _ => True := by
  intro a r a' hstop h
  rw [outcome_emit2] at h
  cases h
  exact ⟨trivial, .append a _ hstop⟩

theorem patchWords {address : Nat} (h : address + 1 < first ∨ stop ≤ address + 1) (word : Int) :
    Spares Wanted first stop (patchWords address (some word) none) fun _ => True := by
  intro a r a' _ hpatch
  by_cases hlt : address + 1 < a.code.size
  · rw [outcome_patchWords hlt] at hpatch
    cases hpatch
    exact ⟨trivial, .set a h word⟩
  · -- an address behind the code is no place to write to
    have hposition : Datum.position? a.code.size ((address : Int) + 1) = none := by
      have hneg : ¬ (address : Int) + 1 < 0 := by omega
      simp only [Datum.position?, if_neg hneg]
      exact if_neg (by omega)
    have hset : setItemAt a.code ((address : Int) + 1) word = .error .noSlot := by
      rw [setItemAt, hposition]
    unfold CompileM.patchWords setWord at hpatch
    obtain ⟨_, _, hset', -⟩ := bind_eq_ok.mp hpatch
    rw [bind_ok (outcome_get a), hset] at hset'
    cases hset'

theorem patchHere {address : Nat} (h : address + 1 < first ∨ stop ≤ address + 1) :
    Spares Wanted first stop (patchHere address) fun _ => True :=
  (of_frozen .nextAddress).bind fun _ _ => patchWords h _

theorem withConst {c : Datum} (hc : Wanted c) (op : Opcode) :
    Spares Wanted first stop (addConst c >>= fun i => Functor.discard (CompileM.emit1 op i)) fun _ => True := by
  intro a r a' hstop h
  obtain ⟨i, consts, hadd, hext, horigin, hsize, -⟩ := outcome_addConst (a := a) c
  rw [bind_ok hadd, outcome_discard, outcome_emit1] at h
  cases h
  have hspared : Spared Wanted first stop { a with consts := consts } _ := .append _ #[op.word, (i : Int)] hstop
  obtain ⟨hle, hcode, -, -, -⟩ := hspared
  refine ⟨trivial, hle, hcode, hext, fun d hd => (horigin d hd).imp_right fun (hd : d = c) => hd ▸ hc, ?_⟩
  simp only [withCode, Array.size_append, size_toArray, length_cons, length_nil]
  omega

theorem emitConst {c : Datum} (hc : Wanted c) : Spares Wanted first stop (emitConst c) fun _ => True :=
  withConst hc .loadConst

theorem emitFinalReturn : Spares Wanted first stop emitFinalReturn fun _ => True := by
  refine (of_frozen .get).bind fun a _ => ?_
  dsimp only
  split
  · exact emit _
  · exact of_frozen (.pure _)

theorem emitAssign (x : Datum) : Spares Wanted first stop (emitAssign x) fun _ => True := by
  refine (of_frozen (.lookup x)).bind fun place _ => ?_
  split
  · exact (of_frozen (.ofFault _)).bind fun _ _ => throw _
  · exact emit2 _ _ _

/-! ### What stands behind a part of a node

A parent patches the placeholder that it has put before the part, and appends. -/

theorem loopEnd {exit : Nat} (hexit : exit + 1 < first ∨ stop ≤ exit + 1) (start : Nat) (outer : Assembly) :
    Spares Wanted first stop (do
      Functor.discard (CompileM.emit1 .jump start)
      CompileM.patchHere exit
      modify fun a => { a with breaks := outer.breaks, continues := outer.continues }) fun _ => True := by
  refine (emit1 _ _).discard.bind fun _ _ => (patchHere hexit).bind fun _ _ => ?_
  exact of_frozen (.modify fun _ => ⟨rfl, rfl⟩)

theorem functionEnd {skip : Nat} (hskip : skip + 1 < first ∨ stop ≤ skip + 1) {id : Nat}
    (hid : Wanted (.number (.int id))) (x : Datum) (outer : Assembly) :
    Spares Wanted first stop (do
      CompileM.emitFinalReturn
      modify fun a => { a with chain := outer.chain, current := outer.current }
      CompileM.patchHere skip
      let index ← declare x
      CompileM.emitConst (.number (.int id))
      CompileM.emit2 .storeVar 0 index) fun _ => True := by
  refine emitFinalReturn.bind fun _ _ => bind (of_frozen (.modify fun _ => ⟨rfl, rfl⟩)) fun _ _ => ?_
  refine (patchHere hskip).bind fun _ _ => (of_frozen (.declare x)).bind fun i _ => ?_
  exact (emitConst hid).bind fun _ _ => emit2 _ _ _

theorem blockEnd {enter : Nat} (henter : enter + 1 < first ∨ stop ≤ enter + 1) :
    Spares Wanted first stop (do
      CompileM.emit .leaveScope
      let size ← scopeSize
      CompileM.patchWords enter (some (size : Int)) none
      closeScope) fun _ => True := by
  refine (emit _).bind fun _ _ => (of_frozen .scopeSize).bind fun size _ => ?_
  exact (patchWords henter _).bind fun _ _ => of_frozen Frozen.closeScope

end Spares

end CompileM

/-! ## Trees -/

/-- Literals that are loaded from the table of constants. -/
def LiteralKind.Pooled (kind : LiteralKind) : Prop := kind = .num ∨ kind = .str

/-- What may come into the table of constants with a tree. -/
inductive Node.Brings (all : List Node) : Datum → Prop
  | literal {kind : LiteralKind} {fields : List Datum} : kind.Pooled → .literal kind fields ∈ all →
      Brings all (form kind.tag fields)
  | index (id : Nat) : Brings all (.number (.int id))
  | primitive (name : String) : Brings all (.string (.text name))

namespace CompileM

open Acting Assembly Node

variable {all : List Node}

/-- A property of actions that the compilation of a tree has if these have it. An address is the tree's own if a placeholder has
been emitted there. -/
structure Walk (all : List Node) (Own : Nat → Prop) (P : CompileM Unit → Prop) : Prop where
  seq {x y} : P x → P y → P (x >>= fun _ => y)
  quiet {x} : (∀ R [Allows R], Confined R x) → P x
  quietly {α : Type} {x : CompileM α} {f} : (∀ R [Allows R], Confined R x) → (∀ r, P (f r)) → P (x >>= f)
  emit (op) : P (emit op)
  emit1 {op operand f} : (∀ r, Own r → P (f r)) → P (emit1 op operand >>= f)
  emit2 (op x y) : P (emit2 op x y)
  patchHere {address} : Own address → P (patchHere address)
  literal {kind fields} : .literal kind fields ∈ all → P (emitLiteral kind fields)
  withConst {c} (op) : Brings all c → P (addConst c >>= fun i => discard (CompileM.emit1 op i))
  leave (address : Nat) : P (modify fun a => { a with breaks := a.breaks.push (address + 1) })
  loop {start exit : Nat} {body} : P body → Own exit → P (do
    let outer ← get
    modify fun a => { a with breaks := #[exit], continues := #[start] }
    body
    discard (CompileM.emit1 .jump start)
    CompileM.patchHere exit
    modify fun a => { a with breaks := outer.breaks, continues := outer.continues })
  function {id : Nat} {body rest} (params) : P body → P rest → P (do
    let outer ← get
    modify fun a => { a with current := some id, scopes := a.scopes.push #[], chain := [a.scopes.size] }
    declareAll params
    body
    emitFinalReturn
    modify fun a => { a with chain := outer.chain, current := outer.current }
    rest)
  block {body} : P (visitAll body) → P (visitBlock body)

namespace Walk

variable {Own : Nat → Prop} {P : CompileM Unit → Prop}

section

variable (w : Walk all Own P)
include w

theorem refused (e : CompileError) : P (throw e) := w.quiet fun _ _ => .throw e

theorem emitDiscarded (op : Opcode) (operand : Int) : P (discard (CompileM.emit1 op operand)) :=
  w.emit1 fun _ _ => w.quiet fun _ _ => .pure _

theorem otherwise {skip : Nat} (hskip : Own skip) {no : Node} (hno : P (visit no)) : P (do
    let done ← CompileM.emit1 .jump (-1)
    CompileM.patchHere skip
    visit no
    CompileM.patchHere done) :=
  w.emit1 fun _ hdone => w.seq (w.patchHere hskip) (w.seq hno (w.patchHere hdone))

theorem shortcutEnd {exit : Nat} (hexit : Own exit) (skipped : Opcode) : P (do
    let done ← CompileM.emit1 .jump (-1)
    CompileM.patchHere exit
    CompileM.emit skipped
    CompileM.patchHere done) :=
  w.emit1 fun _ hdone => w.seq (w.patchHere hexit) (w.seq (w.emit _) (w.patchHere hdone))

theorem breakLoop : P (visit .breakLoop) := by
  have hrest : P (CompileM.emit1 .jump (-1) >>= fun address =>
      modify fun a => { a with breaks := a.breaks.push (address + 1) }) := w.emit1 fun _ _ => w.leave _
  rw [visit]
  refine w.quietly (fun _ _ => .get) fun a => ?_
  dsimp only
  split
  · exact w.quietly (fun _ _ => .throw _) fun _ => hrest
  · exact hrest

theorem continueLoop : P (visit .continueLoop) := by
  rw [visit]
  refine w.quietly (fun _ _ => .get) fun a => ?_
  split
  · exact w.refused _
  · exact w.emitDiscarded ..

theorem binary (op : Datum) {left right : Node} (hleft : P (visit left)) (hright : P (visit right)) :
    P (visit (.binary op left right)) := by
  rw [visit.eq_def]
  dsimp only
  split
  · exact w.seq hleft (w.emit1 fun exit hexit => w.seq hright (w.shortcutEnd hexit _))
  · split
    · exact w.seq hright (w.seq hleft (w.emit _))
    · refine w.seq hleft (w.seq hright ?_)
      split
      · exact w.emit _
      · exact w.quietly (fun _ _ => .ofFault _) fun _ => w.refused _

theorem define (x : Datum) {value : Node} (hfunction : ∀ params body, value ≠ .function params body)
    (hvalue : P (visit value)) : P (visit (.define x value)) := by
  have hrest : P (visit value >>= fun _ => declare x >>= fun index => CompileM.emit2 .storeVar 0 index) :=
    w.seq hvalue (w.quietly (fun _ _ => .declare x) fun _ => w.emit2 ..)
  rw [visit.eq_def]
  dsimp only
  split
  · exact absurd rfl (hfunction _ _)
  · split
    · refine w.quietly (fun _ _ => .ofFault _) fun _ => ?_
      split
      · exact w.quietly (fun _ _ => .throw _) fun _ => hrest
      · exact hrest
    · exact hrest

theorem defineFunction (x : Datum) (params : List Datum) {body : Node} (hbody : P (visit body)) :
    P (visit (.define x (.function params body))) := by
  rw [visit]
  refine w.quietly (fun _ _ => .routineFor x params) fun id => w.emit1 fun skip hskip => ?_
  refine w.quietly (fun _ _ => .nextAddress) fun entry => w.seq (w.quiet fun _ _ => .setEntry id entry) ?_
  refine w.function params hbody (w.seq (w.patchHere hskip) (w.quietly (fun _ _ => .declare x) fun _ => ?_))
  exact w.seq (w.withConst .loadConst (.index id)) (w.emit2 ..)

theorem call (callee : Node) {args : List Node} (hargs : P (visitArguments args)) : P (visit (.call callee args)) := by
  have hrefuse : P (refuseCall callee args) := w.quiet fun _ _ => .refuseCall ..
  rw [visit.eq_def]
  dsimp only
  split
  · refine w.quietly (fun _ _ => .calleeOf _) fun r => ?_
    split
    · exact w.seq hargs (w.emitDiscarded ..)
    · exact w.seq hargs (w.withConst .callPrimitive (.primitive _))
    · exact hrefuse
  · exact w.refused _
  · refine w.quietly (fun _ _ => .ofFault _) fun tag => ?_
    split
    · exact w.refused _
    · exact hrefuse
  · exact hrefuse

/-- Fields to spare make no difference to leaving or repeating a loop. -/
theorem surplus (n : Node) (extra : List Datum) : P (visit (.surplus n extra)) := by
  by_cases hbreak : n = .breakLoop
  · have hsame : visit (.surplus .breakLoop extra) = visit .breakLoop := by simp only [visit]
    rw [hbreak, hsame]
    exact w.breakLoop
  by_cases hcontinue : n = .continueLoop
  · have hsame : visit (.surplus .continueLoop extra) = visit .continueLoop := by simp only [visit]
    rw [hcontinue, hsame]
    exact w.continueLoop
  rw [visit.eq_def]
  dsimp only
  split
  · exact absurd rfl hbreak
  · exact absurd rfl hcontinue
  · exact w.refused _
  · exact w.refused _

theorem inFunction {x : CompileM Unit} (hx : P x) : P (do
    if (← get).current.isNone then throw .returnOutsideFunction
    x) := by
  refine w.quietly (fun _ _ => .get) fun a => ?_
  dsimp only
  split
  · exact w.quietly (fun _ _ => .throw _) fun _ => hx
  · exact hx

end

mutual

theorem visit (w : Walk all Own P) : ∀ n : Node, parts n ⊆ all → P (visit n)
  | .program body, h | .block body, h => by
    rw [CompileM.visit]
    exact w.block (w.visitAll body (subset_of_cons_subset h))
  | .exprStat e, h => by
    rw [CompileM.visit]
    exact w.seq (w.visit e (subset_of_cons_subset h)) (w.emit _)
  | .print args, h => by
    rw [CompileM.visit]
    exact w.seq (w.visitPrinted args (subset_of_cons_subset h)) (w.emit _)
  | .literal kind fields, h => by
    rw [CompileM.visit]
    exact w.literal (h (mem_cons_self ..))
  | .unary op e, h => by
    rw [CompileM.visit]
    refine w.seq (w.visit e (subset_of_cons_subset h)) ?_
    split
    · exact w.emit _
    · exact w.quietly (fun _ _ => .ofFault _) fun _ => w.refused _
  | .binary op left right, h => by
    obtain ⟨hleft, hright⟩ := append_subset.mp (subset_of_cons_subset h)
    exact w.binary op (w.visit left hleft) (w.visit right hright)
  | .ifThen cond yes, h => by
    obtain ⟨hcond, hyes⟩ := append_subset.mp (subset_of_cons_subset h)
    rw [CompileM.visit]
    exact w.seq (w.visit cond hcond) (w.emit1 fun skip hskip => w.seq (w.visit yes hyes) (w.patchHere hskip))
  | .ifElse cond yes no, h => by
    obtain ⟨hcond, hbranches⟩ := append_subset.mp (subset_of_cons_subset h)
    obtain ⟨hyes, hno⟩ := append_subset.mp hbranches
    rw [CompileM.visit]
    refine w.seq (w.visit cond hcond) (w.emit1 fun skip hskip => ?_)
    exact w.seq (w.visit yes hyes) (w.otherwise hskip (w.visit no hno))
  | .loop cond body, h => by
    obtain ⟨hcond, hbody⟩ := append_subset.mp (subset_of_cons_subset h)
    rw [CompileM.visit]
    refine w.quietly (fun _ _ => .nextAddress) fun start => w.seq (w.visit cond hcond) ?_
    exact w.emit1 fun exit hexit => w.loop (w.visit body hbody) hexit
  | .breakLoop, _ => w.breakLoop
  | .continueLoop, _ => w.continueLoop
  | .define x value, h => by
    cases value with
    | function params body =>
      exact w.defineFunction x params (w.visit body (subset_of_cons_subset (subset_of_cons_subset h)))
    | _ => exact w.define x (by simp) (w.visit _ (subset_of_cons_subset h))
  | .assign x value, h => by
    rw [CompileM.visit]
    refine w.seq (w.visit value (subset_of_cons_subset h)) (w.quietly (fun _ _ => .lookup x) fun place => ?_)
    split
    · exact w.quietly (fun _ _ => .ofFault _) fun _ => w.refused _
    · exact w.emit2 ..
  | .name x, _ => by
    rw [CompileM.visit]
    refine w.quietly (fun _ _ => .lookup x) fun place => ?_
    split
    · exact w.withConst .loadConst (.index _)
    · exact w.emit2 ..
  | .return, _ => by
    rw [CompileM.visit]
    exact w.inFunction (w.emit _)
  | .returnValue value, h => by
    rw [CompileM.visit]
    exact w.inFunction (w.seq (w.visit value (subset_of_cons_subset h)) (w.emit _))
  | .call callee args, h => w.call callee (w.visitArguments args (append_subset.mp (subset_of_cons_subset h)).2)
  | .surplus n extra, _ => w.surplus n extra
  | .function .., _ | .procedure .., _ | .statements _, _ | .quote _, _ | .nonSequence _, _ | .odd _, _ => by
    rw [CompileM.visit]
    exact w.refused _

theorem visitAll (w : Walk all Own P) : ∀ ns : List Node, partsAll ns ⊆ all → P (visitAll ns)
  | [], _ => by
    rw [CompileM.visitAll]
    exact w.quiet fun _ _ => .pure ()
  | n :: ns, h => by
    obtain ⟨hn, hns⟩ := append_subset.mp h
    rw [CompileM.visitAll]
    exact w.seq (w.visit n hn) (w.visitAll ns hns)

theorem visitPrinted (w : Walk all Own P) : ∀ ns : List Node, partsAll ns ⊆ all → P (visitPrinted ns)
  | [], _ => by
    rw [CompileM.visitPrinted]
    exact w.quiet fun _ _ => .pure ()
  | n :: ns, h => by
    obtain ⟨hn, hns⟩ := append_subset.mp h
    rw [CompileM.visitPrinted]
    exact w.seq (w.visit n hn) (w.seq (w.emit _) (w.visitPrinted ns hns))

theorem visitArguments (w : Walk all Own P) : ∀ ns : List Node, partsAll ns ⊆ all → P (visitArguments ns)
  | [], _ => by
    rw [CompileM.visitArguments]
    exact w.quiet fun _ _ => .pure ()
  | n :: ns, h => by
    obtain ⟨hn, hns⟩ := append_subset.mp h
    have hrest := w.seq (w.visitArguments ns hns) (w.visit n hn)
    rw [CompileM.visitArguments.eq_def]
    split
    · exact w.quiet fun _ _ => .pure ()
    · exact w.refused _
    · rename_i heq
      cases heq
      exact hrest

end

end Walk

variable {first stop : Nat}

theorem Spares.walk {Wanted : Datum → Prop} (hwanted : ∀ {d}, Brings all d → Wanted d) :
    Walk all (fun r => r + 1 < first ∨ stop ≤ r + 1) fun x => Spares Wanted first stop x fun _ => True where
  seq hx hy := hx.bind fun _ _ => hy
  quiet h := .of_frozen (h _)
  quietly h hf := (Spares.of_frozen (h _)).bind fun r _ => hf r
  emit := .emit
  emit1 hf := (Spares.emit1 ..).bind hf
  emit2 := .emit2
  patchHere := .patchHere
  literal {kind _} h := by
    cases kind with
    | num => exact .withConst (hwanted (.literal (.inl rfl) h)) .loadConst
    | str => exact .withConst (hwanted (.literal (.inr rfl) h)) .loadConst
    | true | false | null => exact .emit _
  withConst op hc := .withConst (hwanted hc) op
  leave _ := .of_frozen (.modify fun _ => ⟨rfl, rfl⟩)
  loop hbody hexit := by
    refine (Spares.of_frozen .get).bind fun outer _ => Spares.bind (.of_frozen (.modify fun _ => ⟨rfl, rfl⟩)) fun _ _ => ?_
    exact hbody.bind fun _ _ => .loopEnd hexit _ outer
  function params hbody hrest := by
    refine (Spares.of_frozen .get).bind fun outer _ => Spares.bind (.of_frozen (.modify fun _ => ⟨rfl, rfl⟩)) fun _ _ => ?_
    refine (Spares.of_frozen (.declareAll params)).bind fun _ _ => hbody.bind fun _ _ => ?_
    exact Spares.emitFinalReturn.bind fun _ _ => Spares.bind (.of_frozen (.modify fun _ => ⟨rfl, rfl⟩)) fun _ _ => hrest
  block hbody := by
    rw [visitBlock]
    refine Spares.bind (.of_frozen (.modify fun _ => ⟨rfl, rfl⟩)) fun _ _ => ?_
    exact (Spares.emit1 ..).bind fun enter henter => hbody.bind fun _ _ => .blockEnd henter

end CompileM

end Cilly
