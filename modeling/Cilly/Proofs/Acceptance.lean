import Cilly.Proofs.Mentions
import Cilly.Proofs.Parsing.Exact

/-!
# Which programs are compiled

A program that was read from tokens is compiled unless something in it is wrong where it stands (`Mention.wrong`), and then
the error is one of the compiler's own. There is one exception: an error shows a name or a whole call, and a number that is too
long to be written cannot be shown (`Told`).

`Settles` says both for one action: it succeeds exactly if nothing it compiles is wrong. What the state is like after a success
is known already (`compiled_stat`), so that sequences settle from their parts. The trees are those that
are made of tokens, with the operators of the grammar (`WrittenStat`), since only these are legal.
-/

namespace Cilly

open Acting List Assembly

variable {args body : List Node} {i : Nat} {n : Node} {ts : List Token} {wrong : Prop}

/-! ## Numbers too long to be written -/

/-- A datum that is made of the values of tokens. -/
inductive Made (ts : List Token) : Datum → Prop
  | value {t : Token} : t ∈ ts → Made ts t.value
  | text (s : String) : Made ts (.text s)
  | null : Made ts .null
  | list {items : List Datum} : (∀ x ∈ items, Made ts x) → Made ts (.list items)

namespace Made

variable {ts : List Token}

theorem form (tag : String) {fields : List Datum} (h : ∀ x ∈ fields, Made ts x) : Made ts (Node.form tag fields) :=
  .list (forall_mem_cons.mpr ⟨.text tag, h⟩)

theorem exists_long {d : Datum} (hlong : d.HoldsLong) (h : Made ts d) : ∃ t ∈ ts, t.value.HoldsLong := by
  induction hlong with
  | int hbound =>
    generalize hd : Datum.int _ = d at h
    cases h with
    | @value t ht => exact ⟨t, ht, hd ▸ .int hbound⟩
    | text | null | list => cases hd
  | @item x items hx hlong ih =>
    generalize hd : Datum.list items = d at h
    cases h with
    | @value t ht => exact ⟨t, ht, hd ▸ .item hx hlong⟩
    | text | null => cases hd
    | list hitems =>
      cases hd
      exact ih (hitems x hx)

end Made

theorem Datum.display_error {d : Datum} {f : Fault} (h : d.display = .error f) : f = .digitLimit none ∧ d.HoldsLong := by
  cases d with
  | text s => cases h
  | null | bool | int | float | list => exact literal_error _ h

namespace Node

theorem sequence_of_exprs {es : List Node} (h : AreExprs es) : sequence es = .list (toData es) := by
  rw [sequence]
  rintro raw rfl
  cases h with
  | cons he _ => cases he

theorem sequence_of_stats {ns : List Node} (h : AreStats ns) : sequence ns = .list (toData ns) := by
  rw [sequence]
  rintro raw rfl
  cases h with
  | cons hn _ => cases hn

end Node

namespace Node

variable {ts : List Token}

mutual

theorem WrittenExpr.made : ∀ {e : Node}, WrittenExpr (· ∈ ts) e → Made ts e.toDatum
  | _, .name hx => by
    rw [toDatum]
    exact .form _ (forall_mem_singleton.mpr (.value hx))
  | _, .literal ht => by
    rw [toDatum]
    exact .form _ (forall_mem_singleton.mpr (.value ht))
  | _, .unary _ he => by
    rw [toDatum]
    refine .form _ ?_
    simpa using ⟨.text _, he.made⟩
  | _, .binary _ hl hr => by
    rw [toDatum]
    refine .form _ ?_
    simpa using ⟨.text _, hl.made, hr.made⟩
  | _, .call hf hargs => by
    rw [toDatum, sequence_of_exprs hargs.areExprs]
    refine .form _ ?_
    simpa using ⟨hf.made, .list hargs.made⟩
  | _, .function hxs hbody => by
    rw [toDatum, toDatum, sequence_of_stats hbody.areStats]
    refine .form _ ?_
    simpa using ⟨.list fun x hx => .value (hxs x hx), .form _ (forall_mem_singleton.mpr (.list hbody.made))⟩

theorem WrittenExprs.made : ∀ {es : List Node}, WrittenExprs (· ∈ ts) es → ∀ x ∈ toData es, Made ts x
  | _, .nil => by simp [toData]
  | _, .cons he hes => by
    rw [toData]
    exact forall_mem_cons.mpr ⟨he.made, hes.made⟩

theorem WrittenStat.made : ∀ {n : Node}, WrittenStat (· ∈ ts) n → Made ts n.toDatum
  | _, .exprStat he | _, .returnValue he => by
    rw [toDatum]
    exact .form _ (forall_mem_singleton.mpr he.made)
  | _, .print hargs => by
    rw [toDatum, sequence_of_exprs hargs.areExprs]
    exact .form _ (forall_mem_singleton.mpr (.list hargs.made))
  | _, .ifThen hcond hyes => by
    rw [toDatum]
    refine .form _ ?_
    simpa using ⟨hcond.made, hyes.made, .null⟩
  | _, .ifElse hcond hyes hno => by
    rw [toDatum]
    refine .form _ ?_
    simpa using ⟨hcond.made, hyes.made, hno.made⟩
  | _, .loop hcond hbody => by
    rw [toDatum]
    refine .form _ ?_
    simpa using ⟨hcond.made, hbody.made⟩
  | _, .breakLoop | _, .continueLoop => by
    rw [toDatum]
    exact .form _ (forall_mem_nil _)
  | _, .block hbody => by
    rw [toDatum, sequence_of_stats hbody.areStats]
    exact .form _ (forall_mem_singleton.mpr (.list hbody.made))
  | _, .define hx hvalue | _, .assign hx hvalue => by
    rw [toDatum]
    refine .form _ ?_
    simpa using ⟨.value hx, hvalue.made⟩
  | _, .return => by
    rw [toDatum]
    exact .form _ (forall_mem_singleton.mpr .null)

theorem WrittenStats.made : ∀ {ns : List Node}, WrittenStats (· ∈ ts) ns → ∀ x ∈ toData ns, Made ts x
  | _, .nil => by simp [toData]
  | _, .cons hn hns => by
    rw [toData]
    exact forall_mem_cons.mpr ⟨hn.made, hns.made⟩

end

end Node

/-! ## Errors -/

/-- An error is one of the compiler's own, unless it would have to show a number that is too long to be written. -/
def CompileError.Told (ts : List Token) (e : CompileError) : Prop :=
  (e.category = .reported ∧ ∃ text, e.message = "cilly vm compiler : " ++ text) ∨
    e = .fault (.digitLimit none) ∧ ∃ t ∈ ts, t.value.HoldsLong

namespace CompileError

theorem told {e : CompileError} (h : ∀ f, e ≠ .fault f) : e.Told ts := by
  have hshown : ∀ lead rest text : String, lead = "cilly vm compiler : " ++ rest →
      ∃ text', lead ++ text = "cilly vm compiler : " ++ text' := by
    intro lead rest text hlead
    exact ⟨rest ++ text, by rw [hlead, String.append_assoc]⟩
  cases e with
  | redefined x => exact Or.inl ⟨rfl, hshown _ "已定义变量: " x (by decide)⟩
  | undefinedName x => exact Or.inl ⟨rfl, hshown _ "未定义变量：" x (by decide)⟩
  | assignedFunction x => exact Or.inl ⟨rfl, hshown _ "不能给函数名赋值: " x (by decide)⟩
  | illegalUnary op => exact Or.inl ⟨rfl, hshown _ "非法一元运算符：" op (by decide)⟩
  | illegalBinary op => exact Or.inl ⟨rfl, hshown _ "非法二元运算符：" op (by decide)⟩
  | breakOutsideLoop => exact Or.inl ⟨rfl, "break语句必须在循环内部", by decide⟩
  | continueOutsideLoop => exact Or.inl ⟨rfl, "continue语句必须在循环内部", by decide⟩
  | returnOutsideFunction => exact Or.inl ⟨rfl, "return语句必须在函数内部", by decide⟩
  | anonymousFunction => exact Or.inl ⟨rfl, "匿名函数暂不支持", by decide⟩
  | unsupportedCall node => exact Or.inl ⟨rfl, hshown _ "不支持的函数调用: " node (by decide)⟩
  | illegalNode tag => exact Or.inl ⟨rfl, hshown _ "非法ast节点: " tag (by decide)⟩
  | fault f => exact absurd rfl (h f)

end CompileError

namespace CompileM

open Node Layout

/-! ## Actions that succeed or are refused -/

/-- An action succeeds exactly if nothing is wrong, and otherwise the error is told. -/
structure Settles {α : Type} (ts : List Token) (wrong : Prop) (x : CompileM α) (a : Assembly) : Prop where
  ok : ∀ {r : α} {b : Assembly}, outcome x a = (.ok r, b) → ¬ wrong
  error : ∀ {e : CompileError} {b : Assembly}, outcome x a = (.error e, b) → wrong ∧ e.Told ts

/-- Something that is mentioned is wrong. -/
def Flawed (primitives : List String) (ms : List Mention) : Prop := ∃ m ∈ ms, m.wrong primitives = true

section

variable {prims : List String} {m : Mention} {ms ns : List Mention}

theorem flawed_nil : Flawed prims [] ↔ False := by simp [Flawed]

theorem flawed_cons : Flawed prims (m :: ms) ↔ m.wrong prims = true ∨ Flawed prims ms := by
  simp [Flawed]

theorem flawed_append : Flawed prims (ms ++ ns) ↔ Flawed prims ms ∨ Flawed prims ns := by
  constructor
  · rintro ⟨m, hm, hwrong⟩
    rcases mem_append.mp hm with hm | hm
    · exact Or.inl ⟨m, hm, hwrong⟩
    · exact Or.inr ⟨m, hm, hwrong⟩
  · rintro (⟨m, hm, hwrong⟩ | ⟨m, hm, hwrong⟩)
    · exact ⟨m, mem_append_left _ hm, hwrong⟩
    · exact ⟨m, mem_append_right _ hm, hwrong⟩

theorem flawed_singleton : Flawed prims [m] ↔ m.wrong prims = true := by simp [Flawed]

end

theorem discard_ok {α : Type} {x : CompileM α} {a b : Assembly} (h : outcome (discard x) a = (.ok (), b)) :
    ∃ r, outcome x a = (.ok r, b) := by
  have hdiscard : outcome (x >>= fun _ => pure ()) a = (.ok (), b) := h
  obtain ⟨r, b', hx, hend⟩ := bind_eq_ok.mp hdiscard
  cases hend
  exact ⟨r, hx⟩

namespace Settles

variable {α β : Type} {ts : List Token} {wrong wrong' : Prop} {x : CompileM α} {f : α → CompileM β} {a b : Assembly} {r : α}

theorem congr (h : Settles ts wrong x a) (hiff : wrong' ↔ wrong) : Settles ts wrong' x a :=
  ⟨fun hx hwrong => h.ok hx (hiff.mp hwrong), fun hx => ⟨hiff.mpr (h.error hx).1, (h.error hx).2⟩⟩

theorem sure (hfine : ¬ wrong) (h : outcome x a = (.ok r, b)) : Settles ts wrong x a := by
  constructor
  · exact fun _ => hfine
  · intro e c hx
    rw [h] at hx
    cases hx

theorem of_outcome {y : CompileM α} {b : Assembly} (h : Settles ts wrong y b) (heq : outcome x a = outcome y b) :
    Settles ts wrong x a :=
  ⟨fun hx => h.ok (heq ▸ hx), fun hx => h.error (heq ▸ hx)⟩

theorem first (h : outcome x a = (.ok r, b)) (hf : Settles ts wrong (f r) b) : Settles ts wrong (x >>= f) a := by
  constructor
  · intro r' c hx
    rw [bind_ok h] at hx
    exact hf.ok hx
  · intro e c hx
    rw [bind_ok h] at hx
    exact hf.error hx

theorem bind (hx : Settles ts wrong x a) (hf : ∀ {r : α} {b : Assembly}, outcome x a = (.ok r, b) → Settles ts wrong' (f r) b) :
    Settles ts (wrong ∨ wrong') (x >>= f) a := by
  cases h : outcome x a with
  | mk result b =>
    cases result with
    | error e =>
      obtain ⟨hwrong, htold⟩ := hx.error h
      constructor
      · intro r c hbind
        rw [bind_error h] at hbind
        cases hbind
      · intro e' c hbind
        rw [bind_error h] at hbind
        cases hbind
        exact ⟨Or.inl hwrong, htold⟩
    | ok r =>
      exact (first h (hf h)).congr (or_iff_right (hx.ok h))

theorem last (hx : Settles ts wrong x a)
    (hf : ∀ {r : α} {b : Assembly}, outcome x a = (.ok r, b) → ∃ s c, outcome (f r) b = (.ok s, c)) :
    Settles ts wrong (x >>= f) a := by
  refine (hx.bind fun hok => ?_).congr (or_false wrong).symm.to_iff
  obtain ⟨s, c, hlast⟩ := hf hok
  exact sure id hlast

theorem discard (hx : Settles ts wrong x a) : Settles ts wrong (discard x) a := by
  have hlast : Settles ts wrong (x >>= fun _ => pure ()) a := hx.last fun _ => ⟨(), _, outcome_pure _ _⟩
  exact hlast

theorem stuck (hx : Settles ts wrong x a) (h : wrong) : Settles ts wrong (x >>= f) a :=
  (hx.bind fun hok => absurd h (hx.ok hok)).congr (or_self wrong).symm.to_iff

theorem throw {e : CompileError} (h : wrong) (htold : e.Told ts) : Settles ts wrong (MonadExcept.throw e : CompileM α) a := by
  constructor
  · intro r b hx
    cases hx
  · intro e' b hx
    cases hx
    exact ⟨h, htold⟩

theorem refuse {shown : Except Fault String} {e : String → CompileError} (h : wrong) (htold : ∀ s, (e s).Told ts)
    (hlong : ∀ f, shown = .error f → f = .digitLimit none ∧ ∃ t ∈ ts, t.value.HoldsLong) :
    Settles ts wrong (ofFault shown >>= fun s => (MonadExcept.throw (e s) : CompileM α)) a := by
  cases hshown : shown with
  | ok s => exact first (b := a) rfl (throw h (htold s))
  | error f =>
    obtain ⟨rfl, hlong⟩ := hlong f hshown
    constructor
    · intro r b hx
      cases hx
    · intro e' b hx
      cases hx
      exact ⟨h, Or.inr ⟨rfl, hlong⟩⟩

end Settles

/-! ## States and contexts -/

/-- The state in the middle of a compilation is that of a context. -/
structure Suits (primitives : List String) (c : Context) (shape : List Mark) (a : Assembly) : Prop where
  primitives : a.primitives = primitives
  reflects : c.Reflects a.names
  sane : Sane a
  chain : a.chain ≠ []
  surrounds : Surrounds shape a
  function : c.withinFunction = true ↔ .function ∈ shape
  loop : c.withinLoop = (innermost? shape).isSome

section

variable {prims : List String} {c : Context} {shape : List Mark} {a b : Assembly} {ts : List Token} {x : Datum}

namespace Suits

theorem keeps (h : Suits prims c shape a) (hkeeps : Keeps a b) : Suits prims c shape b where
  primitives := hkeeps.primitives.trans h.primitives
  reflects := hkeeps.names ▸ h.reflects
  sane := hkeeps.grows.sane h.sane
  chain := hkeeps.chain ▸ h.chain
  surrounds := h.surrounds.grows hkeeps.grows
  function := h.function
  loop := h.loop

theorem withCode (h : Suits prims c shape a) (code : Array Int) : Suits prims c shape (a.withCode code) :=
  h.keeps (.withCode a code)

theorem expr (h : Suits prims c shape a) {e : Node} (he : IsExpr e) (hvisit : outcome (visit e) a = (.ok (), b)) :
    Suits prims c shape b := h.keeps (lays_expr he hvisit).1

theorem within (h : Suits prims c shape a) : c.withinFunction = a.current.isSome :=
  Bool.eq_iff_iff.mpr (h.function.trans h.surrounds.current.symm)

theorem compiled (h : Suits prims c shape a) (hn : IsStat n) (hvisit : outcome (visit n) a = (.ok (), b)) :
    Compiled a b (next prims a.point n) (statement prims shape a.point n) (scopes n) :=
  h.primitives ▸ compiled_stat hn shape h.sane h.surrounds hvisit

theorem size_le (h : Suits prims c shape a) (hn : IsStat n) (hvisit : outcome (visit n) a = (.ok (), b)) :
    a.code.size ≤ b.code.size := by
  obtain ⟨_, hlays⟩ := (h.compiled hn hvisit).lays
  exact hlays.code.size_le

theorem after (h : Suits prims c shape a) (hn : IsStat n) (hvisit : outcome (visit n) a = (.ok (), b)) :
    Suits prims (c.after n) shape b := by
  have hcompiled := h.compiled hn hvisit
  have hgrows := hcompiled.advances.grows
  refine ⟨hgrows.primitives.trans h.primitives, ?_, hgrows.sane h.sane, hgrows.chain ▸ h.chain, h.surrounds.grows hgrows,
    h.function, h.loop⟩
  rw [names, hcompiled.point]
  exact h.reflects.after hn

theorem inBlock (h : Suits prims c shape a) :
    Suits prims c.inBlock (.block :: shape) (a.opened a.chain a.current) where
  primitives := h.primitives
  reflects := by
    rw [names, opened_point h.sane.bounded]
    exact h.reflects.inBlock
  sane := .opened h.sane.bounded h.sane.distinct
  chain := cons_ne_nil _ _
  surrounds := h.surrounds.block rfl rfl rfl
  function := by simpa [Context.inBlock] using h.function
  loop := h.loop

theorem inLoop (h : Suits prims c shape a) (start stop exit : Nat) :
    Suits prims c.inLoop (.loop start stop :: shape) (a.looping start exit) where
  primitives := h.primitives
  reflects := h.reflects.of_scopes h.reflects.scopes rfl rfl
  sane := ⟨h.sane.bounded, h.sane.distinct⟩
  chain := h.chain
  surrounds := h.surrounds.loop rfl start stop exit
  function := by simpa [Context.inLoop] using h.function
  loop := rfl

theorem inFunction (h : Suits prims c shape a) {xs : List Datum} {code : Array Int} {id : Nat}
    (hgrows : Grows (((a.defined x xs).withCode code).opened [] (some id)) b) (hpoint : b.point = a.point.inFunction x xs) :
    Suits prims ((c.know [x]).inFunction.declare xs) (.function :: shape) b where
  primitives := hgrows.primitives.trans h.primitives
  reflects := by
    rw [names, hpoint]
    exact h.reflects.inFunction x xs
  sane := hgrows.sane (.opened (by simp) (by simp))
  chain := by
    rw [hgrows.chain]
    exact cons_ne_nil _ _
  surrounds := h.surrounds.function hgrows.breaks hgrows.continues (by rw [hgrows.current]; rfl)
  function := by simp [Context.declare, Context.inFunction]
  loop := h.loop

end Suits

theorem sure_const (d : Datum) (a : Assembly) : ∃ b, outcome (emitConst d) a = (.ok (), b) := by
  obtain ⟨i, consts, hadd, -⟩ := outcome_addConst (a := a) d
  exact ⟨_, by
    unfold emitConst
    rw [bind_ok hadd]
    rfl⟩

theorem settles_literal (kind : LiteralKind) (fields : List Datum) : Settles ts False (emitLiteral kind fields) a := by
  cases kind with
  | null | true | false => exact .sure id (outcome_emit _)
  | num | str =>
    obtain ⟨b, hb⟩ := sure_const (form _ fields) a
    exact .sure id hb

theorem outcome_lookup {place : Place} (h : a.names.place? a.primitives x = some place) :
    outcome (lookup x) a = (.ok place, a) := by
  unfold lookup
  rw [bind_ok (outcome_get a), place?_eq, h]
  rfl

theorem settles_shown {α : Type} {e : String → CompileError} (hwrong : wrong) (hx : Made ts x)
    (he : ∀ s f, e s ≠ .fault f) :
    Settles ts wrong (ofFault x.display >>= fun s => (throw (e s) : CompileM α)) a := by
  refine .refuse hwrong (fun s => CompileError.told (he s)) ?_
  intro f hf
  obtain ⟨hlimit, hlong⟩ := Datum.display_error hf
  exact ⟨hlimit, hx.exists_long hlong⟩

theorem settles_unknown (h : a.names.place? a.primitives x = none) (hx : Made ts x) (hwrong : wrong) :
    Settles ts wrong (lookup x) a := by
  unfold lookup
  refine .first (outcome_get a) ?_
  rw [place?_eq, h]
  exact settles_shown hwrong hx (by simp)

theorem settles_read (h : Suits prims c shape a) (hx : Made ts x) :
    Settles ts (Flawed prims [⟨c, .read x⟩]) (emitName x) a := by
  unfold emitName
  rw [flawed_singleton, ← h.primitives]
  rcases h.reflects.place? a.primitives x with ⟨depth, i, hplace, hsees⟩ | ⟨i, hplace, hsees, hknows⟩ |
    ⟨i, hplace, hsees, hknows, hprovided⟩ | ⟨hplace, hsees, hknows, hprovided⟩
  · refine .first (outcome_lookup hplace) (.sure ?_ (outcome_emit2 .loadVar depth i))
    simp [Mention.wrong, hsees]
  · obtain ⟨b, hb⟩ := sure_const (.number (.int i)) a
    refine .first (outcome_lookup hplace) (.sure ?_ hb)
    simp [Mention.wrong, hknows]
  · refine .first (outcome_lookup hplace) (.sure ?_ (outcome_emit2 .loadVar (-2) i))
    simp [Mention.wrong, hprovided]
  · have hwrong : Mention.wrong a.primitives ⟨c, .read x⟩ = true := by simp [Mention.wrong, hsees, hknows, hprovided]
    exact (settles_unknown hplace hx hwrong).stuck hwrong

theorem settles_assign (h : Suits prims c shape a) (hx : Made ts x) :
    Settles ts (Flawed prims [⟨c, .assign x⟩]) (emitAssign x) a := by
  unfold emitAssign
  rw [flawed_singleton, ← h.primitives]
  rcases h.reflects.place? a.primitives x with ⟨depth, i, hplace, hsees⟩ | ⟨i, hplace, hsees, hknows⟩ |
    ⟨i, hplace, hsees, hknows, hprovided⟩ | ⟨hplace, hsees, hknows, hprovided⟩
  · refine .first (outcome_lookup hplace) (.sure ?_ (outcome_emit2 .storeVar depth i))
    simp [Mention.wrong, hsees]
  · refine .first (outcome_lookup hplace) (settles_shown ?_ hx (by simp))
    simp [Mention.wrong, hsees, hknows]
  · refine .first (outcome_lookup hplace) (.sure ?_ (outcome_emit2 .storeVar (-2) i))
    simp [Mention.wrong, hknows, hprovided]
  · have hwrong : Mention.wrong a.primitives ⟨c, .assign x⟩ = true := by simp [Mention.wrong, hsees, hprovided]
    exact (settles_unknown hplace hx hwrong).stuck hwrong

theorem settles_declare (h : c.declared x = (nameIndex? a.names.innermost x).isSome) (hopen : a.chain ≠ []) (hx : Made ts x) :
    Settles ts (c.declared x = true) (declare x) a := by
  unfold declare
  refine .first (outcome_get a) ?_
  rw [h]
  cases hchain : a.chain with
  | nil => exact absurd hchain hopen
  | cons id outer =>
    have hinnermost : a.names.innermost = a.scopes.getD id #[] := by
      simp [names, point, Names.innermost, openScopes, hchain]
    rw [hinnermost]
    dsimp only
    cases hindex : nameIndex? (a.scopes.getD id #[]) x with
    | some _ => exact settles_shown rfl hx (by simp)
    | none => exact .first (outcome_set a _) (.sure (by simp) (outcome_pure _ _))

theorem settles_refused {callee : Node} (hwrong : wrong)
    (hmade : Made ts (Node.call callee args).toDatum) : Settles ts wrong (refuseCall callee args) a := by
  unfold refuseCall
  refine .refuse hwrong (fun s => CompileError.told (by simp)) ?_
  intro f hf
  obtain ⟨hlimit, hlong⟩ := Datum.literal_error _ hf
  exact ⟨hlimit, hmade.exists_long hlong⟩

/-! ## Expressions -/

/-- An infix operator skips its right operand, takes its operands from right to left, or from left to right. -/
theorem operator_cases : ∀ {k : Nat} {s : String}, s ∈ Grammar.operators k →
    ((shortcutOf? (.text s)).isSome = true ∧ swappedOf? (.text s) = none) ∨
      shortcutOf? (.text s) = none ∧ ((swappedOf? (.text s)).isSome = true ∨
        swappedOf? (.text s) = none ∧ (binaryOf? (.text s)).isSome = true)
  | 0, s, h | 1, s, h | 2, s, h | 3, s, h | 4, s, h | 5, s, h => by
    revert s
    decide
  | k + 6, s, h => by simp [Grammar.operators] at h

/-- Both operands of `&&` or `||`, with a jump over the second. -/
theorem settles_shortcut {left right : CompileM Unit} {wrong' : Prop} {skip skipped : Opcode}
    (hleft : Settles ts wrong left a)
    (hright : ∀ {b : Assembly}, outcome left a = (.ok (), b) →
      Settles ts wrong' right (b.withCode (b.code ++ #[skip.word, -1])))
    (hgrows : ∀ {b b' : Assembly}, outcome right b = (.ok (), b') → b.code.size ≤ b'.code.size) :
    Settles ts (wrong ∨ wrong') (do
      left
      let exit ← emit1 skip (-1)
      right
      let done ← emit1 .jump (-1)
      patchHere exit
      emit skipped
      patchHere done) a := by
  refine hleft.bind fun {_ b} hok => .first (outcome_emit1 skip (-1)) ((hright hok).last fun {_ b'} hok' => ?_)
  have hsize : b.code.size + 2 ≤ b'.code.size := by simpa using hgrows hok'
  refine ⟨(), ?_⟩
  rw [bind_ok (outcome_emit1 _ _), bind_ok (outcome_patchHere (by simp; omega)), bind_ok (outcome_emit _),
    outcome_patchHere (by simp)]
  exact ⟨_, rfl⟩

theorem calleeOf_routine {id : Nat} (h : a.names.routineIndex? x = some id) :
    outcome (calleeOf x) a = (.ok (.routine id), a) := by
  unfold calleeOf
  rw [bind_ok (outcome_get a), show a.routineIndex? x = some id from h]
  rfl

theorem calleeOf_variable {depth : Nat} (h : a.names.routineIndex? x = none)
    (hplace : a.names.place? a.primitives x = some (.variable depth i)) :
    outcome (calleeOf x) a = (.ok .none, a) := by
  unfold calleeOf
  rw [bind_ok (outcome_get a), show a.routineIndex? x = none from h]
  dsimp only
  rw [bind_ok (outcome_lookup hplace)]
  rfl

theorem calleeOf_primitive {text : String} (h : a.names.routineIndex? (.text text) = none)
    (hplace : a.names.place? a.primitives (.text text) = some (.primitive i)) :
    outcome (calleeOf (.text text)) a = (.ok (.primitive text), a) := by
  unfold calleeOf
  rw [bind_ok (outcome_get a), show a.routineIndex? (.text text) = none from h]
  dsimp only
  rw [bind_ok (outcome_lookup hplace)]
  rfl

theorem settles_calleeOf (h : a.names.routineIndex? x = none) (hplace : a.names.place? a.primitives x = none)
    (hx : Made ts x) (hwrong : wrong) : Settles ts wrong (calleeOf x) a := by
  unfold calleeOf
  refine .first (outcome_get a) ?_
  rw [show a.routineIndex? x = none from h]
  exact (settles_unknown hplace hx hwrong).stuck hwrong

theorem text_of_provided (h : provided prims x = true) : ∃ text, x = .text text := by
  obtain ⟨text, -, heq⟩ := any_eq_true.mp h
  exact ⟨text, Datum.text_eq_iff.mp heq⟩

theorem settles_call (h : Suits prims c shape a) (hx : Made ts x)
    (hmade : Made ts (Node.call (.name x) args).toDatum) (hargs : Settles ts wrong (visitArguments args) a) :
    Settles ts (Mention.wrong prims ⟨c, .call x⟩ = true ∨ wrong) (visit (.call (.name x) args)) a := by
  rw [visit, ← h.primitives]
  cases hindex : a.names.routineIndex? x with
  | some id =>
    have hknows : c.knows x = true := by rw [h.reflects.known, hindex]; rfl
    refine .first (calleeOf_routine hindex) ((hargs.last fun _ => ⟨(), _, rfl⟩).congr ?_)
    simp [Mention.wrong, hknows]
  | none =>
    have hknows : c.knows x = false := by rw [h.reflects.known, hindex]; rfl
    rcases h.reflects.place? a.primitives x with ⟨depth, i, hplace, hsees⟩ | ⟨i, hplace, -, hknows'⟩ |
      ⟨i, hplace, hsees, -, hprovided⟩ | ⟨hplace, hsees, -, hprovided⟩
    · refine .first (calleeOf_variable hindex hplace) (settles_refused (Or.inl ?_) hmade)
      simp [Mention.wrong, hknows, hsees]
    · rw [hknows] at hknows'
      cases hknows'
    · obtain ⟨text, rfl⟩ := text_of_provided hprovided
      refine .first (calleeOf_primitive hindex hplace) ((hargs.last fun {_ b} _ => ?_).congr ?_)
      · obtain ⟨k, consts, hadd, -⟩ := outcome_addConst (a := b) (.string (.text text))
        exact ⟨(), _, by rw [bind_ok hadd]; rfl⟩
      · simp [Mention.wrong, hsees, hprovided]
    · have hwrong : Mention.wrong a.primitives ⟨c, .call x⟩ = true := by simp [Mention.wrong, hknows, hprovided]
      exact (settles_calleeOf hindex hplace hx (Or.inl hwrong)).stuck (Or.inl hwrong)

theorem settles_callOther {callee : Node} (hcallee : IsExpr callee) (hname : ∀ x, callee ≠ .name x)
    (hmade : Made ts (Node.call callee args).toDatum) :
    Settles ts (Flawed prims (mentions c (.call callee args))) (visit (.call callee args)) a := by
  cases hcallee with
  | name x => exact absurd rfl (hname x)
  | literal | unary | binary | call | function =>
    rw [visit, mentions, flawed_cons]
    · exact settles_refused (Or.inl rfl) hmade
    all_goals simp

mutual

theorem settles_expr : ∀ {e : Node}, WrittenExpr (· ∈ ts) e → ∀ {a : Assembly}, Suits prims c shape a →
    Settles ts (Flawed prims (mentions c e)) (visit e) a
  | _, .name hx, a, h => by
    rw [visit, mentions]
    exact settles_read h (.value hx)
  | _, @WrittenExpr.literal _ kind _ _, a, h => by
    rw [visit]
    exact (settles_literal kind _).congr (by simp [mentions, Flawed])
  | _, @WrittenExpr.unary _ op e hop he, a, h => by
    have hsign : (unaryOf? (.text op)).isSome = true := by
      rcases hop with rfl | rfl <;> rfl
    obtain ⟨o, ho⟩ := Option.isSome_iff_exists.mp hsign
    rw [visit, mentions, ho]
    exact (settles_expr he h).last fun _ => ⟨(), _, rfl⟩
  | _, .binary hop hl hr, a, h => by
    rw [visit, mentions]
    rcases operator_cases hop with ⟨hshort, hswap⟩ | ⟨hshort, hswap | ⟨hswap, hbinary⟩⟩
    · obtain ⟨⟨skip, skipped⟩, hshort⟩ := Option.isSome_iff_exists.mp hshort
      rw [hshort, hswap, flawed_append]
      refine settles_shortcut (settles_expr hl h) ?_ ?_
      · intro b hok
        exact settles_expr hr ((h.expr hl.isExpr hok).withCode _)
      · intro b b' hok
        exact ((lays_expr hr.isExpr hok).2 []).code.size_le
    · obtain ⟨o, hswap⟩ := Option.isSome_iff_exists.mp hswap
      rw [hshort, hswap, flawed_append]
      refine (settles_expr hr h).bind fun hok => ?_
      exact (settles_expr hl (h.expr hr.isExpr hok)).last fun _ => ⟨(), _, rfl⟩
    · obtain ⟨o, hbinary⟩ := Option.isSome_iff_exists.mp hbinary
      rw [hshort, hswap, hbinary, flawed_append]
      refine (settles_expr hl h).bind fun hok => ?_
      exact (settles_expr hr (h.expr hl.isExpr hok)).last fun _ => ⟨(), _, rfl⟩
  | _, @WrittenExpr.call _ f args hf hargs, a, h => by
    have hmade := (WrittenExpr.call hf hargs).made
    by_cases hname : ∃ x, f = .name x
    · obtain ⟨x, rfl⟩ := hname
      obtain ⟨hx⟩ := hf
      rw [mentions, flawed_cons]
      exact settles_call h (.value hx) hmade (settles_arguments hargs h)
    · exact settles_callOther hf.isExpr (fun x hx => hname ⟨x, hx⟩) hmade
  | _, .function _ _, a, h => by
    rw [visit, mentions, flawed_cons]
    exact .throw (Or.inl rfl) (CompileError.told (by simp))

theorem settles_arguments : ∀ {es : List Node}, WrittenExprs (· ∈ ts) es → ∀ {a : Assembly}, Suits prims c shape a →
    Settles ts (Flawed prims (argumentMentions c es)) (visitArguments es) a
  | _, .nil, a, _ => by
    rw [visitArguments, argumentMentions, flawed_nil]
    exact .sure id (outcome_pure _ _)
  | _, .cons he hes, a, h => by
    rw [visitArguments_cons he.isExpr, argumentMentions, flawed_append]
    refine (settles_arguments hes h).bind fun hok => ?_
    exact settles_expr he (h.keeps (lays_arguments hes.areExprs hok).1)

end

theorem settles_printed : ∀ {es : List Node}, WrittenExprs (· ∈ ts) es → ∀ {a : Assembly}, Suits prims c shape a →
    Settles ts (Flawed prims (mentionsEach c es)) (visitPrinted es) a
  | _, .nil, a, _ => by
    rw [visitPrinted, mentionsEach, flawed_nil]
    exact .sure id (outcome_pure _ _)
  | _, .cons he hes, a, h => by
    rw [visitPrinted, mentionsEach, flawed_append]
    refine (settles_expr he h).bind fun hok => .first (outcome_emit _) ?_
    exact settles_printed hes ((h.expr he.isExpr hok).withCode _)

/-! ## Statements -/

theorem settles_params : ∀ (xs : List Datum) {c : Context} {a : Assembly}, (∀ x ∈ xs, Made ts x) → c.Reflects a.names →
    Sane a → a.chain ≠ [] → Settles ts (Flawed prims (parameterMentions c xs)) (declareAll xs) a
  | [], c, a, _, _, _, _ => by
    rw [declareAll, parameterMentions, flawed_nil]
    exact .sure id (outcome_pure _ _)
  | x :: xs, c, a, hmade, h, hsane, hopen => by
    obtain ⟨hx, hxs⟩ := forall_mem_cons.mp hmade
    rw [declareAll, parameterMentions, flawed_cons]
    refine (settles_declare h.declared hopen hx).discard.bind fun {_ b} hok => ?_
    obtain ⟨i, hdeclare⟩ := discard_ok hok
    obtain ⟨-, -, -, hadvances, hpoint⟩ := declare_ok hsane hdeclare
    have hreflects : (c.declare [x]).Reflects b.names := by
      rw [names, hpoint]
      exact h.declare (Point.declare_visible _ _) (Point.declare_routines _ _)
    exact settles_params xs hxs hreflects (hadvances.grows.sane hsane) (hadvances.grows.chain ▸ hopen)

theorem outcome_closing {enter : Nat} {outer : List Nat} (hchain : b.chain = i :: outer) (hsize : enter + 2 ≤ b.code.size) :
    ∃ b', outcome (do
      emit .leaveScope
      let size ← scopeSize
      patchWords enter (some (size : Int)) none
      closeScope) b = (.ok (), b') := by
  have hscope : ∀ code, ∃ size, outcome scopeSize (b.withCode code) = (.ok size, b.withCode code) := by
    intro code
    refine ⟨(b.scopes.getD i #[]).size, ?_⟩
    unfold scopeSize
    rw [bind_ok (outcome_get _), openScopes, withCode_chain, hchain]
    rfl
  obtain ⟨size, hscope⟩ := hscope (b.code ++ #[Opcode.leaveScope.word])
  rw [bind_ok (outcome_emit _), bind_ok hscope, bind_ok (outcome_patchWords (by simp; omega))]
  unfold closeScope
  rw [bind_ok (outcome_get _), withCode_chain, withCode_chain, hchain]
  exact ⟨_, rfl⟩

theorem settles_scope (hstats : AreStats body) (h : Suits prims c shape a)
    (hbody : ∀ {b : Assembly}, Suits prims c.inBlock (.block :: shape) b →
      Settles ts (Flawed prims (mentionsAll c.inBlock body)) (visitAll body) b) :
    Settles ts (Flawed prims (mentions c (.block body))) (visit (.block body)) a := by
  rw [visit, visitBlock, mentions]
  refine .first outcome_openScope (.first (outcome_emit1 _ _) ?_)
  have hb := h.inBlock.withCode ((a.opened a.chain a.current).code ++ #[Opcode.enterScope.word, -1])
  refine (hbody hb).last fun {_ b} hok => ?_
  obtain ⟨hadvances, ⟨_, hlays⟩, -⟩ := compiled_stats hstats _ hb.sane hb.surrounds hok
  have hsize : (a.opened a.chain a.current).code.size + 2 ≤ b.code.size := by simpa using hlays.code.size_le
  exact ⟨(), outcome_closing hadvances.grows.chain hsize⟩

theorem settles_variable {value : Node} (hvalue : WrittenExpr (· ∈ ts) value)
    (hne : ∀ params body, value ≠ .function params body) (hx : Made ts x) (h : Suits prims c shape a) :
    Settles ts (Flawed prims (mentions c (.define x value))) (visit (.define x value)) a := by
  rw [visit_variable hvalue.isExpr hne, mentions_variable hne, flawed_append, flawed_singleton]
  refine (settles_expr hvalue h).bind fun hok => ?_
  have hb := h.expr hvalue.isExpr hok
  exact (settles_declare hb.reflects.declared hb.chain hx).last fun _ => ⟨(), _, outcome_emit2 _ _ _⟩

theorem settles_function {xs : List Datum} {stats : List Node} (hstats : AreStats stats) (hx : Made ts x)
    (hxs : ∀ y ∈ xs, Made ts y) (h : Suits prims c shape a)
    (hbody : ∀ {b : Assembly}, Suits prims ((c.know [x]).inFunction.declare xs) (.function :: shape) b →
      Settles ts (Flawed prims (mentions ((c.know [x]).inFunction.declare xs) (.block stats))) (visit (.block stats)) b) :
    Settles ts (Flawed prims (mentions c (.define x (.function xs (.block stats)))))
      (visit (.define x (.function xs (.block stats)))) a := by
  rw [visit, mentions]
  simp only [flawed_append, flawed_singleton]
  refine .of_outcome ?_ (outcome_defined a x xs _)
  generalize ha' : (a.defined x xs).withCode (a.code ++ #[Opcode.jump.word, -1]) = a'
  have hsane' : Sane a' := ha' ▸ ⟨h.sane.bounded, h.sane.distinct⟩
  have hopened : Sane (a'.opened [] (some (a.names.routineFor x))) := .opened (by simp) (by simp)
  have hinside : (c.know [x]).inFunction.Reflects (a'.opened [] (some (a.names.routineFor x))).names := by
    refine (h.reflects.inFunction x xs).of_scopes ?_ ?_ rfl
    · rw [names, opened_point (by simp)]
      rfl
    · rw [← ha']
      rfl
  refine .first (outcome_get _) (.first (outcome_modify _ _) ?_)
  refine (settles_params xs hxs hinside hopened (cons_ne_nil _ _)).bind fun {_ b} hparams => ?_
  have hb : Suits prims ((c.know [x]).inFunction.declare xs) (.function :: shape) b := by
    obtain ⟨-, -, hadvances, hpoint⟩ := declareAll_ok xs hopened hparams
    rw [opened_point (by simp), foldl_declare _ _ #[] [] rfl, Array.empty_append, ← ha'] at hpoint
    refine h.inFunction (ha' ▸ hadvances.grows) (hpoint.trans ?_)
    simp [Point.inFunction, point, defined, names]
  refine (hbody hb).bind fun {_ d} hvisit => ?_
  obtain ⟨hreturn, hown⟩ := compiled_routine shape hsane' hparams fun _ _ _ _ _ _ =>
    compiled_scope (.function :: shape) hb.sane hstats hb.surrounds
      (fun hsane hshape' => compiled_stats hstats _ hsane hshape') hvisit
  have hsize : a.code.size + 2 ≤ d.code.size + 1 := by
    obtain ⟨_, hlays⟩ := hown.lays
    simpa [← ha'] using hlays.code.size_le
  refine .first hreturn (.first (outcome_modify _ _) (.first (outcome_patchHere (by simp; omega)) ?_))
  -- the scope around the function is as it was
  refine (settles_declare ?_ ?_ hx).last fun {i e} _ => ?_
  · have hvisible := congrArg (fun s => s.visible) hown.point
    rw [h.reflects.declared]
    refine congrArg (fun visible : List (Array Datum) => (nameIndex? (visible.headD #[]) x).isSome) (Eq.symm (hvisible.trans ?_))
    rw [← ha']
    rfl
  · rw [← ha']
    exact h.chain
  · obtain ⟨g, hg⟩ := sure_const (.number (.int (a.names.routineFor x))) e
    rw [bind_ok hg]
    exact ⟨(), _, outcome_emit2 _ _ _⟩

mutual

theorem settles_statements : ∀ {ns : List Node}, WrittenStats (· ∈ ts) ns →
    ∀ {c : Context} {shape : List Mark} {a : Assembly}, Suits prims c shape a →
      Settles ts (Flawed prims (mentionsAll c ns)) (visitAll ns) a
  | _, .nil, _, _, _, _ => by
    rw [visitAll, mentionsAll, flawed_nil]
    exact .sure id (outcome_pure _ _)
  | _, .cons hn hns, c, shape, a, h => by
    rw [visitAll, mentionsAll, flawed_append]
    exact (settles_statement hn h).bind fun hok => settles_statements hns (h.after hn.isStat hok)

theorem settles_statement : ∀ {n : Node}, WrittenStat (· ∈ ts) n →
    ∀ {c : Context} {shape : List Mark} {a : Assembly}, Suits prims c shape a →
      Settles ts (Flawed prims (mentions c n)) (visit n) a
  | _, .define hx hvalue, c, shape, a, h => by
    cases hvalue with
    | function hxs hbody =>
      refine settles_function hbody.areStats (.value hx) (fun y hy => .value (hxs y hy)) h fun hb => ?_
      exact settles_scope hbody.areStats hb fun hb => settles_statements hbody hb
    | name hy => exact settles_variable (.name hy) (by simp) (.value hx) h
    | literal ht => exact settles_variable (.literal ht) (by simp) (.value hx) h
    | unary hop he => exact settles_variable (.unary hop he) (by simp) (.value hx) h
    | binary hop hl hr => exact settles_variable (.binary hop hl hr) (by simp) (.value hx) h
    | call hf hargs => exact settles_variable (.call hf hargs) (by simp) (.value hx) h
  | _, .assign hx he, c, shape, a, h => by
    rw [visit, mentions, flawed_append]
    exact (settles_expr he h).bind fun hok => settles_assign (h.expr he.isExpr hok) (.value hx)
  | _, .print hargs, c, shape, a, h => by
    rw [visit, mentions]
    exact (settles_printed hargs h).last fun _ => ⟨(), _, outcome_emit _⟩
  | _, .ifThen hcond hyes, c, shape, a, h => by
    rw [visit, mentions, flawed_append]
    refine (settles_expr hcond h).bind fun {_ b} hok => .first (outcome_emit1 _ _) ?_
    have hb := (h.expr hcond.isExpr hok).withCode (b.code ++ #[Opcode.jumpFalse.word, -1])
    refine (settles_statement hyes hb).last fun {_ c} hok' => ?_
    have hsize := hb.size_le hyes.isStat hok'
    simp only [withCode_code, Array.size_append, size_toArray, length_cons, length_nil] at hsize
    exact ⟨(), _, outcome_patchHere (by omega)⟩
  | _, .ifElse hcond hyes hno, c, shape, a, h => by
    rw [visit, mentions, flawed_append, flawed_append]
    refine (settles_expr hcond h).bind fun {_ b} hok => .first (outcome_emit1 _ _) ?_
    have hb := (h.expr hcond.isExpr hok).withCode (b.code ++ #[Opcode.jumpFalse.word, -1])
    refine (settles_statement hyes hb).bind fun {_ d} hok' => ?_
    have hsize := hb.size_le hyes.isStat hok'
    simp only [withCode_code, Array.size_append, size_toArray, length_cons, length_nil] at hsize
    refine .first (outcome_emit1 _ _) (.first (outcome_patchHere (by simp; omega)) ?_)
    have hd := ((hb.after hyes.isStat hok').withCode (d.code ++ #[Opcode.jump.word, -1])).withCode
      ((d.code ++ #[Opcode.jump.word, -1]).setIfInBounds (b.code.size + 1) ((d.code ++ #[Opcode.jump.word, -1]).size : Int))
    refine (settles_statement hno hd).last fun {_ e} hok'' => ?_
    have hsize' := hd.size_le hno.isStat hok''
    simp only [withCode_code, Array.size_setIfInBounds, Array.size_append, size_toArray, length_cons,
      length_nil] at hsize'
    exact ⟨(), _, outcome_patchHere (by omega)⟩
  | _, .loop hcond hbody, c, shape, a, h => by
    rw [visit, mentions, flawed_append]
    refine .first outcome_nextAddress ((settles_expr hcond h).bind fun {_ b} hok => ?_)
    refine .first (outcome_emit1 _ _) (.first (outcome_get _) (.first (outcome_modify _ _) ?_))
    have hb := ((h.expr hcond.isExpr hok).withCode (b.code ++ #[Opcode.jumpFalse.word, -1])).inLoop a.code.size 0 b.code.size
    refine (settles_statement hbody hb).last fun {_ d} hok' => ?_
    have hsize := hb.size_le hbody.isStat hok'
    simp only [looping_code, withCode_code, Array.size_append, size_toArray, length_cons,
      length_nil] at hsize
    have hemit : outcome (discard (emit1 .jump a.code.size)) d =
        (.ok (), d.withCode (d.code ++ #[Opcode.jump.word, (a.code.size : Int)])) := rfl
    rw [bind_ok hemit, bind_ok (outcome_patchHere (by simp; omega))]
    exact ⟨(), _, outcome_modify _ _⟩
  | _, .breakLoop, c, shape, a, h => by
    rw [visit, mentions, flawed_singleton]
    refine .first (outcome_get a) ?_
    simp only [Mention.wrong, h.loop, h.surrounds.breaks]
    cases innermost? shape with
    | none => exact .throw rfl (CompileError.told (by simp))
    | some loop => exact .sure (by simp) rfl
  | _, .continueLoop, c, shape, a, h => by
    rw [visit, mentions, flawed_singleton]
    refine .first (outcome_get a) ?_
    simp only [Mention.wrong, h.loop, h.surrounds.continues]
    cases innermost? shape with
    | none => exact .throw rfl (CompileError.told (by simp))
    | some loop => exact .sure (by simp) rfl
  | _, .return, c, shape, a, h => by
    rw [visit, mentions, flawed_singleton]
    refine .first (outcome_get a) ?_
    simp only [Mention.wrong, h.within]
    cases a.current with
    | none => exact .throw rfl (CompileError.told (by simp))
    | some id => exact .sure (by simp) rfl
  | _, .returnValue he, c, shape, a, h => by
    rw [visit, mentions, flawed_cons]
    refine .first (outcome_get a) ?_
    simp only [Mention.wrong, h.within]
    cases a.current with
    | none => exact .throw (Or.inl rfl) (CompileError.told (by simp))
    | some id =>
      refine ((settles_expr he h).last fun _ => ⟨(), _, outcome_emit _⟩).congr ?_
      simp
  | _, .block hbody, c, shape, a, h => settles_scope hbody.areStats h fun hb => settles_statements hbody hb
  | _, .exprStat he, c, shape, a, h => by
    rw [visit, mentions]
    exact (settles_expr he h).last fun _ => ⟨(), _, outcome_emit _⟩

end

/-! ## Programs -/

theorem settles_program (hbody : WrittenStats (· ∈ ts) body) :
    Settles ts (Flawed prims (programMentions body)) (compile (.program body)) { primitives := prims } := by
  have hstats := hbody.areStats
  rw [compile, register]
  refine .first (register_stats hstats _) ?_
  generalize hb : ({ primitives := prims, routines := #[] ++ (Layout.registeredAll body).toArray } : Assembly) = b
  have hpoint : b.point = Layout.origin body := by simp [← hb, point, Layout.origin, openScopes]
  have hsuits : Suits prims (Node.outset body) [] b := by
    refine ⟨by rw [← hb], ?_, ⟨by simp [← hb], by simp [← hb]⟩, by simp [← hb], ⟨?_, ?_, ?_⟩, ?_, rfl⟩
    · rw [names, hpoint]
      exact Context.Reflects.outset hstats
    all_goals simp [← hb, innermost?, outset]
  have hblock : visit (.program body) = visit (.block body) := by rw [visit, visit]
  rw [hblock, programMentions_eq]
  exact settles_scope hstats hsuits fun hb => settles_statements hbody hb

end

end CompileM

open CompileM in
theorem Program.settled (h : Node.parse ts = .ok (.program body))
    (prims : List String) :
    (∃ p, Program.ofNode prims (.program body) = .ok p ∧ ¬ Flawed prims (Node.programMentions body)) ∨
      ∃ e, Program.ofNode prims (.program body) = .error e ∧ Flawed prims (Node.programMentions body) ∧ e.Told ts := by
  have hsettles : Settles ts (Flawed prims (Node.programMentions body)) _ _ :=
    settles_program (Node.written_of_parse h fun t ht => ht)
  unfold Program.ofNode
  cases hrun : outcome (compile (.program body)) { primitives := prims } with
  | mk result a =>
    have hrun' : (compile (.program body)).run.run { primitives := prims } = (result, a) := hrun
    rw [hrun']
    cases result with
    | ok r => exact Or.inl ⟨_, rfl, hsettles.ok hrun⟩
    | error e => exact Or.inr ⟨e, rfl, hsettles.error hrun⟩

theorem Program.wrong_eq_false {prims : List String} {p : Program}
    (h : Node.parse ts = .ok (.program body)) (hp : Program.ofNode prims (.program body) = .ok p) :
    ∀ m ∈ Node.programMentions body, m.wrong prims = false := by
  intro m hm
  rcases Program.settled h prims with ⟨_, -, hfine⟩ | ⟨e, he, -⟩
  · cases hwrong : m.wrong prims with
    | false => rfl
    | true => exact absurd ⟨m, hm, hwrong⟩ hfine
  · rw [hp] at he
    cases he

namespace CompileM

open Node

end CompileM

end Cilly
