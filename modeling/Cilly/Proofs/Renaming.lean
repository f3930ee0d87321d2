import Cilly.Proofs.Abreast
import Cilly.Proofs.Acceptance

/-!
# Other names

What a program does does not depend on how its variables and functions are called, as long as different names stay different and
the names that the machine provides stay what they are. A renamed tree compiles to the same code and the same constants; only the names
of scopes, functions and parameters are the renamed ones (`ofNode_renamed`).

Compiling is followed on both trees at once. `Echoes` says of two actions that the second does on the renamed state what the first does
on the state as it is; errors show names, so they need not be the same.
-/

namespace Cilly

open Acting Node List Assembly
open MachineM hiding outcome

/-! ## Renaming -/

/-- Names are texts. -/
def Datum.renamed (ρ : String → String) : Datum → Datum
  | .text s => .text (ρ s)
  | x => x

namespace Node

variable (ρ : String → String)

mutual

/-- The tree with other names for variables, functions and parameters. Operators and literals stay as they are. -/
def renamed : Node → Node
  | .program body => .program (renamedAll body)
  | .block body => .block (renamedAll body)
  | .statements body => .statements (renamedAll body)
  | .define x value => .define (x.renamed ρ) (renamed value)
  | .procedure x params body => .procedure (x.renamed ρ) (params.map (Datum.renamed ρ)) (renamed body)
  | .assign x value => .assign (x.renamed ρ) (renamed value)
  | .print args => .print (renamedAll args)
  | .ifThen cond yes => .ifThen (renamed cond) (renamed yes)
  | .ifElse cond yes no => .ifElse (renamed cond) (renamed yes) (renamed no)
  | .loop cond body => .loop (renamed cond) (renamed body)
  | .returnValue value => .returnValue (renamed value)
  | .exprStat expr => .exprStat (renamed expr)
  | .unary op operand => .unary op (renamed operand)
  | .binary op left right => .binary op (renamed left) (renamed right)
  | .call callee args => .call (renamed callee) (renamedAll args)
  | .function params body => .function (params.map (Datum.renamed ρ)) (renamed body)
  | .name x => .name (x.renamed ρ)
  | n => n

def renamedAll : List Node → List Node
  | [] => []
  | n :: ns => renamed n :: renamedAll ns

end

end Node

def Routine.renamed (ρ : String → String) (r : Routine) : Routine :=
  { r with name := r.name.renamed ρ, params := r.params.map (Datum.renamed ρ) }

/-- The names of scopes under other names. -/
def renamedScopes (ρ : String → String) (scopes : Array (Array Datum)) : Array (Array Datum) := scopes.map (·.map (Datum.renamed ρ))

def Program.renamed (ρ : String → String) (p : Program) : Program :=
  { p with scopes := renamedScopes ρ p.scopes, routines := p.routines.map (Routine.renamed ρ) }

def Assembly.renamed (ρ : String → String) (a : Assembly) : Assembly :=
  { a with scopes := renamedScopes ρ a.scopes, routines := a.routines.map (Routine.renamed ρ) }

section

variable {ρ : String → String}

theorem Datum.kind_renamed (x : Datum) : (x.renamed ρ).kind = x.kind := by cases x <;> rfl

theorem Datum.eq_renamed (hρ : Function.Injective ρ) (x y : Datum) : (x.renamed ρ).eq (y.renamed ρ) = x.eq y := by
  cases x with
  | text s =>
    cases y with
    | text t =>
      show decide (ρ s = ρ t) = decide (s = t)
      rw [decide_eq_decide]
      exact hρ.eq_iff
    | _ => rfl
  | _ => cases y <;> rfl

theorem nameIndex?_renamed (hρ : Function.Injective ρ) (names : Array Datum) (x : Datum) :
    nameIndex? (names.map (Datum.renamed ρ)) (x.renamed ρ) = nameIndex? names x := by
  unfold nameIndex?
  rw [Array.findIdx?_map]
  congr 1
  funext y
  exact Datum.eq_renamed hρ y x

theorem find?_renamed (hρ : Function.Injective ρ) (x : Datum) : ∀ scopes : List (Array Datum),
    Assembly.find? (x.renamed ρ) (scopes.map (·.map (Datum.renamed ρ))) = Assembly.find? x scopes
  | [] => rfl
  | names :: outer => by
    rw [map_cons, Assembly.find?, Assembly.find?, nameIndex?_renamed hρ, find?_renamed hρ x outer]

namespace Assembly

variable (a : Assembly)

/-- The names that the machine provides stay what they are. -/
def Fixed (ρ : String → String) (a : Assembly) : Prop := ∀ s ∈ a.primitives, ρ s = s

theorem getD_renamedScopes (scopes : Array (Array Datum)) (i : Nat) :
    (renamedScopes ρ scopes).getD i #[] = (scopes.getD i #[]).map (Datum.renamed ρ) := by
  rw [Array.getD_eq_getD_getElem?, Array.getD_eq_getD_getElem?, renamedScopes, Array.getElem?_map]
  cases scopes[i]? with
  | none => exact Array.map_empty.symm
  | some names => rfl

theorem openScopes_renamed : (a.renamed ρ).openScopes = a.openScopes.map (·.map (Datum.renamed ρ)) := by
  show a.chain.map (fun i => (renamedScopes ρ a.scopes).getD i #[]) = _
  rw [openScopes, map_map]
  exact map_congr_left fun i _ => getD_renamedScopes a.scopes i

theorem routineIndex?_renamed (hρ : Function.Injective ρ) (x : Datum) :
    (a.renamed ρ).routineIndex? (x.renamed ρ) = a.routineIndex? x := by
  show (a.routines.map (Routine.renamed ρ)).findIdx? _ = _
  rw [Array.findIdx?_map]
  unfold routineIndex?
  congr 1
  funext r
  exact Datum.eq_renamed hρ r.name x

variable {a}

theorem eq_renamed_of_fixed (hρ : Function.Injective ρ) {s : String} (hs : ρ s = s) (x : Datum) :
    (Datum.text s).eq (x.renamed ρ) = (Datum.text s).eq x := by
  have heq := Datum.eq_renamed hρ (.text s) x
  rwa [show (Datum.text s).renamed ρ = .text s from congrArg Datum.text hs] at heq

theorem primitiveIndex?_renamed (hρ : Function.Injective ρ) (h : a.Fixed ρ) (x : Datum) :
    (a.renamed ρ).primitiveIndex? (x.renamed ρ) = a.primitiveIndex? x := by
  have hfind : ∀ names : List String, (∀ s ∈ names, ρ s = s) →
      names.findIdx? (fun s => (Datum.text s).eq (x.renamed ρ)) = names.findIdx? fun s => (Datum.text s).eq x := by
    intro names hnames
    induction names with
    | nil => rfl
    | cons s names ih =>
      obtain ⟨hs, hrest⟩ := forall_mem_cons.mp hnames
      rw [findIdx?_cons, findIdx?_cons, eq_renamed_of_fixed hρ hs, ih hrest]
  exact hfind a.primitives h

theorem place?_renamed (hρ : Function.Injective ρ) (h : a.Fixed ρ) (x : Datum) :
    (a.renamed ρ).place? (x.renamed ρ) = a.place? x := by
  unfold place?
  rw [openScopes_renamed, find?_renamed hρ, routineIndex?_renamed a hρ, primitiveIndex?_renamed hρ h]

theorem fixed_of_primitive (h : a.Fixed ρ) {x : Datum} {i : Nat} (hplace : a.place? x = some (.primitive i)) :
    ∃ s, x = .text s ∧ ρ s = s := by
  have hindex : a.primitiveIndex? x = some i := by
    unfold place? at hplace
    split at hplace
    · cases hplace
    · split at hplace
      · cases hplace
      · simpa using hplace
  obtain ⟨hlt, heq, -⟩ := findIdx?_eq_some_iff_getElem.mp hindex
  exact ⟨_, Datum.text_eq_iff.mp heq, h _ (getElem_mem hlt)⟩

end Assembly

/-! ## Compiling a renamed tree -/

/-- What comes of an action on the renamed state: the same with the renamed state, or some error if there is one. -/
inductive Echoed (ρ : String → String) {α : Type} :
    Except CompileError α × Assembly → Except CompileError α × Assembly → Prop
  | ok (v : α) {a : Assembly} (h : a.Fixed ρ) : Echoed ρ (.ok v, a) (.ok v, a.renamed ρ)
  | error (e e' : CompileError) (a a' : Assembly) : Echoed ρ (.error e, a) (.error e', a')

theorem Echoed.of_eq {α : Type} {v v' : α} {a a' : Assembly} (hv : v' = v) (ha : a' = a.renamed ρ) (h : a.Fixed ρ) :
    Echoed ρ (.ok v, a) (.ok v', a') := by
  rw [hv, ha]
  exact .ok v h

/-- The second action does on the renamed state what the first does on the state as it is. -/
def Echoes (ρ : String → String) {α : Type} (x y : CompileM α) : Prop :=
  ∀ a : Assembly, a.Fixed ρ → Echoed ρ (outcome x a) (outcome y (a.renamed ρ))

namespace Echoes

open CompileM

variable {α β : Type} {x y : CompileM α} {f g : α → CompileM β}

theorem bind (hx : Echoes ρ x y) (hf : ∀ v, Echoes ρ (f v) (g v)) : Echoes ρ (x >>= f) (y >>= g) := by
  intro a ha
  have h := hx a ha
  rw [outcome_bind, outcome_bind]
  generalize outcome x a = out at h
  generalize outcome y (a.renamed ρ) = out' at h
  cases h with
  | @ok v b hb => exact hf v b hb
  | error => exact .error ..

theorem pure (v : α) : Echoes ρ (Pure.pure v) (Pure.pure v) := fun _ ha => .ok v ha

theorem throw (e e' : CompileError) : Echoes ρ (MonadExcept.throw e : CompileM α) (MonadExcept.throw e') :=
  fun _ _ => .error ..

theorem get_bind {f g : Assembly → CompileM β}
    (h : ∀ a, a.Fixed ρ → Echoed ρ (outcome (f a) a) (outcome (g (a.renamed ρ)) (a.renamed ρ))) :
    Echoes ρ (get >>= f) (get >>= g) := by
  intro a ha
  rw [bind_ok (outcome_get a), bind_ok (outcome_get _)]
  exact h a ha

theorem look {f g : Assembly → CompileM β} (h : ∀ a, Echoes ρ (f a) (g (a.renamed ρ))) : Echoes ρ (get >>= f) (get >>= g) :=
  get_bind fun a ha => h a a ha

theorem update {h h' : Assembly → Assembly} (hsame : ∀ a, h' (a.renamed ρ) = (h a).renamed ρ)
    (hprimitives : ∀ a, (h a).primitives = a.primitives) : Echoes ρ (modify h) (modify h') := by
  intro a ha
  have hfixed : (h a).Fixed ρ := by
    unfold Fixed
    rw [hprimitives]
    exact ha
  show Echoed ρ (.ok (), h a) (.ok (), h' (a.renamed ρ))
  rw [hsame]
  exact .ok () hfixed

theorem ofFault (r : Except Fault α) : Echoes ρ (CompileM.ofFault r) (CompileM.ofFault r) := by
  cases r with
  | ok v => exact pure v
  | error f => exact throw _ _

theorem discarded (h : Echoes ρ x y) : Echoes ρ (discard x) (discard y) :=
  show Echoes ρ (x >>= fun _ => Pure.pure ()) (y >>= fun _ => Pure.pure ()) from h.bind fun _ => pure ()

theorem shown {γ δ : Type} (r : Except Fault γ) (r' : Except Fault δ) (e : γ → CompileError) (e' : δ → CompileError) :
    Echoes ρ (CompileM.ofFault r >>= fun s => (MonadExcept.throw (e s) : CompileM α))
      (CompileM.ofFault r' >>= fun s => MonadExcept.throw (e' s)) := by
  intro a _
  cases r <;> cases r' <;> exact .error ..

theorem nextAddress : Echoes ρ nextAddress nextAddress := fun _ ha => .ok _ ha

theorem emitWord (word : Int) (first second : Option Int) : Echoes ρ (emitWord word first second) (emitWord word first second) :=
  nextAddress.bind fun address => bind (update (fun _ => rfl) fun _ => rfl) fun _ => pure address

theorem emit (op : Opcode) : Echoes ρ (emit op) (emit op) := (emitWord _ _ _).discarded

theorem emit1 (op : Opcode) (operand : Int) : Echoes ρ (emit1 op operand) (emit1 op operand) := emitWord _ _ _

theorem emit2 (op : Opcode) (first second : Int) : Echoes ρ (emit2 op first second) (emit2 op first second) :=
  (emitWord _ _ _).discarded

theorem setWord (offset word : Int) : Echoes ρ (setWord offset word) (setWord offset word) := by
  refine get_bind fun a ha => ?_
  refine bind (ofFault (setItemAt a.code offset word)) (fun code => ?_) a ha
  exact update (fun _ => rfl) fun _ => rfl

theorem patchWords (address : Int) (first second : Option Int) :
    Echoes ρ (patchWords address first second) (patchWords address first second) := by
  cases first <;> cases second
  · exact (pure ()).bind fun _ => pure ()
  · exact (pure ()).bind fun _ => setWord _ _
  · exact (setWord _ _).bind fun _ => pure ()
  · exact (setWord _ _).bind fun _ => setWord _ _

theorem patchHere (address : Nat) : Echoes ρ (patchHere address) (patchHere address) :=
  nextAddress.bind fun _ => patchWords _ _ _

theorem addConst (c : Datum) : Echoes ρ (addConst c) (addConst c) := by
  refine get_bind fun a ha => ?_
  rw [show (a.renamed ρ).consts = a.consts from rfl]
  cases a.consts.findIdx? fun d => d.eq c with
  | some i => exact .ok i ha
  | none => exact Echoed.ok a.consts.size (a := { a with consts := a.consts.push c }) ha

theorem emitConst (c : Datum) : Echoes ρ (emitConst c) (emitConst c) :=
  (addConst c).bind fun _ => (emit1 _ _).discarded

theorem openScope : Echoes ρ openScope openScope := by
  refine update (fun a => ?_) fun _ => rfl
  simp [Assembly.renamed, renamedScopes]

theorem scopeSize : Echoes ρ scopeSize scopeSize := by
  refine get_bind fun a ha => ?_
  rw [openScopes_renamed]
  cases a.openScopes with
  | nil => exact .error ..
  | cons names _ =>
    show Echoed ρ (.ok names.size, a) (.ok (names.map (Datum.renamed ρ)).size, a.renamed ρ)
    rw [Array.size_map]
    exact .ok _ ha

theorem closeScope : Echoes ρ closeScope closeScope := by
  refine get_bind fun a ha => ?_
  rw [show (a.renamed ρ).chain = a.chain from rfl]
  cases a.chain with
  | nil => exact .error ..
  | cons i outer => exact .ok (a := { a with chain := outer }) () ha

theorem declare (hρ : Function.Injective ρ) (x : Datum) : Echoes ρ (declare x) (declare (x.renamed ρ)) := by
  refine get_bind fun a ha => ?_
  rw [show (a.renamed ρ).chain = a.chain from rfl]
  cases hchain : a.chain with
  | nil => exact .error ..
  | cons i outer =>
    dsimp only
    rw [show (a.renamed ρ).scopes = renamedScopes ρ a.scopes from rfl, Assembly.getD_renamedScopes, nameIndex?_renamed hρ]
    cases nameIndex? (a.scopes.getD i #[]) x with
    | some _ => exact shown _ _ _ _ a ha
    | none =>
      refine .of_eq Array.size_map ?_ ha
      simp [Assembly.renamed, renamedScopes, Array.map_setIfInBounds, hchain]

theorem declareAll (hρ : Function.Injective ρ) (xs : List Datum) :
    Echoes ρ (declareAll xs) (declareAll (xs.map (Datum.renamed ρ))) := by
  induction xs with
  | nil => exact pure ()
  | cons x xs ih => exact (declare hρ x).discarded.bind fun _ => ih

theorem lookup (hρ : Function.Injective ρ) (x : Datum) : Echoes ρ (lookup x) (lookup (x.renamed ρ)) := by
  refine get_bind fun a ha => ?_
  rw [place?_renamed hρ ha]
  cases a.place? x with
  | some place => exact .ok place ha
  | none => exact shown _ _ _ _ a ha

theorem addRoutine (x : Datum) (params : List Datum) :
    Echoes ρ (addRoutine x params) (addRoutine (x.renamed ρ) (params.map (Datum.renamed ρ))) := by
  intro a ha
  refine .of_eq Array.size_map ?_ ha
  simp [Assembly.renamed, Routine.renamed]

theorem setEntry (id address : Nat) : Echoes ρ (setEntry id address) (setEntry id address) := by
  refine update (fun a => ?_) fun _ => rfl
  have hmodify : (a.routines.map (Routine.renamed ρ)).modify id (fun r => { r with entry := some (address : Int) }) =
      (a.routines.modify id fun r => { r with entry := some (address : Int) }).map (Routine.renamed ρ) := by
    refine Array.ext_getElem? fun i => ?_
    rw [Array.getElem?_modify, Array.getElem?_map, Array.getElem?_map, Array.getElem?_modify]
    split <;> cases a.routines[i]? <;> rfl
  exact congrArg (fun routines => { a.renamed ρ with routines := routines }) hmodify

theorem routineFor (hρ : Function.Injective ρ) (x : Datum) (params : List Datum) :
    Echoes ρ (routineFor x params) (routineFor (x.renamed ρ) (params.map (Datum.renamed ρ))) := by
  refine get_bind fun a ha => ?_
  rw [routineIndex?_renamed a hρ]
  cases a.routineIndex? x with
  | some id => exact .ok id ha
  | none => exact addRoutine x params a ha

theorem emitFinalReturn : Echoes ρ emitFinalReturn emitFinalReturn := by
  have hlast : ∀ last : Option Int, Echoes ρ
      (if last ≠ some Opcode.return.word ∧ last ≠ some Opcode.returnValue.word then CompileM.emit .return else Pure.pure ())
      (if last ≠ some Opcode.return.word ∧ last ≠ some Opcode.returnValue.word then CompileM.emit .return else Pure.pure ()) := by
    intro last
    split
    · exact emit _
    · exact pure ()
  exact get_bind fun a ha => hlast a.code.back? a ha

theorem emitName (hρ : Function.Injective ρ) (x : Datum) : Echoes ρ (emitName x) (emitName (x.renamed ρ)) := by
  refine (lookup hρ x).bind fun place => ?_
  cases place with
  | routine id => exact emitConst _
  | «variable» depth i => exact emit2 _ _ _
  | primitive i => exact emit2 _ _ _

theorem emitAssign (hρ : Function.Injective ρ) (x : Datum) : Echoes ρ (emitAssign x) (emitAssign (x.renamed ρ)) := by
  refine (lookup hρ x).bind fun place => ?_
  cases place with
  | routine id => exact shown _ _ _ _
  | «variable» depth i => exact emit2 _ _ _
  | primitive i => exact emit2 _ _ _

theorem calleeOf (hρ : Function.Injective ρ) (x : Datum) : Echoes ρ (calleeOf x) (calleeOf (x.renamed ρ)) := by
  refine get_bind fun a ha => ?_
  rw [routineIndex?_renamed a hρ]
  cases a.routineIndex? x with
  | some id => exact .ok _ ha
  | none =>
    have hlookup := lookup hρ x a ha
    dsimp only
    rw [outcome_bind, outcome_bind]
    cases hout : outcome (CompileM.lookup x) a with
    | mk r b =>
      rw [hout] at hlookup
      generalize outcome (CompileM.lookup (x.renamed ρ)) (a.renamed ρ) = out' at hlookup
      cases hlookup with
      | error => exact .error ..
      | @ok place _ hb =>
        cases place with
        | routine id => exact .ok _ hb
        | «variable» depth i => exact .ok _ hb
        | primitive i =>
          obtain ⟨s, rfl, hs⟩ := fixed_of_primitive ha (lookup_ok hout).2
          show Echoed ρ (.ok (Callee.primitive s), b) (.ok (Callee.primitive (ρ s)), b.renamed ρ)
          rw [hs]
          exact .ok _ hb

theorem refuseCall (callee callee' : Node) (args args' : List Node) :
    Echoes ρ (refuseCall callee args) (refuseCall callee' args') := shown _ _ _ _

theorem visitBlock {body body' : List Node} (h : Echoes ρ (visitAll body) (visitAll body')) :
    Echoes ρ (visitBlock body) (visitBlock body') := by
  rw [CompileM.visitBlock, CompileM.visitBlock]
  exact openScope.bind fun _ => (emit1 _ _).bind fun enter => h.bind fun _ => (emit _).bind fun _ =>
    scopeSize.bind fun size => (patchWords _ _ _).bind fun _ => closeScope

end Echoes

mutual

theorem Node.IsExpr.renamed (ρ : String → String) : ∀ {e : Node}, IsExpr e → IsExpr (e.renamed ρ)
  | _, .name x => .name _
  | _, .literal kind d => .literal kind d
  | _, .unary he => .unary (he.renamed ρ)
  | _, .binary hl hr => .binary (hl.renamed ρ) (hr.renamed ρ)
  | _, .call hf hargs => .call (hf.renamed ρ) (hargs.renamed ρ)
  | _, .function xs hbody => .function _ (hbody.renamed ρ)

theorem Node.AreExprs.renamed (ρ : String → String) : ∀ {es : List Node}, AreExprs es → AreExprs (renamedAll ρ es)
  | _, .nil => .nil
  | _, .cons he hes => .cons (he.renamed ρ) (hes.renamed ρ)

theorem Node.IsStat.renamed (ρ : String → String) : ∀ {n : Node}, IsStat n → IsStat (n.renamed ρ)
  | _, .exprStat he => .exprStat (he.renamed ρ)
  | _, .print hargs => .print (hargs.renamed ρ)
  | _, .ifThen hcond hyes => .ifThen (hcond.renamed ρ) (hyes.renamed ρ)
  | _, .ifElse hcond hyes hno => .ifElse (hcond.renamed ρ) (hyes.renamed ρ) (hno.renamed ρ)
  | _, .loop hcond hbody => .loop (hcond.renamed ρ) (hbody.renamed ρ)
  | _, .breakLoop => .breakLoop
  | _, .continueLoop => .continueLoop
  | _, .block hbody => .block (hbody.renamed ρ)
  | _, .function x xs hbody => .function _ _ (hbody.renamed ρ)
  | _, .define x hvalue _ => (hvalue.renamed ρ).isStat _
  | _, .assign x hvalue => .assign _ (hvalue.renamed ρ)
  | _, .return => .return
  | _, .returnValue hvalue => .returnValue (hvalue.renamed ρ)

theorem Node.AreStats.renamed (ρ : String → String) : ∀ {ns : List Node}, AreStats ns → AreStats (renamedAll ρ ns)
  | _, .nil => .nil
  | _, .cons hn hns => .cons (hn.renamed ρ) (hns.renamed ρ)

end

section

open CompileM

theorem renamed_ne_function (ρ : String → String) {value : Node} (h : IsExpr value) (hne : ∀ params body, value ≠ .function params body) :
    ∀ params body, value.renamed ρ ≠ .function params body := by
  cases h with
  | function xs hbody => exact absurd rfl (hne _ _)
  | name | literal | unary | binary | call => simp [Node.renamed]

theorem visit_variable {x : Datum} {value : Node} (h : IsExpr value) (hne : ∀ params body, value ≠ .function params body) :
    visit (.define x value) = visit value >>= fun _ => declare x >>= fun index => emit2 .storeVar 0 index := by
  rw [visit]
  · exact hne
  · cases h <;> simp

mutual

theorem visit_echoes (hρ : Function.Injective ρ) : ∀ {e : Node}, IsExpr e → Echoes ρ (visit e) (visit (e.renamed ρ))
  | _, .name x => by
    rw [Node.renamed, visit, visit]
    exact .emitName hρ x
  | _, .literal kind d => by
    rw [show (Node.literal kind [d]).renamed ρ = .literal kind [d] from rfl, visit]
    cases kind with
    | num | str => exact .emitConst _
    | _ => exact .emit _
  | _, @IsExpr.unary op e he => by
    rw [Node.renamed, visit, visit]
    refine (visit_echoes hρ he).bind fun _ => ?_
    split
    · exact .emit _
    · exact .shown _ _ _ _
  | _, @IsExpr.binary op l r hl hr => by
    rw [Node.renamed, visit, visit]
    split
    · exact (visit_echoes hρ hl).bind fun _ => (Echoes.emit1 _ _).bind fun exit => (visit_echoes hρ hr).bind fun _ =>
        (Echoes.emit1 _ _).bind fun done => (Echoes.patchHere _).bind fun _ => (Echoes.emit _).bind fun _ => .patchHere _
    · split
      · exact (visit_echoes hρ hr).bind fun _ => (visit_echoes hρ hl).bind fun _ => .emit _
      · refine (visit_echoes hρ hl).bind fun _ => (visit_echoes hρ hr).bind fun _ => ?_
        split
        · exact .emit _
        · exact .shown _ _ _ _
  | _, .call (.name x) hargs => by
    rw [Node.renamed, Node.renamed, visit, visit]
    refine (Echoes.calleeOf hρ x).bind fun callee => ?_
    cases callee with
    | routine id => exact (visitArguments_echoes hρ hargs).bind fun _ => (Echoes.emit1 _ _).discarded
    | primitive name =>
      exact (visitArguments_echoes hρ hargs).bind fun _ => (Echoes.addConst _).bind fun _ => (Echoes.emit1 _ _).discarded
    | none => exact .refuseCall _ _ _ _
  -- what is called is not a name
  | _, .call (.literal kind d) _ | _, .call (.unary _) _ | _, .call (.binary ..) _ | _, .call (.call ..) _
  | _, .call (.function ..) _ => by
    rw [Node.renamed]
    simp only [Node.renamed, visit]
    exact .refuseCall _ _ _ _
  | _, .function xs _ => by
    rw [Node.renamed, visit, visit]
    exact .throw _ _

theorem visitArguments_echoes (hρ : Function.Injective ρ) : ∀ {es : List Node}, AreExprs es → Echoes ρ (visitArguments es) (visitArguments (renamedAll ρ es))
  | _, .nil => by
    rw [renamedAll, visitArguments]
    exact .pure ()
  | _, .cons he hes => by
    rw [renamedAll, visitArguments_cons he, visitArguments_cons (he.renamed ρ)]
    exact (visitArguments_echoes hρ hes).bind fun _ => visit_echoes hρ he

theorem visitPrinted_echoes (hρ : Function.Injective ρ) : ∀ {es : List Node}, AreExprs es → Echoes ρ (visitPrinted es) (visitPrinted (renamedAll ρ es))
  | _, .nil => by
    rw [renamedAll, visitPrinted]
    exact .pure ()
  | _, .cons he hes => by
    rw [renamedAll, visitPrinted, visitPrinted]
    exact (visit_echoes hρ he).bind fun _ => (Echoes.emit _).bind fun _ => visitPrinted_echoes hρ hes

theorem visitStat_echoes (hρ : Function.Injective ρ) : ∀ {n : Node}, IsStat n → Echoes ρ (visit n) (visit (n.renamed ρ))
  | _, .exprStat he => by
    rw [Node.renamed, visit, visit]
    exact (visit_echoes hρ he).bind fun _ => .emit _
  | _, .print hargs => by
    rw [Node.renamed, visit, visit]
    exact (visitPrinted_echoes hρ hargs).bind fun _ => .emit _
  | _, .ifThen hcond hyes => by
    rw [Node.renamed, visit, visit]
    exact (visit_echoes hρ hcond).bind fun _ => (Echoes.emit1 _ _).bind fun skip => (visitStat_echoes hρ hyes).bind fun _ =>
      .patchHere skip
  | _, .ifElse hcond hyes hno => by
    rw [Node.renamed, visit, visit]
    exact (visit_echoes hρ hcond).bind fun _ => (Echoes.emit1 _ _).bind fun skip => (visitStat_echoes hρ hyes).bind fun _ =>
      (Echoes.emit1 _ _).bind fun done => (Echoes.patchHere skip).bind fun _ => (visitStat_echoes hρ hno).bind fun _ =>
        .patchHere done
  | _, .loop hcond hbody => by
    rw [Node.renamed, visit, visit]
    refine Echoes.nextAddress.bind fun start => (visit_echoes hρ hcond).bind fun _ => (Echoes.emit1 _ _).bind fun exit =>
      .look fun outer => ?_
    exact Echoes.bind (.update (fun _ => rfl) fun _ => rfl) fun _ => (visitStat_echoes hρ hbody).bind fun _ =>
      (Echoes.emit1 _ _).discarded.bind fun _ => (Echoes.patchHere _).bind fun _ => .update (fun _ => rfl) fun _ => rfl
  | _, .breakLoop => by
    rw [show Node.breakLoop.renamed ρ = .breakLoop from rfl, visit]
    refine .look fun a => ?_
    rw [show (a.renamed ρ).breaks = a.breaks from rfl]
    have hjump : Echoes ρ (do
          let address ← emit1 .jump (-1)
          modify fun a => { a with breaks := a.breaks.push (address + 1) }) (do
          let address ← emit1 .jump (-1)
          modify fun a => { a with breaks := a.breaks.push (address + 1) }) :=
      (Echoes.emit1 _ _).bind fun _ => .update (fun _ => rfl) fun _ => rfl
    split
    · exact (Echoes.throw _ _).bind fun _ => hjump
    · exact hjump
  | _, .continueLoop => by
    rw [show Node.continueLoop.renamed ρ = .continueLoop from rfl, visit]
    refine .look fun a => ?_
    rw [show (a.renamed ρ).continues = a.continues from rfl]
    split
    · exact .throw _ _
    · exact (Echoes.emit1 _ _).discarded
  | _, .block hbody => by
    rw [Node.renamed, visit, visit]
    exact .visitBlock (visitAll_echoes hρ hbody)
  | _, @IsStat.function x xs body hbody => by
    rw [Node.renamed, Node.renamed, Node.renamed, visit, visit, visit, visit]
    refine (Echoes.routineFor hρ x xs).bind fun id => (Echoes.emit1 _ _).bind fun skip => Echoes.nextAddress.bind fun entry =>
      (Echoes.setEntry id entry).bind fun _ => .look fun outer => ?_
    refine Echoes.bind (.update (fun a => ?_) fun _ => rfl) fun _ => (Echoes.declareAll hρ xs).bind fun _ => ?_
    · simp [Assembly.renamed, renamedScopes]
    · exact (Echoes.visitBlock (visitAll_echoes hρ hbody)).bind fun _ => Echoes.emitFinalReturn.bind fun _ =>
        Echoes.bind (.update (fun _ => rfl) fun _ => rfl) fun _ => (Echoes.patchHere _).bind fun _ =>
          (Echoes.declare hρ x).bind fun index => (Echoes.emitConst _).bind fun _ => .emit2 _ _ _
  | _, .define x hvalue hne => by
    have hne' := renamed_ne_function ρ hvalue hne
    rw [Node.renamed, visit_variable hvalue hne, visit_variable (hvalue.renamed ρ) hne']
    exact (visit_echoes hρ hvalue).bind fun _ => (Echoes.declare hρ x).bind fun index => .emit2 _ _ _
  | _, .assign x hvalue => by
    rw [Node.renamed, visit, visit]
    exact (visit_echoes hρ hvalue).bind fun _ => .emitAssign hρ x
  | _, .return => by
    rw [show Node.return.renamed ρ = .return from rfl, visit]
    refine .look fun a => ?_
    rw [show (a.renamed ρ).current = a.current from rfl]
    split
    · exact (Echoes.throw _ _).bind fun _ => .emit _
    · exact .emit _
  | _, .returnValue hvalue => by
    rw [Node.renamed, visit, visit]
    refine .look fun a => ?_
    rw [show (a.renamed ρ).current = a.current from rfl]
    split
    · exact (Echoes.throw _ _).bind fun _ => (visit_echoes hρ hvalue).bind fun _ => .emit _
    · exact (visit_echoes hρ hvalue).bind fun _ => .emit _

theorem visitAll_echoes (hρ : Function.Injective ρ) : ∀ {ns : List Node}, AreStats ns → Echoes ρ (visitAll ns) (visitAll (renamedAll ρ ns))
  | _, .nil => by
    rw [renamedAll, visitAll]
    exact .pure ()
  | _, .cons hn hns => by
    rw [renamedAll, visitAll, visitAll]
    exact (visitStat_echoes hρ hn).bind fun _ => visitAll_echoes hρ hns

end

mutual

theorem register_echoes : ∀ {n : Node}, IsStat n → Echoes ρ (register n) (register (n.renamed ρ))
  | _, .block hbody => by
    rw [Node.renamed, register, register]
    exact registerAll_echoes hbody
  | _, .function x xs hbody => by
    rw [Node.renamed, Node.renamed, register, register]
    exact (Echoes.addRoutine x xs).discarded
  | _, .define x hvalue hne => by
    cases hvalue with
    | function xs hbody => exact absurd rfl (hne _ _)
    | name | literal | unary | binary | call =>
      simp only [Node.renamed, register]
      exact .pure ()
  | _, .exprStat _ | _, .print _ | _, .ifThen .. | _, .ifElse .. | _, .loop .. | _, .breakLoop | _, .continueLoop | _, .assign ..
  | _, .return | _, .returnValue _ => by
    simp only [Node.renamed, register]
    exact .pure ()

theorem registerAll_echoes : ∀ {ns : List Node}, AreStats ns → Echoes ρ (registerAll ns) (registerAll (renamedAll ρ ns))
  | _, .nil => by
    rw [renamedAll, registerAll]
    exact .pure ()
  | _, .cons hn hns => by
    rw [renamedAll, registerAll, registerAll]
    exact (register_echoes hn).bind fun _ => registerAll_echoes hns

end

/-- A renamed program is compiled to the renamed program, or neither of the two is compiled. -/
theorem ofNode_renamed (hρ : Function.Injective ρ) {body : List Node} (hbody : AreStats body) {prims : List String}
    (hfixed : ∀ s ∈ prims, ρ s = s) :
    (∃ p, Program.ofNode prims (.program body) = .ok p ∧
        Program.ofNode prims ((Node.program body).renamed ρ) = .ok (p.renamed ρ)) ∨
      ∃ e e', Program.ofNode prims (.program body) = .error e ∧
        Program.ofNode prims ((Node.program body).renamed ρ) = .error e' := by
  have hcompile : Echoes ρ (compile (.program body)) (compile ((Node.program body).renamed ρ)) := by
    unfold compile
    rw [Node.renamed, register, register, visit, visit]
    exact (registerAll_echoes hbody).bind fun _ => .visitBlock (visitAll_echoes hρ hbody)
  have hstart : ({ primitives := prims } : Assembly).renamed ρ = { primitives := prims } := by
    simp [Assembly.renamed, renamedScopes]
  have h := hcompile { primitives := prims } hfixed
  rw [hstart] at h
  unfold Program.ofNode
  change Echoed ρ ((compile (.program body)).run.run _) ((compile ((Node.program body).renamed ρ)).run.run _) at h
  generalize (compile (.program body)).run.run { primitives := prims } = out at h ⊢
  generalize (compile ((Node.program body).renamed ρ)).run.run { primitives := prims } = out' at h ⊢
  cases h with
  | ok v _ => exact .inl ⟨_, rfl, rfl⟩
  | error e e' => exact .inr ⟨e, e', rfl, rfl⟩

end

/-! ## Running a renamed program -/

theorem frameSize_renamed (hρ : Function.Injective ρ) (params : List Datum) : ∀ scopes : List (Array Datum),
    frameSize (params.map (Datum.renamed ρ)) (scopes.map (·.map (Datum.renamed ρ))) = frameSize params scopes := by
  have hcheck : ∀ names : List Datum, checkNames (names.map (Datum.renamed ρ)) = checkNames names := by
    intro names
    unfold checkNames
    simp only [any_map, Function.comp_def, Datum.kind_renamed]
  have hsame : ∀ names : List Datum, sameNames (names.map (Datum.renamed ρ)) (params.map (Datum.renamed ρ)) =
      sameNames names params := by
    intro names
    unfold sameNames
    simp only [all_map, any_map, Function.comp_def, Datum.eq_renamed hρ]
  intro scopes
  induction scopes with
  | nil => rfl
  | cons names rest ih =>
    rw [map_cons, frameSize, frameSize, Array.toList_map, hcheck, hcheck, hsame, ih, Array.size_map]

namespace Machine

variable {prims : List String} {body : List Node} {p : Program} {m m' : Machine} {x : Spot}

/-- Whatever an instruction is, the same one means the same in the renamed program. -/
theorem twin_renamed (hρ : Function.Injective ρ) (htame : Tame prims body p) (hx : x ∈ Layout.program prims body) :
    ∃ op, itemAt p.code x.address = .ok op.word ∧ Twin p (p.renamed ρ) Eq Eq x.address x.address op := by
  have hin := htame.laid.follows x hx
  cases hinstr : x.instr with
  | const c =>
    rw [hinstr] at hin
    obtain ⟨i, hholds, d, hd, -⟩ := hin
    exact ⟨_, hholds.first, .const (.inl rfl) hholds.second hholds.second (itemAt_of_getElem? hd) (itemAt_of_getElem? hd) rfl⟩
  | primitive y =>
    rw [hinstr] at hin
    obtain ⟨i, hholds, d, hd, -⟩ := hin
    exact ⟨_, hholds.first, .const (.inr rfl) hholds.second hholds.second (itemAt_of_getElem? hd) (itemAt_of_getElem? hd) rfl⟩
  | plain op =>
    rw [hinstr] at hin
    exact ⟨op, hin.2.first, .plain hin.1 hin.2.first hin.2.first rfl⟩
  | load depth index =>
    obtain ⟨d, rfl, -⟩ := htame.accessed hx (.inl hinstr)
    rw [hinstr] at hin
    exact ⟨_, hin.first, .access (.inl rfl) hin.second hin.second hin.third hin.third rfl⟩
  | store depth index =>
    obtain ⟨d, rfl, -⟩ := htame.accessed hx (.inr hinstr)
    rw [hinstr] at hin
    exact ⟨_, hin.first, .access (.inr rfl) hin.second hin.second hin.third hin.third rfl⟩
  | jump target | continueLoop target | breakLoop =>
    rw [hinstr] at hin
    exact ⟨_, hin.first, .jump hin.second hin.second rfl⟩
  | branch op target =>
    rw [hinstr] at hin
    exact ⟨op, hin.2.first, .branch hin.1 hin.2.second hin.2.second rfl rfl⟩
  | enter count =>
    rw [hinstr] at hin
    exact ⟨_, hin.first, .enter hin.second hin.second rfl⟩
  | leave =>
    rw [hinstr] at hin
    exact ⟨_, hin.first, .leave rfl⟩
  | call id =>
    rw [← Layout.program_toSpot prims htame.stats] at hx
    obtain ⟨x, hscene, rfl⟩ := mem_map.mp hx
    obtain ⟨r, hr, site, -, hentry, -⟩ := called_site htame.stats htame.laid hscene hinstr
    rw [hinstr] at hin
    have hr' : (p.renamed ρ).routines[id]? = some (r.renamed ρ) := by
      show (p.routines.map (Routine.renamed ρ))[id]? = _
      rw [Array.getElem?_map, hr]
      rfl
    refine ⟨_, hin.first, .call hin.second hin.second hr hr' ?_ ?_ hentry hentry rfl rfl⟩
    · exact length_map _
    · show frameSize (r.params.map (Datum.renamed ρ)) (renamedScopes ρ p.scopes).toList = _
      rw [renamedScopes, Array.toList_map]
      exact frameSize_renamed hρ r.params p.scopes.toList
  | «return» =>
    rw [hinstr] at hin
    exact ⟨_, hin.first, .back (.inl rfl) fun _ _ h => h⟩
  | returnValue =>
    rw [hinstr] at hin
    exact ⟨_, hin.first, .back (.inr rfl) fun _ _ h => h⟩
  | refused =>
    rw [hinstr] at hin
    exact hin.elim

/-- Wherever a machine stands, the renamed program means the same there, and variables are in scopes that are not of the program. -/
theorem Sheltered.twin_renamed (hρ : Function.Injective ρ) (htame : Tame prims body p) (h : Sheltered prims body p m)
    (hhalted : ¬ (m.program.code.size : Int) ≤ m.pc) :
    ∃ op, itemAt p.code m.pc = .ok op.word ∧ Twin p (p.renamed ρ) Eq Eq m.pc m.pc op ∧
      (op = .loadVar ∨ op = .storeVar → ∀ depth : Nat, itemAt p.code (m.pc + 1) = .ok (depth : Int) →
        ∃ id, m.chain[depth]? = some id ∧ p.scopes.size ≤ id) := by
  rcases h.here with hpc | ⟨x, hx, hpc⟩
  · rw [hpc]
    exact ⟨_, itemAt_neg_one htame.laid.back?, .leave rfl, by simp⟩
  · rcases mem_append.mp hx with hx | hx
    · obtain ⟨op, hfetch, htwin⟩ := Machine.twin_renamed hρ htame hx
      rw [← hpc] at hfetch htwin
      exact ⟨op, hfetch, htwin, fun hop _ hdepth => h.accessed htame hfetch hop hdepth⟩
    · refine absurd ?_ hhalted
      rw [hpc, mem_singleton.mp hx, h.program, htame.laid.size]

theorem steps_of_fetch {op : Opcode} (hfetch : itemAt m.program.code m.pc = .ok op.word) : m.next.2.steps = m.steps + 1 := by
  have hcourse := Keeps.perform_course op m.pc m.counted
  rw [next_eq hfetch]
  generalize outcome (perform op m.pc) m.counted = out at hcourse
  obtain ⟨r, n⟩ := out
  cases r <;> exact congrArg (·.2.2) hcourse

/-- Two machines abreast that have come as far. -/
def Lockstep (ρ : String → String) (p : Program) (m m' : Machine) : Prop := Abreast p (p.renamed ρ) 0 Eq m m' ∧ m'.steps = m.steps

/-- A step of the renamed program does what the step of the program does. -/
theorem Lockstep.next (hρ : Function.Injective ρ) (htame : Tame prims body p) (hm : Sheltered prims body p m)
    (h : Lockstep ρ p m m') (hpc : m'.pc = m.pc) (hhalted : ¬ (m.program.code.size : Int) ≤ m.pc) :
    (∃ w n n', m.next = (.ok w, n) ∧ m'.next = (.ok w, n') ∧ Lockstep ρ p n n' ∧ n'.pc = n.pc) ∨
      ∃ e n n', m.next = (.error e, n) ∧ m'.next = (.error e, n') ∧ Lockstep ρ p n n' := by
  obtain ⟨op, hfetch, htwin, hscope⟩ := hm.twin_renamed hρ htame hhalted
  have hfetch' : itemAt (p.renamed ρ).code m'.pc = .ok op.word := by
    rw [hpc]
    exact hfetch
  have htwin' : Twin p (p.renamed ρ) Eq Eq m.pc m'.pc op := by
    rw [hpc]
    exact htwin
  have hsteps := steps_of_fetch (m := m) (by rw [h.1.program]; exact hfetch)
  have hsteps' := steps_of_fetch (m := m') (by rw [h.1.program']; exact hfetch')
  rcases next_abreast h.1 Array.size_map hfetch hfetch' htwin' hscope with
    ⟨w, n, n', hnext, hnext', hafter, hpcs⟩ | ⟨e, n, n', hnext, hnext', hafter⟩
  · rw [hnext] at hsteps
    rw [hnext'] at hsteps'
    exact .inl ⟨w, n, n', hnext, hnext', ⟨hafter, hsteps'.trans (hsteps.trans (by rw [h.2])).symm⟩, hpcs.symm⟩
  · rw [hnext] at hsteps
    rw [hnext'] at hsteps'
    exact .inr ⟨e, n, n', hnext, hnext', hafter, hsteps'.trans (hsteps.trans (by rw [h.2])).symm⟩

theorem Lockstep.step (hρ : Function.Injective ρ) (htame : Tame prims body p) (hm : Sheltered prims body p m)
    (h : Lockstep ρ p m m') (hpc : m'.pc = m.pc) (hhalted : ¬ (m.program.code.size : Int) ≤ m.pc) (budget : Nat) :
    (∃ n n', outcome (discard (step budget)) m = (.ok (), n) ∧ outcome (discard (step budget)) m' = (.ok (), n') ∧
        Sheltered prims body p n ∧ Lockstep ρ p n n' ∧ n'.pc = n.pc) ∨
      ∃ e n n', outcome (discard (step budget)) m = (.error e, n) ∧
        outcome (discard (step budget)) m' = (.error e, n') ∧ Lockstep ρ p n n' := by
  rw [outcome_discard, outcome_discard]
  by_cases hlt : m.steps < budget
  · rw [outcome_step_eq_next hlt, outcome_step_eq_next (by rw [h.2]; exact hlt)]
    rcases h.next hρ htame hm hpc hhalted with ⟨w, n, n', hnext, hnext', hafter, hpcs⟩ | ⟨e, n, n', hnext, hnext', hafter⟩
    · rw [hnext, hnext']
      exact .inl ⟨n, n', rfl, rfl, hm.next htame hnext, hafter, hpcs⟩
    · rw [hnext, hnext']
      exact .inr ⟨e, n, n', rfl, rfl, hafter⟩
  · obtain ⟨op, hfetch, -⟩ := hm.twin_renamed hρ htame hhalted
    rw [outcome_step_limit (Nat.le_of_not_lt hlt) (by rw [h.1.program]; exact hfetch),
      outcome_step_limit (w := op.word) (by rw [h.2]; exact Nat.le_of_not_lt hlt) (by rw [h.1.program', hpc]; exact hfetch)]
    exact .inr ⟨_, m, m', rfl, rfl, h⟩

theorem Lockstep.stepsWithin (hρ : Function.Injective ρ) (htame : Tame prims body p) (budget : Nat) : ∀ (fuel : Nat) {m m' : Machine},
    Sheltered prims body p m → Lockstep ρ p m m' → m'.pc = m.pc →
    Tied (Lockstep ρ p) Eq (outcome (MachineM.steps budget fuel) m) (outcome (MachineM.steps budget fuel) m')
  | fuel, m, m', hm, h, hpc => by
    have hsame : m'.program.code.size = m.program.code.size := by
      rw [h.1.program, h.1.program']
      rfl
    by_cases hhalted : (m.program.code.size : Int) ≤ m.pc
    · rw [outcome_steps_halted hhalted, outcome_steps_halted (by rw [hsame, hpc]; exact hhalted)]
      exact .ok rfl h
    · have hhalted' : ¬ (m'.program.code.size : Int) ≤ m'.pc := by
        rw [hsame, hpc]
        exact hhalted
      rcases h.step hρ htame hm hpc hhalted budget with ⟨n, n', hstep, hstep', hn, hafter, hpcs⟩ | ⟨e, n, n', hstep, hstep', hafter⟩
      · cases fuel with
        | zero =>
          rw [outcome_steps_zero hhalted, outcome_steps_zero hhalted', hstep, hstep']
          exact .ok rfl hafter
        | succ fuel =>
          rw [outcome_steps_succ hhalted, outcome_steps_succ hhalted', bind_ok hstep, bind_ok hstep']
          exact Lockstep.stepsWithin hρ htame budget fuel hn hafter hpcs
      · cases fuel with
        | zero =>
          rw [outcome_steps_zero hhalted, outcome_steps_zero hhalted', hstep, hstep']
          exact .error e hafter
        | succ fuel =>
          rw [outcome_steps_succ hhalted, outcome_steps_succ hhalted', bind_error hstep, bind_error hstep']
          exact .error e hafter

theorem run_renamed (hρ : Function.Injective ρ) (htame : Tame prims body p) (signals : List Signal) (budget : Nat) :
    Tied (Lockstep ρ p) Eq ((Machine.start p signals).run budget) ((Machine.start (p.renamed ρ) signals).run budget) := by
  have hV : Apart fun m : Machine => m.steps := ⟨fun _ _ => rfl, fun _ _ => rfl, fun _ _ => rfl⟩
  have hleft : Coupled (Lockstep ρ p) Eq MachineM.leftovers MachineM.leftovers :=
    Coupled.leftovers.keeping (.leftovers hV) (.leftovers hV)
  have hsteps := Lockstep.stepsWithin hρ htame budget budget (.start htame.stats signals) ⟨abreast_start Array.size_map signals, rfl⟩ rfl
  refine Coupled.of_bind hsteps fun _ _ _ => hleft.bind fun _ _ _ => .get_bind fun m m' h => ?_
  have hsummary : m'.stack.summary = m.stack.summary := by
    unfold CountedStack.summary CountedStack.depth
    rw [h.1.items, h.1.maxDepth, h.1.pushes, h.1.pops]
    rfl
  rw [hsummary]
  exact (Coupled.printText _).keeping (.printText hV _) (.printText hV _) m m' h

/-- **Code does not depend on names.** Take a tree that was parsed and a renaming that keeps different names different and the names of
primitives as they are. The renamed tree is compiled exactly if the tree is, and then the code and the constants are the same, the
functions have the same entries in the same order under their new names, with the new names of their parameters, and the names of the scopes are
the new ones. Without primitives, and if every `continue` is in a loop of its own function, both programs print the same and come to
the same result after the same number of steps, whatever the budget. -/
theorem names_do_not_matter {tokens : List Token} {body : List Node} (hparse : Node.parse tokens = .ok (.program body))
    (hρ : Function.Injective ρ) (primitives : List String) (hfixed : ∀ s ∈ primitives, ρ s = s) :
    ((∃ p', Program.ofNode primitives ((Node.program body).renamed ρ) = .ok p') ↔
        ∃ p, Program.ofNode primitives (.program body) = .ok p) ∧
      ∀ p p', Program.ofNode primitives (.program body) = .ok p →
        Program.ofNode primitives ((Node.program body).renamed ρ) = .ok p' →
        p'.code = p.code ∧ p'.consts = p.consts ∧ p'.routines = p.routines.map (Routine.renamed ρ) ∧
          p'.scopes = renamedScopes ρ p.scopes ∧
          (primitives = [] → .continues false ∉ exitsAll false body → ∀ signals budget,
            ((start p' signals).run budget).1 = ((start p signals).run budget).1 ∧
              ((start p' signals).run budget).2.printed = ((start p signals).run budget).2.printed ∧
              ((start p' signals).run budget).2.steps = ((start p signals).run budget).2.steps) := by
  have hbody := (Node.areStats_of_parse hparse).1
  rcases ofNode_renamed hρ hbody hfixed with ⟨q, hq, hq'⟩ | ⟨e, e', he, he'⟩
  · refine ⟨⟨fun _ => ⟨q, hq⟩, fun _ => ⟨_, hq'⟩⟩, fun p p' hp hp' => ?_⟩
    cases hq.symm.trans hp
    cases hq'.symm.trans hp'
    refine ⟨rfl, rfl, rfl, rfl, fun hnone hown signals budget => ?_⟩
    have htame : Tame primitives body q := ⟨hbody, Program.laidOut hbody hp, hown, by simp [hnone]⟩
    have hrun := run_renamed hρ htame signals budget
    generalize (start q signals).run budget = out at hrun
    generalize (start (q.renamed ρ) signals).run budget = out' at hrun
    cases hrun with
    | ok _ h => exact ⟨rfl, h.1.printed, h.2⟩
    | error e h => exact ⟨rfl, h.1.printed, h.2⟩
  · refine ⟨⟨fun ⟨p', hp'⟩ => ?_, fun ⟨p, hp⟩ => ?_⟩, fun p p' hp _ => ?_⟩
    · cases he'.symm.trans hp'
    · cases he.symm.trans hp
    · cases he.symm.trans hp

/-- `var a=1;var f=fun(b){return b+b;};{var b=f(a);print(a,b);}` with `a` and `b` in each other's place. -/
theorem swapped_names :
    ∃ (tokens : List Token) (body : List Node) (p p' : Program), Node.parse tokens = .ok (.program body) ∧
      Node.ofText "var b=1;var f=fun(a)\x7breturn a+a;\x7d;\x7bvar a=f(b);print(b,a);\x7d" =
        .ok ((Node.program body).renamed (Equiv.swap "a" "b")) ∧
      Program.ofNode [] (.program body) = .ok p ∧ Program.ofNode [] ((Node.program body).renamed (Equiv.swap "a" "b")) = .ok p' ∧
      p'.code = p.code ∧ p.scopes = #[#[], #[.text "a", .text "f"], #[.text "b"], #[], #[.text "b"]] ∧
      p'.scopes = renamedScopes (Equiv.swap "a" "b") p.scopes ∧ ((start p []).run 100).2.steps = 22 ∧
      ((start p' []).run 100).2.steps = 22 ∧
      ((start p' []).run 100).2.printed = ((start p []).run 100).2.printed := by
  let body : List Node :=
    [.define (.text "a") (.literal .num [.int 1]),
      .define (.text "f") (.function [.text "b"] (.block [.returnValue (.binary (.text "+") (.name (.text "b")) (.name (.text "b")))])),
      .block [.define (.text "b") (.call (.name (.text "f")) [.name (.text "a")]), .print [.name (.text "a"), .name (.text "b")]]]
  let p : Program :=
    { code := #[13, 2, 1, 0, 6, 0, 0, 9, 21, 13, 0, 5, 1, 0, 5, 1, 0, 111, 17, 14, 16, 1, 1, 6, 0, 1, 13, 1, 5, 1, 0, 15, 0, 6, 0, 0,
        5, 1, 0, 7, 5, 0, 0, 7, 8, 14, 14]
      consts := #[.number (.int 1), .number (.int 0)]
      scopes := #[#[], #[.text "a", .text "f"], #[.text "b"], #[], #[.text "b"]]
      routines := #[⟨.text "f", [.text "b"], some 9⟩] }
  have htext : Node.ofText "var a=1;var f=fun(b)\x7breturn b+b;\x7d;\x7bvar b=f(a);print(a,b);\x7d" = .ok (.program body) := by cbv
  have hp : Program.ofNode [] (.program body) = .ok p := by cbv
  obtain ⟨tokens, _, hparse, hbody, -⟩ := Node.parse_of_text htext
  cases hbody
  obtain ⟨hcompiled, hsame⟩ := names_do_not_matter hparse (Equiv.swap "a" "b").injective [] (by simp)
  obtain ⟨p', hp'⟩ := hcompiled.mpr ⟨p, hp⟩
  obtain ⟨hcode, -, -, hscopes, hruns⟩ := hsame p p' hp hp'
  obtain ⟨-, hprinted, hsteps⟩ := hruns rfl (by decide +kernel) [] 100
  have hcount : ((start p []).run 100).2.steps = 22 := by decide +kernel
  exact ⟨tokens, body, p, p', hparse, by cbv, hp, hp', hcode, rfl, hscopes, hcount, hsteps.trans hcount, hprinted⟩

end Machine

end

end Cilly
