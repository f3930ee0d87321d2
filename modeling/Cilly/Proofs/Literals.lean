import Cilly.Proofs.Compiling
import Cilly.Proofs.Equality
import Cilly.Proofs.Segments
import Mathlib

/-!
# Literals

What a literal of a tree becomes. `starts` says, for each part of a node that is compiled, what has been done since the
node was begun; following it down, compiling a tree reaches each of its literals in one state (`Reaches`). The code that
is emitted there is left alone by all that follows, so it stands in the program: it loads the first constant equal to
the literal that was in the table by then, and the literal itself only if there was none.
-/

namespace Cilly

open List

namespace CompileM

open Acting Assembly Node

/-! ## Parts in the order of compilation -/

/-- What is done before each statement of a list, after what was done before the first. -/
def startsAll (before : CompileM Unit) : List Node → List (CompileM Unit × Node)
  | [] => []
  | n :: ns => (before, n) :: startsAll (do before; visit n) ns

def startsPrinted (before : CompileM Unit) : List Node → List (CompileM Unit × Node)
  | [] => []
  | n :: ns => (before, n) :: startsPrinted (do before; visit n; emit .printItem) ns

def startsArguments : List Node → List (CompileM Unit × Node)
  | [] => []
  | n :: ns => (visitArguments ns, n) :: startsArguments ns

/-- The parts of a node that are compiled, and what is done before each. -/
def starts : Node → List (CompileM Unit × Node)
  | .program body | .block body =>
    startsAll (do openScope; discard (emit1 .enterScope (-1))) body
  | .print args => startsPrinted (pure ()) args
  | .exprStat e | .unary _ e | .assign _ e | .returnValue e => [(pure (), e)]
  | .binary op left right =>
    match shortcutOf? op with
    | some (skip, _) => [(pure (), left), (do visit left; discard (emit1 skip (-1)), right)]
    | none =>
      match swappedOf? op with
      | some _ => [(pure (), right), (visit right, left)]
      | none => [(pure (), left), (visit left, right)]
  | .ifThen cond yes =>
    [(pure (), cond), (do visit cond; discard (emit1 .jumpFalse (-1)), yes)]
  | .ifElse cond yes no =>
    [(pure (), cond), (do visit cond; discard (emit1 .jumpFalse (-1)), yes),
      (do
        visit cond
        let skip ← emit1 .jumpFalse (-1)
        visit yes
        discard (emit1 .jump (-1))
        patchHere skip, no)]
  | .loop cond body =>
    [(pure (), cond),
      (do
        let start ← nextAddress
        visit cond
        let exit ← emit1 .jumpFalse (-1)
        modify fun a => { a with breaks := #[exit], continues := #[start] }, body)]
  | .define x (.function params body) =>
    [(do
        let id ← routineFor x params
        discard (emit1 .jump (-1))
        let entry ← nextAddress
        setEntry id entry
        modify fun a => { a with current := some id, scopes := a.scopes.push #[], chain := [a.scopes.size] }
        declareAll params, body)]
  | .define _ value => [(pure (), value)]
  | .call _ args => startsArguments args
  | _ => []

/-- Compiling a node from a state comes to a node inside of it, in the state that is then reached. -/
inductive Reaches : Node → Assembly → Node → Assembly → Prop
  | here (n : Node) (a : Assembly) : Reaches n a n a
  | within {n m k : Node} {a b c : Assembly} {before : CompileM Unit} : (before, m) ∈ starts n →
      outcome before a = (.ok (), b) → Reaches m b k c → Reaches n a k c

/-! ## What becomes of a part -/

/-- A part is compiled after what is done before it, and the code of it is kept to the end. -/
def Places (a c : Assembly) (start : CompileM Unit × Node) : Prop :=
  ∃ b b', outcome start.1 a = (.ok (), b) ∧ a.code.size ≤ b.code.size ∧ outcome (visit start.2) b = (.ok (), b') ∧
    Spared (fun _ => True) b.code.size b'.code.size b' c

theorem spares_walk (all : List Node) {first stop : Nat} : Walk all (fun r => r + 1 < first ∨ stop ≤ r + 1)
    fun x => Spares (fun _ => True) first stop x fun _ => True :=
  Spares.walk fun _ => trivial

theorem spares_any (n : Node) (first stop : Nat) : Spares (fun _ => True) first stop (visit n) fun _ => True :=
  (spares_walk _).visit n (Subset.refl _)

theorem size_le_visit {n : Node} {a c : Assembly} (h : outcome (visit n) a = (.ok (), c)) : a.code.size ≤ c.code.size :=
  (spares_any n 0 _ (Nat.le_refl _) h).2.size

namespace Places

theorem first {m : Node} {a b c : Assembly} {rest : CompileM Unit} (hm : outcome (visit m) a = (.ok (), b))
    (hrest : Spares (fun _ => True) a.code.size b.code.size rest fun _ => True) (h : outcome rest b = (.ok (), c)) :
    Places a c (pure (), m) :=
  ⟨a, b, rfl, Nat.le_refl _, hm, (hrest (Nat.le_refl _) h).2⟩

theorem after {m : Node} {a b b' c : Assembly} {before rest : CompileM Unit} (hm : outcome (visit m) b = (.ok (), b'))
    (hbefore : outcome before a = (.ok (), b)) (hsize : a.code.size ≤ b.code.size)
    (hrest : Spares (fun _ => True) b.code.size b'.code.size rest fun _ => True) (h : outcome rest b' = (.ok (), c)) :
    Places a c (before, m) :=
  ⟨b, b', hbefore, hsize, hm, (hrest (Nat.le_refl _) h).2⟩

/-- Statements one after the other, if the code of all of them is kept. -/
theorem all {a b' c : Assembly} : ∀ {ns : List Node} {before : CompileM Unit} {b : Assembly},
    outcome before a = (.ok (), b) → a.code.size ≤ b.code.size → outcome (visitAll ns) b = (.ok (), b') →
    Spared (fun _ => True) b.code.size b'.code.size b' c → ∀ s ∈ startsAll before ns, Places a c s
  | n :: ns, before, b, hbefore, hsize, h, hkept, s, hs => by
    rw [visitAll] at h
    obtain ⟨_, d, hn, hns⟩ := bind_eq_ok.mp h
    have hspared : Spared (fun _ => True) b.code.size d.code.size d b' :=
      ((spares_walk _).visitAll ns (Subset.refl _) (Nat.le_refl _) hns).2
    rcases mem_cons.mp hs with rfl | hs
    · exact ⟨b, d, hbefore, hsize, hn, hspared.trans (hkept.narrow (Nat.le_refl _) hspared.size)⟩
    · have hbd := size_le_visit hn
      exact all (bind_eq_ok.mpr ⟨(), b, hbefore, hn⟩) (Nat.le_trans hsize hbd) hns
        (hkept.narrow hbd (Nat.le_refl _)) s hs

theorem printed {a b' c : Assembly} : ∀ {ns : List Node} {before : CompileM Unit} {b : Assembly},
    outcome before a = (.ok (), b) → a.code.size ≤ b.code.size → outcome (visitPrinted ns) b = (.ok (), b') →
    Spared (fun _ => True) b.code.size b'.code.size b' c → ∀ s ∈ startsPrinted before ns, Places a c s
  | n :: ns, before, b, hbefore, hsize, h, hkept, s, hs => by
    rw [visitPrinted] at h
    obtain ⟨_, d, hn, hrest⟩ := bind_eq_ok.mp h
    have htail : Spares (fun _ => True) b.code.size d.code.size (emit .printItem >>= fun _ => visitPrinted ns)
        fun _ => True :=
      (Spares.emit _).bind fun _ _ => (spares_walk _).visitPrinted ns (Subset.refl _)
    have hspared := (htail (Nat.le_refl _) hrest).2
    rcases mem_cons.mp hs with rfl | hs
    · exact ⟨b, d, hbefore, hsize, hn, hspared.trans (hkept.narrow (Nat.le_refl _) hspared.size)⟩
    · obtain ⟨_, e, hemit, hns⟩ := bind_eq_ok.mp hrest
      have hde : d.code.size ≤ e.code.size := by
        rw [outcome_emit] at hemit
        cases hemit
        simp
      have hbe := Nat.le_trans (size_le_visit hn) hde
      exact printed (bind_eq_ok.mpr ⟨(), b, hbefore, bind_eq_ok.mpr ⟨(), d, hn, hemit⟩⟩) (Nat.le_trans hsize hbe) hns
        (hkept.narrow hbe (Nat.le_refl _)) s hs

theorem arguments {a c : Assembly} : ∀ {ns : List Node} {b : Assembly}, outcome (visitArguments ns) a = (.ok (), b) →
    Spared (fun _ => True) a.code.size b.code.size b c → ∀ s ∈ startsArguments ns, Places a c s
  | n :: ns, b, h, hkept, s, hs => by
    have hsplit : ∃ d, outcome (visitArguments ns) a = (.ok (), d) ∧ outcome (visit n) d = (.ok (), b) := by
      rw [visitArguments.eq_def] at h
      split at h
      · contradiction
      · cases h
      · rename_i heq
        cases heq
        obtain ⟨_, d, hns, hn⟩ := bind_eq_ok.mp h
        exact ⟨d, hns, hn⟩
    obtain ⟨d, hns, hn⟩ := hsplit
    have hbefore : Spared (fun _ => True) 0 a.code.size a d :=
      ((spares_walk _).visitArguments ns (Subset.refl _) (Nat.le_refl _) hns).2
    have hspared := (spares_any n a.code.size d.code.size (Nat.le_refl _) hn).2
    rcases mem_cons.mp hs with rfl | hs
    · exact ⟨d, b, hns, hbefore.size, hn, hkept.narrow hbefore.size (Nat.le_refl _)⟩
    · exact arguments hns (hspared.trans (hkept.narrow (Nat.le_refl _) hspared.size)) s hs

end Places

theorem emit1_ok {op : Opcode} {x : Int} {a b : Assembly} {address : Nat} (h : outcome (emit1 op x) a = (.ok address, b)) :
    address + 1 < b.code.size ∧ a.code.size ≤ b.code.size ∧ outcome (discard (emit1 op x)) a = (.ok (), b) := by
  rw [outcome_emit1] at h
  cases h
  rw [outcome_discard, outcome_emit1]
  exact ⟨by simp, by simp, rfl⟩

theorem places_binary {op : Datum} {left right : Node} {a c : Assembly}
    (h : outcome (visit (.binary op left right)) a = (.ok (), c)) : ∀ s ∈ starts (.binary op left right), Places a c s := by
  rw [visit.eq_def] at h
  rw [starts]
  dsimp only at h
  cases hshort : shortcutOf? op with
  | some instrs =>
    rw [hshort] at h
    obtain ⟨_, b, hleft, hrest⟩ := bind_eq_ok.mp h
    refine forall_mem_cons.mpr ⟨Places.first hleft ?_ hrest, forall_mem_singleton.mpr ?_⟩
    · exact (Spares.emit1 _ _).bind fun exit hexit => (spares_any right _ _).bind fun _ _ =>
        (spares_walk []).shortcutEnd hexit _
    · obtain ⟨exit, d, hexit, hrest⟩ := bind_eq_ok.mp hrest
      obtain ⟨_, e, hright, hrest⟩ := bind_eq_ok.mp hrest
      obtain ⟨hlt, hsize, hemit⟩ := emit1_ok hexit
      exact Places.after hright (bind_eq_ok.mpr ⟨(), b, hleft, hemit⟩) (Nat.le_trans (size_le_visit hleft) hsize)
        ((spares_walk []).shortcutEnd (.inl hlt) _) hrest
  | none =>
    rw [hshort] at h
    dsimp only at h
    cases hswapped : swappedOf? op with
    | some o =>
      rw [hswapped] at h
      obtain ⟨_, b, hright, hrest⟩ := bind_eq_ok.mp h
      refine forall_mem_cons.mpr ⟨Places.first hright ?_ hrest, forall_mem_singleton.mpr ?_⟩
      · exact (spares_any left _ _).bind fun _ _ => .emit _
      · obtain ⟨_, d, hleft, hrest⟩ := bind_eq_ok.mp hrest
        exact Places.after hleft hright (size_le_visit hright) (.emit _) hrest
    | none =>
      rw [hswapped] at h
      obtain ⟨_, b, hleft, hrest⟩ := bind_eq_ok.mp h
      have hend : ∀ {first stop : Nat}, Spares (fun _ => True) first stop
          (match binaryOf? op with
          | some o => emit (.binary o)
          | none => do throw (.illegalBinary (← ofFault op.display))) fun _ => True := by
        intro first stop
        split
        · exact .emit _
        · exact (Spares.of_frozen (.ofFault _)).bind fun _ _ => .throw _
      refine forall_mem_cons.mpr ⟨Places.first hleft ?_ hrest, forall_mem_singleton.mpr ?_⟩
      · exact (spares_any right _ _).bind fun _ _ => hend
      · obtain ⟨_, d, hright, hrest⟩ := bind_eq_ok.mp hrest
        exact Places.after hright hleft (size_le_visit hleft) hend hrest

theorem places_ifElse {cond yes no : Node} {a c : Assembly} (h : outcome (visit (.ifElse cond yes no)) a = (.ok (), c)) :
    ∀ s ∈ starts (.ifElse cond yes no), Places a c s := by
  rw [visit] at h
  obtain ⟨_, b, hcond, htest⟩ := bind_eq_ok.mp h
  obtain ⟨skip, d, hskip, hbranches⟩ := bind_eq_ok.mp htest
  obtain ⟨_, e, hyes, hend⟩ := bind_eq_ok.mp hbranches
  obtain ⟨done, f, hdone, hpatch⟩ := bind_eq_ok.mp hend
  obtain ⟨_, g, hhere, helse⟩ := bind_eq_ok.mp hpatch
  obtain ⟨_, g', hno, hdone'⟩ := bind_eq_ok.mp helse
  obtain ⟨hlt, hsize, hemit⟩ := emit1_ok hskip
  obtain ⟨hlt', hsize', hemit'⟩ := emit1_ok hdone
  have hbd := Nat.le_trans (size_le_visit hcond) hsize
  -- the jump over the first branch is patched before the second one begins
  have hfg : Spared (fun _ => True) 0 0 f g := ((Spares.patchHere (.inr (Nat.zero_le _))) (Nat.zero_le _) hhere).2
  have hdg := Nat.le_trans (Nat.le_trans (size_le_visit hyes) hsize') hfg.size
  refine forall_mem_cons.mpr ⟨Places.first hcond ?_ htest, forall_mem_cons.mpr ⟨?_, forall_mem_singleton.mpr ?_⟩⟩
  · exact (Spares.emit1 _ _).bind fun skip hskip => (spares_any yes _ _).bind fun _ _ =>
      (spares_walk []).otherwise hskip (spares_any no _ _)
  · exact Places.after hyes (bind_eq_ok.mpr ⟨(), b, hcond, hemit⟩) hbd
      ((spares_walk []).otherwise (.inl hlt) (spares_any no _ _)) hend
  · refine Places.after hno (bind_eq_ok.mpr ⟨(), b, hcond, bind_eq_ok.mpr ⟨skip, d, hskip, ?_⟩⟩) (Nat.le_trans hbd hdg)
      (.patchHere (.inl (Nat.lt_of_lt_of_le hlt' hfg.size))) hdone'
    exact bind_eq_ok.mpr ⟨(), e, hyes, bind_eq_ok.mpr ⟨(), f, hemit', hhere⟩⟩

theorem places_loop {cond body : Node} {a c : Assembly} (h : outcome (visit (.loop cond body)) a = (.ok (), c)) :
    ∀ s ∈ starts (.loop cond body), Places a c s := by
  rw [visit, bind_ok outcome_nextAddress] at h
  obtain ⟨_, b, hcond, htest⟩ := bind_eq_ok.mp h
  obtain ⟨exit, d, hexit, hrest⟩ := bind_eq_ok.mp htest
  rw [bind_ok (outcome_get d), bind_ok (outcome_modify _ d)] at hrest
  obtain ⟨_, e, hbody, hend⟩ := bind_eq_ok.mp hrest
  obtain ⟨hlt, hsize, hemit⟩ := emit1_ok hexit
  refine forall_mem_cons.mpr ⟨Places.first hcond ?_ htest, forall_mem_singleton.mpr ?_⟩
  · exact (Spares.emit1 _ _).bind fun exit hexit => (spares_walk []).loop (spares_any body _ _) hexit
  · refine Places.after hbody ?_ (Nat.le_trans (size_le_visit hcond) hsize) (.loopEnd (.inl hlt) _ d) hend
    rw [bind_ok outcome_nextAddress, bind_ok hcond, bind_ok hexit]
    rfl

theorem places_function {x : Datum} {params : List Datum} {body : Node} {a c : Assembly}
    (h : outcome (visit (.define x (.function params body))) a = (.ok (), c)) :
    ∀ s ∈ starts (.define x (.function params body)), Places a c s := by
  rw [visit] at h
  obtain ⟨id, b, hid, hrest⟩ := bind_eq_ok.mp h
  obtain ⟨skip, d, hskip, hrest⟩ := bind_eq_ok.mp hrest
  rw [bind_ok outcome_nextAddress] at hrest
  obtain ⟨_, e, hentry, hrest⟩ := bind_eq_ok.mp hrest
  rw [bind_ok (outcome_get e)] at hrest
  obtain ⟨_, f, hopen, hrest⟩ := bind_eq_ok.mp hrest
  obtain ⟨_, g, hparams, hrest⟩ := bind_eq_ok.mp hrest
  obtain ⟨_, g', hbody, hend⟩ := bind_eq_ok.mp hrest
  obtain ⟨hlt, hsize, hemit⟩ := emit1_ok hskip
  -- between the jump over the body and the body itself no code is emitted
  have hcode : g.code = d.code := by
    rw [(Confined.declareAll (R := SameCode) params hparams).1, ← (Confined.setEntry (R := SameCode) id _ hentry).1]
    cases hopen
    rfl
  have hsize' : a.code.size ≤ g.code.size := by
    rw [hcode, ← (Confined.routineFor (R := SameCode) x params hid).1]
    exact hsize
  refine forall_mem_singleton.mpr (Places.after hbody ?_ hsize' (.functionEnd (.inl (hcode ▸ hlt)) trivial x e) hend)
  rw [bind_ok hid, bind_ok hemit, bind_ok outcome_nextAddress, bind_ok hentry, bind_ok hopen]
  exact hparams

theorem places_define {x : Datum} {value : Node} (hfunction : ∀ params body, value ≠ .function params body)
    {a c : Assembly} (h : outcome (visit (.define x value)) a = (.ok (), c)) : Places a c (pure (), value) := by
  have hrest : outcome (visit value >>= fun _ => declare x >>= fun index => emit2 .storeVar 0 index) a = (.ok (), c) := by
    rw [visit.eq_def] at h
    dsimp only at h
    split at h
    · exact absurd rfl (hfunction _ _)
    · split at h
      · obtain ⟨_, b, hfault, hrest⟩ := bind_eq_ok.mp h
        obtain ⟨-, rfl⟩ := ofFault_eq_ok.mp hfault
        split at hrest
        · cases hrest
        · exact hrest
      · exact h
  obtain ⟨_, b, hvalue, hrest⟩ := bind_eq_ok.mp hrest
  exact .first hvalue ((Spares.of_frozen (.declare x)).bind fun _ _ => .emit2 _ _ _) hrest

theorem exists_name_of_call {callee : Node} {args : List Node} {a c : Assembly}
    (h : outcome (visit (.call callee args)) a = (.ok (), c)) : ∃ x, callee = .name x := by
  rw [visit.eq_def] at h
  dsimp only at h
  split at h
  · exact ⟨_, rfl⟩
  · cases h
  · obtain ⟨_, _, _, hrefused⟩ := bind_eq_ok.mp h
    split at hrefused
    · cases hrefused
    · exact absurd hrefused refuseCall_ok
  · exact absurd h refuseCall_ok

theorem places_call {callee : Node} {args : List Node} {a c : Assembly}
    (h : outcome (visit (.call callee args)) a = (.ok (), c)) : ∀ s ∈ startsArguments args, Places a c s := by
  obtain ⟨x, rfl⟩ := exists_name_of_call h
  rw [visit] at h
  obtain ⟨found, b, hcallee, hrest⟩ := bind_eq_ok.mp h
  obtain ⟨rfl, -⟩ := calleeOf_ok hcallee
  cases found with
  | routine id =>
    obtain ⟨_, d, hargs, hend⟩ := bind_eq_ok.mp hrest
    exact Places.arguments hargs ((Spares.emit1 _ _).discard (Nat.le_refl _) hend).2
  | primitive name =>
    obtain ⟨_, d, hargs, hend⟩ := bind_eq_ok.mp hrest
    have hrest : Spares (fun _ => True) b.code.size d.code.size
        (addConst (.string (.text name)) >>= fun i => discard (emit1 .callPrimitive i)) fun _ => True :=
      .withConst trivial .callPrimitive
    exact Places.arguments hargs (hrest (Nat.le_refl _) hend).2
  | none => exact absurd hrest refuseCall_ok

theorem places_block {body : List Node} {a c : Assembly} (h : outcome (visitBlock body) a = (.ok (), c)) :
    ∀ s ∈ startsAll (do openScope; discard (emit1 .enterScope (-1))) body, Places a c s := by
  rw [visitBlock, bind_ok outcome_openScope] at h
  obtain ⟨enter, b, henter, h⟩ := bind_eq_ok.mp h
  obtain ⟨_, d, hbody, hend⟩ := bind_eq_ok.mp h
  obtain ⟨hlt, hsize, hemit⟩ := emit1_ok henter
  have hbefore : outcome (do openScope; discard (emit1 .enterScope (-1))) a = (.ok (), b) := by
    rw [bind_ok outcome_openScope]
    exact hemit
  exact Places.all hbefore hsize hbody (Spares.blockEnd (.inl hlt) (Nat.le_refl _) hend).2

/-- Each part of a node is compiled, and its code is kept to the end of the node. -/
theorem places_starts {n : Node} {a c : Assembly} (h : outcome (visit n) a = (.ok (), c)) :
    ∀ s ∈ starts n, Places a c s := by
  cases n with
  | program body =>
    rw [visit] at h
    exact places_block h
  | block body =>
    rw [visit] at h
    exact places_block h
  | exprStat e =>
    rw [visit] at h
    obtain ⟨_, b, he, hrest⟩ := bind_eq_ok.mp h
    exact forall_mem_singleton.mpr (.first he (.emit _) hrest)
  | print args =>
    rw [visit] at h
    obtain ⟨_, b, hargs, hrest⟩ := bind_eq_ok.mp h
    exact Places.printed rfl (Nat.le_refl _) hargs (Spares.emit _ (Nat.le_refl _) hrest).2
  | unary op e =>
    rw [visit] at h
    obtain ⟨_, b, he, hrest⟩ := bind_eq_ok.mp h
    refine forall_mem_singleton.mpr (.first he ?_ hrest)
    split
    · exact .emit _
    · exact (Spares.of_frozen (.ofFault _)).bind fun _ _ => .throw _
  | binary op left right => exact places_binary h
  | ifThen cond yes =>
    rw [visit] at h
    obtain ⟨_, b, hcond, htest⟩ := bind_eq_ok.mp h
    obtain ⟨skip, d, hskip, hrest⟩ := bind_eq_ok.mp htest
    obtain ⟨_, e, hyes, hend⟩ := bind_eq_ok.mp hrest
    obtain ⟨hlt, hsize, hemit⟩ := emit1_ok hskip
    refine forall_mem_cons.mpr ⟨Places.first hcond ?_ htest, forall_mem_singleton.mpr ?_⟩
    · exact (Spares.emit1 _ _).bind fun skip hskip => (spares_any yes _ _).bind fun _ _ =>
        .patchHere hskip
    · exact Places.after hyes (bind_eq_ok.mpr ⟨(), b, hcond, hemit⟩) (Nat.le_trans (size_le_visit hcond) hsize)
        (.patchHere (.inl hlt)) hend
  | ifElse cond yes no => exact places_ifElse h
  | loop cond body => exact places_loop h
  | define x value =>
    cases value with
    | function params body => exact places_function h
    | _ => exact forall_mem_singleton.mpr (places_define (by simp) h)
  | assign x value =>
    rw [visit] at h
    obtain ⟨_, b, hvalue, hrest⟩ := bind_eq_ok.mp h
    exact forall_mem_singleton.mpr (.first hvalue (.emitAssign x) hrest)
  | returnValue value =>
    rw [visit, bind_ok (outcome_get a)] at h
    dsimp only at h
    split at h
    · cases h
    · obtain ⟨_, b, hvalue, hrest⟩ := bind_eq_ok.mp h
      exact forall_mem_singleton.mpr (.first hvalue (.emit _) hrest)
  | call callee args => exact places_call h
  | «return» | breakLoop | continueLoop | name | literal | function | procedure | statements | quote | surplus
  | nonSequence | odd => exact fun s hs => by cases hs

/-! ## Every literal is reached -/

theorem Reaches.spared {n m : Node} {a b : Assembly} (hreaches : Reaches n a m b) :
    ∀ {c : Assembly}, outcome (visit n) a = (.ok (), c) → a.code.size ≤ b.code.size ∧
      ∃ b', outcome (visit m) b = (.ok (), b') ∧ Spared (fun _ => True) b.code.size b'.code.size b' c := by
  induction hreaches with
  | here n a =>
    intro c h
    exact ⟨Nat.le_refl _, c, h, .of_frozen rfl rfl⟩
  | within hmem hbefore _ ih =>
    intro c h
    obtain ⟨_, d', hbefore', hsize, hpart, hkept⟩ := places_starts h _ hmem
    cases hbefore.symm.trans hbefore'
    obtain ⟨hsize', e, hm, hspared⟩ := ih hpart
    exact ⟨Nat.le_trans hsize hsize', e, hm, hspared.trans (hkept.narrow hsize' hspared.size)⟩

@[simp] theorem parts_startsAll (before : CompileM Unit) (ns : List Node) : (startsAll before ns).map Prod.snd = ns := by
  induction ns generalizing before with
  | nil => rfl
  | cons n ns ih => rw [startsAll, map_cons, ih]

@[simp] theorem parts_startsPrinted (before : CompileM Unit) (ns : List Node) :
    (startsPrinted before ns).map Prod.snd = ns := by
  induction ns generalizing before with
  | nil => rfl
  | cons n ns ih => rw [startsPrinted, map_cons, ih]

@[simp] theorem parts_startsArguments (ns : List Node) : (startsArguments ns).map Prod.snd = ns := by
  induction ns with
  | nil => rfl
  | cons n ns ih => rw [startsArguments, map_cons, ih]

theorem parts_startsBinary {op : Datum} {left right m : Node} :
    m ∈ (starts (.binary op left right)).map Prod.snd ↔ m = left ∨ m = right := by
  rw [starts]
  split
  · simp
  · split
    · simp [or_comm]
    · simp

theorem starts_define {x : Datum} {value : Node} (hfunction : ∀ params body, value ≠ .function params body) :
    starts (.define x value) = [(pure (), value)] := by
  cases value with
  | function params body => exact absurd rfl (hfunction params body)
  | _ => rfl

/-- A part of a node that is compiled is smaller than the node. -/
theorem sizeOf_starts {n m : Node} (h : m ∈ (starts n).map Prod.snd) : sizeOf m < sizeOf n := by
  cases n with
  | program body | block body | print args | call callee args =>
    simp only [starts, parts_startsAll, parts_startsPrinted, parts_startsArguments] at h
    have hlt := sizeOf_lt_of_mem h
    simp only [program.sizeOf_spec, block.sizeOf_spec, print.sizeOf_spec, call.sizeOf_spec]
    omega
  | exprStat e | unary op e | assign x e | returnValue e =>
    cases mem_singleton.mp h
    simp only [exprStat.sizeOf_spec, unary.sizeOf_spec, assign.sizeOf_spec, returnValue.sizeOf_spec]
    omega
  | binary op left right =>
    rw [binary.sizeOf_spec]
    rcases parts_startsBinary.mp h with rfl | rfl
    · omega
    · omega
  | ifThen first second | loop first second =>
    simp only [ifThen.sizeOf_spec, loop.sizeOf_spec]
    rcases mem_cons.mp h with rfl | h
    · omega
    · obtain rfl : m = second := mem_singleton.mp h
      omega
  | ifElse cond yes no =>
    rw [ifElse.sizeOf_spec]
    rcases mem_cons.mp h with rfl | h
    · omega
    rcases mem_cons.mp h with rfl | h
    · omega
    obtain rfl : m = no := mem_singleton.mp h
    omega
  | define x value =>
    rw [define.sizeOf_spec]
    by_cases hfunction : ∃ params body, value = .function params body
    · obtain ⟨params, body, rfl⟩ := hfunction
      obtain rfl : m = body := mem_singleton.mp h
      rw [function.sizeOf_spec]
      omega
    · rw [starts_define fun params body hvalue => hfunction ⟨params, body, hvalue⟩] at h
      obtain rfl : m = value := mem_singleton.mp h
      omega
  | _ => cases h

theorem mem_partsAll {m : Node} {ns : List Node} : m ∈ partsAll ns ↔ ∃ n ∈ ns, m ∈ parts n := by
  induction ns with
  | nil => simp [partsAll]
  | cons n ns ih => simp [partsAll, ih]

/-- A literal inside a tree that compiles is the tree or inside a part that is compiled. -/
theorem mem_parts_starts {n : Node} {a c : Assembly} (h : outcome (visit n) a = (.ok (), c)) {kind : LiteralKind}
    {fields : List Datum} (hm : .literal kind fields ∈ parts n) :
    n = .literal kind fields ∨ ∃ m ∈ (starts n).map Prod.snd, .literal kind fields ∈ parts m := by
  cases n with
  | program body | block body | print args =>
    refine .inr ?_
    simp only [starts, parts_startsAll, parts_startsPrinted]
    simpa [parts, mem_partsAll] using hm
  | call callee args =>
    obtain ⟨x, rfl⟩ := exists_name_of_call h
    refine .inr ?_
    simp only [starts, parts_startsArguments]
    simpa [parts, mem_partsAll] using hm
  | exprStat e | unary op e | assign x e | returnValue e =>
    refine .inr ?_
    simpa [parts, starts] using hm
  | binary op left right =>
    refine .inr ?_
    simp only [parts_startsBinary]
    simpa [parts] using hm
  | ifThen first second | loop first second =>
    refine .inr ?_
    simpa [parts, starts] using hm
  | ifElse cond yes no =>
    refine .inr ?_
    simpa [parts, starts] using hm
  | define x value =>
    refine .inr ?_
    by_cases hfunction : ∃ params body, value = .function params body
    · obtain ⟨params, body, rfl⟩ := hfunction
      simpa [parts, starts] using hm
    · rw [starts_define fun params body hvalue => hfunction ⟨params, body, hvalue⟩]
      simpa [parts] using hm
  | literal kind' fields' => exact .inl (mem_singleton.mp hm).symm
  | function params body =>
    rw [visit] at h
    cases h
  | _ => exact absurd (mem_singleton.mp hm) (by simp)

theorem exists_reaches {kind : LiteralKind} {fields : List Datum} (n : Node) {a c : Assembly}
    (h : outcome (visit n) a = (.ok (), c)) (hm : .literal kind fields ∈ parts n) :
    ∃ b, Reaches n a (.literal kind fields) b := by
  rcases mem_parts_starts h hm with rfl | ⟨m, hmem, hinner⟩
  · exact ⟨a, .here _ _⟩
  · obtain ⟨⟨before, m⟩, hstart, rfl⟩ := mem_map.mp hmem
    obtain ⟨b, b', hbefore, -, hvisit, -⟩ := places_starts h _ hstart
    have hlt := sizeOf_starts hmem
    obtain ⟨d, hreaches⟩ := exists_reaches m hvisit hinner
    exact ⟨d, .within hstart hbefore hreaches⟩
termination_by sizeOf n

/-! ## What is loaded -/

/-- The constant that stands for another one in a table: the first that is equal to it, or else itself. -/
def sharedIn (consts : Array Datum) (c : Datum) : Datum := (consts.find? fun d => d.eq c).getD c

theorem sharedIn_eq {consts : Array Datum} {c : Datum} (h : ∀ d ∈ consts, d.eq c = true → d = c) : sharedIn consts c = c := by
  rw [sharedIn]
  cases hfind : consts.find? fun d => d.eq c with
  | none => rfl
  | some d =>
    have heq := (Array.find?_eq_some_iff_getElem.mp hfind).1
    exact h d (Array.mem_of_find?_eq_some hfind) heq

theorem outcome_emitConst (a : Assembly) (c : Datum) : ∃ (i : Nat) (consts : Array Datum),
    outcome (emitConst c) a = (.ok (), { a with code := a.code ++ #[Opcode.loadConst.word, (i : Int)], consts := consts }) ∧
      consts[i]? = some (sharedIn a.consts c) := by
  have hload : ∀ {i : Nat} {consts : Array Datum}, outcome (addConst c) a = (.ok i, { a with consts := consts }) →
      outcome (emitConst c) a =
        (.ok (), { a with code := a.code ++ #[Opcode.loadConst.word, (i : Int)], consts := consts }) := by
    intro i consts hadd
    unfold emitConst
    rw [bind_ok hadd, outcome_discard, outcome_emit1]
    rfl
  cases hindex : a.consts.findIdx? fun d => d.eq c with
  | some i =>
    obtain ⟨hlt, heq, hleast⟩ := Array.findIdx?_eq_some_iff_getElem.mp hindex
    have hfind : (a.consts.find? fun d => d.eq c) = some a.consts[i] :=
      Array.find?_eq_some_iff_getElem.mpr ⟨heq, i, hlt, rfl, fun j hj => by simpa using hleast j hj⟩
    refine ⟨i, a.consts, hload ?_, ?_⟩
    · unfold addConst
      rw [bind_ok (outcome_get a), hindex]
      rfl
    · rw [sharedIn, hfind, Array.getElem?_eq_getElem hlt]
      rfl
  | none =>
    have hfind : (a.consts.find? fun d => d.eq c) = none := by
      refine Array.find?_eq_none.mpr fun d hd => ?_
      rw [Array.findIdx?_eq_none_iff.mp hindex d hd]
      decide
    refine ⟨a.consts.size, a.consts.push c, hload ?_, ?_⟩
    · unfold addConst
      rw [bind_ok (outcome_get a), hindex]
      rfl
    · rw [sharedIn, hfind, Array.getElem?_push_size]
      rfl

/-- The code of a literal from the table, wherever compiling a tree comes to it. -/
theorem Reaches.loads {n : Node} {a b c : Assembly} {kind : LiteralKind} {fields : List Datum}
    (hreaches : Reaches n a (.literal kind fields) b) (hkind : kind.Pooled) (h : outcome (visit n) a = (.ok (), c)) :
    Extends b.consts c.consts ∧ ∃ i : Nat, c.program.Holds b.code.size [Opcode.loadConst.word, (i : Int)] ∧
      c.program.consts[i]? = some (sharedIn b.consts (form kind.tag fields)) := by
  obtain ⟨-, b', hvisit, hkept⟩ := hreaches.spared h
  have hemit : outcome (emitConst (form kind.tag fields)) b = (.ok (), b') := by
    rw [visit] at hvisit
    rcases hkind with rfl | rfl
    · exact hvisit
    · exact hvisit
  have hconsts : Extends b.consts b'.consts := (spares_any _ 0 _ (Nat.le_refl _) hvisit).2.consts
  obtain ⟨i, consts, hload, hshared⟩ := outcome_emitConst b (form kind.tag fields)
  cases hload.symm.trans hemit
  have hagrees : c.program.Agrees b.code.size (b.code ++ #[Opcode.loadConst.word, (i : Int)]) := by
    intro k w hk hw
    exact (hkept.code k hk (Array.getElem?_eq_some_iff.mp hw).1).trans hw
  exact ⟨hconsts.trans hkept.consts, i, hagrees.holds (Nat.le_refl _), hkept.consts _ _ hshared⟩

end CompileM

namespace Node

/-- A literal of the tree that is loaded from the table of constants. -/
def HasConstant (node : Node) (c : Datum) : Prop :=
  ∃ kind fields, LiteralKind.Pooled kind ∧ .literal kind fields ∈ node.parts ∧ c = form kind.tag fields

/-- A name of a primitive is equal to no literal but the same text. -/
theorem eq_form_of_string {name tag : String} {fields : List Datum}
    (h : (Datum.string (.text name)).eq (form tag fields) = true) : Datum.string (.text name) = form tag fields := by
  obtain ⟨items, hitems, heq⟩ := Datum.exists_list_of_eq h
  cases hitems
  rw [Datum.eqItems, Bool.and_eq_true] at heq
  cases fields with
  | nil => cases heq.2
  | cons d rest =>
    rw [Datum.eqItems, Bool.and_eq_true, Datum.text_eq_iff, Datum.text_eq_iff] at heq
    obtain ⟨htag, rfl, hrest⟩ := heq
    cases htag
    cases rest with
    | nil => rfl
    | cons => cases hrest

/-- Among the constants that a tree brings, literals and indices of functions alone can be equal to a literal without
being the same. -/
theorem Brings.eq_form {node : Node} {d : Datum} (hd : Brings node.parts d) {tag : String} {fields : List Datum}
    (hdistinct : ∀ d, node.HasConstant d ∨ (∃ id : Nat, d = .number (.int id)) → d.eq (form tag fields) = true →
      d = form tag fields) (h : d.eq (form tag fields) = true) : d = form tag fields := by
  cases hd with
  | literal hkind hmem => exact hdistinct _ (.inl ⟨_, _, hkind, hmem, rfl⟩) h
  | index id => exact hdistinct _ (.inr ⟨id, rfl⟩) h
  | primitive name => exact eq_form_of_string h

end Node

open Acting CompileM Node

/-- Every number and text of a tree that compiles is compiled, and in the program a constant is loaded where it was: the
first constant equal to it that the table had by then, and the literal itself if it had none. So the literal is loaded
as it is written unless another literal or the index of a function is equal to it and yet not the same. -/
theorem Program.literal_loaded {primitives : List String} {node : Node} {p : Program}
    (h : Program.ofNode primitives node = .ok p) :
    ∃ a, outcome (register node) { primitives := primitives } = (.ok (), a) ∧
      ∀ kind fields, LiteralKind.Pooled kind → .literal kind fields ∈ node.parts →
        (∃ b, Reaches node a (.literal kind fields) b) ∧
        ∀ b, Reaches node a (.literal kind fields) b →
          ∃ i : Nat, p.Holds b.code.size [Opcode.loadConst.word, (i : Int)] ∧
            p.consts[i]? = some (sharedIn b.consts (form kind.tag fields)) ∧
            ((∀ d, node.HasConstant d ∨ (∃ id : Nat, d = .number (.int id)) → d.eq (form kind.tag fields) = true →
              d = form kind.tag fields) → p.consts[i]? = some (form kind.tag fields)) := by
  obtain ⟨c, hcompile, rfl⟩ := Program.exists_compiled h
  obtain ⟨_, a, hregister, hvisit⟩ := bind_eq_ok.mp hcompile
  refine ⟨a, hregister, fun kind fields hkind hmem => ⟨exists_reaches node hvisit hmem, fun b hreaches => ?_⟩⟩
  obtain ⟨hconsts, i, hholds, hshared⟩ := hreaches.loads hkind hvisit
  refine ⟨i, hholds, hshared, fun hdistinct => ?_⟩
  -- the table is empty before the tree, so each constant in it was brought by the tree
  have hnone : a.consts = #[] := (Confined.register (R := Assembly.SameCode) node hregister).2
  have hspared : Assembly.Spared (Brings node.parts) 0 0 a c :=
    ((Spares.walk id).visit node (List.Subset.refl _) (Nat.zero_le _) hvisit).2
  rw [hshared, sharedIn_eq]
  intro d hd heq
  obtain ⟨j, hget⟩ := Array.getElem?_of_mem hd
  rcases hspared.origin d (Array.mem_of_getElem? (hconsts j d hget)) with hbefore | hbrings
  · rw [hnone] at hbefore
    exact absurd hbefore (Array.not_mem_empty d)
  · exact hbrings.eq_form hdistinct heq

/-- A truth value among numbers is equal to one, and loaded as one if that comes first. -/
theorem Program.equal_constant_loaded :
    let node : Node := .program [.exprStat (.literal .num [.int 1]), .exprStat (.literal .num [.bool true])]
    ∃ p a b i, Program.ofNode [] node = .ok p ∧ outcome (register node) {} = (.ok (), a) ∧
      Reaches node a (.literal .num [.bool true]) b ∧ p.Holds b.code.size [Opcode.loadConst.word, ((i : Nat) : Int)] ∧
        p.consts[i]? = some (.number (.int 1)) := by
  intro node
  have hnode : Program.ofNode [] node =
      .ok ⟨#[13, 0, 1, 0, 12, 1, 0, 12, 14], #[.number (.int 1)], #[#[], #[]], #[]⟩ := by
    unfold node
    cbv
  obtain ⟨a, hregister, hloads⟩ := Program.literal_loaded hnode
  have hmem : .literal .num [.bool true] ∈ node.parts := by simp [node, parts, partsAll]
  obtain ⟨⟨b, hreaches⟩, hall⟩ := hloads .num [.bool true] (.inl rfl) hmem
  obtain ⟨i, hholds, hconst, -⟩ := hall b hreaches
  obtain ⟨hi, hget⟩ := Array.getElem?_eq_some_iff.mp hconst
  obtain rfl : i = 0 := Nat.lt_one_iff.mp hi
  exact ⟨_, a, b, 0, hnode, hregister, hreaches, hholds, rfl⟩

end Cilly
