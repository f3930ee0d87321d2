import Cilly.Proofs.Constants
import Cilly.Proofs.Detours
import Cilly.Proofs.FunctionTable

/-!
# Code that is laid out twice

The same tree can be laid out from different points, in two programs. Then it has the same instructions at other addresses, and they lead to
places that correspond. `Leads` says so of pieces of code: from where they are entered to where they are left, all places in between match.
Pieces are put together as the code is: one after the other (`Leads.seq`), and around in a loop (`Leads.cycle`).

For this names have to stand for the same at both points (`Names.Near`). They need not do so for names that the tree does not have.
-/

namespace Cilly

open Acting Node

/-! ## Pieces of code -/

/-- Tables that differ in the entries of their functions only, which are related. -/
def Alike (R : Int → Int → Prop) (t t' : Array Routine) : Prop :=
  ∀ i : Nat, Option.Rel (fun r r' : Routine => r'.name = r.name ∧ r'.params = r.params ∧
    ∃ entry entry', r.entry = some entry ∧ r'.entry = some entry' ∧ R entry entry') t[i]? t'[i]?

/-- Where code may go other than on: out of a loop, back to its start, or to a function. -/
structure Abroad (p p' : Program) (R : Int → Int → Prop) (shape shape' : List Mark) : Prop where
  away : R (-1) (-1)
  again : ∀ {start stop start' stop' : Nat}, innermost? shape = some (start, stop) → innermost? shape' = some (start', stop') →
    R start start'
  entries : Alike R p.routines p'.routines

/-- Two pieces of code that do the same. They are entered at the first places, and what they do not do is left to the others. -/
def Leads (p p' : Program) (test : Int) (shape shape' : List Mark) (entries exits : List (Nat × Nat)) : Prop :=
  ∃ inner : Int → Int → Prop, (∀ x ∈ entries, inner x.1 x.2 ∨ x ∈ exits) ∧
    ∀ R : Int → Int → Prop, (∀ a a', inner a a' → R a a') → (∀ x ∈ exits, R x.1 x.2) → Abroad p p' R shape shape' →
      ∀ a a', inner a a' → Matched p p' R test a a'

namespace Leads

variable {p p' : Program} {test : Int} {shape shape' : List Mark} {entries entries' exits exits' out : List (Nat × Nat)}

theorem single {a a' : Nat} (h : ∀ R : Int → Int → Prop, (∀ x ∈ exits, R x.1 x.2) → Abroad p p' R shape shape' →
    Matched p p' R test a a') : Leads p p' test shape shape' [(a, a')] exits := by
  refine ⟨fun b b' => b = a ∧ b' = a', fun x hx => .inl ?_, fun R _ hexits habroad b b' hb => ?_⟩
  · rw [List.mem_singleton.mp hx]
    exact ⟨rfl, rfl⟩
  · rw [hb.1, hb.2]
    exact h R hexits habroad

theorem none (x : Nat × Nat) : Leads p p' test shape shape' [x] [x] :=
  ⟨fun _ _ => False, fun _ hy => .inr hy, fun _ _ _ _ _ _ ha => ha.elim⟩

theorem mono (h : Leads p p' test shape shape' entries exits) (hentries : ∀ x ∈ entries', x ∈ entries)
    (hexits : ∀ x ∈ exits, x ∈ exits') : Leads p p' test shape shape' entries' exits' := by
  obtain ⟨inner, hinner, hmatched⟩ := h
  exact ⟨inner, fun x hx => (hinner x (hentries x hx)).imp_right (hexits x), fun R hR hout => hmatched R hR fun x hx => hout x (hexits x hx)⟩

/-- Pieces of which the second one goes on where the first one ends. -/
theorem seq (h : Leads p p' test shape shape' entries exits) (h' : Leads p p' test shape shape' entries' exits')
    (hexits : ∀ x ∈ exits, x ∈ entries' ∨ x ∈ out) (hexits' : ∀ x ∈ exits', x ∈ out) :
    Leads p p' test shape shape' (entries ++ entries') out := by
  obtain ⟨inner, hinner, hmatched⟩ := h
  obtain ⟨inner', hinner', hmatched'⟩ := h'
  have hthen : ∀ x ∈ entries', inner' x.1 x.2 ∨ x ∈ out := fun x hx => (hinner' x hx).imp_right (hexits' x)
  refine ⟨fun a a' => inner a a' ∨ inner' a a', fun x hx => ?_, fun R hR hout habroad a a' ha => ?_⟩
  · rcases List.mem_append.mp hx with hx | hx
    · rcases hinner x hx with hx | hx
      · exact .inl (.inl hx)
      · rcases hexits x hx with hx | hx
        · exact (hthen x hx).imp_left .inr
        · exact .inr hx
    · exact (hthen x hx).imp_left .inr
  · have hR' : ∀ x ∈ entries', R x.1 x.2 := fun x hx => (hthen x hx).elim (fun hx => hR _ _ (.inr hx)) (hout x)
    rcases ha with ha | ha
    · exact hmatched R (fun b b' hb => hR b b' (.inl hb)) (fun x hx => (hexits x hx).elim (hR' x) (hout x)) habroad a a' ha
    · exact hmatched' R (fun b b' hb => hR b b' (.inr hb)) (fun x hx => hout x (hexits' x hx)) habroad a a' ha

theorem next {first middle last : Nat × Nat} (h : Leads p p' test shape shape' [first] [middle])
    (h' : Leads p p' test shape shape' [middle] [last]) : Leads p p' test shape shape' [first] [last] :=
  (h.seq h' (by simp) fun _ hx => hx).mono (by simp) fun _ hx => hx

/-- Code that leads on to other code, from which it is entered again. -/
theorem cycle {first last : Nat × Nat} (h : Leads p p' test shape shape' [first] [last]) (hne : first ≠ last)
    (h' : Leads p p' test shape shape' entries (first :: out)) (hlast : last ∈ entries) :
    Leads p p' test shape shape' (first :: entries) out := by
  obtain ⟨inner, hinner, hmatched⟩ := h
  obtain ⟨inner', hinner', hmatched'⟩ := h'
  have hfirst : inner first.1 first.2 := by
    rcases hinner first (List.mem_singleton_self _) with h | h
    · exact h
    · exact absurd (List.mem_singleton.mp h) hne
  have hthen : ∀ x ∈ entries, (inner x.1 x.2 ∨ inner' x.1 x.2) ∨ x ∈ out := by
    intro x hx
    rcases hinner' x hx with hx | hx
    · exact .inl (.inr hx)
    · rcases List.mem_cons.mp hx with rfl | hx
      · exact .inl (.inl hfirst)
      · exact .inr hx
  refine ⟨fun a a' => inner a a' ∨ inner' a a', fun x hx => ?_, fun R hR hout habroad a a' ha => ?_⟩
  · rcases List.mem_cons.mp hx with rfl | hx
    · exact .inl (.inl hfirst)
    · exact hthen x hx
  · rcases ha with ha | ha
    · refine hmatched R (fun b b' hb => hR b b' (.inl hb)) (fun x hx => ?_) habroad a a' ha
      rw [List.mem_singleton.mp hx]
      exact (hthen last hlast).elim (hR _ _) (hout last)
    · refine hmatched' R (fun b b' hb => hR b b' (.inr hb)) (fun x hx => ?_) habroad a a' ha
      rcases List.mem_cons.mp hx with rfl | hx
      · exact hR _ _ (.inl hfirst)
      · exact hout x hx

theorem around {shape₁ shape₁' : List Mark} (h : Leads p p' test shape₁ shape₁' entries exits)
    (hshape : ∀ R : Int → Int → Prop, (∀ x ∈ exits, R x.1 x.2) → Abroad p p' R shape shape' → Abroad p p' R shape₁ shape₁') :
    Leads p p' test shape shape' entries exits := by
  obtain ⟨inner, hinner, hmatched⟩ := h
  exact ⟨inner, hinner, fun R hR hout habroad => hmatched R hR hout (hshape R hout habroad)⟩

end Leads

/-! ## Instructions -/

/-- An instruction stands at an address and is about what it should be: about the very constant, about a variable, about a function that
there is. -/
structure Instr.Sound (p : Program) (address : Nat) (instr : Instr) : Prop where
  stands : instr.In p address
  const : ∀ {c : Datum} {i : Nat}, instr.constant? = some c → p.HasConst i c → p.consts[i]? = some c
  access : ∀ {depth index : Int}, instr = .load depth index ∨ instr = .store depth index → ∃ d : Nat, depth = d
  call : ∀ {id : Nat}, instr = .call id → ∃ r, p.routines[id]? = some r ∧
    MachineM.frameSize r.params p.scopes.toList = .ok r.params.length

/-- All instructions of a layout are sound. -/
def Program.Bears (p : Program) (spots : List Spot) : Prop := ∀ x ∈ spots, x.instr.Sound p x.address

section

variable {p : Program} {spots more : List Spot} {spot : Spot}

@[simp] theorem bears_cons : p.Bears (spot :: spots) ↔ spot.instr.Sound p spot.address ∧ p.Bears spots := List.forall_mem_cons

@[simp] theorem bears_append : p.Bears (spots ++ more) ↔ p.Bears spots ∧ p.Bears more := List.forall_mem_append

end

/-- Instructions that lead on to the next one, or nowhere that depends on the place where they stand. -/
def Instr.Steady : Instr → Prop
  | .jump _ | .branch _ _ | .continueLoop _ => False
  | _ => True

namespace Leads

variable {p p' : Program} {test : Int} {shape shape' : List Mark} {a a' : Nat}

theorem same {instr : Instr} (hsteady : instr.Steady) (h : instr.Sound p a) (h' : instr.Sound p' a') :
    Leads p p' test shape shape' [(a, a')] [(a + instr.size, a' + instr.size)] := by
  refine .single fun R hexits habroad => ?_
  have hon : R ((a : Int) + (instr.size : Nat)) ((a' : Int) + (instr.size : Nat)) := by
    simpa using hexits _ (List.mem_singleton_self _)
  have hin := h.stands
  have hin' := h'.stands
  cases instr with
  | const c =>
    obtain ⟨i, hholds, hconst⟩ := hin
    obtain ⟨i', hholds', hconst'⟩ := hin'
    exact .met (.twin hholds.first hholds'.first (.const (.inl rfl) hholds.second hholds'.second
      (itemAt_of_getElem? (h.const rfl hconst)) (itemAt_of_getElem? (h'.const rfl hconst')) hon))
  | primitive y =>
    obtain ⟨i, hholds, hconst⟩ := hin
    obtain ⟨i', hholds', hconst'⟩ := hin'
    exact .met (.twin hholds.first hholds'.first (.const (.inr rfl) hholds.second hholds'.second
      (itemAt_of_getElem? (h.const rfl hconst)) (itemAt_of_getElem? (h'.const rfl hconst')) hon))
  | plain op => exact .met (.twin hin.2.first hin'.2.first (.plain hin.1 hin.2.first hin'.2.first hon))
  | load depth index =>
    obtain ⟨d, rfl⟩ := h.access (.inl rfl)
    exact .met (.twin hin.first hin'.first (.access (.inl rfl) hin.second hin'.second hin.third hin'.third hon))
  | store depth index =>
    obtain ⟨d, rfl⟩ := h.access (.inr rfl)
    exact .met (.twin hin.first hin'.first (.access (.inr rfl) hin.second hin'.second hin.third hin'.third hon))
  | breakLoop => exact .met (.twin hin.first hin'.first (.jump hin.second hin'.second habroad.away))
  | enter count => exact .met (.twin hin.first hin'.first (.enter hin.second hin'.second hon))
  | leave => exact .met (.twin hin.first hin'.first (.leave hon))
  | call id =>
    obtain ⟨r, hr, hsize⟩ := h.call rfl
    obtain ⟨r', hr', hsize'⟩ := h'.call rfl
    have hrel := habroad.entries id
    rw [hr, hr'] at hrel
    cases hrel with
    | some hrel =>
      obtain ⟨-, hparams, entry, entry', hentry, hentry', hR⟩ := hrel
      exact .met (.twin hin.first hin'.first (.call hin.second hin'.second hr hr' (by rw [hparams])
        (by rw [hsize, hsize', hparams]) hentry hentry' hR hon))
  | «return» => exact .met (.twin hin.first hin'.first (.back (.inl rfl) fun _ _ hback => hback))
  | returnValue => exact .met (.twin hin.first hin'.first (.back (.inr rfl) fun _ _ hback => hback))
  | refused => exact hin.elim
  | jump | branch | continueLoop => exact hsteady.elim

theorem plain {op : Opcode} (h : (Instr.plain op).Sound p a) (h' : (Instr.plain op).Sound p' a') :
    Leads p p' test shape shape' [(a, a')] [(a + 1, a' + 1)] := same (show (Instr.plain op).Steady from trivial) h h'

theorem across {x x' : Scene} {b b' : Nat} {ends ends' : List Nat} (hpasses : x.Passes b ends) (hpasses' : x'.Passes b' ends')
    (hsame : x'.instr = x.instr) (h : x.instr.Sound p x.address) (h' : x'.instr.Sound p' x'.address) :
    Leads p p' test shape shape' [(x.address, x'.address)] [(b, b')] := by
  have hnext : ∀ {x : Scene} {p : Program} {b : Nat} {ends : List Nat}, x.Passes b ends → x.instr.Sound p x.address →
      b = x.address + x.instr.size ∧ x.instr.Steady := by
    rintro x p b ends ⟨⟨-, hspans⟩, hgoes⟩ hsound
    cases hinstr : x.instr with
    | refused => exact (hinstr ▸ hsound.stands).elim
    | jump | branch | continueLoop => simp [hinstr, Instr.isStraight] at hgoes
    | _ => exact ⟨by simpa [hinstr] using hspans, trivial⟩
  obtain ⟨rfl, hsteady⟩ := hnext hpasses h
  rw [(hnext hpasses' h').1]
  rw [hsame] at h' ⊢
  exact same hsteady h h'

theorem jump {t t' : Nat} (h : (Instr.jump t).Sound p a) (h' : (Instr.jump t').Sound p' a') :
    Leads p p' test shape shape' [(a, a')] [(t, t')] :=
  .single fun _ hexits _ => .met (.twin h.stands.first h'.stands.first
    (.jump h.stands.second h'.stands.second (hexits _ (List.mem_singleton_self _))))

theorem branch {op : Opcode} {t t' : Nat} (h : (Instr.branch op t).Sound p a) (h' : (Instr.branch op t').Sound p' a') :
    Leads p p' test shape shape' [(a, a')] [(t, t'), (a + 2, a' + 2)] :=
  .single fun _ hexits _ => .met (.twin h.stands.2.first h'.stands.2.first (.branch h.stands.1 h.stands.2.second h'.stands.2.second
    (hexits _ (List.mem_cons_self ..)) (hexits _ (List.mem_cons_of_mem _ (List.mem_singleton_self _)))))

theorem again {start stop start' stop' : Nat} (hshape : innermost? shape = some (start, stop)) (hshape' : innermost? shape' = some (start', stop'))
    (h : (Instr.continueLoop start).Sound p a) (h' : (Instr.continueLoop start').Sound p' a') :
    Leads p p' test shape shape' [(a, a')] [] :=
  .single fun _ _ habroad => .met (.twin h.stands.first h'.stands.first
    (.jump h.stands.second h'.stands.second (habroad.again hshape hshape')))

end Leads

/-! ## Names -/

/-- Names stand for the same at two points, except for those to be avoided. `own` are the scopes that both have in common. -/
structure Names.Near (avoid : Datum → Prop) (own : List (Array Datum)) (c c' : Names) : Prop where
  visible : ∃ around around', c.visible = own ++ around ∧ c'.visible = own ++ around' ∧
    ∀ x, ¬ avoid x → Assembly.find? x around' = Assembly.find? x around
  index : ∀ x, ¬ avoid x → c'.routineIndex? x = c.routineIndex? x

namespace Names.Near

variable {avoid : Datum → Prop} {own : List (Array Datum)} {c c' : Names} {prims : List String} {x : Datum}

theorem find? (h : Near avoid own c c') (hx : ¬ avoid x) : Assembly.find? x c'.visible = Assembly.find? x c.visible := by
  obtain ⟨around, around', hvisible, hvisible', haround⟩ := h.visible
  rw [hvisible, hvisible']
  clear hvisible hvisible' h
  induction own with
  | nil => exact haround x hx
  | cons names own ih => rw [List.cons_append, List.cons_append, Assembly.find?, Assembly.find?, ih]

theorem place? (h : Near avoid own c c') (hx : ¬ avoid x) : c'.place? prims x = c.place? prims x := by
  unfold Names.place?
  rw [h.find? hx, h.index x hx]

theorem loading (h : Near avoid own c c') (hx : ¬ avoid x) : c'.loading prims x = c.loading prims x := by
  unfold Names.loading
  rw [h.place? hx]

theorem assigning (h : Near avoid own c c') (hx : ¬ avoid x) : c'.assigning prims x = c.assigning prims x := by
  unfold Names.assigning
  rw [h.place? hx]

theorem calling (h : Near avoid own c c') {callee : Node} (hx : ∀ x, ⟨"id", x⟩ ∈ leaves callee → ¬ avoid x) :
    c'.calling prims callee = c.calling prims callee := by
  unfold Names.calling
  split
  · rename_i x
    have hx := hx x (by simp [leaves])
    rw [h.index x hx, h.place? hx]
  · rfl

theorem innermost (h : Near avoid own c c') (hown : own ≠ []) : c'.innermost = c.innermost := by
  obtain ⟨around, around', hvisible, hvisible', -⟩ := h.visible
  unfold Names.innermost
  rw [hvisible, hvisible']
  cases own with
  | nil => exact absurd rfl hown
  | cons names own => rfl

theorem storing (h : Near avoid own c c') (hown : own ≠ []) : c'.storing x = c.storing x := by
  unfold Names.storing Names.slot
  rw [h.innermost hown]

end Names.Near

/-! ## Expressions -/

namespace Layout

variable {prims : List String} {p p' : Program} {test : Int} {shape shape' : List Mark} {avoid : Datum → Prop}
  {own : List (Array Datum)} {c c' : Names}

mutual

theorem expression_leads (hnear : c.Near avoid own c') : ∀ {e : Node}, IsExpr e → (∀ x, ⟨"id", x⟩ ∈ leaves e → ¬ avoid x) →
    ∀ {start start' : Nat} {marks marks' : List Mark}, p.Bears (expression prims marks c start e) →
    p'.Bears (expression prims marks' c' start' e) →
    Leads p p' test shape shape' [(start, start')] [(start + width prims c e, start' + width prims c' e)]
  | _, .name x, hnames, start, start', marks, marks', h, h' => by
    rw [expression, bears_cons] at h h'
    exact .across (loading_passes prims ⟨[], [], none⟩ [] x) (loading_passes prims ⟨[], [], none⟩ [] x)
      (hnear.loading (hnames x (by simp [leaves]))) h.1 h'.1
  | _, .literal kind d, hnames, start, start', marks, marks', h, h' => by
    rw [expression, bears_cons] at h h'
    exact .across (loadingLiteral_passes prims ⟨[], [], none⟩ [] kind [d]) (loadingLiteral_passes prims ⟨[], [], none⟩ [] kind [d])
      rfl h.1 h'.1
  | _, @IsExpr.unary op e he, hnames, start, start', marks, marks', h, h' => by
    rw [expression, bears_append, bears_cons] at h h'
    rw [leaves] at hnames
    rw [width, width]
    exact (expression_leads hnear he hnames h.1 h'.1).next
      (.across (applyingUnary_passes ⟨[], [], none⟩ [] 0 op) (applyingUnary_passes ⟨[], [], none⟩ [] 0 op) rfl h.2.1 h'.2.1)
  | _, @IsExpr.binary op l r hl hr, hnames, start, start', marks, marks', h, h' => by
    rw [leaves] at hnames
    have hnames₁ : ∀ x, ⟨"id", x⟩ ∈ leaves l → ¬ avoid x := fun x hx => hnames x (List.mem_append_left _ hx)
    have hnames₂ : ∀ x, ⟨"id", x⟩ ∈ leaves r → ¬ avoid x := fun x hx => hnames x (List.mem_append_right _ hx)
    rw [expression] at h h'
    rw [width, width]
    cases hshort : CompileM.shortcutOf? op with
    | some pair =>
      simp only [hshort, bears_append, bears_cons] at h h' ⊢
      obtain ⟨hleft, hbranch, hright, hjump, hskipped, -⟩ := h
      obtain ⟨hleft', hbranch', hright', hjump', hskipped', -⟩ := h'
      -- the right operand, or what stands for it
      have hjump : Leads p p' test shape shape' [(_, _)] [(_, _)] := .jump hjump hjump'
      have hend := hjump.seq (.plain hskipped hskipped') (by simp) fun _ hx => hx
      have hrest := (expression_leads hnear hr hnames₂ hright hright').seq hend (by simp) fun _ hx => hx
      have hwhole := (expression_leads hnear hl hnames₁ hleft hleft').seq ((Leads.branch hbranch hbranch').seq hrest (by simp) fun _ hx => hx)
        (by simp) fun _ hx => hx
      have hstop : ∀ c (start : Nat), start + width prims c l + 2 + width prims c r + 2 + 1
          = start + (width prims c l + width prims c r + 5) := by omega
      rw [hstop, hstop] at hwhole
      exact hwhole.mono (by simp) fun _ hx => hx
    | none =>
      simp only [hshort] at h h' ⊢
      rw [← Nat.add_assoc, ← Nat.add_assoc, ← Nat.add_assoc, ← Nat.add_assoc]
      cases hswapped : CompileM.swappedOf? op with
      | some o =>
        simp only [hswapped, bears_append, bears_cons] at h h'
        have hright : Leads p p' test shape shape' _ _ := expression_leads hnear hr hnames₂ h.1 h'.1
        have hwhole := (hright.next (expression_leads hnear hl hnames₁ h.2.1 h'.2.1)).next (.plain h.2.2.1 h'.2.2.1)
        rw [Nat.add_right_comm start, Nat.add_right_comm start'] at hwhole
        exact hwhole
      | none =>
        simp only [hswapped, bears_append, bears_cons] at h h'
        exact ((expression_leads hnear hl hnames₁ h.1 h'.1).next (expression_leads hnear hr hnames₂ h.2.1 h'.2.1)).next
          (.across (applyingBinary_passes ⟨[], [], none⟩ [] 0 0 op) (applyingBinary_passes ⟨[], [], none⟩ [] 0 0 op) rfl h.2.2.1 h'.2.2.1)
  | _, @IsExpr.call callee args hcallee hargs, hnames, start, start', marks, marks', h, h' => by
    rw [expression, bears_append, bears_cons] at h h'
    rw [leaves] at hnames
    rw [width, width]
    have hsame : c'.calling prims callee = c.calling prims callee :=
      hnear.calling fun x hx => hnames x (List.mem_append_left _ hx)
    exact (arguments_leads hnear hargs (fun x hx => hnames x (List.mem_append_right _ hx)) h.1 h'.1).next
      (.across (calling_passes prims ⟨[], [], none⟩ [] 0 callee args) (calling_passes prims ⟨[], [], none⟩ [] 0 callee args) hsame
        h.2.1 h'.2.1)
  | _, .function xs _, hnames, start, start', marks, marks', h, h' => by
    rw [expression, bears_cons] at h
    · exact h.1.stands.elim
    all_goals simp

theorem arguments_leads (hnear : c.Near avoid own c') : ∀ {es : List Node}, AreExprs es → (∀ x, ⟨"id", x⟩ ∈ leavesAll es → ¬ avoid x) →
    ∀ {start start' : Nat} {marks marks' : List Mark}, p.Bears (arguments prims marks c start es) →
    p'.Bears (arguments prims marks' c' start' es) →
    Leads p p' test shape shape' [(start, start')] [(start + widths prims c es, start' + widths prims c' es)]
  | _, .nil, hnames, start, start', marks, marks', h, h' => by
    rw [widths, widths]
    exact .none _
  | _, .cons he hes, hnames, start, start', marks, marks', h, h' => by
    rw [arguments, bears_append] at h h'
    rw [leavesAll] at hnames
    rw [widths, widths, ← Nat.add_assoc, ← Nat.add_assoc]
    exact (arguments_leads hnear hes (fun x hx => hnames x (List.mem_append_right _ hx)) h.1 h'.1).next
      (expression_leads hnear he (fun x hx => hnames x (List.mem_append_left _ hx)) h.2 h'.2)

end

theorem printed_leads (hnear : c.Near avoid own c') {es : List Node} (hes : AreExprs es)
    (hnames : ∀ x, ⟨"id", x⟩ ∈ leavesAll es → ¬ avoid x) {start start' : Nat} {marks marks' : List Mark}
    (h : p.Bears (printed prims marks c start es)) (h' : p'.Bears (printed prims marks' c' start' es)) :
    Leads p p' test shape shape' [(start, start')] [(start + printedWidth prims c es, start' + printedWidth prims c' es)] := by
  induction es generalizing start start' with
  | nil =>
    rw [printedWidth, printedWidth]
    exact .none _
  | cons e es ih =>
    cases hes with | cons he hes =>
    simp only [printed, bears_append, bears_cons] at h h'
    rw [leavesAll] at hnames
    rw [printedWidth, printedWidth, ← Nat.add_assoc, ← Nat.add_assoc, ← Nat.add_assoc, ← Nat.add_assoc]
    exact ((expression_leads hnear he (fun x hx => hnames x (List.mem_append_left _ hx)) h.1 h'.1).next (.plain h.2.1 h'.2.1)).next
      (ih hes (fun x hx => hnames x (List.mem_append_right _ hx)) h.2.2 h'.2.2)

end Layout

/-! ## Tables of functions -/

namespace Alike

variable {R : Int → Int → Prop} {t t' : Array Routine}

theorem names (h : Alike R t t') : t'.map (·.name) = t.map (·.name) := by
  apply Array.ext_getElem?
  intro i
  rw [Array.getElem?_map, Array.getElem?_map]
  have hrel := h i
  generalize t[i]? = r at hrel
  generalize t'[i]? = r' at hrel
  cases hrel with
  | none => rfl
  | some hrel => exact congrArg some hrel.1

end Alike

/-- What a name is found at depends on the names in the table only. -/
theorem Names.routineIndex?_eq_of_names {c c' : Names} (h : c'.routines.map (·.name) = c.routines.map (·.name)) (x : Datum) :
    c'.routineIndex? x = c.routineIndex? x := by
  have hc := DefinitionSite.routineIndex?_eq c.routines x
  have hc' := DefinitionSite.routineIndex?_eq c'.routines x
  rw [h] at hc'
  exact hc'.trans hc.symm

theorem Names.routineFor_eq_of_names {c c' : Names} (h : c'.routines.map (·.name) = c.routines.map (·.name)) (x : Datum) :
    c'.routineFor x = c.routineFor x := by
  have hsize := congrArg Array.size h
  rw [Array.size_map, Array.size_map] at hsize
  unfold Names.routineFor
  rw [Names.routineIndex?_eq_of_names h, hsize]

theorem Alike.define {R : Int → Int → Prop} {c c' : Names} (h : Alike R c.routines c'.routines) (x : Datum) (params : List Datum)
    {entry entry' : Nat} (hentry : R entry entry') : Alike R (c.define x params entry) (c'.define x params entry') := by
  intro i
  rw [Names.define_getElem?, Names.define_getElem?, Names.routineFor_eq_of_names h.names]
  have hrel := h i
  split
  · generalize c.routines[i]? = r at hrel
    generalize c'.routines[i]? = r' at hrel
    cases hrel with
    | none => exact .some ⟨rfl, rfl, _, _, rfl, rfl, hentry⟩
    | some hrel => exact .some ⟨hrel.1, hrel.2.1, _, _, rfl, rfl, hentry⟩
  · exact hrel

namespace DefinitionSite

/-- The names in a table after definitions depend on the names that are defined. -/
theorem names_enterAll : ∀ {sites sites' : List DefinitionSite} {t t' : Array Routine},
    sites'.map (·.function.name) = sites.map (·.function.name) → t'.map (·.name) = t.map (·.name) →
    (enterAll sites' t').map (·.name) = (enterAll sites t).map (·.name)
  | [], [], t, t', _, ht => ht
  | site :: sites, site' :: sites', t, t', hsites, ht => by
    obtain ⟨hfirst, hrest⟩ := List.cons.inj hsites
    have hname : site'.function.name = site.function.name := hfirst
    show (enterAll sites' (site'.enter t')).map _ = (enterAll sites (site.enter t)).map _
    refine names_enterAll hrest ?_
    rw [names_enter, names_enter, hname, @Names.routineIndex?_eq_of_names ⟨[], t⟩ ⟨[], t'⟩ ht, ht]

end DefinitionSite

/-! ## Statements -/

/-- Points at which names stand for the same. If it is `strict`, both tables have the same names. -/
structure Point.Near (avoid : Datum → Prop) (strict : Prop) (own : List (Array Datum)) (s s' : Point) : Prop
    extends Names.Near avoid own s.toNames s'.toNames where
  table : strict → s'.routines.map (·.name) = s.routines.map (·.name)

/-- A statement uses no name to be avoided, declares variables in a scope that both points have, and defines functions in tables with
the same names only. -/
structure Node.Discreet (avoid : Datum → Prop) (strict : Prop) (own : List (Array Datum)) (n : Node) : Prop where
  declares : declares n ≠ [] → own ≠ []
  functions : functions n ≠ [] → strict
  names : ∀ x, ⟨"id", x⟩ ∈ leaves n → ¬ avoid x

/-- The parts of a statement are discreet as well, in scopes that they may declare variables in. -/
theorem Node.Discreet.part {avoid : Datum → Prop} {strict : Prop} {own own' : List (Array Datum)} {n inner : Node}
    (h : Discreet avoid strict own n) (hdeclares : inner.declares ≠ [] → own' ≠ []) (hfunctions : inner.functions ⊆ n.functions)
    (hleaves : inner.leaves ⊆ n.leaves) : Discreet avoid strict own' inner :=
  ⟨hdeclares, fun hne => h.functions fun hnone => hne (List.subset_nil.mp (hnone ▸ hfunctions)), fun x hx => h.names x (hleaves hx)⟩

/-- Statements that declare the same variables and define functions of the same names. -/
structure Node.Kin (n n' : Node) : Prop where
  stat : IsStat n
  stat' : IsStat n'
  declares : declares n' = declares n
  functions : (functions n').map (·.name) = (functions n).map (·.name)

theorem Node.IsStat.kin {n : Node} (h : IsStat n) : Kin n n := ⟨h, h, rfl, rfl⟩

theorem extended_append_left {own : List (Array Datum)} {names : List Datum} (h : names ≠ [] → own ≠ []) (around : List (Array Datum)) :
    extended (own ++ around) names = extended own names ++ around := by
  cases own with
  | nil =>
    cases names with
    | nil => rw [extended_nil, extended_nil]
    | cons x names => exact absurd rfl (h (List.cons_ne_nil _ _))
  | cons top outer => rfl

theorem Layout.next_routines {prims : List String} {n : Node} (hn : IsStat n) (h : functions n = []) (s : Point) :
    (next prims s n).routines = s.routines := by
  have hsited := statement_sited prims hn [] s
  have hnone : sites prims [] s n = [] := List.map_eq_nil_iff.mp (hsited.functions.trans h)
  rw [hsited.table, hnone]
  rfl

namespace Point.Near

variable {prims : List String} {avoid : Datum → Prop} {strict : Prop} {own : List (Array Datum)} {s s' : Point} {n n' : Node}

theorem next (h : s.Near avoid strict own s') (hkin : Kin n n') (hdeclares : declares n ≠ [] → own ≠ [])
    (hfunctions : functions n ≠ [] → strict) :
    (Layout.next prims s n).Near avoid strict (extended own (declares n)) (Layout.next prims s' n') := by
  have hsited := Layout.statement_sited prims hkin.stat [] s
  have hsited' := Layout.statement_sited prims hkin.stat' [] s'
  have hnames : s'.routines.map (·.name) = s.routines.map (·.name) →
      (Layout.next prims s' n').routines.map (·.name) = (Layout.next prims s n).routines.map (·.name) := by
    intro htable
    rw [hsited.table, hsited'.table]
    refine DefinitionSite.names_enterAll ?_ htable
    have hfunctions := hkin.functions
    rw [← hsited.functions, ← hsited'.functions, List.map_map, List.map_map] at hfunctions
    exact hfunctions
  refine ⟨⟨?_, fun x hx => ?_⟩, fun hstrict => hnames (h.table hstrict)⟩
  · obtain ⟨around, around', hvisible, hvisible', haround⟩ := h.visible
    refine ⟨around, around', ?_, ?_, haround⟩
    · rw [Layout.next_visible prims hkin.stat, hvisible, extended_append_left hdeclares]
    · rw [Layout.next_visible prims hkin.stat', hvisible', hkin.declares, extended_append_left hdeclares]
  · by_cases hnone : functions n = []
    · have hnone' : functions n' = [] := by
        have hfunctions := hkin.functions
        rw [hnone] at hfunctions
        exact List.map_eq_nil_iff.mp hfunctions
      unfold Names.routineIndex?
      rw [Layout.next_routines hkin.stat hnone, Layout.next_routines hkin.stat' hnone']
      exact h.index x hx
    · exact Names.routineIndex?_eq_of_names (hnames (h.table (hfunctions hnone))) x

theorem skip (h : s.Near avoid strict own s') (k k' : Nat) : (s.skip k).Near avoid strict own (s'.skip k') := ⟨h.toNear, h.table⟩

theorem inBlock (h : s.Near avoid strict own s') : s.inBlock.Near avoid strict (#[] :: own) s'.inBlock := by
  obtain ⟨around, around', hvisible, hvisible', haround⟩ := h.visible
  exact ⟨⟨⟨around, around', congrArg (#[] :: ·) hvisible, congrArg (#[] :: ·) hvisible', haround⟩, h.index⟩, h.table⟩

theorem inFunction (h : s.Near avoid strict own s') (hstrict : strict) (x : Datum) (params : List Datum) :
    (s.inFunction x params).Near avoid strict [params.toArray] (s'.inFunction x params) := by
  have hnames : (s'.inFunction x params).routines.map (·.name) = (s.inFunction x params).routines.map (·.name) := by
    let site (s : Point) : DefinitionSite := ⟨[], s, ⟨x, params, .breakLoop⟩⟩
    exact @DefinitionSite.names_enterAll [site s] [site s'] s.routines s'.routines rfl (h.table hstrict)
  exact ⟨⟨⟨[], [], rfl, rfl, fun _ _ => rfl⟩, fun y _ => Names.routineIndex?_eq_of_names hnames y⟩, fun _ => hnames⟩

end Point.Near

/-- What is laid out from two points up to two others does the same, and defines the functions of the second tables. -/
def Tracked (p p' : Program) (test : Int) (shape shape' : List Mark) (s s' last last' : Point) : Prop :=
  ∃ entries, (s.here, s'.here) ∈ entries ∧ Leads p p' test shape shape' entries [(last.here, last'.here)] ∧
    ∀ R : Int → Int → Prop, (∀ x ∈ entries, R x.1 x.2) → Alike R s.routines s'.routines → Alike R last.routines last'.routines

namespace Tracked

variable {p p' : Program} {test : Int} {shape shape' : List Mark} {s s' middle middle' last last' : Point}

theorem of_leads (h : Leads p p' test shape shape' [(s.here, s'.here)] [(last.here, last'.here)]) (hroutines : last.routines = s.routines)
    (hroutines' : last'.routines = s'.routines) : Tracked p p' test shape shape' s s' last last' :=
  ⟨_, List.mem_singleton_self _, h, fun R _ halike => by rw [hroutines, hroutines']; exact halike⟩

theorem refl (s s' : Point) : Tracked p p' test shape shape' s s' s s' := of_leads (.none _) rfl rfl

theorem trans (h : Tracked p p' test shape shape' s s' middle middle') (h' : Tracked p p' test shape shape' middle middle' last last') :
    Tracked p p' test shape shape' s s' last last' := by
  obtain ⟨entries, hmem, hleads, htable⟩ := h
  obtain ⟨entries', hmem', hleads', htable'⟩ := h'
  refine ⟨entries ++ entries', List.mem_append_left _ hmem, hleads.seq hleads' (fun x hx => .inl ?_) fun _ hx => hx, fun R hR halike => ?_⟩
  · rw [List.mem_singleton.mp hx]
    exact hmem'
  · obtain ⟨hfirst, hsecond⟩ := List.forall_mem_append.mp hR
    exact htable' R hsecond (htable R hfirst halike)

theorem declare (h : Tracked p p' test shape shape' s s' last last') (x : Datum) :
    Tracked p p' test shape shape' s s' (last.declare x) (last'.declare x) := by
  unfold Tracked
  rw [Point.declare_here, Point.declare_here, Point.declare_routines, Point.declare_routines]
  exact h

/-! The statements that have other statements in them, which may differ in the two programs. -/

section

open Layout

variable {prims : List String} {avoid : Datum → Prop} {strict : Prop} {own : List (Array Datum)} {cond yes yes' no no' body body' : Node}

theorem ifThen (hcond : IsExpr cond) (hnear : s.Near avoid strict own s') (hnames : ∀ x, ⟨"id", x⟩ ∈ leaves cond → ¬ avoid x)
    (h : p.Bears (statement prims shape s (.ifThen cond yes))) (h' : p'.Bears (statement prims shape' s' (.ifThen cond yes')))
    (hyes : ∀ k', let inside := s.skip (width prims s.toNames cond + 2)
      p.Bears (statement prims shape inside yes) → p'.Bears (statement prims shape' (s'.skip k') yes') →
      Tracked p p' test shape shape' inside (s'.skip k') (next prims inside yes) (next prims (s'.skip k') yes')) :
    Tracked p p' test shape shape' s s' (next prims s (.ifThen cond yes)) (next prims s' (.ifThen cond yes')) := by
  simp only [statement, bears_append, bears_cons] at h h'
  obtain ⟨entries, hmem, hleads, htable⟩ := hyes _ h.2.2 h'.2.2
  rw [next, next]
  have hbranch : Leads p p' test shape shape' [(_, _)] [(_, _), (_, _)] := .branch h.2.1 h'.2.1
  have hbranches := hbranch.seq hleads ?_ fun _ hx => hx
  · have hwhole := (expression_leads hnear.toNear hcond hnames h.1 h'.1).seq hbranches (by simp) fun _ hx => hx
    exact ⟨_, List.mem_cons_self .., hwhole, fun R hR => htable R fun x hx => hR x (by simp [hx])⟩
  · intro x hx
    rcases List.mem_cons.mp hx with rfl | hx
    · exact .inr (List.mem_singleton_self _)
    · rw [List.mem_singleton.mp hx]
      exact .inl hmem

theorem ifElse (hcond : IsExpr cond) (hnear : s.Near avoid strict own s') (hnames : ∀ x, ⟨"id", x⟩ ∈ leaves cond → ¬ avoid x)
    (h : p.Bears (statement prims shape s (.ifElse cond yes no))) (h' : p'.Bears (statement prims shape' s' (.ifElse cond yes' no')))
    (hyes : ∀ k', let inside := s.skip (width prims s.toNames cond + 2)
      p.Bears (statement prims shape inside yes) → p'.Bears (statement prims shape' (s'.skip k') yes') →
      Tracked p p' test shape shape' inside (s'.skip k') (next prims inside yes) (next prims (s'.skip k') yes'))
    (hno : ∀ k', let middle := (next prims (s.skip (width prims s.toNames cond + 2)) yes).skip 2
      let middle' := (next prims (s'.skip k') yes').skip 2
      p.Bears (statement prims shape middle no) → p'.Bears (statement prims shape' middle' no') →
      Tracked p p' test shape shape' middle middle' (next prims middle no) (next prims middle' no')) :
    Tracked p p' test shape shape' s s' (next prims s (.ifElse cond yes no)) (next prims s' (.ifElse cond yes' no')) := by
  simp only [statement, bears_append, bears_cons] at h h'
  obtain ⟨htest, hbranch, hbears, hjump, hbears₂⟩ := h
  obtain ⟨htest', hbranch', hbears', hjump', hbears₂'⟩ := h'
  obtain ⟨entries, hmem, hleads, htable⟩ := hyes _ hbears hbears'
  obtain ⟨entries₂, hmem₂, hleads₂, htable₂⟩ := hno _ hbears₂ hbears₂'
  rw [next, next]
  have hbranch : Leads p p' test shape shape' [(_, _)] [(_, _), (_, _)] := .branch hbranch hbranch'
  have hjump : Leads p p' test shape shape' [(_, _)] [(_, _)] := .jump hjump hjump'
  have hend := hjump.seq hleads₂ (fun _ hx => .inr hx) fun _ hx => hx
  have hrest := hleads.seq hend (by simp) fun _ hx => hx
  have hbranches := hbranch.seq hrest ?_ fun _ hx => hx
  · have hwhole := (expression_leads hnear.toNear hcond hnames htest htest').seq hbranches (by simp) fun _ hx => hx
    refine ⟨_, List.mem_cons_self .., hwhole, fun R hR halike => htable₂ R (fun x hx => hR x (by simp [hx])) ?_⟩
    exact htable R (fun x hx => hR x (by simp [hx])) halike
  · intro x hx
    refine .inl ?_
    rcases List.mem_cons.mp hx with rfl | hx
    · exact List.mem_append_right _ (List.mem_cons_of_mem _ hmem₂)
    · rw [List.mem_singleton.mp hx]
      exact List.mem_append_left _ hmem

theorem loop (hcond : IsExpr cond) (hnear : s.Near avoid strict own s') (hnames : ∀ x, ⟨"id", x⟩ ∈ leaves cond → ¬ avoid x)
    (h : p.Bears (statement prims shape s (.loop cond body))) (h' : p'.Bears (statement prims shape' s' (.loop cond body')))
    (hbody : ∀ k' stop stop', let inside := s.skip (width prims s.toNames cond + 2)
      p.Bears (statement prims (.loop s.here stop :: shape) inside body) →
      p'.Bears (statement prims (.loop s'.here stop' :: shape') (s'.skip k') body') →
      Tracked p p' test (.loop s.here stop :: shape) (.loop s'.here stop' :: shape') inside (s'.skip k')
        (next prims inside body) (next prims (s'.skip k') body')) :
    Tracked p p' test shape shape' s s' (next prims s (.loop cond body)) (next prims s' (.loop cond body')) := by
  simp only [statement, bears_append, bears_cons] at h h'
  obtain ⟨htest, hbranch, hbears, hjump, -⟩ := h
  obtain ⟨htest', hbranch', hbears', hjump', -⟩ := h'
  obtain ⟨entries, hmem, hleads, htable⟩ := hbody _ _ _ hbears hbears'
  rw [next, next]
  generalize next prims (s.skip (width prims s.toNames cond + 2)) body = last at *
  generalize next prims (s'.skip (width prims s'.toNames cond + 2)) body' = last' at *
  have hinside : Leads p p' test shape shape' entries [(last.here, last'.here), (s.here, s'.here)] := by
    refine (hleads.mono (fun _ hx => hx) (by simp)).around fun R hexits habroad => ⟨habroad.away, ?_, habroad.entries⟩
    intro start stop start' stop' hloop hloop'
    cases hloop
    cases hloop'
    exact hexits (s.here, s'.here) (by simp)
  -- from behind the test back to its start, or out of the loop
  have hbranch : Leads p p' test shape shape' [(_, _)] [(_, _), (_, _)] := .branch hbranch hbranch'
  have hmem : (s.here + width prims s.toNames cond + 2, s'.here + width prims s'.toNames cond + 2) ∈ entries := hmem
  have hround : Leads p p' test shape shape' _ [(s.here, s'.here), (last.here + 2, last'.here + 2)] :=
    hbranch.seq (hinside.seq (.jump hjump hjump') (by simp) (by simp)) (by simp [hmem]) fun _ hx => hx
  have hne : (s.here, s'.here) ≠ (s.here + width prims s.toNames cond, s'.here + width prims s'.toNames cond) := by
    intro heq
    have hhere := congrArg Prod.fst heq
    have hpos := width_pos prims s.toNames cond
    dsimp only at hhere
    omega
  have hwhole := (expression_leads hnear.toNear hcond hnames htest htest').cycle hne hround (by simp)
  exact ⟨_, List.mem_cons_self .., hwhole, fun R hR => htable R fun x hx => hR x (by simp [hx])⟩

theorem block {ns ns' : List Node} (hstats : AreStats ns) (hstats' : AreStats ns') (hdeclares : declaresAll ns' = declaresAll ns)
    (h : p.Bears (statement prims shape s (.block ns))) (h' : p'.Bears (statement prims shape' s' (.block ns')))
    (hbody : p.Bears (statements prims (.block :: shape) s.inBlock ns) → p'.Bears (statements prims (.block :: shape') s'.inBlock ns') →
      Tracked p p' test (.block :: shape) (.block :: shape') s.inBlock s'.inBlock (nextAll prims s.inBlock ns)
        (nextAll prims s'.inBlock ns')) :
    Tracked p p' test shape shape' s s' (next prims s (.block ns)) (next prims s' (.block ns')) := by
  simp only [statement, bears_append, bears_cons] at h h'
  obtain ⟨henter, hbears, hleave, -⟩ := h
  obtain ⟨henter', hbears', hleave', -⟩ := h'
  obtain ⟨entries, hmem, hleads, htable⟩ := hbody hbears hbears'
  have hslot : (nextAll prims s'.inBlock ns').slot = (nextAll prims s.inBlock ns).slot := by
    rw [Names.slot, Names.slot, nextAll_innermost prims hstats, nextAll_innermost prims hstats', hdeclares]
  rw [hslot] at henter'
  rw [next, next]
  have henter : Leads p p' test shape shape' [(_, _)] [(_, _)] := .same (show (Instr.enter _).Steady from trivial) henter henter'
  have hleave : Leads p p' test shape shape' [(_, _)] [(_, _)] := .same (show Instr.leave.Steady from trivial) hleave hleave'
  have hinside : Leads p p' test shape shape' _ _ :=
    hleads.around fun R _ habroad => ⟨habroad.away, habroad.again, habroad.entries⟩
  have hwhole := henter.seq (hinside.seq hleave (by simp) fun _ hx => hx) (fun x hx => .inl ?_) fun _ hx => hx
  · exact ⟨_, List.mem_cons_self .., hwhole, fun R hR => htable R fun x hx => hR x (by simp [hx])⟩
  · rw [List.mem_singleton.mp hx]
    exact List.mem_append_left _ hmem

theorem function (x : Datum) (params : List Datum) (hnear : s.Near avoid strict own s') (hown : own ≠ []) (hstrict : strict)
    (h : p.Bears (statement prims shape s (.define x (.function params body))))
    (h' : p'.Bears (statement prims shape' s' (.define x (.function params body'))))
    (hbody : p.Bears (statement prims (.function :: shape) (s.inFunction x params) body) →
      p'.Bears (statement prims (.function :: shape') (s'.inFunction x params) body') →
      Tracked p p' test (.function :: shape) (.function :: shape') (s.inFunction x params) (s'.inFunction x params)
        (next prims (s.inFunction x params) body) (next prims (s'.inFunction x params) body')) :
    Tracked p p' test shape shape' s s' (next prims s (.define x (.function params body)))
      (next prims s' (.define x (.function params body'))) := by
  rw [statement_function] at h h'
  simp only [bears_append, bears_cons] at h h'
  obtain ⟨hskip, hbears, hback, hindex, hstore, -⟩ := h
  obtain ⟨hskip', hbears', hback', hindex', hstore', -⟩ := h'
  obtain ⟨entries, hmem, hleads, htable⟩ := hbody hbears hbears'
  rw [next_function, next_function]
  rw [Names.routineFor_eq_of_names (hnear.table hstrict)] at hindex'
  have hskip : Leads p p' test shape shape' [(_, _)] [(_, _)] := .jump hskip hskip'
  have hindex : Leads p p' test shape shape' [(_, _)] [(_, _)] := .same (show (Instr.const _).Steady from trivial) hindex hindex'
  have hstore : Leads p p' test shape shape' [(_, _)] [(_, _)] :=
    .across (storing_passes ⟨[], [], none⟩ 0 x) (storing_passes ⟨[], [], none⟩ 0 x) (hnear.storing hown) hstore hstore'
  have hback : Leads p p' test shape shape' [(_, _)] [(_, _)] := .same (show Instr.return.Steady from trivial) hback hback'
  have hinside : Leads p p' test shape shape' _ _ :=
    hleads.around fun R _ habroad => ⟨habroad.away, habroad.again, habroad.entries⟩
  have hrest := hback.seq (hindex.seq hstore (by simp [Instr.size, Setting.scene]) fun _ hx => hx) (by simp [Instr.size]) fun _ hx => hx
  have hwhole := hskip.seq (hinside.seq hrest (by simp) fun _ hx => hx) (by simp) fun _ hx => hx
  refine Tracked.declare ?_ x
  refine ⟨_, List.mem_cons_self .., hwhole, fun R hR halike => htable R (fun x hx => hR x (by simp [hx])) ?_⟩
  exact halike.define x params (hR (s.here + 2, s'.here + 2) (List.mem_append_right [_] (List.mem_append_left _ hmem)))

end

end Tracked

namespace Layout

variable {prims : List String} {p p' : Program} {test : Int} {avoid : Datum → Prop} {strict : Prop}

mutual

theorem statement_leads : ∀ {n : Node}, IsStat n → ∀ {shape shape' : List Mark} {own : List (Array Datum)} {s s' : Point},
    s.Near avoid strict own s' → Discreet avoid strict own n → p.Bears (statement prims shape s n) →
    p'.Bears (statement prims shape' s' n) → Tracked p p' test shape shape' s s' (next prims s n) (next prims s' n)
  | _, .exprStat he, shape, shape', own, s, s', hnear, hn, h, h' => by
    rw [statement, bears_append, bears_cons] at h h'
    rw [next, next]
    exact .of_leads ((expression_leads hnear.toNear he (fun x hx => hn.names x (by rwa [leaves])) h.1 h'.1).next (.plain h.2.1 h'.2.1)) rfl rfl
  | _, .print hargs, shape, shape', own, s, s', hnear, hn, h, h' => by
    rw [statement, bears_append, bears_cons] at h h'
    rw [next, next]
    exact .of_leads ((printed_leads hnear.toNear hargs (fun x hx => hn.names x (by rwa [leaves])) h.1 h'.1).next (.plain h.2.1 h'.2.1)) rfl rfl
  | _, .ifThen hcond hyes, shape, shape', own, s, s', hnear, hn, h, h' => by
    refine .ifThen hcond hnear (fun x hx => hn.names x (by simp [leaves, hx])) h h' fun k' h h' => ?_
    exact statement_leads hyes (hnear.skip _ k') (hn.part hn.declares (by simp [functions]) (by simp [leaves])) h h'
  | _, .ifElse hcond hyes hno, shape, shape', own, s, s', hnear, hn, h, h' => by
    have hdeclares := hn.declares
    rw [declares] at hdeclares
    have hfirst := hn.part (fun hne => hdeclares (List.append_ne_nil_of_left_ne_nil hne _)) (by simp [functions]) (by simp [leaves])
    refine .ifElse hcond hnear (fun x hx => hn.names x (by simp [leaves, hx])) h h' (fun k' h h' => ?_) fun k' h h' => ?_
    · exact statement_leads hyes (hnear.skip _ k') hfirst h h'
    · refine statement_leads hno (((hnear.skip _ k').next hyes.kin hfirst.declares hfirst.functions).skip 2 2) ?_ h h'
      refine hn.part (fun hne => ?_) (by simp [functions]) (by simp [leaves])
      exact extended_ne_nil (hdeclares (List.append_ne_nil_of_right_ne_nil _ hne)) _
  | _, .loop hcond hbody, shape, shape', own, s, s', hnear, hn, h, h' => by
    refine .loop hcond hnear (fun x hx => hn.names x (by simp [leaves, hx])) h h' fun k' stop stop' h h' => ?_
    exact statement_leads hbody (hnear.skip _ k') (hn.part hn.declares (by simp [functions]) (by simp [leaves])) h h'
  | _, .breakLoop, shape, shape', own, s, s', hnear, hn, h, h' => by
    rw [statement] at h h'
    rw [next, next]
    refine .of_leads ?_ rfl rfl
    cases hshape : innermost? shape with
    | none =>
      rw [hshape, bears_cons] at h
      exact h.1.stands.elim
    | some _ =>
      cases hshape' : innermost? shape' with
      | none =>
        rw [hshape', bears_cons] at h'
        exact h'.1.stands.elim
      | some _ =>
        rw [hshape, bears_cons] at h
        rw [hshape', bears_cons] at h'
        exact .same (show Instr.breakLoop.Steady from trivial) h.1 h'.1
  | _, .continueLoop, shape, shape', own, s, s', hnear, hn, h, h' => by
    rw [statement] at h h'
    rw [next, next]
    refine .of_leads ?_ rfl rfl
    cases hshape : innermost? shape with
    | none =>
      rw [hshape, bears_cons] at h
      exact h.1.stands.elim
    | some _ =>
      cases hshape' : innermost? shape' with
      | none =>
        rw [hshape', bears_cons] at h'
        exact h'.1.stands.elim
      | some _ =>
        rw [hshape, bears_cons] at h
        rw [hshape', bears_cons] at h'
        exact (Leads.again hshape hshape' h.1 h'.1).mono (fun _ hx => hx) (by simp)
  | _, .block hbody, shape, shape', own, s, s', hnear, hn, h, h' => by
    refine .block hbody hbody rfl h h' fun h h' => ?_
    exact statements_leads hbody hnear.inBlock (List.cons_ne_nil _ _) (hn.part (fun _ => List.cons_ne_nil _ _) (by simp) (by simp)) h h'
  | _, .define x hvalue hvar, shape, shape', own, s, s', hnear, hn, h, h' => by
    have hown : own ≠ [] := hn.declares (by simp [declares])
    rw [statement_variable prims hvar, bears_append, bears_cons] at h h'
    rw [next_variable prims hvar, next_variable prims hvar]
    refine Tracked.declare ?_ x
    refine .of_leads ((expression_leads hnear.toNear hvalue (fun y hy => hn.names y (by simp [leaves, hy])) h.1 h'.1).next ?_) rfl rfl
    exact .across (storing_passes ⟨[], [], none⟩ 0 x) (storing_passes ⟨[], [], none⟩ 0 x) (hnear.storing hown) h.2.1 h'.2.1
  | _, .function x params hbody, shape, shape', own, s, s', hnear, hn, h, h' => by
    have hstrict : strict := hn.functions (by simp [functions])
    refine .function x params hnear (hn.declares (by simp [declares])) hstrict h h' fun h h' => ?_
    exact statement_leads (.block hbody) (hnear.inFunction hstrict x params)
      (hn.part (fun _ => List.cons_ne_nil _ _) (by simp [functions]) (by simp [leaves])) h h'
  | _, .assign x hvalue, shape, shape', own, s, s', hnear, hn, h, h' => by
    rw [statement, bears_append, bears_cons] at h h'
    rw [next, next]
    refine .of_leads ((expression_leads hnear.toNear hvalue (fun y hy => hn.names y (by simp [leaves, hy])) h.1 h'.1).next ?_) rfl rfl
    exact .across (assigning_passes prims ⟨[], [], none⟩ 0 x) (assigning_passes prims ⟨[], [], none⟩ 0 x)
      (hnear.assigning (hn.names x (by simp [leaves]))) h.2.1 h'.2.1
  | _, .return, shape, shape', own, s, s', hnear, hn, h, h' => by
    rw [statement, bears_cons] at h h'
    rw [next, next]
    refine .of_leads ?_ rfl rfl
    have hin := h.1
    have hin' := h'.1
    split at hin
    · split at hin'
      · exact .same (show Instr.return.Steady from trivial) hin hin'
      · exact hin'.stands.elim
    · exact hin.stands.elim
  | _, .returnValue hvalue, shape, shape', own, s, s', hnear, hn, h, h' => by
    rw [statement, bears_append, bears_cons] at h h'
    rw [next, next]
    refine .of_leads ((expression_leads hnear.toNear hvalue (fun y hy => hn.names y (by rwa [leaves])) h.1 h'.1).next ?_) rfl rfl
    have hin := h.2.1
    have hin' := h'.2.1
    split at hin
    · split at hin'
      · exact .same (show Instr.returnValue.Steady from trivial) hin hin'
      · exact hin'.stands.elim
    · exact hin.stands.elim

theorem statements_leads : ∀ {ns : List Node}, AreStats ns → ∀ {shape shape' : List Mark} {own : List (Array Datum)} {s s' : Point},
    s.Near avoid strict own s' → own ≠ [] → Discreet avoid strict own (.block ns) → p.Bears (statements prims shape s ns) →
    p'.Bears (statements prims shape' s' ns) →
    Tracked p p' test shape shape' s s' (nextAll prims s ns) (nextAll prims s' ns)
  | _, .nil, shape, shape', own, s, s', hnear, hown, hn, h, h' => .refl s s'
  | _, @AreStats.cons n ns hn hns, shape, shape', own, s, s', hnear, hown, hall, h, h' => by
    rw [statements, bears_append] at h h'
    rw [nextAll, nextAll]
    have hfirst : Discreet avoid strict own n :=
      hall.part (fun _ => hown) (by simp [functions, functionsAll]) (by simp [leaves, leavesAll])
    have hown' := extended_ne_nil hown
    refine (statement_leads hn hnear hfirst h.1 h'.1).trans ?_
    refine statements_leads hns (hnear.next hn.kin (fun _ => hown) hfirst.functions) (hown' _) ?_ h.2 h'.2
    exact hall.part (fun _ => hown' _) (by simp [functions, functionsAll]) (by simp [leaves, leavesAll])

end

end Layout

end Cilly
