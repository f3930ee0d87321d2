import Cilly.Proofs.Resolution
import Cilly.Proofs.Running

/-!
# Calls that have not returned

A run of compiled code stands at a scene all the time, and a step goes from one scene to another: `Passage` says how, once for
every kind of instruction. Calls nest. `Reaches` is a run that remembers, for each call that has not returned yet, the machine
as it was right after the call: its `bases`, innermost first.

So what holds of a run is said of the machine and its bases. A call leaves it to the call to come back to what held of its
caller, and `Reaches.invariant` says what has to be shown for that.
-/

namespace Cilly

open Acting Node List Layout

/-- Instructions that only go on. -/
def Instr.isQuiet : Instr → Bool
  | .const _ | .primitive _ | .load .. | .store .. | .plain _ | .branch .. => true
  | _ => false

namespace Machine

variable {m m' : Machine}

/-- A step within a function, from a scene to another one. -/
inductive Onward (x y : Scene) (m m' : Machine) : Prop
  | plain : x.instr.isQuiet = true → y.view = x.after y.address → SameControl m m' → Onward x y m m'
  | jump {target : Nat} : x.instr = .jump target →
      (y.view = x.view ∨ ∃ last below, x.view.ends = last :: below ∧
        y.view = { x.view with ends := y.address :: below }) → SameControl m m' → Onward x y m m'
  /-- A `continue`. -/
  | again {target : Nat} {scopes : List Open} : x.instr = .continueLoop target → x.view.ends = [] →
      y.view = ⟨[], scopes, x.view.home⟩ → SameControl m m' → Onward x y m m'
  | enter {names : List Datum} {id : Nat} : x.instr = .enter names.length → x.view.ends = [] →
      y.view = { x.view with scopes := ⟨y.address, names⟩ :: x.view.scopes } → m'.program = m.program →
      m'.chain = id :: m.chain → m'.frames = m.frames → Onward x y m m'
  | leave {top : Open} {outer : List Open} {id : Nat} : x.instr = .leave → x.view.ends = [] →
      x.view.scopes = top :: outer → y.view = { x.view with scopes := outer } → m'.program = m.program → m.chain = id :: m'.chain →
      m'.frames = m.frames → Onward x y m m'

/-- A step that calls a function, which is to come back to another scene. -/
structure Calls (x y : Scene) (id : Nat) (r : Routine) (m m' : Machine) : Prop where
  instr : x.instr = .call id
  routine : m.program.routines[id]? = some r
  entry : r.entry = some m'.pc
  view : y.view = x.after y.address
  program : m'.program = m.program
  chain : ∃ scope, m'.chain = scope :: m.chain
  frames : m'.frames = ⟨y.address, m.chain⟩ :: m.frames

/-- A step that goes back to where a function was called. -/
structure Returns (x : Scene) (f : Frame) (m m' : Machine) : Prop where
  instr : x.instr = .return ∨ x.instr = .returnValue
  ends : x.view.ends.length = x.takes
  home : x.view.home ≠ none
  program : m'.program = m.program
  frames : m.frames = f :: m'.frames
  pc : m'.pc = f.back
  chain : m'.chain = f.chain

/-- How a step goes on. -/
inductive Passage (all : List Scene) (x : Scene) (m m' : Machine) : Prop
  | onward {y : Scene} : y ∈ all → m'.pc = y.address → Onward x y m m' → Passage all x m m'
  | call {y : Scene} {id : Nat} {r : Routine} : y ∈ all → Calls x y id r m m' → Passage all x m m'
  | back {f : Frame} : Returns x f m m' → Passage all x m m'

namespace Onward

variable {x y : Scene}

theorem program (h : Onward x y m m') : m'.program = m.program := by
  cases h with
  | plain _ _ hsame | jump _ _ hsame | again _ _ _ hsame => exact hsame.program
  | enter _ _ _ hprogram | leave _ _ _ _ hprogram => exact hprogram

theorem frames (h : Onward x y m m') : m'.frames = m.frames := by
  cases h with
  | plain _ _ hsame | jump _ _ hsame | again _ _ _ hsame => exact hsame.frames
  | enter _ _ _ _ _ hframes | leave _ _ _ _ _ _ hframes => exact hframes

theorem home (h : Onward x y m m') : y.view.home = x.view.home := by
  cases h with
  | plain _ hview =>
    rw [hview]
    rfl
  | again _ _ hview | enter _ _ hview | leave _ _ _ hview => rw [hview]
  | jump _ hview =>
    rcases hview with hview | ⟨_, _, _, hview⟩
    · rw [hview]
    · rw [hview]

end Onward

theorem Passage.of_finds {all : List Scene} {x : Scene} {address : Nat} (hquiet : x.instr.isQuiet = true)
    (h : Finds all address (x.after address)) (hpc : m'.pc = address) (hsame : SameControl m m') :
    Passage all x m m' := by
  obtain ⟨y, hy, rfl, hview⟩ := h
  exact .onward hy hpc (.plain hquiet hview hsame)

/-- **A step of compiled code.** -/
theorem passage_of_moves {all : List Scene} {x : Scene} (hsound : x.Sound all)
    (hmoves : x.instr.Moves x.address m m') : Passage all x m m' := by
  have hleads := hsound.leads
  unfold Scene.Leads at hleads
  cases hinstr : x.instr with
  | const c | primitive name =>
    rw [hinstr] at hleads hmoves
    exact .of_finds (by rw [hinstr]; rfl) hleads hmoves.1 hmoves.2
  | load depth index | store depth index =>
    rw [hinstr] at hleads hmoves
    exact .of_finds (by rw [hinstr]; rfl) hleads hmoves.1 hmoves.2
  | plain op =>
    rw [hinstr] at hleads hmoves
    exact .of_finds (by rw [hinstr]; rfl) hleads hmoves.1 hmoves.2
  | branch op target =>
    rw [hinstr] at hleads hmoves
    rcases hmoves with ⟨hpc | hpc, hsame⟩
    · exact .of_finds (by rw [hinstr]; rfl) hleads.1 hpc hsame
    · exact .of_finds (by rw [hinstr]; rfl) hleads.2 hpc hsame
  | jump target =>
    rw [hinstr] at hleads hmoves
    rcases hleads with ⟨y, hy, rfl, hview⟩ | ⟨last, below, hends, y, hy, rfl, hview⟩
    · exact .onward hy hmoves.1 (.jump hinstr (Or.inl hview) hmoves.2)
    · exact .onward hy hmoves.1 (.jump hinstr (Or.inr ⟨last, below, hends, hview⟩) hmoves.2)
  | breakLoop =>
    rw [hinstr] at hleads
    exact hleads.elim
  | continueLoop target =>
    rw [hinstr] at hleads hmoves
    obtain ⟨hends, scopes, y, hy, rfl, hview⟩ := hleads
    exact .onward hy hmoves.1 (.again hinstr hends hview hmoves.2)
  | enter count =>
    rw [hinstr] at hleads hmoves
    obtain ⟨hends, names, rfl, y, hy, haddress, hview⟩ := hleads
    obtain ⟨hpc, hprogram, ⟨id, hchain⟩, hframes⟩ := hmoves
    exact .onward hy (by rw [hpc, haddress]; rfl) (.enter hinstr hends (by rw [hview, haddress]) hprogram hchain hframes)
  | leave =>
    rw [hinstr] at hleads hmoves
    obtain ⟨hends, top, outer, hscopes, y, hy, haddress, hview⟩ := hleads
    obtain ⟨hpc, hprogram, ⟨id, hchain⟩, hframes⟩ := hmoves
    exact .onward hy (by rw [hpc, haddress]; rfl) (.leave hinstr hends hscopes hview hprogram hchain hframes)
  | call id =>
    rw [hinstr] at hleads hmoves
    obtain ⟨y, hy, haddress, hview⟩ := hleads
    obtain ⟨⟨r, hr, hentry⟩, hprogram, ⟨scope, hchain⟩, hframes⟩ := hmoves
    exact .call hy ⟨hinstr, hr, hentry, by rw [hview, haddress], hprogram, ⟨scope, hchain⟩,
      by rw [hframes, haddress]; rfl⟩
  | «return» =>
    rw [hinstr] at hleads hmoves
    obtain ⟨hprogram, frame, hframes, hpc, hchain⟩ := hmoves
    exact .back ⟨Or.inl hinstr, by rw [hleads.1, Scene.takes, hinstr]; rfl, hleads.2, hprogram, hframes, hpc, hchain⟩
  | returnValue =>
    rw [hinstr] at hleads hmoves
    obtain ⟨hprogram, frame, hframes, hpc, hchain⟩ := hmoves
    obtain ⟨⟨last, hends⟩, hhome⟩ := hleads
    exact .back ⟨Or.inr hinstr, by rw [hends, Scene.takes, hinstr]; rfl, hhome, hprogram, hframes, hpc, hchain⟩
  | refused =>
    rw [hinstr] at hmoves
    exact hmoves.elim

theorem Passage.frames {all : List Scene} {x : Scene} (h : Passage all x m m') :
    m'.frames = m.frames ∨ (∃ f, m'.frames = f :: m.frames) ∨ ∃ f, m.frames = f :: m'.frames := by
  cases h with
  | onward _ _ honward => exact Or.inl honward.frames
  | call _ hcalls => exact Or.inr (Or.inl ⟨_, hcalls.frames⟩)
  | back hreturns => exact Or.inr (Or.inr ⟨_, hreturns.frames⟩)

section

variable {all : List Scene} {x : Scene}

theorem Passage.onward_of_eq (h : Passage all x m m') (hsame : m'.frames = m.frames) :
    ∃ y ∈ all, m'.pc = y.address ∧ Onward x y m m' := by
  cases h with
  | onward hy hpc honward => exact ⟨_, hy, hpc, honward⟩
  | call _ hcalls => exact absurd (hsame.symm.trans hcalls.frames) (by simp)
  | back hreturns => exact absurd (hsame.trans hreturns.frames) (by simp)

theorem Passage.call_of_cons {f : Frame} (h : Passage all x m m') (hpush : m'.frames = f :: m.frames) :
    ∃ y ∈ all, ∃ id r, f = ⟨y.address, m.chain⟩ ∧ Calls x y id r m m' := by
  cases h with
  | onward _ _ honward => exact absurd (hpush.symm.trans honward.frames) (by simp)
  | call hy hcalls => exact ⟨_, hy, _, _, (List.cons.inj (hpush.symm.trans hcalls.frames)).1, hcalls⟩
  | back hreturns =>
    have hlength := congrArg List.length hpush
    rw [hreturns.frames, length_cons, length_cons] at hlength
    omega

theorem Passage.back_of_cons {f : Frame} (h : Passage all x m m') (hpop : m.frames = f :: m'.frames) :
    Returns x f m m' := by
  cases h with
  | onward _ _ honward => exact absurd (honward.frames.trans hpop) (by simp)
  | call _ hcalls =>
    have hlength := congrArg List.length hcalls.frames
    rw [hpop, length_cons, length_cons] at hlength
    omega
  | back hreturns =>
    cases (List.cons.inj (hpop.symm.trans hreturns.frames)).1
    exact hreturns

end

section

variable {prims : List String} {body : List Node} {p : Program} {x : Scene} {w : Int}

/-- A step of a compiled program starts at a scene that is not the end. -/
theorem mem_scenes_of_next (hlaid : p.LaidOut prims body) (hprogram : m.program = p)
    (hx : x ∈ stage prims body) (hpc : m.pc = x.address) (hnext : m.next = (.ok w, m')) :
    x ∈ scenes prims body := by
  rcases mem_append.mp hx with hx | hx
  · exact hx
  · have hend : m.pc = m.program.code.size := by
      rw [hpc, mem_singleton.mp hx, hprogram, hlaid.size]
    exact absurd hend (Int.ne_of_lt (lt_size_of_next hnext))

theorem view_of_end (hbody : AreStats body) (hlaid : p.LaidOut prims body) (hx : x ∈ Layout.stage prims body)
    (hend : (p.code.size : Int) ≤ x.address) : x.view = ⟨[], [], none⟩ := by
  rcases mem_append.mp hx with hx | hx
  · have hspot : x.toSpot ∈ Layout.program prims body := by
      rw [← Layout.program_toSpot prims hbody]
      exact mem_map_of_mem hx
    have hlt := ((Layout.program_laid prims hbody).ordered.bounds x.toSpot hspot).2
    rw [hlaid.size] at hend
    omega
  · rw [mem_singleton.mp hx]

theorem in_of_mem_scenes (hbody : AreStats body) (hlaid : p.LaidOut prims body)
    (hx : x ∈ scenes prims body) : x.instr.In p x.address := by
  refine hlaid.follows x.toSpot ?_
  rw [← program_toSpot prims hbody]
  exact mem_map_of_mem hx

theorem moves_of_scene (hbody : AreStats body) (hlaid : p.LaidOut prims body) (hprogram : m.program = p)
    (hx : x ∈ scenes prims body) (hpc : m.pc = x.address) (hnext : m.next = (.ok w, m')) :
    x.instr.Moves x.address m m' := by
  have hin := in_of_mem_scenes hbody hlaid hx
  rw [← hprogram] at hin
  exact moves hin hpc hnext

theorem passage (hbody : AreStats body) (hlaid : p.LaidOut prims body)
    (horderly : Orderly (exitsAll false body)) (hprogram : m.program = p) (hx : x ∈ scenes prims body)
    (hpc : m.pc = x.address) (hnext : m.next = (.ok w, m')) : Passage (stage prims body) x m m' :=
  passage_of_moves ((program_staged prims hbody horderly).sound x hx)
    (moves_of_scene hbody hlaid hprogram hx hpc hnext)

end

/-! ## Runs with their calls -/

/-- A run, with the machines right after the calls that have not returned yet, the innermost call first. -/
inductive Reaches (m₀ : Machine) : List Machine → Machine → Prop
  | start : Reaches m₀ [] m₀
  | step {bases : List Machine} {m m' : Machine} {w : Int} :
      Reaches m₀ bases m → m.next = (.ok w, m') → m'.frames = m.frames → Reaches m₀ bases m'
  | call {bases : List Machine} {m m' : Machine} {w : Int} {f : Frame} :
      Reaches m₀ bases m → m.next = (.ok w, m') → m'.frames = f :: m.frames → Reaches m₀ (m' :: bases) m'
  | back {bases : List Machine} {b m m' : Machine} {w : Int} {f : Frame} :
      Reaches m₀ (b :: bases) m → m.next = (.ok w, m') → m.frames = f :: m'.frames → Reaches m₀ bases m'

/-- Each pending call, with the machine right after it and those of the calls around it. -/
inductive Pending (R : Frame → Machine → List Machine → Prop) : List Frame → List Machine → Prop
  | nil : Pending R [] []
  | cons {f : Frame} {frames : List Frame} {b : Machine} {bases : List Machine} :
      b.frames = f :: frames → R f b bases → Pending R frames bases → Pending R (f :: frames) (b :: bases)

/-- **Invariants of runs with calls.** `I` is kept by steps. A call has to bring about `I` for what is called, and `R` for
the caller; and a return may use `R` to bring about `I` for the caller. -/
theorem Reaches.invariant {m₀ : Machine} {I : List Machine → Machine → Prop} {R : Frame → Machine → List Machine → Prop}
    (hframes : m₀.frames = []) (hstart : I [] m₀)
    (hstep : ∀ {bases : List Machine} {m m' : Machine} {w : Int}, I bases m → m.next = (.ok w, m') →
      m'.frames = m.frames → I bases m')
    (hcall : ∀ {bases : List Machine} {m m' : Machine} {w : Int} {f : Frame}, I bases m → m.next = (.ok w, m') →
      m'.frames = f :: m.frames → I (m' :: bases) m' ∧ R f m' bases)
    (hback : ∀ {bases : List Machine} {b m m' : Machine} {w : Int} {f : Frame}, I (b :: bases) m → R f b bases →
      m.next = (.ok w, m') → m.frames = f :: m'.frames → I bases m')
    {bases : List Machine} {m : Machine} (h : Reaches m₀ bases m) : I bases m ∧ Pending R m.frames bases := by
  induction h with
  | start => exact ⟨hstart, hframes ▸ .nil⟩
  | step _ hnext hsame ih => exact ⟨hstep ih.1 hnext hsame, hsame ▸ ih.2⟩
  | call _ hnext hpush ih =>
    obtain ⟨hI, hR⟩ := hcall ih.1 hnext hpush
    exact ⟨hI, hpush ▸ .cons hpush hR ih.2⟩
  | back _ hnext hpop ih =>
    obtain ⟨hI, hpending⟩ := ih
    rw [hpop] at hpending
    cases hpending with
    | cons _ hR hrest => exact ⟨hback hI hR hnext hpop, hrest⟩

namespace Pending

variable {R : Frame → Machine → List Machine → Prop} {frames : List Frame} {bases : List Machine}

theorem length (h : Pending R frames bases) : bases.length = frames.length := by
  induction h with
  | nil => rfl
  | cons _ _ _ ih => rw [length_cons, length_cons, ih]

theorem base {b : Machine} (h : Pending R frames (b :: bases)) : b.frames = frames := by
  cases h with
  | cons hframes => exact hframes

end Pending

/-! ## Invariants of compiled code -/

section

variable (primitives : List String) (body : List Node) (p : Program) (signals : List Signal)
  (I : View → List Machine → Machine → Prop) (R : View → Frame → Machine → List Machine → Prop)

/-- The machine stands at a scene, where `I` holds. -/
def At (bases : List Machine) (m : Machine) : Prop :=
  m.program = p ∧ ∃ x ∈ stage primitives body, m.pc = x.address ∧ I x.view bases m

/-- A call comes back to a scene, for which `R` holds. -/
def ComesBack (f : Frame) (b : Machine) (bases : List Machine) : Prop :=
  ∃ y ∈ stage primitives body, f.back = y.address ∧ R y.view f b bases

/-- What has to be shown of compiled code for `I` to hold at every scene that a run comes to: one condition for steps within
a function, one for calls, and one for returns. -/
structure Invariant : Prop where
  start : I ⟨[], [], none⟩ [] (Machine.start p signals)
  step : ∀ {x y : Scene} {bases : List Machine} {m m' : Machine} {w : Int}, x ∈ scenes primitives body →
    y ∈ stage primitives body → m.program = p → m.pc = x.address → m'.pc = y.address → m.next = (.ok w, m') → Onward x y m m' →
    I x.view bases m → I y.view bases m'
  call : ∀ {x y : Scene} {site : DefinitionSite} {id : Nat} {r : Routine} {bases : List Machine} {m m' : Machine}
    {w : Int}, x ∈ scenes primitives body → site ∈ definitions primitives body → site.Names r →
    m.program = p → m.pc = x.address → m'.pc = site.entry → m.next = (.ok w, m') → Calls x y id r m m' →
    I x.view bases m → I site.view (m' :: bases) m' ∧ R y.view ⟨y.address, m.chain⟩ m' bases
  back : ∀ {x y : Scene} {f : Frame} {bases : List Machine} {b m m' : Machine} {w : Int},
    x ∈ scenes primitives body → m.program = p → m.pc = x.address → m.next = (.ok w, m') → Returns x f m m' →
    I x.view (b :: bases) m → R y.view f b bases → I y.view bases m'

end

section

variable {prims : List String} {body : List Node} {p : Program} {bases : List Machine} {b m m' : Machine} {w : Int}
  {f : Frame} {signals : List Signal} {I : View → List Machine → Machine → Prop}
  {R : View → Frame → Machine → List Machine → Prop}

theorem called_site (hbody : AreStats body) (hlaid : p.LaidOut prims body) {x : Scene} {id : Nat}
    (hx : x ∈ scenes prims body) (hinstr : x.instr = .call id) :
    ∃ r, p.routines[id]? = some r ∧
      ∃ site ∈ definitions prims body, r.entry = some (site.entry : Int) ∧ site.Names r := by
  have hfits := program_fits prims hbody x hx
  rw [Scene.Fits, hinstr] at hfits
  obtain ⟨c, start, y, args, -, hindex, -⟩ := hfits
  rw [hlaid.routines]
  exact site_of_routineIndex? prims hbody hindex

variable (hbody : AreStats body) (hlaid : p.LaidOut prims body) (horderly : Orderly (exitsAll false body))

include hbody hlaid horderly

theorem At.passage (h : At prims body p I bases m) (hnext : m.next = (.ok w, m')) :
    ∃ x ∈ scenes prims body, m.pc = x.address ∧ I x.view bases m ∧
      Passage (stage prims body) x m m' := by
  obtain ⟨hprogram, x, hx, hpc, hI⟩ := h
  have hx := mem_scenes_of_next hlaid hprogram hx hpc hnext
  exact ⟨x, hx, hpc, hI, Machine.passage hbody hlaid horderly hprogram hx hpc hnext⟩

/-- **An invariant holds all along a run.** -/
theorem Invariant.all (hinvariant : Invariant prims body p signals I R)
    (h : Reaches (Machine.start p signals) bases m) :
    At prims body p I bases m ∧ Pending (ComesBack prims body R) m.frames bases := by
  have hstaged := program_staged prims hbody horderly
  refine h.invariant rfl ?_ ?_ ?_ ?_
  · obtain ⟨x, hx, haddress, hview⟩ := hstaged.first
    exact ⟨rfl, x, hx, by rw [haddress]; rfl, by rw [hview]; exact hinvariant.start⟩
  · intro bases m m' w hat hnext hsame
    obtain ⟨x, hx, hpc, hI, hpassage⟩ := hat.passage hbody hlaid horderly hnext
    obtain ⟨y, hy, hpc', honward⟩ := hpassage.onward_of_eq hsame
    exact ⟨honward.program.trans hat.1, y, hy, hpc', hinvariant.step hx hy hat.1 hpc hpc' hnext honward hI⟩
  · intro bases m m' w f hat hnext hpush
    obtain ⟨x, hx, hpc, hI, hpassage⟩ := hat.passage hbody hlaid horderly hnext
    obtain ⟨y, hy, id, r, rfl, hcalls⟩ := hpassage.call_of_cons hpush
    have hr := hcalls.routine
    rw [hat.1] at hr
    obtain ⟨r', hr', site, hsite, hentry, hnames⟩ := called_site hbody hlaid hx hcalls.instr
    cases hr.symm.trans hr'
    have hpc' : m'.pc = site.entry := Option.some.inj (hcalls.entry.symm.trans hentry)
    obtain ⟨z, hz, haddress, hview⟩ := hstaged.entries site hsite
    obtain ⟨hI', hR⟩ := hinvariant.call hx hsite hnames hat.1 hpc hpc' hnext hcalls hI
    exact ⟨⟨hcalls.program.trans hat.1, z, hz, by rw [hpc', haddress], by rw [hview]; exact hI'⟩, y, hy, rfl, hR⟩
  · rintro bases b m m' w f hat ⟨y, hy, hback, hR⟩ hnext hpop
    obtain ⟨x, hx, hpc, hI, hpassage⟩ := hat.passage hbody hlaid horderly hnext
    have hreturns := hpassage.back_of_cons hpop
    exact ⟨hreturns.program.trans hat.1, y, hy, by rw [hreturns.pc, hback],
      hinvariant.back hx hat.1 hpc hnext hreturns hI hR⟩

theorem Runs.reaches {n : Nat} (h : Runs n (Machine.start p signals) m) :
    ∃ bases, Reaches (Machine.start p signals) bases m := by
  have htrivial : Invariant prims body p signals (fun _ _ _ => True) fun _ _ _ _ => True :=
    ⟨trivial, fun _ _ _ _ _ _ _ _ => trivial, fun _ _ _ _ _ _ _ _ _ => ⟨trivial, trivial⟩,
      fun _ _ _ _ _ _ _ => trivial⟩
  refine h.invariant (P := fun m => ∃ bases, Reaches (Machine.start p signals) bases m) ?_ ⟨[], .start⟩
  rintro m m' w ⟨bases, hreaches⟩ hnext
  obtain ⟨hat, hpending⟩ := htrivial.all hbody hlaid horderly hreaches
  obtain ⟨x, -, -, -, hpassage⟩ := hat.passage hbody hlaid horderly hnext
  rcases hpassage.frames with hsame | ⟨f, hpush⟩ | ⟨f, hpop⟩
  · exact ⟨bases, hreaches.step hnext hsame⟩
  · exact ⟨m' :: bases, hreaches.call hnext hpush⟩
  · rw [hpop] at hpending
    cases hpending with
    | cons => exact ⟨_, hreaches.back hnext hpop⟩

end

end Machine

end Cilly
