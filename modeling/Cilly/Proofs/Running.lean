import Cilly.Proofs.Compiling
import Cilly.Proofs.Flow
import Cilly.Proofs.Routines
import Cilly.Proofs.Stepping

/-!
# Runs of compiled code

A run of a compiled program stands at an instruction of its layout all the time, and so does every call that has
not returned yet, with one exception: the jump of a `break` and the call of a function whose entry is not known
lead to the address -1. There the last word of the code is found, which leaves a scope, and behind it the
program starts over.
-/

namespace Cilly

open Acting Node List

namespace Machine

/-- A number of steps, one after the other. -/
inductive Runs : Nat → Machine → Machine → Prop
  | refl (m : Machine) : Runs 0 m m
  | step {m m' m'' : Machine} {w : Int} {n : Nat} : m.next = (.ok w, m') → Runs n m' m'' → Runs (n + 1) m m''

namespace Runs

variable {m m' m'' : Machine} {n n' : Nat}

theorem trans (h : Runs n m m') (h' : Runs n' m' m'') : Runs (n + n') m m'' := by
  induction h with
  | refl m => simpa using h'
  | step hstep _ ih =>
    rw [Nat.add_right_comm]
    exact .step hstep (ih h')

theorem invariant {P : Machine → Prop} (hstep : ∀ {m m' : Machine} {w : Int}, P m → m.next = (.ok w, m') → P m')
    (h : Runs n m m') (hm : P m) : P m' := by
  induction h with
  | refl m => exact hm
  | step hnext _ ih => exact ih (hstep hm hnext)

end Runs

/-- The machine stands at instructions of a program's layout. -/
structure Standing (primitives : List String) (body : List Node) (p : Program) (m : Machine) : Prop where
  program : m.program = p
  here : m.pc = -1 ∨ ∃ y ∈ Layout.extent primitives body, m.pc = y.address
  frames : ∀ f ∈ m.frames, ∃ y ∈ Layout.extent primitives body, f.back = y.address

end Machine

theorem Program.LaidOut.back? {prims : List String} {body : List Node} {p : Program}
    (h : p.LaidOut prims body) : p.code.back? = some Opcode.leaveScope.word := by
  have hleave : Instr.leave.In p (Layout.nextAll prims (Layout.origin body).inBlock body).here := by
    refine h.follows ⟨_, .leave, [.block]⟩ ?_
    rw [Layout.program, Layout.statement]
    simp
  have hsize := h.size
  rw [Layout.finish, Layout.next] at hsize
  rw [Array.back?_eq_getElem?, hsize]
  exact hleave 0 _ rfl

namespace Machine

section

variable {prims : List String} {body : List Node} {p : Program} {m m' : Machine} {w : Int}

theorem lt_size_of_next (h : m.next = (.ok w, m')) : m.pc < m.program.code.size := by
  unfold Machine.next MachineM.step at h
  rw [bind_ok (outcome_get m)] at h
  cases hfetch : itemAt m.program.code m.pc with
  | error f =>
    rw [bind_error (MachineM.outcome_word_error hfetch)] at h
    cases h
  | ok word => exact lt_size_of_itemAt hfetch

theorem Standing.start (hbody : AreStats body) (signals : List Signal) :
    Standing prims body p (start p signals) := by
  obtain ⟨y, hy, haddress, -⟩ := (Layout.program_linked prims hbody).first
  exact ⟨rfl, Or.inr ⟨y, hy, by rw [haddress]; rfl⟩, by simp [Machine.start]⟩

/-- A step of compiled code that goes from an instruction with a shape to another one. -/
inductive Transit (all : List Spot) (instr : Instr) (shape : List Mark) (m m' : Machine) : Prop
  | onward {y : Spot} : y ∈ all → m'.pc = y.address → Onward shape y → SameControl m m' → Transit all instr shape m m'
  /-- A `continue`. -/
  | again {inner outer : List Mark} {stop : Nat} {y : Spot} : instr = .continueLoop y.address → y ∈ all →
      m'.pc = y.address → shape = inner ++ .loop y.address stop :: outer → (∀ start stop, .loop start stop ∉ inner) →
      y.shape = .loop y.address stop :: outer → SameControl m m' → Transit all instr shape m m'
  /-- A `break`. -/
  | away : instr = .breakLoop → m'.pc = -1 → SameControl m m' → Transit all instr shape m m'
  | enter {y : Spot} {id count : Nat} : instr = .enter count → y ∈ all → m'.pc = y.address → Enters (.block :: shape) y →
      m'.program = m.program → m'.chain = id :: m.chain → m'.frames = m.frames → Transit all instr shape m m'
  | leave {y : Spot} {outer : List Mark} {id : Nat} : y ∈ all → m'.pc = y.address → shape = .block :: outer →
      After outer y → m'.program = m.program → m.chain = id :: m'.chain → m'.frames = m.frames →
      Transit all instr shape m m'
  | call {y : Spot} {id scope : Nat} : instr = .call id →
      m'.pc = -1 ∨ (∃ entry ∈ all, m'.pc = entry.address ∧ ∃ outer, entry.shape = .function :: outer) →
      y ∈ all → y.shape = shape → m'.program = m.program → m'.chain = scope :: m.chain →
      m'.frames = ⟨y.address, m.chain⟩ :: m.frames → Transit all instr shape m m'
  | back {frame : Frame} : .function ∈ shape → m'.program = m.program → m.frames = frame :: m'.frames →
      m'.pc = frame.back → m'.chain = frame.chain → Transit all instr shape m m'

theorem Transit.of_stands {all : List Spot} {instr : Instr} {shape : List Mark} {address : Nat}
    (h : Stands all address (Onward shape)) (hpc : m'.pc = address) (hsame : SameControl m m') :
    Transit all instr shape m m' := by
  obtain ⟨y, hy, rfl, honward⟩ := h
  exact .onward hy hpc honward hsame

theorem transit_of_moves {all : List Spot} {x : Spot} (hlinks : x.Links all) (hmoves : x.instr.Moves x.address m m')
    (hentries : ∀ r ∈ m.program.routines, r.entry = some (-1) ∨
      ∃ y ∈ all, r.entry = some (y.address : Int) ∧ ∃ outer, y.shape = .function :: outer) :
    Transit all x.instr x.shape m m' := by
  obtain ⟨address, instr, shape⟩ := x
  cases instr with
  | const c => exact .of_stands hlinks hmoves.1 hmoves.2
  | plain op => exact .of_stands hlinks hmoves.1 hmoves.2
  | load depth index => exact .of_stands hlinks hmoves.1 hmoves.2
  | store depth index => exact .of_stands hlinks hmoves.1 hmoves.2
  | jump target => exact .of_stands hlinks hmoves.1 hmoves.2
  | branch op target =>
    rcases hmoves with ⟨hpc | hpc, hsame⟩
    · exact .of_stands hlinks.1 hpc hsame
    · exact .of_stands hlinks.2 hpc hsame
  | breakLoop => exact .away rfl hmoves.1 hmoves.2
  | continueLoop target =>
    obtain ⟨-, inner, stop, outer, hshape, hinner, y, hy, rfl, hyshape⟩ := hlinks
    exact .again rfl hy hmoves.1 hshape hinner hyshape hmoves.2
  | enter count =>
    obtain ⟨hpc, hprogram, ⟨id, hchain⟩, hframes⟩ := hmoves
    obtain ⟨y, hy, haddress, henters⟩ := hlinks
    exact .enter rfl hy (by rw [hpc, haddress]; rfl) henters hprogram hchain hframes
  | leave =>
    obtain ⟨hpc, hprogram, ⟨id, hchain⟩, hframes⟩ := hmoves
    obtain ⟨outer, hshape, y, hy, haddress, hafter⟩ := hlinks
    exact .leave hy (by rw [hpc, haddress]; rfl) hshape hafter hprogram hchain hframes
  | call id =>
    obtain ⟨⟨r, hr, hentry⟩, hprogram, ⟨scope, hchain⟩, hframes⟩ := hmoves
    obtain ⟨y, hy, haddress, hshape⟩ := hlinks
    have hpc : m'.pc = -1 ∨ ∃ entry ∈ all, m'.pc = entry.address ∧ ∃ outer, entry.shape = .function :: outer := by
      rcases hentries r (Array.mem_of_getElem? hr) with hfresh | ⟨entry, hmem, hknown, hshape⟩
      · exact Or.inl (Option.some.inj (hentry.symm.trans hfresh))
      · exact Or.inr ⟨entry, hmem, Option.some.inj (hentry.symm.trans hknown), hshape⟩
    exact .call rfl hpc hy hshape hprogram hchain (by rw [hframes, haddress]; rfl)
  | primitive name =>
    obtain ⟨y, hy, haddress, hshape⟩ := hlinks
    exact .onward hy (by rw [hmoves.1, haddress]; rfl) (.enters (Or.inl hshape)) hmoves.2
  | «return» | returnValue =>
    obtain ⟨hprogram, frame, hframes, hpc, hchain⟩ := hmoves
    exact .back hlinks hprogram hframes hpc hchain
  | refused => exact hmoves.elim

/-- What a step of compiled code does: it starts the program over, or goes on from the instruction it is at. -/
theorem Standing.next_cases (h : Standing prims body p m) (hbody : AreStats body)
    (hlaid : p.LaidOut prims body) (hnext : m.next = (.ok w, m')) :
    (m.pc = -1 ∧ m'.pc = 0 ∧ m'.program = m.program ∧ (∃ id, m.chain = id :: m'.chain) ∧ m'.frames = m.frames) ∨
      ∃ x ∈ Layout.program prims body, m.pc = x.address ∧
        Transit (Layout.extent prims body) x.instr x.shape m m' := by
  rcases h.here with hpc | ⟨x, hx, hpc⟩
  · have hfetch : itemAt m.program.code m.pc = .ok Opcode.leaveScope.word := by
      rw [hpc, h.program]
      exact itemAt_neg_one hlaid.back?
    obtain ⟨hpc', hrest⟩ := moves_leave hfetch hnext
    exact Or.inl ⟨hpc, by rw [hpc', hpc]; rfl, hrest⟩
  · rcases mem_append.mp hx with hx | hx
    · have hin : x.instr.In m.program x.address := by rw [h.program]; exact hlaid.follows x hx
      refine Or.inr ⟨x, hx, hpc, transit_of_moves ((Layout.program_linked prims hbody).links x hx)
        (moves hin hpc hnext) ?_⟩
      rw [h.program, hlaid.routines]
      intro r hr
      refine (Layout.entry_stands prims hbody hr).imp_right ?_
      rintro ⟨y, hy, hentry, hshape⟩
      exact ⟨y, mem_append_left _ hy, hentry, hshape⟩
    · have hend : m.pc = m.program.code.size := by
        rw [hpc, mem_singleton.mp hx, h.program, hlaid.size]
      exact absurd hend (Int.ne_of_lt (lt_size_of_next hnext))

theorem Standing.next (h : Standing prims body p m) (hbody : AreStats body)
    (hlaid : p.LaidOut prims body) (hnext : m.next = (.ok w, m')) : Standing prims body p m' := by
  rcases h.next_cases hbody hlaid hnext with ⟨-, hpc, hprogram, -, hframes⟩ | ⟨x, hx, hpc, htransit⟩
  · obtain ⟨y, hy, haddress, -⟩ := (Layout.program_linked prims hbody).first
    exact ⟨hprogram.trans h.program, Or.inr ⟨y, hy, by rw [hpc, haddress]; rfl⟩, hframes ▸ h.frames⟩
  · cases htransit with
    | onward hy hpc' _ hsame | again _ hy hpc' _ _ _ hsame =>
      exact ⟨hsame.program.trans h.program, Or.inr ⟨_, hy, hpc'⟩, hsame.frames ▸ h.frames⟩
    | away _ hpc' hsame => exact ⟨hsame.program.trans h.program, Or.inl hpc', hsame.frames ▸ h.frames⟩
    | enter _ hy hpc' _ hprogram _ hframes | leave hy hpc' _ _ hprogram _ hframes =>
      exact ⟨hprogram.trans h.program, Or.inr ⟨_, hy, hpc'⟩, hframes ▸ h.frames⟩
    | call _ hpc' hy _ hprogram _ hframes =>
      refine ⟨hprogram.trans h.program, hpc'.imp_right fun ⟨entry, hentry, hpc', _⟩ => ⟨entry, hentry, hpc'⟩, ?_⟩
      rw [hframes]
      exact forall_mem_cons.mpr ⟨⟨_, hy, rfl⟩, h.frames⟩
    | @back frame _ hprogram hframes hpc' _ =>
      have hall := h.frames
      rw [hframes] at hall
      refine ⟨hprogram.trans h.program, Or.inr ?_, fun f hf => hall f (mem_cons_of_mem _ hf)⟩
      rw [hpc']
      exact hall frame (mem_cons_self ..)

theorem Runs.standing {n : Nat} {signals : List Signal} (h : Runs n (Machine.start p signals) m)
    (hbody : AreStats body) (hlaid : p.LaidOut prims body) : Standing prims body p m :=
  h.invariant (fun hm hnext => hm.next hbody hlaid hnext) (.start hbody signals)

end

end Machine

end Cilly
