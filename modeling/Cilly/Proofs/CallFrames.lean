import Cilly.Proofs.Completion

/-!
# Calls and returns

Whatever the code is, a call keeps the address behind it and the scopes that are open, and the return that belongs to it brings
both back. `Affects` says what a step of any code does to the open scopes and to the pending calls, wherever the word was
found. While a call is pending (`Pending`), steps change only what lies above its frame, until a return takes the frame itself.

A frame keeps the list of open scopes as it was. It would be enough to remember which list it was: a list in which scopes are
entered and left in place is never one that a pending call remembers, since a call goes on with a list of its own. `Shelf` keeps
the lists in this way, and `Shelf.Shows` is what says that nothing is lost.
-/

namespace Cilly

open Acting List
open MachineM hiding outcome

/-! ## Steps of any code -/

theorem Opcode.eq_of_word_eq {op op' : Opcode} (h : op.word = op'.word) : op = op' := by
  have hread := Opcode.ofWord?_word op
  rw [h, Opcode.ofWord?_word] at hread
  exact (Option.some.inj hread).symm

/-- The scope that was opened last. -/
def Machine.newest (m : Machine) : Nat := m.store.size - 1

/-- What a step does to the open scopes and the pending calls, and what a return leaves on the stack. -/
def Opcode.Affects (m m' : Machine) : Opcode → Prop
  | .enterScope => m'.chain = m'.newest :: m.chain ∧ m'.frames = m.frames
  | .leaveScope => (∃ id, m.chain = id :: m'.chain) ∧ m'.frames = m.frames
  | .call => m'.chain = m'.newest :: m.chain ∧ m'.frames = ⟨m.pc + 2, m.chain⟩ :: m.frames
  | .return =>
    (∃ frame, m.frames = frame :: m'.frames ∧ m'.pc = frame.back ∧ m'.chain = frame.chain) ∧
      m'.stack.items = .nothing :: m.stack.items
  | .returnValue =>
    (∃ frame, m.frames = frame :: m'.frames ∧ m'.pc = frame.back ∧ m'.chain = frame.chain) ∧
      m.stack.items ≠ [] ∧ m'.stack.items = m.stack.items
  | _ => m'.chain = m.chain ∧ m'.frames = m.frames

namespace Machine

variable {m m' n : Machine} {w pc : Int} {op : Opcode}

theorem affects_of_acts {x : MachineM Int} {P : Int → Prop} (hacts : Acts SameControl (fun _ => True) P x)
    (h : outcome x m.counted = (.ok pc, n)) : n.chain = m.chain ∧ n.frames = m.frames := by
  obtain ⟨hsame, -⟩ := (Quiet.of_acts hacts).ok h
  exact ⟨hsame.chain, hsame.frames⟩

theorem chain_of_openScope {cells : Array Datum} {next : MachineM Int} (hnext : Still next)
    (h : outcome (do openScope cells; next) m = (.ok pc, n)) :
    n.chain = n.newest :: m.chain ∧ n.frames = m.frames := by
  rw [openScope, bind_ok (outcome_modify _ m)] at h
  have hstill := hnext { m with store := m.store.push cells, chain := m.store.size :: m.chain }
  rw [h] at hstill
  subst hstill
  exact ⟨congrArg (· :: m.chain) (show m.store.size = (m.store.push cells).size - 1 by simp), rfl⟩

theorem enterScope_affects (h : outcome (enterScope m.pc) m.counted = (.ok pc, n)) :
    n.chain = n.newest :: m.chain ∧ n.frames = m.frames := by
  obtain ⟨count, m₁, hword, h⟩ := bind_eq_ok.mp h
  obtain ⟨hsame, -⟩ := (Quiet.word _).ok hword
  obtain ⟨hchain, hframes⟩ := chain_of_openScope (.pure _) h
  exact ⟨hchain.trans (congrArg _ hsame.chain), hframes.trans hsame.frames⟩

theorem leaveScope_affects (h : outcome (leaveScope m.pc) m.counted = (.ok pc, n)) :
    (∃ id, m.chain = id :: n.chain) ∧ n.frames = m.frames := by
  rw [leaveScope, bind_ok (outcome_get _)] at h
  cases hchain : m.chain with
  | nil =>
    rw [show m.counted.chain = m.chain from rfl, hchain] at h
    cases h
  | cons id outer =>
    rw [show m.counted.chain = m.chain from rfl, hchain] at h
    cases h
    exact ⟨⟨id, rfl⟩, rfl⟩

theorem callRoutine_affects (h : outcome (callRoutine m.pc) m.counted = (.ok pc, n)) :
    n.chain = n.newest :: m.chain ∧ n.frames = ⟨m.pc + 2, m.chain⟩ :: m.frames := by
  obtain ⟨id, m₁, hword, h⟩ := bind_eq_ok.mp h
  obtain ⟨hsame, -⟩ := (Quiet.word _).ok hword
  rw [bind_ok (outcome_get m₁)] at h
  by_cases hid : (m₁.program.routines.size : Int) ≤ id
  · rw [if_pos hid] at h
    obtain ⟨_, _, hrefuse, -⟩ := bind_eq_ok.mp h
    exact ((Quiet.refuse (P := fun _ => False) _ _).ok hrefuse).2.elim
  · rw [if_neg hid] at h
    obtain ⟨routine, m₂, hroutine, h⟩ := bind_eq_ok.mp h
    obtain ⟨hsame₁, -⟩ := (Quiet.ofFault _).ok hroutine
    obtain ⟨size, m₃, hsize, h⟩ := bind_eq_ok.mp h
    obtain ⟨hsame₂, -⟩ := (Quiet.ofFault _).ok hsize
    obtain ⟨cells, m₄, hcells, h⟩ := bind_eq_ok.mp h
    obtain ⟨hsame₃, -⟩ := (Quiet.of_acts (.takeArguments _ _)).ok hcells
    have hall := ((hsame.trans hsame₁).trans hsame₂).trans hsame₃
    rw [bind_ok (outcome_modify _ m₄)] at h
    obtain ⟨hchain, hframes⟩ := chain_of_openScope (by
      split
      · exact .pure _
      · exact .throw _) h
    have hchain' : m₄.chain = m.chain := hall.chain
    have hframes' : m₄.frames = m.frames := hall.frames
    exact ⟨hchain.trans (congrArg _ hchain'), by rw [hframes, hchain', hframes']⟩

theorem goBack_affects {v : Datum} (h : outcome (goBack v) m = (.ok pc, n)) :
    (∃ frame, m.frames = frame :: n.frames ∧ pc = frame.back ∧ n.chain = frame.chain) ∧
      n.stack.items = v :: m.stack.items := by
  refine ⟨(moves_goBack h).2, ?_⟩
  rw [goBack, bind_ok (outcome_get _)] at h
  cases hframes : m.frames with
  | nil =>
    rw [hframes] at h
    cases h
  | cons frame outer =>
    rw [hframes] at h
    cases h
    rfl

theorem items_of_pop {v : Datum} (h : outcome pop m = (.ok v, n)) : m.stack.items = v :: n.stack.items := by
  rw [pop, bind_ok (outcome_modifyGet _ m), CountedStack.pop] at h
  cases hitems : m.stack.items with
  | nil =>
    rw [hitems] at h
    cases h
  | cons top rest =>
    rw [hitems] at h
    cases h
    rfl

theorem returnValue_affects (h : outcome (returnValue m.pc) m.counted = (.ok pc, n)) :
    (∃ frame, m.frames = frame :: n.frames ∧ pc = frame.back ∧ n.chain = frame.chain) ∧
      m.stack.items ≠ [] ∧ n.stack.items = m.stack.items := by
  rw [returnValue, bind_ok (outcome_get _)] at h
  cases hempty : m.frames.isEmpty with
  | true =>
    rw [show m.counted.frames = m.frames from rfl, hempty] at h
    cases h
  | false =>
    rw [show m.counted.frames = m.frames from rfl, hempty] at h
    obtain ⟨v, m₁, hpop, hback⟩ := bind_eq_ok.mp h
    obtain ⟨hsame, -⟩ := Quiet.pop.ok hpop
    have hitems : m.counted.stack.items = v :: m₁.stack.items := items_of_pop hpop
    obtain ⟨⟨frame, hframes, hpc, hchain⟩, hstack⟩ := goBack_affects hback
    exact ⟨⟨frame, hsame.frames.symm.trans hframes, hpc, hchain⟩, ne_nil_of_mem (hitems ▸ mem_cons_self ..),
      hstack.trans hitems.symm⟩

/-- **What a step of any code does to scopes and calls.** -/
theorem affects (h : m.next = (.ok w, m')) :
    ∃ op : Opcode, itemAt m.program.code m.pc = .ok op.word ∧ w = op.word ∧ op.Affects m m' := by
  obtain ⟨op, n, pc, hfetch, hperform, rfl⟩ := next_eq_ok h
  have hword : w = op.word := by
    rw [next_eq hfetch, hperform] at h
    cases h
    rfl
  refine ⟨op, hfetch, hword, ?_⟩
  cases op with
  | enterScope => exact (enterScope_affects hperform :)
  | leaveScope => exact (leaveScope_affects hperform :)
  | call => exact (callRoutine_affects hperform :)
  | «return» => exact (goBack_affects hperform :)
  | returnValue => exact (returnValue_affects hperform :)
  | loadConst => exact (affects_of_acts (.loadConst m.pc) hperform :)
  | loadVar => exact (affects_of_acts (.loadVar m.pc) hperform :)
  | storeVar => exact (affects_of_acts (.storeVar (fun _ _ => ⟨rfl, rfl, rfl⟩) m.pc) hperform :)
  | jump => exact (affects_of_acts (.word _) hperform :)
  | jumpTrue | jumpFalse => exact (affects_of_acts (.jumpOn _ m.pc) hperform :)
  | callPrimitive => exact (affects_of_acts (.callSignal (fun _ => trivial) m.pc) hperform :)
  | loadNull | loadTrue | loadFalse | printItem | printNewline | pop | unary | binary =>
    exact (affects_of_acts (.plain rfl m.pc) hperform :)

theorem after?_succ {k : Nat} : m.after? (k + 1) = some m' ↔ ∃ m₁ w, m.after? k = some m₁ ∧ m₁.next = (.ok w, m') := by
  simp only [after?_eq_some_iff]
  constructor
  · intro h
    obtain ⟨m₁, hfirst, hlast⟩ := h.split (Nat.le_succ k)
    rw [Nat.add_sub_cancel_left] at hlast
    cases hlast with
    | step hnext hrest =>
      cases hrest
      exact ⟨m₁, _, hfirst, hnext⟩
  · rintro ⟨m₁, w, hfirst, hnext⟩
    exact hfirst.trans (.step hnext (.refl m'))

end Machine

/-! ## Lists that are changed in place -/

/-- The lists of open scopes there have been, with the one in use and those that pending calls remember, innermost first. -/
structure Shelf where
  lists : Array (List Nat)
  live : Nat
  waiting : List Nat

namespace Shelf

/-- A machine without pending calls. -/
def of (m : Machine) : Shelf := ⟨#[m.chain], 0, []⟩

/-- Scopes are entered and left in the list in use. A call goes on with a new list, and a return with the list that the call
remembers. -/
def follow (s : Shelf) (m' : Machine) : Opcode → Shelf
  | .enterScope => { s with lists := s.lists.modify s.live (m'.newest :: ·) }
  | .leaveScope => { s with lists := s.lists.modify s.live List.tail }
  | .call => ⟨s.lists.push (m'.newest :: s.lists.getD s.live []), s.lists.size, s.live :: s.waiting⟩
  | .return | .returnValue => ⟨s.lists, s.waiting.headD s.live, s.waiting.tail⟩
  | _ => s

/-- The lists after a number of steps. -/
def along : Nat → Machine → Shelf → Shelf
  | 0, _, s => s
  | n + 1, m, s =>
    match m.next with
    | (.ok w, m') => along n m' ((Opcode.ofWord? w).elim s (s.follow m'))
    | (.error _, _) => s

/-- The list in use is that of the open scopes, and each pending call remembers what its frame keeps. No list is in use or
remembered twice. -/
structure Shows (s : Shelf) (m : Machine) : Prop where
  live : s.lists[s.live]? = some m.chain
  waiting : s.waiting.map (s.lists[·]?) = m.frames.map (some ·.chain)
  apart : (s.live :: s.waiting).Nodup

variable {s : Shelf} {m m' : Machine} {w : Int} {op : Opcode} {n : Nat}

theorem Shows.of (h : m.frames = []) : (Shelf.of m).Shows m := ⟨rfl, by simp [Shelf.of, h], by simp [Shelf.of]⟩

theorem Shows.length (h : s.Shows m) : s.waiting.length = m.frames.length := by
  simpa using congrArg List.length h.waiting

theorem Shows.modify (h : s.Shows m) {g : List Nat → List Nat} (hchain : m'.chain = g m.chain)
    (hframes : m'.frames = m.frames) : ({ s with lists := s.lists.modify s.live g } : Shelf).Shows m' := by
  refine ⟨?_, ?_, h.apart⟩
  · rw [Array.getElem?_modify, if_pos rfl, h.live, hchain]
    rfl
  · rw [hframes, ← h.waiting]
    refine map_congr_left fun i hi => ?_
    rw [Array.getElem?_modify, if_neg]
    rintro rfl
    exact (nodup_cons.mp h.apart).1 hi

theorem Shows.lt_size (h : s.Shows m) : ∀ i ∈ s.live :: s.waiting, i < s.lists.size := by
  intro i hi
  rcases mem_cons.mp hi with rfl | hi
  · exact (Array.getElem?_eq_some_iff.mp h.live).1
  · have hmem : s.lists[i]? ∈ m.frames.map (some ·.chain) := h.waiting ▸ mem_map_of_mem hi
    obtain ⟨frame, -, hframe⟩ := mem_map.mp hmem
    exact (Array.getElem?_eq_some_iff.mp hframe.symm).1

theorem Shows.call (h : s.Shows m) {id : Nat} {back : Int} (hchain : m'.chain = id :: m.chain)
    (hframes : m'.frames = ⟨back, m.chain⟩ :: m.frames) :
    (⟨s.lists.push (id :: s.lists.getD s.live []), s.lists.size, s.live :: s.waiting⟩ : Shelf).Shows m' := by
  have hold : ∀ list, ∀ i ∈ s.live :: s.waiting, (s.lists.push list)[i]? = s.lists[i]? := by
    intro list i hi
    rw [Array.getElem?_push_lt (h.lt_size i hi), Array.getElem?_eq_getElem (h.lt_size i hi)]
  refine ⟨?_, ?_, nodup_cons.mpr ⟨fun hmem => Nat.lt_irrefl _ (h.lt_size _ hmem), h.apart⟩⟩
  · rw [Array.getElem?_push_size, Array.getD_eq_getD_getElem?, h.live, hchain]
    rfl
  · rw [map_congr_left (hold _), hframes, map_cons, map_cons, h.live, h.waiting]

theorem Shows.return (h : s.Shows m) {frame : Frame} (hframes : m.frames = frame :: m'.frames)
    (hchain : m'.chain = frame.chain) : (⟨s.lists, s.waiting.headD s.live, s.waiting.tail⟩ : Shelf).Shows m' := by
  obtain ⟨hlive, hwaiting, hapart⟩ := h
  rw [hframes] at hwaiting
  cases hs : s.waiting with
  | nil => simp [hs] at hwaiting
  | cons i rest =>
    rw [hs, map_cons, map_cons] at hwaiting
    obtain ⟨hi, hrest⟩ := List.cons.inj hwaiting
    rw [hs] at hapart
    exact ⟨hi.trans (congrArg some hchain.symm), hrest, (nodup_cons.mp hapart).2⟩

theorem Shows.follow (h : s.Shows m) (haffects : op.Affects m m') : (s.follow m' op).Shows m' := by
  have hquiet : m'.chain = m.chain ∧ m'.frames = m.frames → s.Shows m' := by
    rintro ⟨hchain, hframes⟩
    exact ⟨hchain ▸ h.live, hframes ▸ h.waiting, h.apart⟩
  cases op with
  | enterScope => exact h.modify haffects.1 haffects.2
  | leaveScope =>
    obtain ⟨⟨id, hchain⟩, hframes⟩ := haffects
    exact h.modify (by rw [hchain, tail_cons]) hframes
  | call => exact h.call haffects.1 haffects.2
  | «return» | returnValue =>
    obtain ⟨⟨frame, hframes, -, hchain⟩, -⟩ := haffects
    exact h.return hframes hchain
  | _ => exact hquiet haffects

theorem along_succ : ∀ {n : Nat} {m m₁ : Machine} {s : Shelf}, m.after? n = some m₁ → m₁.next = (.ok op.word, m') →
    along (n + 1) m s = (along n m s).follow m' op
  | 0, m, m₁, s, hfirst, hnext => by
    cases hfirst
    simp only [along, hnext, Opcode.ofWord?_word, Option.elim_some]
  | n + 1, m, m₁, s, hfirst, hnext => by
    unfold Machine.after? at hfirst
    split at hfirst
    · rename_i w m₂ hstep
      rw [along, along, hstep]
      exact along_succ hfirst hnext
    · cases hfirst

end Shelf

/-! ## Pending calls -/

/-- A call is pending: its frame and those below are still there, and so are the lists that were in use and remembered. -/
structure Pending (frame : Frame) (base : List Frame) (held : List Nat) (m : Machine) (s : Shelf) : Prop where
  shows : s.Shows m
  frames : frame :: base <:+ m.frames
  lists : held <:+ s.waiting
  length : held.length = base.length + 1

/-- A pending call has returned: a step goes on behind it, with the scopes and in the list of the time of the call, and a result
is on top of the stack. -/
structure Returned (frame : Frame) (base : List Frame) (held : List Nat) (op : Opcode) (m m' : Machine) (s' : Shelf) :
    Prop where
  frames : m'.frames = base
  pc : m'.pc = frame.back
  chain : m'.chain = frame.chain
  lists : s'.live :: s'.waiting = held
  shows : s'.Shows m'
  result : op = .return ∧ m'.stack.items = .nothing :: m.stack.items ∨
    op = .returnValue ∧ m.stack.items ≠ [] ∧ m'.stack.items = m.stack.items

namespace Pending

variable {frame : Frame} {base : List Frame} {held : List Nat} {m m' : Machine} {s : Shelf} {op : Opcode}

theorem lt_length (h : Pending frame base held m s) : base.length < m.frames.length := h.frames.length_le

/-- A return takes a frame above that of the call, or the frame itself. -/
theorem of_return (h : Pending frame base held m s)
    (hshows : (⟨s.lists, s.waiting.headD s.live, s.waiting.tail⟩ : Shelf).Shows m')
    (hback : ∃ top, m.frames = top :: m'.frames ∧ m'.pc = top.back ∧ m'.chain = top.chain)
    (hresult : op = .return ∧ m'.stack.items = .nothing :: m.stack.items ∨
      op = .returnValue ∧ m.stack.items ≠ [] ∧ m'.stack.items = m.stack.items) :
    Pending frame base held m' ⟨s.lists, s.waiting.headD s.live, s.waiting.tail⟩ ∨
      Returned frame base held op m m' ⟨s.lists, s.waiting.headD s.live, s.waiting.tail⟩ := by
  obtain ⟨top, htop, hpc, hchain⟩ := hback
  have hlength := h.shows.length
  have hframes := h.frames
  have hheld := h.lists
  cases hwaiting : s.waiting with
  | nil => simp [hwaiting, htop] at hlength
  | cons i rest =>
    rw [hwaiting, htop] at hlength
    rw [htop] at hframes
    rw [hwaiting] at hheld hshows
    rcases suffix_cons_iff.mp hframes with heq | hframes
    · obtain ⟨rfl, rfl⟩ := List.cons.inj heq
      exact Or.inr ⟨rfl, hpc, hchain, (hheld.eq_of_length (h.length.trans hlength.symm)).symm, hshows, hresult⟩
    · refine Or.inl ⟨hshows, hframes, ?_, h.length⟩
      rcases suffix_cons_iff.mp hheld with rfl | hheld
      · have hle := hframes.length_le
        have hlen := h.length
        simp only [length_cons] at hlength hle hlen
        omega
      · exact hheld

theorem follow (h : Pending frame base held m s) (haffects : op.Affects m m') :
    Pending frame base held m' (s.follow m' op) ∨ Returned frame base held op m m' (s.follow m' op) := by
  have hshows := h.shows.follow haffects
  have hsame : m'.frames = m.frames → (s.follow m' op).waiting = s.waiting → Pending frame base held m' (s.follow m' op) :=
    fun hframes hwaiting => ⟨hshows, hframes ▸ h.frames, hwaiting ▸ h.lists, h.length⟩
  cases op with
  | call =>
    exact Or.inl ⟨hshows, haffects.2 ▸ h.frames.trans (suffix_cons ..), h.lists.trans (suffix_cons ..), h.length⟩
  | «return» => exact h.of_return hshows haffects.1 (Or.inl ⟨rfl, haffects.2⟩)
  | returnValue => exact h.of_return hshows haffects.1 (Or.inr ⟨rfl, haffects.2⟩)
  | _ => exact Or.inl (hsame haffects.2 rfl)

end Pending

theorem Shelf.Shows.pending {s : Shelf} {m m' : Machine} (h : s.Shows m) (haffects : Opcode.call.Affects m m') :
    Pending ⟨m.pc + 2, m.chain⟩ m.frames (s.live :: s.waiting) m' (s.follow m' .call) :=
  ⟨h.follow haffects, haffects.2 ▸ suffix_refl _, suffix_refl _, congrArg (· + 1) h.length⟩

namespace Machine

variable {p : Program} {signals : List Signal} {i j : Nat} {m m' n n' : Machine}

/-- The lists of a run after a number of steps. -/
def shelf (m : Machine) (n : Nat) : Shelf := Shelf.along n m (.of m)

theorem shelf_succ {op : Opcode} {k : Nat} (hfirst : m.after? k = some n) (hnext : n.next = (.ok op.word, n')) :
    m.shelf (k + 1) = (m.shelf k).follow n' op := Shelf.along_succ hfirst hnext

theorem shows_shelf (hframes : m.frames = []) : ∀ {n : Nat} {m' : Machine}, m.after? n = some m' → (m.shelf n).Shows m'
  | 0, _, h => by
    cases h
    exact .of hframes
  | n + 1, m', h => by
    obtain ⟨m₁, w, hfirst, hnext⟩ := after?_succ.mp h
    obtain ⟨op, -, rfl, haffects⟩ := affects hnext
    rw [shelf_succ hfirst hnext]
    exact (shows_shelf hframes hfirst).follow haffects

/-- A call is pending up to the step that brings the depth of calls back. -/
theorem pending_of_call (hframes : m.frames = []) (hcall : m.after? i = some m')
    (hop : itemAt m'.program.code m'.pc = .ok Opcode.call.word)
    (hfirst : ∀ k x, i < k → k ≤ j → m.after? k = some x → x.frames.length ≠ m'.frames.length) :
    ∀ {k : Nat} {x : Machine}, i < k → k ≤ j → m.after? k = some x →
      Pending ⟨m'.pc + 2, m'.chain⟩ m'.frames ((m.shelf i).live :: (m.shelf i).waiting) x (m.shelf k) := by
  intro k x hk
  induction hk generalizing x with
  | refl =>
    intro _ hx
    obtain ⟨_, w, hfirst, hnext⟩ := after?_succ.mp hx
    cases hcall.symm.trans hfirst
    obtain ⟨op, hfetch, rfl, haffects⟩ := affects hnext
    obtain rfl : Opcode.call = op := Opcode.eq_of_word_eq (Except.ok.inj (hop.symm.trans hfetch))
    rw [shelf_succ hcall hnext]
    exact (shows_shelf hframes hcall).pending haffects
  | @step k hk ih =>
    intro hle hx
    obtain ⟨x₁, w, hbefore, hnext⟩ := after?_succ.mp hx
    obtain ⟨op, -, rfl, haffects⟩ := affects hnext
    rw [shelf_succ hbefore hnext]
    rcases (ih (Nat.le_of_succ_le hle) hbefore).follow haffects with hpending | hreturned
    · exact hpending
    · exact absurd (congrArg List.length hreturned.frames) (hfirst _ _ (Nat.le_succ_of_le hk) hle hx)

/-- **A return brings back what was there at the call.** In a run of any code, let a call succeed, and let a later step be the
first after which as many calls are pending as before it. Then that step is a return, and it goes on behind the call, with the
scopes and the pending calls of that time. On top of the stack is null, or the value that was on top before. The scopes are in
the very list that was in use at the call, where lists are changed in place. -/
theorem call_restored (hcall : (start p signals).after? i = some m)
    (hop : itemAt m.program.code m.pc = .ok Opcode.call.word) (hlater : i < j)
    (hbefore : (start p signals).after? j = some n) (hafter : (start p signals).after? (j + 1) = some n')
    (hdepth : n'.frames.length = m.frames.length)
    (hfirst : ∀ k x, i < k → k ≤ j → (start p signals).after? k = some x → x.frames.length ≠ m.frames.length) :
    n'.pc = m.pc + 2 ∧ n'.chain = m.chain ∧ n'.frames = m.frames ∧
      (itemAt n.program.code n.pc = .ok Opcode.return.word ∧ n'.stack.items = .nothing :: n.stack.items ∨
        itemAt n.program.code n.pc = .ok Opcode.returnValue.word ∧ n.stack.items ≠ [] ∧
          n'.stack.items = n.stack.items) ∧
      ((start p signals).shelf (j + 1)).live = ((start p signals).shelf i).live ∧
      ((start p signals).shelf (j + 1)).lists[((start p signals).shelf i).live]? = some m.chain := by
  have hpending := pending_of_call rfl hcall hop hfirst hlater (Nat.le_refl j) hbefore
  obtain ⟨_, w, hbefore', hnext⟩ := after?_succ.mp hafter
  cases hbefore.symm.trans hbefore'
  obtain ⟨op, hfetch, rfl, haffects⟩ := affects hnext
  rw [shelf_succ hbefore hnext]
  rcases hpending.follow haffects with hpending | hreturned
  · exact absurd hdepth (Nat.ne_of_gt hpending.lt_length)
  · have hlive : (((start p signals).shelf j).follow n' op).live = ((start p signals).shelf i).live :=
      (List.cons.inj hreturned.lists).1
    refine ⟨hreturned.pc, hreturned.chain, hreturned.frames, ?_, hlive, ?_⟩
    · rcases hreturned.result with ⟨rfl, hresult⟩ | ⟨rfl, hresult⟩
      · exact Or.inl ⟨hfetch, hresult⟩
      · exact Or.inr ⟨hfetch, hresult⟩
    · rw [← hlive, hreturned.shows.live, hreturned.chain]

/-- A routine that closes the scopes of its caller, calls another one and returns a value. -/
theorem call_restored_without_scopes :
    ∃ (p : Program) (m n n' : Machine), (start p []).after? 1 = some m ∧ m.pc = 2 ∧ m.chain = [1, 0] ∧
      (start p []).after? 12 = some n ∧ n.chain = [] ∧ (start p []).after? 13 = some n' ∧ n'.pc = 4 ∧ n'.chain = [1, 0] ∧
      n'.stack.items = n.stack.items := by
  let p : Program :=
    { code := #[13, 1, 15, 0, 12, 13, 2, 14, 14, 14, 14, 15, 1, 12, 3, 17, 13, 1, 16]
      consts := #[]
      scopes := #[#[]]
      routines := #[⟨.text "f", [], some 5⟩, ⟨.text "g", [], some 16⟩] }
  have hcall : (((start p []).after? 1).map fun m => (m.pc, m.chain, m.frames.length, m.program.code[2]?)) =
      some (2, [1, 0], 0, some Opcode.call.word) := by decide +kernel
  have hbefore : (((start p []).after? 12).map fun n => (n.pc, n.chain, n.program.code[15]?)) =
      some (15, [], some Opcode.returnValue.word) := by decide +kernel
  have hafter : (((start p []).after? 13).map fun n => n.frames.length) = some 0 := by decide +kernel
  have hpending : ∀ k ≤ 12, 1 < k → ((start p []).after? k).all (fun x => x.frames.length != 0) = true := by
    decide +kernel
  obtain ⟨m, hm, hview⟩ := Option.map_eq_some_iff.mp hcall
  obtain ⟨n, hn, hview'⟩ := Option.map_eq_some_iff.mp hbefore
  obtain ⟨n', hn', hdepth⟩ := Option.map_eq_some_iff.mp hafter
  simp only [Prod.mk.injEq] at hview hview'
  obtain ⟨hpc, hchain, hframes, hword⟩ := hview
  obtain ⟨hpc', hempty, hword'⟩ := hview'
  have hop : itemAt m.program.code m.pc = .ok Opcode.call.word := by
    rw [hpc]
    exact itemAt_of_getElem? hword
  have hreturn : itemAt n.program.code n.pc = .ok Opcode.returnValue.word := by
    rw [hpc']
    exact itemAt_of_getElem? hword'
  have hfirst : ∀ k x, 1 < k → k ≤ 12 → (start p []).after? k = some x → x.frames.length ≠ m.frames.length := by
    intro k x hk hle hx
    have hall := hpending k hle hk
    rw [hx] at hall
    rw [hframes]
    simpa using hall
  obtain ⟨hback, hscopes, -, hresult, -⟩ :=
    call_restored hm hop (by decide) hn hn' (hdepth.trans hframes.symm) hfirst
  refine ⟨p, m, n, n', hm, hpc, hchain, hn, hempty, hn', by rw [hback, hpc]; rfl, hscopes.trans hchain, ?_⟩
  rcases hresult with ⟨hother, -⟩ | ⟨-, -, hresult⟩
  · exact absurd (Except.ok.inj (hother.symm.trans hreturn)) (by decide)
  · exact hresult

end Machine

end Cilly
