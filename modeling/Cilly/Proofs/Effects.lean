import Cilly.Proofs.Running

/-!
# What instructions do

A step is described by what of the machine matters to a program: where it stands, the values on its stack, its
scopes and calls, and what it has printed. A `Snapshot` has just that, and not the number of steps or the
statistics of the stack. `Does` gives the effect of an action on snapshots, `Steps` that of a whole step, and `Leads`
that of a number of steps.
-/

namespace Cilly

open Acting List
open MachineM hiding outcome

variable {depth i id target : Nat} {m : Machine} {rest : List Datum} {v : Datum}

structure Snapshot where
  pc : Nat
  stack : List Datum
  chain : List Nat
  frames : List Frame
  store : Array (Array Datum)
  printed : String

/-- The machine runs a program and is as the snapshot shows it. -/
structure Machine.Shows (p : Program) (c : Snapshot) (m : Machine) : Prop where
  program : m.program = p
  pc : m.pc = c.pc
  stack : m.stack.items = c.stack
  chain : m.chain = c.chain
  frames : m.frames = c.frames
  store : m.store = c.store
  printed : m.printed = c.printed

/-- What of a machine matters to a program, at an address. -/
def Machine.snapshot (m : Machine) (address : Nat) : Snapshot :=
  ⟨address, m.stack.items, m.chain, m.frames, m.store, m.printed⟩

theorem Machine.shows_snapshot {p : Program} {address : Nat} (hprogram : m.program = p) (hpc : m.pc = address) :
    m.Shows p (m.snapshot address) := ⟨hprogram, hpc, rfl, rfl, rfl, rfl, rfl⟩

theorem MachineM.outcome_scopeAt (h : m.chain[depth]? = some id) :
    Acting.outcome (scopeAt depth) m = (.ok id, m) := by
  have hlt : depth < m.chain.length := (List.getElem?_eq_some_iff.mp h).1
  unfold scopeAt
  rw [bind_ok (outcome_get m)]
  dsimp only
  rw [if_neg (by omega), outcome_ofFault, itemAt_reverse h]
  rfl

/-- An action gives a result and leaves a snapshot. -/
def Does {α : Type} (p : Program) (x : MachineM α) (c : Snapshot) (a : α) (c' : Snapshot) : Prop :=
  ∀ m : Machine, m.Shows p c → ∃ m', outcome x m = (.ok a, m') ∧ m'.Shows p c'

/-- An action fails and has not printed. -/
def Fails {α : Type} (p : Program) (x : MachineM α) (c : Snapshot) (f : Fault) : Prop :=
  ∀ m : Machine, m.Shows p c → ∃ m', outcome x m = (.error (.fault f), m') ∧ m'.printed = c.printed

section

variable {α β : Type} {p : Program} {x : MachineM α} {f : α → MachineM β} {c c' c'' : Snapshot} {a : α} {b : β}
  {fault : Fault}

namespace Does

theorem bind (hx : Does p x c a c') (hf : Does p (f a) c' b c'') : Does p (x >>= f) c b c'' := by
  intro m hm
  obtain ⟨m', hx, hm'⟩ := hx m hm
  rw [bind_ok hx]
  exact hf m' hm'

theorem get {f : Machine → MachineM α} (h : ∀ m : Machine, m.Shows p c → Does p (f m) c a c') :
    Does p (get >>= f) c a c' := by
  intro m hm
  rw [bind_ok (outcome_get m)]
  exact h m hm m hm

theorem pure (a : α) : Does p (pure a) c a c := fun m hm => ⟨m, rfl, hm⟩

theorem discard (h : Does p x c a c') : Does p (discard x) c () c' :=
  show Does p (x >>= fun _ => Pure.pure ()) c () c' from h.bind (pure ())

theorem update {g : Machine → Machine} (h : ∀ m : Machine, m.Shows p c → (g m).Shows p c') :
    Does p (modify g) c () c' :=
  fun m hm => ⟨g m, rfl, h m hm⟩

theorem ofFault {r : Except Fault α} (h : r = .ok a) : Does p (ofFault r) c a c := by
  rw [h]
  exact pure a

theorem word {address w : Int} (h : itemAt p.code address = .ok w) : Does p (word address) c w c :=
  get fun m hm => ofFault (by rw [hm.program, h])

theorem push (v : Datum) : Does p (push v) c () { c with stack := v :: c.stack } :=
  update fun _ hm => { hm with stack := congrArg (v :: ·) hm.stack }

theorem printText (s : String) : Does p (printText s) c () { c with printed := c.printed ++ s } :=
  update fun _ hm => { hm with printed := congrArg (· ++ s) hm.printed }

theorem pop (h : c.stack = v :: rest) :
    Does p pop c v { c with stack := rest } := by
  intro m hm
  have hpop : m.stack.pop = (some v, { m.stack with items := rest, pops := m.stack.pops + 1 }) := by
    rw [CountedStack.pop, hm.stack, h]
  refine ⟨{ m with stack := m.stack.pop.2 }, ?_, { hm with stack := by rw [hpop] }⟩
  unfold MachineM.pop
  rw [bind_ok (outcome_modifyGet _ m), hpop]
  rfl

theorem popPayload {d : Datum} (h : c.stack = v :: rest) (hd : v.payload = .ok d) :
    Does p popPayload c d { c with stack := rest } :=
  (pop h).bind (ofFault hd)

theorem openScope (cells : Array Datum) :
    Does p (openScope cells) c ()
      { c with store := c.store.push cells, chain := c.store.size :: c.chain } :=
  update fun _ hm => { hm with store := by rw [hm.store], chain := by rw [hm.store, hm.chain] }

theorem scopeAt (h : c.chain[depth]? = some id) : Does p (scopeAt depth) c id c :=
  fun m hm => ⟨m, outcome_scopeAt (by rw [hm.chain]; exact h), hm⟩

end Does

namespace Fails

theorem throw (f : Fault) : Fails p (ofFault (.error f : Except Fault α)) c f :=
  fun m hm => ⟨m, rfl, hm.printed⟩

theorem first (hx : Fails p x c fault) : Fails p (x >>= f) c fault := by
  intro m hm
  obtain ⟨m', hx, hprinted⟩ := hx m hm
  exact ⟨m', bind_error hx, hprinted⟩

theorem second (hx : Does p x c a c') (hprinted : c'.printed = c.printed) (hf : Fails p (f a) c' fault) :
    Fails p (x >>= f) c fault := by
  intro m hm
  obtain ⟨m', hx, hm'⟩ := hx m hm
  obtain ⟨m'', hf, hprinted'⟩ := hf m' hm'
  exact ⟨m'', by rw [bind_ok hx, hf], hprinted'.trans hprinted⟩

theorem popPayload (h : c.stack = v :: rest) (hd : v.payload = .error fault) :
    Fails p popPayload c fault :=
  second (Does.pop h) rfl (by rw [hd]; exact throw fault)

end Fails

end

/-! ## Steps -/

namespace Snapshot

variable {p : Program} {c c' c'' : Snapshot} {fault : Fault}

/-- A step leads from one snapshot to another. -/
def Steps (p : Program) (c c' : Snapshot) : Prop :=
  ∀ m : Machine, m.Shows p c → ∃ w m', m.next = (.ok w, m') ∧ m'.Shows p c'

/-- There is a next step, and it fails. -/
def Stops (p : Program) (c : Snapshot) (f : Fault) : Prop :=
  c.pc < p.code.size ∧
    ∀ m : Machine, m.Shows p c → ∃ m', m.next = (.error (.fault f), m') ∧ m'.printed = c.printed

/-- A number of steps lead from one snapshot to another. -/
def Leads (p : Program) (n : Nat) (c c' : Snapshot) : Prop :=
  ∀ m : Machine, m.Shows p c → ∃ m', m.Runs n m' ∧ m'.Shows p c'

theorem Steps.shows (h : Steps p c c') {m' : Machine} {w : Int} (hm : m.Shows p c) (hnext : m.next = (.ok w, m')) :
    m'.Shows p c' := by
  obtain ⟨_, n, hnext', hn⟩ := h m hm
  cases hnext.symm.trans hnext'
  exact hn

theorem Leads.refl (p : Program) (c : Snapshot) : Leads p 0 c c := fun m hm => ⟨m, .refl m, hm⟩

theorem Leads.trans {n n' : Nat} (h : Leads p n c c') (h' : Leads p n' c' c'') : Leads p (n + n') c c'' := by
  intro m hm
  obtain ⟨m', hrun, hm'⟩ := h m hm
  obtain ⟨m'', hrun', hm''⟩ := h' m' hm'
  exact ⟨m'', hrun.trans hrun', hm''⟩

theorem Steps.leads (h : Steps p c c') : Leads p 1 c c' := by
  intro m hm
  obtain ⟨w, m', hnext, hm'⟩ := h m hm
  exact ⟨m', .step hnext (.refl m'), hm'⟩

theorem Steps.of_does {op : Opcode} {next : Int} (hfetch : itemAt p.code (c.pc : Int) = .ok op.word)
    (h : Does p (perform op c.pc) c next { c' with pc := c.pc }) (hnext : next = c'.pc) : Steps p c c' := by
  intro m hm
  have hcounted : m.counted.Shows p c := { hm with }
  obtain ⟨m', hperform, hm'⟩ := h m.counted hcounted
  refine ⟨op.word, { m' with pc := next }, ?_, { hm' with pc := hnext }⟩
  rw [Machine.next_eq (show itemAt m.program.code m.pc = .ok op.word by rw [hm.program, hm.pc, hfetch]), hm.pc,
    hperform]

theorem Stops.of_fails {op : Opcode} (hfetch : itemAt p.code (c.pc : Int) = .ok op.word)
    (h : Fails p (perform op c.pc) c fault) : Stops p c fault := by
  refine ⟨Int.ofNat_lt.mp (lt_size_of_itemAt hfetch), fun m hm => ?_⟩
  have hcounted : m.counted.Shows p c := { hm with }
  obtain ⟨m', hperform, hprinted⟩ := h m.counted hcounted
  refine ⟨m', ?_, hprinted⟩
  rw [Machine.next_eq (show itemAt m.program.code m.pc = .ok op.word by rw [hm.program, hm.pc, hfetch]), hm.pc,
    hperform]

/-! ## Instructions -/

theorem setIfInBounds_of_getElem? {α : Type} {xs : Array α} {x : α} (h : xs[i]? = some x) :
    xs.setIfInBounds i x = xs := by
  have hlt : i < xs.size := (Array.getElem?_eq_some_iff.mp h).1
  refine Array.ext_getElem? fun j => ?_
  rw [Array.getElem?_setIfInBounds]
  by_cases hj : i = j
  · subst hj
    rw [if_pos rfl, if_pos hlt, h]
  · rw [if_neg hj]

theorem modify_eq_setIfInBounds {α : Type} {xs : Array α} {x : α} {f : α → α} (h : xs[i]? = some x) :
    xs.modify i f = xs.setIfInBounds i (f x) := by
  obtain ⟨hlt, rfl⟩ := Array.getElem?_eq_some_iff.mp h
  refine Array.ext_getElem? fun j => ?_
  rw [Array.getElem?_modify, Array.getElem?_setIfInBounds]
  by_cases hj : i = j
  · subst hj
    simp [hlt]
  · simp [hj]

theorem steps_const (h : p.Holds c.pc [Opcode.loadConst.word, i])
    (hv : p.consts[i]? = some v) : Steps p c { c with pc := c.pc + 2, stack := v :: c.stack } := by
  refine .of_does h.first ((Does.word h.second).bind (.get fun m hm => (Does.ofFault (a := v) ?_).bind
    ((Does.push v).bind (.pure _)))) rfl
  rw [hm.program]
  exact itemAt_of_getElem? hv

theorem steps_jump (h : (Instr.jump target).In p c.pc) : Steps p c { c with pc := target } :=
  .of_does h.first (Does.word h.second) rfl

theorem steps_load {cells : Array Datum} (h : (Instr.load depth i).In p c.pc)
    (hid : c.chain[depth]? = some id) (hcells : c.store[id]? = some cells) (hv : cells[i]? = some v) :
    Steps p c { c with pc := c.pc + 3, stack := v :: c.stack } := by
  have hlt : i < cells.size := (Array.getElem?_eq_some_iff.mp hv).1
  refine .of_does h.first ((Does.word h.second).bind ((Does.scopeAt hid).bind (.get fun m hm =>
    (Does.word h.third).bind ?_))) rfl
  have hget : m.store.getD id #[] = cells := by
    rw [hm.store, Array.getD_eq_getD_getElem?, hcells]
    rfl
  dsimp only
  rw [hget, if_neg (by omega)]
  exact (Does.ofFault (itemAt_of_getElem? hv)).bind ((Does.push v).bind (.pure _))

/-- The variable is there already, so its scope keeps its length. -/
theorem steps_store {cells : Array Datum}
    (h : (Instr.store depth i).In p c.pc) (hid : c.chain[depth]? = some id) (hcells : c.store[id]? = some cells)
    (hlt : i < cells.size) (hstack : c.stack = v :: rest) :
    Steps p c { c with pc := c.pc + 3, stack := rest,
                       store := c.store.setIfInBounds id (cells.setIfInBounds i v) } := by
  have hlong : Does p (modify fun m : Machine => { m with
      store := m.store.modify id fun cells => cells ++ Array.replicate ((i : Int) + 1 - cells.size).toNat .nothing })
      c () c := by
    refine .update fun m hm => { hm with store := ?_ }
    rw [hm.store, modify_eq_setIfInBounds hcells, show ((i : Int) + 1 - cells.size).toNat = 0 by omega]
    simpa using setIfInBounds_of_getElem? hcells
  have hset : Does p (modify fun m => { m with store := m.store.modify id fun cells => cells.setIfInBounds i v })
      { c with stack := rest } ()
      { c with stack := rest, store := c.store.setIfInBounds id (cells.setIfInBounds i v) } := by
    refine .update fun m hm => { hm with store := ?_ }
    rw [hm.store, modify_eq_setIfInBounds hcells]
  refine .of_does h.first ((Does.word h.second).bind ((Does.scopeAt hid).bind ((Does.word h.third).bind
    (hlong.bind ((Does.pop hstack).bind (.get fun m hm => ?_)))))) rfl
  have hget : m.store.getD id #[] = cells := by
    rw [hm.store, Array.getD_eq_getD_getElem?, hcells]
    rfl
  rw [hget, CompileM.position?_of_lt hlt]
  exact hset.bind (.pure _)

theorem steps_enter {count : Nat} (h : (Instr.enter count).In p c.pc) :
    Steps p c { c with pc := c.pc + 2, store := c.store.push (Array.replicate count .nothing),
                       chain := c.store.size :: c.chain } :=
  .of_does h.first ((Does.word h.second).bind ((Does.openScope _).bind (.pure _))) rfl

theorem steps_leave {outer : List Nat} (h : Instr.leave.In p c.pc) (hchain : c.chain = id :: outer) :
    Steps p c { c with pc := c.pc + 1, chain := outer } := by
  have hleave : Does p (modify fun m => { m with chain := outer }) c () { c with chain := outer } :=
    .update fun m hm => { hm with chain := rfl }
  refine .of_does h.first (.get fun m hm => ?_) rfl
  rw [hm.chain, hchain]
  exact hleave.bind (.pure _)

theorem steps_loadNull (h : (Instr.plain .loadNull).In p c.pc) :
    Steps p c { c with pc := c.pc + 1, stack := .nothing :: c.stack } :=
  .of_does h.2.first ((Does.push _).bind (.pure _)) rfl

theorem steps_loadTrue (h : (Instr.plain .loadTrue).In p c.pc) :
    Steps p c { c with pc := c.pc + 1, stack := .yes :: c.stack } :=
  .of_does h.2.first ((Does.push _).bind (.pure _)) rfl

theorem steps_loadFalse (h : (Instr.plain .loadFalse).In p c.pc) :
    Steps p c { c with pc := c.pc + 1, stack := .no :: c.stack } :=
  .of_does h.2.first ((Does.push _).bind (.pure _)) rfl

theorem steps_printNewline (h : (Instr.plain .printNewline).In p c.pc) :
    Steps p c { c with pc := c.pc + 1, printed := c.printed ++ "\n" } :=
  .of_does h.2.first ((Does.printText _).bind (.pure _)) rfl

section

variable {v w result : Datum} {rest : List Datum}

theorem steps_pop (h : (Instr.plain .pop).In p c.pc) (hstack : c.stack = v :: rest) :
    Steps p c { c with pc := c.pc + 1, stack := rest } :=
  .of_does h.2.first ((Does.pop hstack).discard.bind (.pure _)) rfl

theorem steps_printItem {s : String} (h : (Instr.plain .printItem).In p c.pc) (hstack : c.stack = v :: rest)
    (hs : (v.payload >>= Datum.display) = .ok s) :
    Steps p c { c with pc := c.pc + 1, stack := rest, printed := c.printed ++ (s ++ " ") } := by
  cases hd : v.payload with
  | error f =>
    rw [hd] at hs
    cases hs
  | ok d =>
    rw [hd] at hs
    exact .of_does h.2.first ((Does.popPayload hstack hd).bind ((Does.ofFault hs).bind
      ((Does.printText _).bind (.pure _)))) rfl

theorem stops_printItem (h : (Instr.plain .printItem).In p c.pc) (hstack : c.stack = v :: rest)
    (hs : (v.payload >>= Datum.display) = .error fault) : Stops p c fault := by
  refine .of_fails h.2.first ?_
  cases hd : v.payload with
  | error f =>
    rw [hd] at hs
    cases hs
    exact .first (.popPayload hstack hd)
  | ok d =>
    rw [hd] at hs
    have hs : d.display = .error fault := hs
    exact .second (Does.popPayload hstack hd) rfl (by rw [hs]; exact .first (.throw fault))

theorem steps_unary {op : UnaryOp} (h : (Instr.plain (.unary op)).In p c.pc) (hstack : c.stack = v :: rest)
    (happly : (v.payload >>= op.apply) = .ok result) :
    Steps p c { c with pc := c.pc + 1, stack := result :: rest } := by
  cases hd : v.payload with
  | error f =>
    rw [hd] at happly
    cases happly
  | ok d =>
    rw [hd] at happly
    refine .of_does h.2.first ((Does.popPayload hstack hd).bind ((Does.word h.2.first).bind ?_)) rfl
    rw [Opcode.ofWord?_word]
    exact (Does.ofFault happly).bind ((Does.push _).bind (.pure _))

theorem stops_unary {op : UnaryOp} (h : (Instr.plain (.unary op)).In p c.pc) (hstack : c.stack = v :: rest)
    (happly : (v.payload >>= op.apply) = .error fault) : Stops p c fault := by
  refine .of_fails h.2.first ?_
  cases hd : v.payload with
  | error f =>
    rw [hd] at happly
    cases happly
    exact .first (.popPayload hstack hd)
  | ok d =>
    rw [hd] at happly
    have happly : op.apply d = .error fault := happly
    refine .second (Does.popPayload hstack hd) rfl (.second (Does.word h.2.first) rfl ?_)
    rw [Opcode.ofWord?_word]
    dsimp only
    rw [happly]
    exact .first (.throw fault)

theorem steps_binary {op : BinaryOp} (h : (Instr.plain (.binary op)).In p c.pc) (hstack : c.stack = w :: v :: rest)
    (happly : (w.payload >>= fun e => v.payload >>= fun d => op.apply d e) = .ok result) :
    Steps p c { c with pc := c.pc + 1, stack := result :: rest } := by
  cases he : w.payload with
  | error f =>
    rw [he] at happly
    cases happly
  | ok e =>
    cases hd : v.payload with
    | error f =>
      rw [he, hd] at happly
      cases happly
    | ok d =>
      rw [he, hd] at happly
      refine .of_does h.2.first ((Does.popPayload hstack he).bind ((Does.popPayload rfl hd).bind
        ((Does.word h.2.first).bind ?_))) rfl
      rw [Opcode.ofWord?_word]
      exact (Does.ofFault happly).bind ((Does.push _).bind (.pure _))

theorem stops_binary {op : BinaryOp} (h : (Instr.plain (.binary op)).In p c.pc) (hstack : c.stack = w :: v :: rest)
    (happly : (w.payload >>= fun e => v.payload >>= fun d => op.apply d e) = .error fault) : Stops p c fault := by
  refine .of_fails h.2.first ?_
  cases he : w.payload with
  | error f =>
    rw [he] at happly
    cases happly
    exact .first (.popPayload hstack he)
  | ok e =>
    refine .second (Does.popPayload hstack he) rfl ?_
    cases hd : v.payload with
    | error f =>
      rw [he, hd] at happly
      cases happly
      exact .first (.popPayload rfl hd)
    | ok d =>
      rw [he, hd] at happly
      have happly : op.apply d e = .error fault := happly
      refine .second (Does.popPayload rfl hd) rfl (.second (Does.word h.2.first) rfl ?_)
      rw [Opcode.ofWord?_word]
      dsimp only
      rw [happly]
      exact .first (.throw fault)

theorem steps_jumpFalse (h : (Instr.branch .jumpFalse target).In p c.pc) (hstack : c.stack = v :: rest) :
    Steps p c { c with pc := if v.eq .no then target else c.pc + 2, stack := rest } := by
  refine .of_does h.2.first ((Does.word h.2.second).bind ((Does.pop hstack).bind (.pure _))) ?_
  split <;> rfl

theorem steps_jumpTrue (h : (Instr.branch .jumpTrue target).In p c.pc) (hstack : c.stack = v :: rest) :
    Steps p c { c with pc := if v.eq .yes then target else c.pc + 2, stack := rest } := by
  refine .of_does h.2.first ((Does.word h.2.second).bind ((Does.pop hstack).bind (.pure _))) ?_
  split <;> rfl

end

/-! ## Calls -/

theorem does_goBack {frame : Frame} {outer : List Frame} (v : Datum) (hframes : c.frames = frame :: outer) :
    Does p (goBack v) c frame.back
      { c with stack := v :: c.stack, chain := frame.chain, frames := outer } := by
  have hframe : Does p (modify fun m => { m with frames := outer, chain := frame.chain }) c ()
      { c with chain := frame.chain, frames := outer } := .update fun m hm => { hm with frames := rfl, chain := rfl }
  refine .get fun m hm => ?_
  rw [hm.frames, hframes]
  exact hframe.bind ((Does.push v).bind (.pure _))

section

variable {frame : Frame} {outer : List Frame} {back : Nat}

theorem steps_return (h : Instr.return.In p c.pc) (hframes : c.frames = frame :: outer) (hback : frame.back = back) :
    Steps p c { c with pc := back, stack := .nothing :: c.stack, chain := frame.chain, frames := outer } :=
  .of_does h.first (does_goBack .nothing hframes) hback

theorem steps_returnValue (h : Instr.returnValue.In p c.pc)
    (hframes : c.frames = frame :: outer) (hback : frame.back = back) (hstack : c.stack = v :: rest) :
    Steps p c { c with pc := back, stack := v :: rest, chain := frame.chain, frames := outer } := by
  refine .of_does h.first (.get fun m hm => ?_) hback
  rw [hm.frames, hframes]
  exact (Does.pop hstack).bind (does_goBack v hframes)

end

theorem does_takeArguments {args : List Datum} (hstack : c.stack = args ++ rest) : ∀ count, count ≤ args.length →
    Does p (takeArguments args.length count) c
      (args.take count ++ replicate (args.length - count) Datum.nothing).toArray
      { c with stack := args.drop count ++ rest }
  | 0, _ => by
    have hcells : (args.take 0 ++ replicate (args.length - 0) Datum.nothing).toArray =
        Array.replicate args.length Datum.nothing := by simp
    rw [hcells, drop_zero, ← hstack]
    exact .pure _
  | count + 1, hle => by
    have hlt : count < args.length := hle
    have hdrop : args.drop count ++ rest = args[count] :: (args.drop (count + 1) ++ rest) := by
      rw [drop_eq_getElem_cons hlt, cons_append]
    have hcells : (args.take count ++ replicate (args.length - count) Datum.nothing).toArray.setIfInBounds count
        args[count] = (args.take (count + 1) ++ replicate (args.length - (count + 1)) Datum.nothing).toArray := by
      have hlength : (args.take count).length = count := by rw [length_take]; omega
      rw [setIfInBounds_toArray, set_append_right _ _ (by omega), hlength, Nat.sub_self,
        show args.length - count = args.length - (count + 1) + 1 by omega, replicate_succ, set_cons_zero,
        take_succ_eq_append_getElem hlt, append_assoc]
      rfl
    refine (does_takeArguments hstack count (by omega)).bind ((Does.pop hdrop).bind ?_)
    rw [if_pos hlt, hcells]
    exact .pure _

theorem take_of_extends {xs ys : Array (Array Datum)} (h : Extends xs ys) : ys.take xs.size = xs := by
  have hle := h.size_le
  refine Array.ext_getElem? fun i => ?_
  rw [Array.take_eq_extract, Array.getElem?_extract]
  by_cases hi : i < xs.size
  · rw [if_pos (by omega), Nat.zero_add, Array.getElem?_eq_getElem hi]
    exact h i _ (Array.getElem?_eq_getElem hi)
  · rw [if_neg (by omega), Array.getElem?_eq_none (by omega)]

theorem steps_call {entry : Nat} {r : Routine} {args : List Datum} (h : (Instr.call id).In p c.pc)
    (hr : p.routines[id]? = some r) (hentry : r.entry = some (entry : Int)) (hcount : r.params.length = args.length)
    (hsize : frameSize r.params p.scopes.toList = .ok args.length) (hstatic : Extends p.scopes c.store)
    (hstack : c.stack = args ++ rest) :
    Steps p c { c with pc := entry, stack := rest, chain := c.store.size :: c.chain,
                       frames := ⟨(c.pc : Int) + 2, c.chain⟩ :: c.frames, store := c.store.push args.toArray } := by
  have hlt : id < p.routines.size := (Array.getElem?_eq_some_iff.mp hr).1
  have hframe : Does p (modify fun m => { m with frames := ⟨(c.pc : Int) + 2, m.chain⟩ :: m.frames })
      { c with stack := rest } ()
      { c with stack := rest, frames := ⟨(c.pc : Int) + 2, c.chain⟩ :: c.frames } :=
    .update fun m hm => { hm with frames := by rw [hm.chain, hm.frames] }
  refine .of_does h.first ((Does.word h.second).bind (.get fun m hm => ?_)) rfl
  rw [hm.program, if_neg (by omega)]
  refine (Does.ofFault (itemAt_of_getElem? hr)).bind ?_
  have hnames : m.names = p.scopes := by
    rw [Machine.names, hm.store, hm.program]
    exact take_of_extends hstatic
  rw [hnames, hcount, hentry]
  have htake := does_takeArguments (p := p) hstack args.length (Nat.le_refl _)
  rw [take_length, drop_length, Nat.sub_self, replicate_zero, append_nil, nil_append] at htake
  exact (Does.ofFault hsize).bind (htake.bind (hframe.bind ((Does.openScope _).bind (.pure _))))

end Snapshot

end Cilly
