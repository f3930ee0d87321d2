import Cilly.Proofs.ControlFlow
import Mathlib

/-!
# The operand stack

Every instruction takes as many values off the stack as the code before it has put there, and the address tells how many
there are (`Layout.height`): each expression leaves one value, each statement none. A call takes its arguments and leaves
the result. So a run never pops from an empty stack, and it ends with an empty one (`operand_stack`).

This holds of programs without `break` in which every `continue` is in a loop of its own function, if every call passes as many
arguments as are taken.
-/

namespace Cilly

open Acting Node List
open MachineM hiding outcome

variable {m m' : Machine} {x : Scene}

namespace CountedStack

variable {α : Type} (s : CountedStack α)

/-- How often there was nothing to pop: any other pop takes off a value that was pushed. -/
def emptyPops : Int := s.pops + s.depth - s.pushes

@[simp] theorem emptyPops_push (a : α) : (s.push a).emptyPops = s.emptyPops := by
  simp only [emptyPops, push, depth, length_cons]
  omega

theorem emptyPops_pop : s.pop.2.emptyPops = s.emptyPops + if s.items = [] then 1 else 0 := by
  unfold pop
  split
  · rename_i hitems
    simp only [emptyPops, depth, hitems, if_true]
    omega
  · rename_i hitems
    simp only [emptyPops, depth, hitems, length_cons, reduceCtorEq, if_false]
    omega

end CountedStack

/-! ## What actions do to the stack -/

/-- An action takes values off the stack and then puts others there. It succeeds only if there are enough values, and then there is
something to pop whenever it pops, even if it fails. -/
structure Uses {α : Type} (m : Machine) (x : MachineM α) (takes gives : Nat) : Prop where
  empty : takes ≤ m.stack.depth → (outcome x m).2.stack.emptyPops = m.stack.emptyPops
  taken : ∀ a, (outcome x m).1 = .ok a → takes ≤ m.stack.depth ∧ ∃ results : List Datum, results.length = gives ∧
    (outcome x m).2.stack.items = results ++ m.stack.items.drop takes

namespace Uses

variable {α β : Type} {m : Machine} {x : MachineM α} {f : α → MachineM β} {takes takes' gives : Nat}

theorem take_bind (hx : Uses m x takes 0) (hf : ∀ a m', outcome x m = (.ok a, m') → Uses m' (f a) takes' gives) :
    Uses m (x >>= f) (takes' + takes) gives := by
  obtain ⟨hempty, htaken⟩ := hx
  have hbind := outcome_bind x f m
  cases h : outcome x m with
  | mk r m' =>
    rw [h] at hempty htaken hbind
    cases r with
    | error e =>
      refine ⟨by rw [hbind]; exact fun henough => hempty (by omega), fun a ha => ?_⟩
      rw [hbind] at ha
      cases ha
    | ok a =>
      obtain ⟨hle, results, hlength, hitems⟩ := htaken a rfl
      rw [eq_nil_of_length_eq_zero hlength, nil_append] at hitems
      have hdepth : m'.stack.depth = m.stack.depth - takes := by
        rw [CountedStack.depth, hitems, length_drop]
        rfl
      obtain ⟨hempty', htaken'⟩ := hf a m' h
      rw [hdepth] at hempty' htaken'
      constructor
      · intro henough
        rw [hbind]
        exact (hempty' (by omega)).trans (hempty hle)
      · intro b hb
        rw [hbind] at hb ⊢
        obtain ⟨hle', results, hlength, hitems'⟩ := htaken' b hb
        exact ⟨by omega, results, hlength, by rw [hitems', hitems, drop_drop, Nat.add_comm]⟩

theorem still_bind (hx : Still x) (hf : ∀ a, (outcome x m).1 = .ok a → Uses m (f a) takes gives) :
    Uses m (x >>= f) takes gives := by
  have hsame := hx m
  have hbind := outcome_bind x f m
  cases h : outcome x m with
  | mk r m' =>
    rw [h] at hsame hf hbind
    cases hsame
    cases r with
    | error e =>
      constructor
      · exact fun _ => by rw [hbind]
      · intro a ha
        rw [hbind] at ha
        cases ha
    | ok a =>
      obtain ⟨hempty, htaken⟩ := hf a rfl
      exact ⟨by rw [hbind]; exact hempty, by rw [hbind]; exact htaken⟩

theorem of_still (h : Still x) : Uses m x 0 0 :=
  ⟨fun _ => by rw [h m], fun _ _ => ⟨Nat.zero_le _, [], rfl, by rw [h m]; rfl⟩⟩

theorem bind_still (hx : Uses m x takes gives) (hf : ∀ a, Still (f a)) : Uses m (x >>= f) takes gives := by
  obtain ⟨hempty, htaken⟩ := hx
  have hbind := outcome_bind x f m
  cases h : outcome x m with
  | mk r m' =>
    rw [h] at hempty htaken hbind
    cases r with
    | error e =>
      refine ⟨by rw [hbind]; exact hempty, fun a ha => ?_⟩
      rw [hbind] at ha
      cases ha
    | ok a =>
      have hlast : (outcome (x >>= f) m).2 = m' := by rw [hbind]; exact hf a m'
      exact ⟨by rw [hlast]; exact hempty, fun _ _ => by rw [hlast]; exact htaken a rfl⟩

theorem update_bind {g : Machine → Machine} {f : PUnit → MachineM β} (h : (g m).stack = m.stack)
    (hf : Uses (g m) (f ()) takes gives) : Uses m ((modify g : MachineM PUnit) >>= f) takes gives := by
  obtain ⟨hempty, htaken⟩ := hf
  rw [h] at hempty htaken
  have hbind : outcome ((modify g : MachineM PUnit) >>= f) m = outcome (f ()) (g m) := bind_ok (outcome_modify g m)
  exact ⟨by rw [hbind]; exact hempty, by rw [hbind]; exact htaken⟩

theorem push (v : Datum) : Uses m (push v) 0 1 :=
  ⟨fun _ => CountedStack.emptyPops_push _ _, fun _ _ => ⟨Nat.zero_le _, [v], rfl, rfl⟩⟩

theorem pushed (v : Datum) (next : Int) : Uses m (do MachineM.push v; return next : MachineM Int) 0 1 :=
  (push v).bind_still fun _ => .pure next

theorem pop : Uses m pop 1 0 := by
  cases hitems : m.stack.items with
  | nil =>
    have hpop : m.stack.pop.1 = none := by rw [CountedStack.pop, hitems]
    refine ⟨fun henough => by simp [CountedStack.depth, hitems] at henough, fun a ha => ?_⟩
    rw [MachineM.pop, bind_ok (outcome_modifyGet _ m), hpop] at ha
    cases ha
  | cons v rest =>
    have hpop : m.stack.pop = (some v, { m.stack with items := rest, pops := m.stack.pops + 1 }) := by
      rw [CountedStack.pop, hitems]
    have hout : outcome MachineM.pop m = (.ok v, { m with stack := m.stack.pop.2 }) := by
      rw [MachineM.pop, bind_ok (outcome_modifyGet _ m), hpop]
      rfl
    constructor
    · intro _
      rw [hout]
      show m.stack.pop.2.emptyPops = _
      rw [CountedStack.emptyPops_pop, if_neg (by rw [hitems]; simp)]
      simp
    · intro _ _
      rw [hout]
      refine ⟨by simp [CountedStack.depth, hitems], [], rfl, ?_⟩
      show m.stack.pop.2.items = _
      rw [hpop, hitems]
      rfl

theorem popPayload : Uses m popPayload 1 0 := pop.bind_still fun _ => .ofFault _

theorem takeArguments (size : Nat) : ∀ {m : Machine} (count : Nat), Uses m (takeArguments size count) count 0
  | m, 0 => of_still (.pure _)
  | m, count + 1 => by
    have hlast : ∀ (m' : Machine) (cells : Array Datum), Uses m' (do
        let v ← MachineM.pop
        if count < size then return cells.setIfInBounds count v else MonadExcept.throw (.fault .noSlot) :
          MachineM (Array Datum)) 1 0 := by
      refine fun m' cells => pop.bind_still fun v => ?_
      split
      · exact .pure _
      · exact .throw _
    have hall : Uses m (MachineM.takeArguments size (count + 1)) (1 + count) 0 :=
      (takeArguments size count).take_bind fun cells m' _ => hlast m' cells
    rwa [Nat.add_comm 1 count] at hall

theorem popArguments : ∀ {m : Machine} (count : Nat), Uses m (popArguments count) count 0
  | m, 0 => of_still (.pure _)
  | m, count + 1 => by
    exact popPayload.take_bind fun v m' _ => (popArguments count).bind_still fun _ => .pure _

end Uses

/-! ## What instructions do to the stack -/

namespace Uses

variable {m : Machine} {pc : Int}

theorem throw {α : Type} (e : MachineError) (takes gives : Nat) : Uses m (MonadExcept.throw e : MachineM α) takes gives :=
  ⟨fun _ => rfl, fun a ha => by cases ha⟩

theorem refuse_bind {α β : Type} (e : Int → MachineError) (i : Int) (f : α → MachineM β) (takes gives : Nat) :
    Uses m (refuse e i >>= f) takes gives := by
  refine still_bind (.refuse e i) fun a ha => ?_
  have hnever : Quiet (refuse e i : MachineM α) fun _ => False := Quiet.refuse e i
  exact ((hnever m).2 a ha).elim

theorem openScope_bind {β : Type} {cells : Array Datum} {f : Unit → MachineM β} {takes gives : Nat}
    (hf : ∀ m' : Machine, Uses m' (f ()) takes gives) : Uses m (openScope cells >>= f) takes gives :=
  update_bind rfl (hf _)

theorem plain {op : Opcode} (h : op.isPlain = true) :
    Uses m (perform op pc) op.takes (if op.gives then 1 else 0) := by
  cases op with
  | loadNull | loadTrue | loadFalse => exact pushed _ _
  | printItem =>
    exact popPayload.take_bind fun v m' _ => still_bind (.ofFault _) fun s _ => update_bind rfl (of_still (.pure _))
  | printNewline => exact update_bind rfl (of_still (.pure _))
  | pop => exact (show Uses m (discard _) 1 0 from pop.bind_still fun _ => .pure _).bind_still fun _ => .pure _
  | unary op =>
    refine popPayload.take_bind fun v m' _ => still_bind (.word _) fun w _ => ?_
    split
    · exact still_bind (.ofFault _) fun v _ => pushed v _
    · exact refuse_bind _ _ _ _ _
  | binary op =>
    refine popPayload.take_bind fun v m' _ => popPayload.take_bind fun v m' _ => still_bind (.word _) fun w _ => ?_
    split
    · exact still_bind (.ofFault _) fun v _ => pushed v _
    · exact refuse_bind _ _ _ _ _
  | _ => cases h

theorem loadVar : Uses m (loadVar pc) 0 1 := by
  refine still_bind (.word _) fun depth _ => still_bind (.scopeAt depth) fun id _ => still_bind .get fun m' _ =>
    still_bind (.word _) fun i _ => ?_
  dsimp only
  split
  · exact refuse_bind _ _ _ _ _
  · exact still_bind (.ofFault _) fun v _ => pushed v _

theorem storeVar : Uses m (storeVar pc) 1 0 := by
  refine still_bind (.word _) fun depth _ => still_bind (.scopeAt depth) fun id _ => still_bind (.word _) fun i _ =>
    update_bind rfl (pop.take_bind fun v m' _ => still_bind .get fun m'' _ => ?_)
  split
  · exact update_bind rfl (of_still (.pure _))
  · exact of_still ((Still.throw _).bind fun _ => .pure _)

theorem jumpOn (expected : Datum) : Uses m (jumpOn expected pc) 1 0 :=
  still_bind (.word _) fun _ _ => pop.bind_still fun _ => .pure _

theorem leaveScope : Uses m (leaveScope pc) 0 0 := by
  refine still_bind .get fun m' _ => ?_
  split
  · exact of_still ((Still.throw _).bind fun _ => .pure _)
  · exact update_bind rfl (of_still (.pure _))

theorem goBack (v : Datum) : Uses m (goBack v) 0 1 := by
  refine still_bind .get fun m' _ => ?_
  split
  · exact throw _ _ _
  · exact update_bind rfl (pushed v _)

theorem returnValue (pc : Int) : Uses m (returnValue pc) 1 1 := by
  refine still_bind .get fun m' _ => ?_
  split
  · exact still_bind (.throw _) fun _ h => by cases h
  · exact pop.take_bind fun v m'' _ => goBack v

theorem callRoutine {id : Nat} {r : Routine} (hword : itemAt m.program.code (pc + 1) = .ok (id : Int))
    (hr : m.program.routines[id]? = some r) : Uses m (callRoutine pc) r.params.length 0 := by
  have hlt : id < m.program.routines.size := (Array.getElem?_eq_some_iff.mp hr).1
  refine still_bind (.word _) fun w hw => ?_
  rw [outcome_word hword] at hw
  cases hw
  refine still_bind .get fun m' hm' => ?_
  cases hm'
  dsimp only
  rw [if_neg (by omega)]
  refine still_bind (.ofFault _) fun routine hroutine => ?_
  rw [itemAt_of_getElem? hr] at hroutine
  cases hroutine
  refine still_bind (.ofFault _) fun size _ => ?_
  refine (congrArg (Uses m _ · 0) (Nat.zero_add r.params.length)).mp ?_
  refine (takeArguments (m := m) size r.params.length).take_bind fun cells m' _ => ?_
  refine update_bind rfl (openScope_bind fun m'' => ?_)
  split
  · exact of_still (.pure _)
  · exact throw _ _ _

theorem eq_of_signalFor {x : Datum} {s : Signal} (h : (outcome (signalFor x) m).1 = .ok s) :
    (Datum.text s.name).eq x = true := by
  unfold signalFor at h
  split at h
  · cases h
  · rw [bind_ok (outcome_get m)] at h
    cases hfind : m.signals.find? fun s => (Datum.text s.name).eq x with
    | some found =>
      rw [hfind] at h
      cases h
      exact find?_some (p := fun s : Signal => (Datum.text s.name).eq x) hfind
    | none =>
      rw [hfind] at h
      dsimp only at h
      rw [outcome_bind, outcome_ofFault] at h
      cases hdisplay : x.display with
      | ok text =>
        rw [hdisplay] at h
        cases h
      | error f =>
        rw [hdisplay] at h
        cases h

theorem text_of_hasConst {p : Program} {i : Nat} {x c v : Datum} {name : String} (h : p.HasConst i (.string x))
    (hc : p.consts[i]? = some c) (hv : c.payload = .ok v) (heq : (Datum.text name).eq v = true) : x = .text name := by
  obtain ⟨d, hd, hsame⟩ := h
  cases hc.symm.trans hd
  cases Datum.text_eq_iff.mp heq
  rcases hsame with rfl | hsame
  · exact Except.ok.inj hv
  · obtain ⟨ys, hys, hitems⟩ := Datum.exists_list_of_eq (Datum.eq_symm hsame)
    cases hys
    match ys, hitems, hv with
    | [tag, y], hitems, hv =>
      have hy : y = .text name := Except.ok.inj hv
      simp only [Datum.eqItems, Bool.and_eq_true] at hitems
      rw [hy] at hitems
      exact Datum.eq_text_iff.mp hitems.2.1
    | [], hitems, _ | [_], hitems, _ | _ :: _ :: _ :: _, hitems, _ => simp [Datum.eqItems] at hitems

theorem callSignal {i : Nat} {x : Datum} {count : Nat} (hword : itemAt m.program.code (pc + 1) = .ok (i : Int))
    (hconst : m.program.HasConst i (.string x)) (harity : ∀ name, x = .text name → Signal.arity name = count) :
    Uses m (MachineM.callSignal pc) count 1 := by
  obtain ⟨c, hc, -⟩ := id hconst
  refine still_bind (.word _) fun w hw => ?_
  rw [outcome_word hword] at hw
  cases hw
  refine still_bind .get fun m' hm' => ?_
  cases hm'
  refine still_bind (.ofFault _) fun c' hc' => ?_
  rw [itemAt_of_getElem? hc] at hc'
  cases hc'
  refine still_bind (.ofFault _) fun v hv => still_bind (.signalFor _) fun s hs => ?_
  have hpayload : c.payload = .ok v := by
    rw [outcome_ofFault] at hv
    cases hc : c.payload with
    | error f =>
      rw [hc] at hv
      cases hv
    | ok v' =>
      rw [hc] at hv
      cases hv
      rfl
  rw [← harity s.name (text_of_hasConst hconst hc hpayload (eq_of_signalFor hs))]
  have hlast : ∀ (m' : Machine) (args : List Datum), Uses m' (do
      let sent ← ofFault (Signal.prepare s args)
      modify fun m => { m with log := m.log.push (s.name, sent) }
      MachineM.push .nothing
      return pc + 2 : MachineM Int) 0 1 :=
    fun m' args => still_bind (.ofFault _) fun sent _ => update_bind rfl (pushed _ _)
  have hall := (popArguments (m := m) (Signal.arity s.name)).take_bind fun args m' _ => hlast m' args
  rwa [Nat.zero_add] at hall

end Uses

namespace Scene

variable (x : Scene)

/-- How many values a step of the instruction puts on the stack. What a call leaves there is put there by the return. -/
def pushed : Nat :=
  match x.instr with
  | .return | .returnValue => 1
  | .call _ => 0
  | _ => if x.gives then 1 else 0

/-- As many arguments are passed as are taken. -/
def passes (routines : Array Routine) : Bool :=
  match x.instr with
  | .call id => routines[id]?.all fun r => r.params.length == x.subject.count
  | .primitive (.text signal) => Signal.arity signal == x.subject.count
  | _ => true

/-- How many values a step of the instruction takes off the stack. A call takes as many as there are parameters, whatever was
passed to it. -/
def taken (routines : Array Routine) : Nat :=
  match x.instr with
  | .call id => routines[id]?.elim 0 fun r => r.params.length
  | .primitive (.text signal) => Signal.arity signal
  | _ => x.takes

variable {x} {m : Machine}

theorem taken_of_passes {routines : Array Routine} (h : x.passes routines = true)
    (hknown : ∀ id, x.instr = .call id → ∃ r, routines[id]? = some r) : x.taken routines = x.takes := by
  unfold taken takes
  unfold passes at h
  split
  · rename_i id hinstr
    obtain ⟨r, hr⟩ := hknown id hinstr
    rw [hinstr] at h ⊢
    dsimp only at h
    rw [hr] at h ⊢
    exact eq_of_beq h
  · rename_i signal hinstr
    rw [hinstr] at h ⊢
    exact eq_of_beq h
  · rfl

/-- **What a step does to the stack.** -/
theorem uses (hin : x.instr.In m.program x.address) (hpc : m.pc = x.address)
    (hknown : ∀ id, x.instr = .call id → ∃ r, m.program.routines[id]? = some r) :
    ∃ op, itemAt m.program.code m.pc = .ok op.word ∧
      Uses m.counted (perform op m.pc) (x.taken m.program.routines) x.pushed := by
  unfold taken takes pushed gives
  rw [hpc]
  cases hinstr : x.instr with
  | const c =>
    rw [hinstr] at hin
    obtain ⟨i, hholds, -⟩ := hin
    exact ⟨.loadConst, hholds.first, .still_bind (.word _) fun _ _ => .still_bind .get fun _ _ =>
      .still_bind (.ofFault _) fun v _ => .pushed v _⟩
  | plain op =>
    rw [hinstr] at hin
    exact ⟨op, hin.2.first, .plain hin.1⟩
  | load depth index =>
    rw [hinstr] at hin
    exact ⟨.loadVar, hin.first, .loadVar⟩
  | store depth index =>
    rw [hinstr] at hin
    exact ⟨.storeVar, hin.first, .storeVar⟩
  | jump target | continueLoop target | breakLoop =>
    rw [hinstr] at hin
    exact ⟨.jump, hin.first, .of_still (.word _)⟩
  | branch op target =>
    rw [hinstr] at hin
    refine ⟨op, hin.2.first, ?_⟩
    cases op with
    | jumpTrue | jumpFalse => exact .jumpOn _
    | _ => cases hin.1
  | enter count =>
    rw [hinstr] at hin
    exact ⟨.enterScope, hin.first, .still_bind (.word _) fun _ _ => .openScope_bind fun _ => .of_still (.pure _)⟩
  | leave =>
    rw [hinstr] at hin
    exact ⟨.leaveScope, hin.first, .leaveScope⟩
  | call id =>
    rw [hinstr] at hin
    obtain ⟨r, hr⟩ := hknown id hinstr
    refine ⟨.call, hin.first, ?_⟩
    dsimp only
    rw [hr]
    exact .callRoutine hin.second hr
  | primitive y =>
    rw [hinstr] at hin
    obtain ⟨i, hholds, hconst⟩ := hin
    refine ⟨.callPrimitive, hholds.first, .callSignal hholds.second hconst fun name hname => ?_⟩
    cases hname
    rfl
  | «return» =>
    rw [hinstr] at hin
    exact ⟨.return, hin.first, .goBack _⟩
  | returnValue =>
    rw [hinstr] at hin
    exact ⟨.returnValue, hin.first, .returnValue x.address⟩
  | refused =>
    rw [hinstr] at hin
    exact hin.elim

end Scene

theorem Scene.length_after (h : x.takes ≤ x.view.ends.length) (address : Nat) :
    (x.after address).ends.length + x.takes = x.view.ends.length + if x.gives then 1 else 0 := by
  simp only [Scene.after, length_append, length_drop]
  split
  · rw [length_singleton]
    omega
  · rw [length_nil]
    omega

theorem Scene.pushed_of_isQuiet (h : x.instr.isQuiet = true) : x.pushed = if x.gives then 1 else 0 := by
  unfold Scene.pushed
  split
  · rename_i hinstr
    rw [hinstr] at h
    cases h
  · rename_i hinstr
    rw [hinstr] at h
    cases h
  · rename_i hinstr
    rw [hinstr] at h
    cases h
  · rfl

theorem Machine.Calls.pushed {y : Scene} {id : Nat} {r : Routine} (h : Machine.Calls x y id r m m') :
    x.pushed = 0 ∧ x.gives = true := by
  simp [Scene.pushed, Scene.gives, h.instr]

theorem Machine.Returns.pushed {f : Frame} (h : Machine.Returns x f m m') : x.pushed = 1 := by
  rcases h.instr with hinstr | hinstr
  · rw [Scene.pushed, hinstr]
  · rw [Scene.pushed, hinstr]

/-- The view says what a step within a function does to the stack. -/
theorem Machine.Onward.length_ends {y : Scene} (h : Machine.Onward x y m m')
    (henough : x.takes ≤ x.view.ends.length) : y.view.ends.length + x.takes = x.view.ends.length + x.pushed := by
  cases h with
  | plain hquiet hview =>
    rw [hview, Scene.pushed_of_isQuiet hquiet]
    exact Scene.length_after henough _
  | jump hinstr hview =>
    have hends : y.view.ends.length = x.view.ends.length := by
      rcases hview with hview | ⟨last, below, hends, hview⟩
      · rw [hview]
      · rw [hview, hends]
        rfl
    simp [Scene.takes, Scene.pushed, Scene.gives, hinstr, hends]
  | again hinstr hends hview => simp [Scene.takes, Scene.pushed, Scene.gives, hinstr, hends, hview]
  | enter hinstr _ hview => simp [Scene.takes, Scene.pushed, Scene.gives, hinstr, hview]
  | leave hinstr _ _ hview => simp [Scene.takes, Scene.pushed, Scene.gives, hinstr, hview]

/-! ## Runs -/

/-- How many values are on the stack at an address, above those that the function has found there. -/
def Layout.height (primitives : List String) (body : List Node) (address : Int) : Nat :=
  match (Layout.stage primitives body).find? fun x => x.address = address with
  | some x => x.view.ends.length
  | none => 0

theorem Layout.height_of_mem {prims : List String} {body : List Node} (h : AreStats body)
    (hx : x ∈ Layout.stage prims body) : Layout.height prims body x.address = x.view.ends.length := by
  have hfound : (Layout.stage prims body).find? (fun y => (y.address : Int) = x.address) = some x := by
    cases hfind : (Layout.stage prims body).find? fun y => (y.address : Int) = x.address with
    | none => exact absurd (find?_eq_none.mp hfind x hx) (by simp)
    | some y =>
      have haddress : (y.address : Int) = x.address := by
        simpa using find?_some (p := fun y : Scene => decide ((y.address : Int) = x.address)) hfind
      rw [Layout.stage_unique prims h (mem_of_find?_eq_some hfind) hx (by omega)]
  rw [Layout.height, hfound]

namespace Machine

/-- How many values were on the stack when the innermost pending call had taken its arguments. -/
def floor : List Machine → Nat
  | [] => 0
  | b :: _ => b.stack.depth

section

variable {prims : List String} {body : List Node} {p : Program} {bases : List Machine} {m m' : Machine} {w : Int}
  {x y : Scene} {signals : List Signal}

theorem tried (hbody : AreStats body) (hlaid : p.LaidOut prims body) (hprogram : m.program = p)
    (hx : x ∈ Layout.scenes prims body) (hpc : m.pc = x.address) :
    (x.taken p.routines ≤ m.stack.depth → m.next.2.stack.emptyPops = m.stack.emptyPops) ∧
      ∀ w, m.next.1 = .ok w → x.taken p.routines ≤ m.stack.depth ∧ ∃ results : List Datum, results.length = x.pushed ∧
        m.next.2.stack.items = results ++ m.stack.items.drop (x.taken p.routines) := by
  subst hprogram
  have hknown : ∀ id, x.instr = .call id → ∃ r, m.program.routines[id]? = some r := by
    intro id hinstr
    obtain ⟨r, hr, -⟩ := called_site hbody hlaid hx hinstr
    exact ⟨r, hr⟩
  obtain ⟨op, hfetch, huses⟩ := Scene.uses (in_of_mem_scenes hbody hlaid hx) hpc hknown
  obtain ⟨hempty, hok⟩ := huses
  rw [next_eq hfetch]
  cases h : outcome (perform op m.pc) m.counted with
  | mk r n =>
    rw [h] at hempty hok
    cases r with
    | error e => exact ⟨hempty, fun w hw => by cases hw⟩
    | ok pc => exact ⟨hempty, fun w _ => hok pc rfl⟩

theorem items_of_next (hbody : AreStats body) (hlaid : p.LaidOut prims body) (hprogram : m.program = p)
    (hx : x ∈ Layout.scenes prims body) (hpc : m.pc = x.address) (hnext : m.next = (.ok w, m')) :
    x.taken p.routines ≤ m.stack.depth ∧ ∃ results : List Datum, results.length = x.pushed ∧
      m'.stack.items = results ++ m.stack.items.drop (x.taken p.routines) := by
  have hitems := (tried hbody hlaid hprogram hx hpc).2 w
  rw [hnext] at hitems
  exact hitems rfl

theorem taken_eq_takes (hbody : AreStats body) (hlaid : p.LaidOut prims body)
    (hx : x ∈ Layout.scenes prims body) (hpasses : x.passes p.routines = true) : x.taken p.routines = x.takes :=
  Scene.taken_of_passes hpasses fun _ hinstr => by
    obtain ⟨r, hr, -⟩ := called_site hbody hlaid hx hinstr
    exact ⟨r, hr⟩

/-- The values on the stack are those of the function, on top of what it has found there. -/
def Level (view : View) (bases : List Machine) (m : Machine) : Prop :=
  m.stack.depth = floor bases + view.ends.length ∧ m.stack.emptyPops = 0

/-- A call leaves its result. -/
def LeavesOne (view : View) (_ : Frame) (b : Machine) (bases : List Machine) : Prop :=
  b.stack.depth + 1 = floor bases + view.ends.length

theorem level_invariant (hbody : AreStats body) (hlaid : p.LaidOut prims body)
    (horderly : Orderly (exitsAll false body))
    (hpasses : ∀ x ∈ Layout.scenes prims body, x.passes p.routines = true) :
    Invariant prims body p signals Level LeavesOne := by
  have hstep : ∀ {x : Scene} {bases : List Machine} {m m' : Machine} {w : Int}, x ∈ Layout.scenes prims body →
      m.program = p → m.pc = x.address → m.next = (.ok w, m') → Level x.view bases m →
      m'.stack.depth + x.takes = floor bases + x.view.ends.length + x.pushed ∧ m'.stack.emptyPops = 0 ∧
        x.takes ≤ x.view.ends.length := by
    intro x bases m m' w hx hprogram hpc hnext ⟨hdepth, hempty⟩
    have henough := ((Layout.program_staged prims hbody horderly).sound x hx).enough
    obtain ⟨hempty', hitems⟩ := tried hbody hlaid hprogram hx hpc
    rw [taken_eq_takes hbody hlaid hx (hpasses x hx), hnext] at hempty' hitems
    obtain ⟨hle, results, hlength, hitems⟩ := hitems w rfl
    refine ⟨?_, (hempty' hle).trans hempty, henough⟩
    have hdepth : m.stack.items.length = floor bases + x.view.ends.length := hdepth
    have hdepth' : m'.stack.items.length = _ := congrArg List.length hitems
    rw [length_append, length_drop, hlength, hdepth] at hdepth'
    show m'.stack.items.length + x.takes = _
    omega
  refine ⟨⟨rfl, rfl⟩, ?_, ?_, ?_⟩
  · intro x y bases m m' w hx _ hprogram hpc _ hnext honward hlevel
    obtain ⟨hdepth, hempty, henough⟩ := hstep hx hprogram hpc hnext hlevel
    have hends := honward.length_ends henough
    exact ⟨by omega, hempty⟩
  · intro x y site id r bases m m' w hx _ _ hprogram hpc _ hnext hcalls hlevel
    obtain ⟨hdepth, hempty, henough⟩ := hstep hx hprogram hpc hnext hlevel
    have hends := Scene.length_after henough y.address
    rw [← hcalls.view] at hends
    obtain ⟨hpushed, hgives⟩ := hcalls.pushed
    rw [hgives, if_pos rfl] at hends
    rw [hpushed] at hdepth
    exact ⟨⟨rfl, hempty⟩, by rw [LeavesOne]; omega⟩
  · intro x y f bases b m m' w hx hprogram hpc hnext hreturns hlevel hone
    obtain ⟨hdepth, hempty, -⟩ := hstep hx hprogram hpc hnext hlevel
    have hends := hreturns.ends
    have hpushed := hreturns.pushed
    have hone : b.stack.depth + 1 = floor bases + y.view.ends.length := hone
    have hfloor : floor (b :: bases) = b.stack.depth := rfl
    rw [hpushed, hfloor] at hdepth
    exact ⟨by omega, hempty⟩

theorem next_of_end (h : (m.program.code.size : Int) ≤ m.pc) : m.next.2 = m := by
  cases hfetch : itemAt m.program.code m.pc with
  | ok word => exact absurd (lt_size_of_itemAt hfetch) (Int.not_lt.mpr h)
  | error f =>
    unfold Machine.next step
    rw [bind_ok (outcome_get m), bind_error (outcome_word_error hfetch)]

theorem outcome_leftovers (h : m.stack.depth = 0) : outcome leftovers m = (.ok (), m) := by
  unfold leftovers
  rw [bind_ok (outcome_get m)]
  dsimp only
  rw [if_pos h]
  rfl

section

variable (hbody : AreStats body) (hlaid : p.LaidOut prims body) (horderly : Orderly (exitsAll false body))
  (hpasses : ∀ x ∈ Layout.scenes prims body, x.passes p.routines = true)
  (h : Reaches (Machine.start p signals) bases m)

include hbody hlaid horderly hpasses h

/-- The height of the stack, and that no step pops from an empty one, whether it succeeds or not. -/
theorem Reaches.height : bases.length = m.frames.length ∧
    m.stack.depth = floor bases + Layout.height prims body m.pc ∧ m.stack.emptyPops = 0 ∧
      m.next.2.stack.emptyPops = 0 := by
  obtain ⟨⟨hprogram, x, hx, hpc, hdepth, hempty⟩, hpending⟩ :=
    (level_invariant hbody hlaid horderly hpasses).all hbody hlaid horderly h
  refine ⟨hpending.length, ?_, hempty, ?_⟩
  · rw [hpc, Layout.height_of_mem hbody hx]
    exact hdepth
  · rcases mem_append.mp hx with hscene | hend
    · have henough := ((Layout.program_staged prims hbody horderly).sound x hscene).enough
      have htaken := taken_eq_takes hbody hlaid hscene (hpasses x hscene)
      exact ((tried hbody hlaid hprogram hscene hpc).1 (by rw [htaken, hdepth]; omega)).trans hempty
    · have hend : (m.program.code.size : Int) ≤ m.pc :=
        Int.le_of_eq (by rw [hpc, mem_singleton.mp hend, hprogram, hlaid.size])
      rw [next_of_end hend]
      exact hempty

theorem Reaches.depth_of_end (hend : (m.program.code.size : Int) ≤ m.pc) : m.stack.depth = 0 := by
  obtain ⟨⟨hprogram, x, hx, hpc, hdepth, -⟩, hpending⟩ :=
    (level_invariant hbody hlaid horderly hpasses).all hbody hlaid horderly h
  have hframes := h.frames_of_end hbody hlaid horderly hend
  have hbases : bases = [] := eq_nil_of_length_eq_zero (by rw [hpending.length, hframes]; rfl)
  rw [hprogram, hpc] at hend
  rw [hdepth, hbases, view_of_end hbody hlaid hx hend]
  rfl

end

end

/-- **Stack discipline.** Take a program that was read and compiled, without `break` and with every `continue` in a loop of
its own function, in which as many arguments are passed as are taken. All along a run, the stack has the height that the
address says, on top of what was there when the function was entered, and at the start of a statement that is
nothing. No instruction ever pops from an empty stack. A run that ends has taken all that it had pushed, and nothing is
printed between the last instruction and the statistics. -/
theorem operand_stack {tokens : List Token} {body : List Node} {primitives : List String} {p : Program}
    (hparse : Node.parse tokens = .ok (.program body)) (hp : Program.ofNode primitives (.program body) = .ok p)
    (horderly : Orderly (exitsAll false body))
    (hpasses : ∀ x ∈ Layout.scenes primitives body, x.passes p.routines = true) (signals : List Signal) :
    (∀ address ∈ Layout.starts primitives (Layout.origin body) (.block body),
        Layout.height primitives body address = 0) ∧
      (∀ {n : Nat} {m : Machine}, Runs n (Machine.start p signals) m → ∃ bases,
        Reaches (Machine.start p signals) bases m ∧ bases.length = m.frames.length ∧
          m.stack.depth = floor bases + Layout.height primitives body m.pc ∧ m.stack.emptyPops = 0 ∧
          m.next.2.stack.emptyPops = 0) ∧
      ∀ {budget : Nat} {m : Machine}, (Machine.start p signals).run budget = (.ok (), m) →
        m.stack.items = [] ∧ m.stack.pushes = m.stack.pops ∧
          ∃ n last, Runs n (Machine.start p signals) last ∧ m.printed = last.printed ++ m.stack.summary := by
  have hbody := (Node.areStats_of_parse hparse).1
  have hlaid := Program.laidOut hbody hp
  refine ⟨fun address haddress => ?_, fun {n m} hruns => ?_, fun {budget m} hrun => ?_⟩
  · obtain ⟨y, hy, rfl, hends⟩ := (Layout.program_staged primitives hbody horderly).level address haddress
    rw [Layout.height_of_mem hbody hy, hends]
    rfl
  · obtain ⟨bases, hreaches⟩ := hruns.reaches hbody hlaid horderly
    exact ⟨bases, hreaches, hreaches.height hbody hlaid horderly hpasses⟩
  · obtain ⟨n, m₁, m₂, hruns, hend, hleft, rfl⟩ := run_eq_ok hrun
    obtain ⟨bases, hreaches⟩ := hruns.reaches hbody hlaid horderly
    have hdepth := hreaches.depth_of_end hbody hlaid horderly hpasses hend
    obtain ⟨-, -, hempty, -⟩ := hreaches.height hbody hlaid horderly hpasses
    rw [outcome_leftovers hdepth] at hleft
    cases hleft
    refine ⟨List.eq_nil_of_length_eq_zero hdepth, ?_, n, m₁, hruns, rfl⟩
    rw [CountedStack.emptyPops, hdepth] at hempty
    show m₁.stack.pushes = m₁.stack.pops
    omega

/-- `var f = fun (x, y) { return x && y; }; print(f(true, 2)); forward(3);` inside the function, with one operand on the
stack, and after the run. -/
theorem height_in_function_and_signal :
    ∃ (p : Program) (bases : List Machine) (m last : Machine), m.pc = 9 ∧ m.frames.length = 1 ∧
      m.stack.depth = floor bases + 1 ∧ m.next.2.stack.emptyPops = 0 ∧
      (Machine.start p [⟨"forward", true⟩]).run 100 = (.ok (), last) ∧ last.stack.pushes = last.stack.pops := by
  let sign (tag : String) : Token := ⟨tag, .null⟩
  let word (name : String) : Token := ⟨"id", .text name⟩
  let tokens : List Token :=
    [sign "var", word "f", sign "=", sign "fun", sign "(", word "x", sign ",", word "y", sign ")", sign "\x7b",
      sign "return", word "x", sign "&&", word "y", sign ";", sign "\x7d", sign ";", sign "print", sign "(", word "f",
      sign "(", sign "true", sign ",", ⟨"num", .int 2⟩, sign ")", sign ")", sign ";", word "forward", sign "(",
      ⟨"num", .int 3⟩, sign ")", sign ";"]
  let body : List Node :=
    [.define (.text "f") (.function [.text "x", .text "y"]
        (.block [.returnValue (.binary (.text "&&") (.name (.text "x")) (.name (.text "y")))])),
      .print [.call (.name (.text "f")) [.literal .true [.null], .literal .num [.int 2]]],
      .exprStat (.call (.name (.text "forward")) [.literal .num [.int 3]])]
  let p : Program :=
    { code := #[13, 1, 9, 20, 13, 0, 5, 1, 0, 11, 16, 5, 1, 1, 9, 17, 4, 17, 14, 16, 1, 0, 6, 0, 0, 1, 1, 3, 15, 0, 7, 8,
        1, 2, 18, 3, 12, 14]
      consts := #[.number (.int 0), .number (.int 2), .number (.int 3), .string (.text "forward")]
      scopes := #[#[], #[.text "f"], #[.text "x", .text "y"], #[]]
      routines := #[⟨.text "f", [.text "x", .text "y"], some 4⟩] }
  let signals : List Signal := [⟨"forward", true⟩]
  have hparse : Node.parse tokens = .ok (.program body) := by cbv
  have hp : Program.ofNode ["forward"] (.program body) = .ok p := by cbv
  obtain ⟨-, hstates, hends⟩ := operand_stack hparse hp (by decide +kernel) (by decide +kernel) signals
  have hafter : (((Machine.start p signals).after? 9).map fun m => (m.pc, m.frames.length)) = some (9, 1) := by
    decide +kernel
  obtain ⟨m, hm, hview⟩ := Option.map_eq_some_iff.mp hafter
  obtain ⟨hpc, hlength⟩ := Prod.mk.inj hview
  obtain ⟨bases, -, -, hdepth, -, hempty⟩ := hstates (after?_eq_some_iff.mp hm)
  have hheight : Layout.height ["forward"] body 9 = 1 := by decide +kernel
  rw [hpc, hheight] at hdepth
  have hrun : ((Machine.start p signals).run 100).1.isOk = true := by decide +kernel
  cases hresult : (Machine.start p signals).run 100 with
  | mk r last =>
    rw [hresult] at hrun
    cases r with
    | error e => cases hrun
    | ok u => exact ⟨p, bases, m, last, hpc, hlength, hdepth, hempty, hresult, (hends hresult).2.1⟩

end Machine

end Cilly
