import Cilly.Proofs.Activations
import Cilly.Proofs.Completion
import Cilly.Proofs.WellFormed

/-!
# Control flow

The body of a function stands in the middle of the code around its definition, and a jump leads past it. So every
instruction belongs to the innermost body around it, or to no body at all (`statement_housed`). A run enters a body only by a
call and leaves it only by a return: at any time it is in the body that the innermost pending call has entered, and outside
of all bodies when no call is pending (`control_flow`).

This holds of programs without `break` in which every `continue` is in a loop of its own function.
-/

namespace Cilly

open Node
open List hiding set

variable {ends : List Nat} {instr : Instr} {x : Scene}

/-! ## Bodies of functions -/

/-- The addresses from one up to another. -/
structure Body where
  start : Nat
  stop : Nat
  deriving DecidableEq, Repr

namespace Body

def Contains (b : Body) (address : Nat) : Prop := b.start ≤ address ∧ address < b.stop

def Within (b c : Body) : Prop := c.start ≤ b.start ∧ b.stop ≤ c.stop

/-- The innermost of the bodies around an address. -/
def Innermost (bodies : List Body) (address : Nat) (b : Body) : Prop :=
  b ∈ bodies ∧ b.Contains address ∧ ∀ c ∈ bodies, c.Contains address → b.Within c

end Body

/-- The code of a function, with the return behind it. -/
def DefinitionSite.body (primitives : List String) (site : DefinitionSite) : Body :=
  ⟨site.entry, (site.last primitives).here + 1⟩

/-- Scenes in a range of addresses: each belongs to the innermost of the bodies around it, if there is one. -/
structure Housed (home : Option Nat) (lo hi : Nat) (bodies : List Body) (scenes : List Scene) : Prop where
  le : lo ≤ hi
  within : ∀ b ∈ bodies, b.Within ⟨lo, hi⟩
  bounds : ∀ x ∈ scenes, (⟨lo, hi⟩ : Body).Contains x.address
  homes : ∀ x ∈ scenes, (x.view.home = home ∧ ∀ b ∈ bodies, ¬ b.Contains x.address) ∨
    ∃ b : Body, x.view.home = some b.start ∧ b.Innermost bodies x.address

namespace Housed

variable {home : Option Nat} {lo middle hi : Nat} {bodies bodies' : List Body} {scenes more : List Scene}

theorem append (h : Housed home lo middle bodies scenes) (h' : Housed home middle hi bodies' more) :
    Housed home lo hi (bodies ++ bodies') (scenes ++ more) := by
  have hle := h.le
  have hle' := h'.le
  refine ⟨by omega, fun b hb => ?_, fun x hx => ?_, fun x hx => ?_⟩
  · rcases mem_append.mp hb with hb | hb
    · exact ⟨(h.within b hb).1, Nat.le_trans (h.within b hb).2 hle'⟩
    · exact ⟨Nat.le_trans hle (h'.within b hb).1, (h'.within b hb).2⟩
  · rcases mem_append.mp hx with hx | hx
    · exact ⟨(h.bounds x hx).1, Nat.lt_of_lt_of_le (h.bounds x hx).2 hle'⟩
    · exact ⟨Nat.le_trans hle (h'.bounds x hx).1, (h'.bounds x hx).2⟩
  · rcases mem_append.mp hx with hx | hx
    · -- the bodies of the second part start behind the scenes of the first
      have hbound : x.address < middle := (h.bounds x hx).2
      have hapart : ∀ b ∈ bodies', ¬ b.Contains x.address := by
        intro b hb hcontains
        have hstart : middle ≤ b.start := (h'.within b hb).1
        exact absurd hcontains.1 (by omega)
      rcases h.homes x hx with ⟨hhome, hnone⟩ | ⟨b, hhome, hb, hcontains, hinner⟩
      · exact Or.inl ⟨hhome, forall_mem_append.mpr ⟨hnone, hapart⟩⟩
      · exact Or.inr ⟨b, hhome, mem_append_left _ hb, hcontains,
          forall_mem_append.mpr ⟨hinner, fun c hc hcontains' => absurd hcontains' (hapart c hc)⟩⟩
    · have hbound : middle ≤ x.address := (h'.bounds x hx).1
      have hapart : ∀ b ∈ bodies, ¬ b.Contains x.address := by
        intro b hb hcontains
        have hstop : b.stop ≤ middle := (h.within b hb).2
        exact absurd hcontains.2 (by omega)
      rcases h'.homes x hx with ⟨hhome, hnone⟩ | ⟨b, hhome, hb, hcontains, hinner⟩
      · exact Or.inl ⟨hhome, forall_mem_append.mpr ⟨hapart, hnone⟩⟩
      · exact Or.inr ⟨b, hhome, mem_append_right _ hb, hcontains,
          forall_mem_append.mpr ⟨fun c hc hcontains' => absurd hcontains' (hapart c hc), hinner⟩⟩

theorem before (h : Housed home lo middle bodies scenes) (h' : Housed home middle hi [] more) :
    Housed home lo hi bodies (scenes ++ more) := by
  have hall := h.append h'
  rwa [append_nil] at hall

theorem flat {set : Setting} (hle : lo ≤ hi) (hbounds : ∀ x ∈ scenes, (⟨lo, hi⟩ : Body).Contains x.address)
    (h : ∀ x ∈ scenes, x.Of set) : Housed set.home lo hi [] scenes :=
  ⟨hle, by simp, hbounds, fun x hx => Or.inl ⟨(h x hx).home, by simp⟩⟩

theorem single (set : Setting) {subject : Subject} (h : lo < hi) :
    Housed set.home lo hi [] [set.scene lo instr ends subject] :=
  flat (Nat.le_of_lt h) (forall_mem_singleton.mpr ⟨Nat.le_refl _, h⟩)
    (forall_mem_singleton.mpr (set.scene_of ..))

theorem cons (set : Setting) {instr : Instr} {ends : List Nat} {subject : Subject} (h : lo < middle)
    (h' : Housed set.home middle hi bodies scenes) :
    Housed set.home lo hi bodies (set.scene lo instr ends subject :: scenes) := (single set h).append h'

theorem body (h : Housed (some lo) lo hi bodies scenes) : Housed home lo hi (⟨lo, hi⟩ :: bodies) scenes := by
  refine ⟨h.le, forall_mem_cons.mpr ⟨⟨Nat.le_refl _, Nat.le_refl _⟩, h.within⟩, h.bounds, fun x hx => Or.inr ?_⟩
  rcases h.homes x hx with ⟨hhome, hnone⟩ | ⟨b, hhome, hb, hcontains, hinner⟩
  · exact ⟨⟨lo, hi⟩, hhome, mem_cons_self .., h.bounds x hx, forall_mem_cons.mpr
      ⟨fun _ => ⟨Nat.le_refl _, Nat.le_refl _⟩, fun c hc hcontains => absurd hcontains (hnone c hc)⟩⟩
  · exact ⟨b, hhome, mem_cons_of_mem _ hb, hcontains,
      forall_mem_cons.mpr ⟨fun _ => h.within b hb, hinner⟩⟩

end Housed

theorem Strand.housed {set : Setting} {ends' : List Nat} {start stop : Nat} {scenes : List Scene}
    (h : Strand set ends start ends' stop scenes) : Housed set.home start stop [] scenes :=
  .flat h.level.ordered.le h.bounds h.of

namespace Layout

variable (primitives : List String)

/-- The bodies of the functions that are defined at sites. -/
def bodiesOf (sites : List DefinitionSite) : List Body := sites.map (·.body primitives)

theorem bodiesOf_append (xs ys : List DefinitionSite) :
    bodiesOf primitives (xs ++ ys) = bodiesOf primitives xs ++ bodiesOf primitives ys := map_append

theorem block_housed (set : Setting) (s : Point) {body : List Node} {bodies : List Body}
    (h : Housed set.home s.inBlock.here (nextAll primitives s.inBlock body).here bodies
      (statementsScenes primitives (set.inBlock (s.here + 2) (declaresAll body)) s.inBlock body)) :
    Housed set.home s.here (next primitives s (.block body)).here bodies
      (statementScenes primitives set s (.block body)) := by
  rw [statementScenes, next]
  exact .cons set (Nat.lt_add_of_pos_right (by decide))
    (h.before (.single (set.inBlock (s.here + 2) (declaresAll body)) (Nat.lt_succ_self _)))

theorem straight_housed {n : Node} (h : n.Straight) (set : Setting) (s : Point) :
    Housed set.home s.here (next primitives s n).here (bodiesOf primitives (sites primitives set.shape s n))
      (statementScenes primitives set s n) := by
  rw [sites_straight primitives h]
  exact (straight_strand primitives h set s).housed

mutual

theorem statement_housed : ∀ {n : Node}, IsStat n → ∀ (set : Setting) (s : Point),
    Housed set.home s.here (next primitives s n).here (bodiesOf primitives (sites primitives set.shape s n))
      (statementScenes primitives set s n)
  | _, .exprStat he, set, s => straight_housed primitives (.exprStat he) set s
  | _, .print hargs, set, s => straight_housed primitives (.print hargs) set s
  | _, .ifThen hcond hyes, set, s => by
    simp only [next, sites, statementScenes]
    exact (expression_strand primitives _ _ hcond [] s.here).housed.append
      (.cons set (by simp) (statement_housed hyes set (s.skip _)))
  | _, @IsStat.ifElse cond yes no hcond hyes hno, set, s => by
    have hyes := statement_housed hyes set (s.skip (width primitives s.toNames cond + 2))
    have hno := statement_housed hno set ((next primitives (s.skip (width primitives s.toNames cond + 2)) yes).skip 2)
    simp only [next, sites, statementScenes, bodiesOf_append]
    exact (expression_strand primitives _ _ hcond [] s.here).housed.append
      (.cons set (by simp) (hyes.append (.cons set.loose (by simp) hno)))
  | _, @IsStat.loop cond body hcond hbody, set, s => by
    have hbody := fun stop => statement_housed hbody (set.inLoop s.here stop)
      (s.skip (width primitives s.toNames cond + 2))
    simp only [next, sites, statementScenes]
    exact (expression_strand primitives _ _ hcond [] s.here).housed.append
      (.cons (set.inLoop s.here _) (by simp) ((hbody _).before (.single (set.inLoop s.here _).loose (by simp))))
  | _, .breakLoop, set, s => by
    simp only [next, sites, statementScenes]
    split <;> exact .single set (by simp)
  | _, .continueLoop, set, s => by
    simp only [next, sites, statementScenes]
    split <;> exact .single set (by simp)
  | _, .block hbody, set, s => by
    simp only [sites]
    exact block_housed primitives set s (statements_housed hbody (set.inBlock _ _) s.inBlock)
  | _, @IsStat.function x xs body hbody, set, s => by
    have hinside := block_housed primitives (set.inFunction (s.here + 2) xs) (s.inFunction x xs)
      (statements_housed hbody ((set.inFunction (s.here + 2) xs).inBlock _ _) (s.inFunction x xs).inBlock)
    rw [next_function, sites, sites, statementScenes_function, Point.declare_here, append_cons]
    -- the body with its return, and behind it what stores the function
    exact .cons set (Nat.lt_add_of_pos_right (by decide)) (.before
      (.body (hinside.before (.single (set.inFunction (s.here + 2) xs).loose (Nat.lt_succ_self _))))
      (.cons set (Nat.add_lt_add_left (by decide) _) (.single set (Nat.add_lt_add_left (by decide) _))))
  | _, .define x hvalue hne, set, s => straight_housed primitives (.define x hvalue hne) set s
  | _, .assign x hvalue, set, s => straight_housed primitives (.assign x hvalue) set s
  | _, .return, set, s => by
    simp only [next, sites, statementScenes]
    exact .single set (by simp)
  | _, .returnValue hvalue, set, s => by
    simp only [next, sites, statementScenes]
    exact (expression_strand primitives set _ hvalue [] s.here).housed.append (.single set (Nat.lt_succ_self _))

theorem statements_housed : ∀ {ns : List Node}, AreStats ns → ∀ (set : Setting) (s : Point),
    Housed set.home s.here (nextAll primitives s ns).here (bodiesOf primitives (sitesAll primitives set.shape s ns))
      (statementsScenes primitives set s ns)
  | _, .nil, set, s => by
    rw [nextAll, sitesAll, statementsScenes]
    exact ⟨Nat.le_refl _, by simp [bodiesOf], by simp, by simp⟩
  | _, .cons hn hns, set, s => by
    rw [nextAll, sitesAll, statementsScenes, bodiesOf_append]
    exact (statement_housed hn set s).append (statements_housed hns set _)

end

/-- The bodies of the functions of a program. -/
def bodies (body : List Node) : List Body := bodiesOf primitives (definitions primitives body)

theorem stage_home {body : List Node} (h : AreStats body) (hx : x ∈ stage primitives body) :
    (x.view.home = none ∧ ∀ b ∈ bodies primitives body, ¬ b.Contains x.address) ∨
      ∃ b : Body, x.view.home = some b.start ∧ b.Innermost (bodies primitives body) x.address := by
  have hhoused := statement_housed primitives (.block h) ⟨[], [], none⟩ (origin body)
  rcases mem_append.mp hx with hx | hx
  · exact hhoused.homes x hx
  · rw [mem_singleton.mp hx]
    refine Or.inl ⟨rfl, fun b hb hcontains => ?_⟩
    have hstop : b.stop ≤ (finish primitives body).here := (hhoused.within b hb).2
    exact absurd hcontains.2 (Nat.not_lt.mpr hstop)

end Layout

/-! ## Runs -/

namespace Machine

/-- The function of an instruction is the one that was called last. -/
def AtHome (home : Option Nat) : List Machine → Prop
  | [] => home = none
  | b :: _ => ∃ entry : Nat, home = some entry ∧ b.pc = entry

theorem atHome_invariant (prims : List String) (body : List Node) (p : Program) (signals : List Signal) :
    Invariant prims body p signals (fun view bases _ => AtHome view.home bases)
      fun view _ _ bases => AtHome view.home bases where
  start := rfl
  step _ _ _ _ _ _ honward hhome := by
    rw [honward.home]
    exact hhome
  call _ _ _ _ _ hpc _ hcalls hhome := by
    refine ⟨⟨_, rfl, hpc⟩, ?_⟩
    rw [hcalls.view]
    exact hhome
  back _ _ _ _ _ _ hback := hback

end Machine

/-! ## Integrity -/

/-- What an instruction does to the calls that have not returned. -/
def Opcode.Turns (op : Opcode) (frames frames' : List Frame) : Prop :=
  match op with
  | .call => ∃ f, frames' = f :: frames
  | .return | .returnValue => ∃ f, frames = f :: frames'
  | _ => frames' = frames

section

variable {p : Program} {prims : List String} {body : List Node} {operands : List Int} {m m' : Machine}

/-- Only calls and returns change what calls have not returned. -/
theorem Instr.Reads.turns {all : List Scene} (h : x.instr.Reads p operands)
    (hpassage : Machine.Passage all x m m') : x.instr.op.Turns m.frames m'.frames := by
  cases hpassage with
  | onward _ _ honward =>
    have hframes := honward.frames
    cases honward with
    | plain hquiet =>
      cases hinstr : x.instr with
      | plain op | branch op =>
        rw [hinstr] at h
        cases op with
        | call | «return» | returnValue => cases h.1
        | _ => exact hframes
      | const | primitive | load | store => exact hframes
      | _ =>
        rw [hinstr] at hquiet
        cases hquiet
    | jump hinstr | again hinstr | enter hinstr | leave hinstr =>
      rw [hinstr]
      exact hframes
  | call _ hcalls =>
    rw [hcalls.instr]
    exact ⟨_, hcalls.frames⟩
  | back hreturns =>
    rcases hreturns.instr with hinstr | hinstr
    · rw [hinstr]
      exact ⟨_, hreturns.frames⟩
    · rw [hinstr]
      exact ⟨_, hreturns.frames⟩

theorem Instr.Reads.of_returns (h : instr.Reads p operands)
    (hop : instr.op = .return ∨ instr.op = .returnValue) : instr = .return ∨ instr = .returnValue := by
  cases instr with
  | «return» => exact Or.inl rfl
  | returnValue => exact Or.inr rfl
  | plain op | branch op => rcases hop with rfl | rfl <;> cases h.1
  | _ => rcases hop with hop | hop <;> cases hop

theorem Program.LaidOut.line_at (h : p.LaidOut prims body) (hbody : AreStats body) {line : Line}
    (hline : line ∈ p.lines prims body) (hx : x ∈ Layout.stage prims body)
    (haddress : line.address = x.address) :
    x ∈ Layout.scenes prims body ∧ line.op = x.instr.op ∧ x.instr.Reads p line.operands := by
  obtain ⟨z, hz, operands, hreads, rfl⟩ := h.mem_lines hline
  rw [← Layout.program_toSpot prims hbody] at hz
  obtain ⟨y, hy, rfl⟩ := mem_map.mp hz
  cases Layout.stage_unique prims hbody (mem_append_left _ hy) hx haddress
  exact ⟨hy, rfl, hreads⟩

end

namespace Machine

/-- A machine in the middle of a run, by the instructions of its program, the bodies of the functions and the machines
right after the calls that have not returned. -/
structure Contained (lines : List Line) (bodies : List Body) (bases : List Machine) (m : Machine) (address : Nat) :
    Prop where
  pc : m.pc = address
  boundary : address = m.program.code.size ∨ ∃ line ∈ lines, line.address = address
  calls : bases.length = m.frames.length
  /-- The innermost body is the one that the innermost call has entered. -/
  inside : ∀ {b : Machine} {outer : List Machine}, bases = b :: outer → b.frames = m.frames ∧
    ∃ body : Body, body.Innermost bodies address ∧ b.pc = body.start
  outside : m.frames = [] ↔ ∀ body ∈ bodies, ¬ body.Contains address
  /-- Only calls enter a body and only returns leave one. -/
  turns : ∀ {line : Line} {w : Int} {m' : Machine}, line ∈ lines → line.address = address → m.next = (.ok w, m') →
    line.op.Turns m.frames m'.frames
  returns : ∀ {line : Line}, line ∈ lines → line.address = address → line.op = .return ∨ line.op = .returnValue →
    m.frames ≠ []

section

variable {prims : List String} {body : List Node} {p : Program} {bases : List Machine} {m : Machine}
  {signals : List Signal}

theorem AtHome.frames_eq_nil_iff {home : Option Nat} (h : AtHome home bases) (hlength : bases.length = m.frames.length) :
    m.frames = [] ↔ home = none := by
  rw [← length_eq_zero_iff, ← hlength]
  cases bases with
  | nil => exact ⟨fun _ => h, fun _ => rfl⟩
  | cons b outer =>
    obtain ⟨entry, hhome, -⟩ := h
    simp [hhome]

section

variable (hbody : AreStats body) (hlaid : p.LaidOut prims body) (horderly : Orderly (exitsAll false body))
  (h : Reaches (Machine.start p signals) bases m)

include hbody hlaid horderly h

theorem Reaches.contained :
    ∃ address, Contained (p.lines prims body) (Layout.bodies prims body) bases m address := by
  obtain ⟨⟨hprogram, x, hx, hpc, hhome⟩, hpending⟩ :=
    (atHome_invariant prims body p signals).all hbody hlaid horderly h
  have hempty := hhome.frames_eq_nil_iff hpending.length
  have hplace := Layout.stage_home prims hbody hx
  refine ⟨x.address, hpc, ?_, hpending.length, ?_, ?_, ?_, ?_⟩
  · rw [hprogram]
    rcases mem_append.mp hx with hx | hx
    · refine Or.inr ⟨_, mem_map_of_mem (a := x.toSpot) ?_, rfl⟩
      rw [← Layout.program_toSpot prims hbody]
      exact mem_map_of_mem hx
    · rw [mem_singleton.mp hx, hlaid.size]
      exact Or.inl rfl
  · rintro b outer rfl
    obtain ⟨entry, hentry, hb⟩ := hhome
    rcases hplace with ⟨hnone, -⟩ | ⟨inner, hinner, hinnermost⟩
    · rw [hentry] at hnone
      cases hnone
    · cases hentry.symm.trans hinner
      exact ⟨hpending.base, inner, hinnermost, hb⟩
  · rw [hempty]
    rcases hplace with ⟨hnone, hout⟩ | ⟨inner, hinner, hmem, hcontains, -⟩
    · exact ⟨fun _ => hout, fun _ => hnone⟩
    · exact ⟨fun hnone => absurd (hinner.symm.trans hnone) (by simp), fun hout => absurd hcontains (hout inner hmem)⟩
  · intro line w m' hline haddress hnext
    obtain ⟨hscene, hop, hreads⟩ := hlaid.line_at hbody hline hx haddress
    rw [hop]
    exact hreads.turns (Machine.passage hbody hlaid horderly hprogram hscene hpc hnext)
  · intro line hline haddress hop
    obtain ⟨hscene, hsame, hreads⟩ := hlaid.line_at hbody hline hx haddress
    rw [hsame] at hop
    have hleads := ((Layout.program_staged prims hbody horderly).sound x hscene).leads
    rw [Ne, hempty]
    rcases hreads.of_returns hop with hinstr | hinstr
    · rw [Scene.Leads, hinstr] at hleads
      exact hleads.2
    · rw [Scene.Leads, hinstr] at hleads
      exact hleads.2

theorem Reaches.frames_of_end (hend : (m.program.code.size : Int) ≤ m.pc) : m.frames = [] := by
  obtain ⟨⟨hprogram, x, hx, hpc, hhome⟩, hpending⟩ :=
    (atHome_invariant prims body p signals).all hbody hlaid horderly h
  rw [hprogram, hpc] at hend
  rw [hhome.frames_eq_nil_iff hpending.length, view_of_end hbody hlaid hx hend]

end

end

/-- **Control flow integrity.** Take a program that was read and compiled, without `break` and with every `continue` in a
loop of its own function. All along a run, the machine stands at an instruction or at the end of the code. It is in the
body of a function exactly while a call is pending, and the innermost body around it is the one that the innermost pending call has entered.
Bodies are entered by calls and left by returns only, no return is met outside of a call, and no call is pending when a run
ends. -/
theorem control_flow {tokens : List Token} {body : List Node} {primitives : List String} {p : Program}
    (hparse : Node.parse tokens = .ok (.program body)) (hp : Program.ofNode primitives (.program body) = .ok p)
    (horderly : Orderly (exitsAll false body)) (signals : List Signal) :
    ∃ lines, p.decode = some lines ∧
      (∀ inner ∈ Layout.bodies primitives body, ∃ line ∈ lines, line.op = .jump ∧ line.address + 2 = inner.start ∧
        line.operands = [(inner.stop : Int)]) ∧
      (∀ {n : Nat} {m : Machine}, Runs n (Machine.start p signals) m → ∃ bases address,
        Reaches (Machine.start p signals) bases m ∧ Contained lines (Layout.bodies primitives body) bases m address) ∧
      ∀ {budget : Nat} {m : Machine}, (Machine.start p signals).run budget = (.ok (), m) → m.frames = [] := by
  have hbody := (Node.areStats_of_parse hparse).1
  have hlaid := Program.laidOut hbody hp
  refine ⟨_, hlaid.decode hbody, fun inner hinner => ?_, fun {n m} hruns => ?_, fun {budget m} hrun => ?_⟩
  · obtain ⟨site, hsite, rfl⟩ := List.mem_map.mp hinner
    have hskip := (Layout.program_sited primitives hbody).skipped site hsite
    obtain ⟨operands, hreads, hline⟩ := hlaid.lineAt hskip
    refine ⟨_, List.mem_map_of_mem hskip, rfl, rfl, ?_⟩
    rw [hline]
    exact hreads
  · obtain ⟨bases, hreaches⟩ := hruns.reaches hbody hlaid horderly
    obtain ⟨address, hcontained⟩ := hreaches.contained hbody hlaid horderly
    exact ⟨bases, address, hreaches, hcontained⟩
  · obtain ⟨n, m₁, hruns, hend, hsame⟩ := sameControl_of_run hrun
    obtain ⟨bases, hreaches⟩ := hruns.reaches hbody hlaid horderly
    rw [hsame.frames]
    exact hreaches.frames_of_end hbody hlaid horderly hend

/-- `var f = fun (x) { while (x) { continue; } }; f(false);` at the entry of the function, and after the run. -/
theorem contained_in_function_with_loop :
    ∃ (p : Program) (lines : List Line) (bases : List Machine) (m last : Machine), p.decode = some lines ∧
      m.frames.length = 1 ∧ Contained lines [⟨4, 20⟩] bases m 4 ∧
      (Machine.start p []).run 30 = (.ok (), last) ∧ last.frames = [] := by
  let sign (tag : String) : Token := ⟨tag, .null⟩
  let f : Token := ⟨"id", .text "f"⟩
  let x : Token := ⟨"id", .text "x"⟩
  let tokens : List Token :=
    [sign "var", f, sign "=", sign "fun", sign "(", x, sign ")", sign "\x7b", sign "while", sign "(", x, sign ")",
      sign "\x7b", sign "continue", sign ";", sign "\x7d", sign "\x7d", sign ";", f, sign "(", sign "false", sign ")",
      sign ";"]
  let body : List Node :=
    [.define (.text "f") (.function [.text "x"] (.block [.loop (.name (.text "x")) (.block [.continueLoop])])),
      .exprStat (.call (.name (.text "f")) [.literal .false [.null]])]
  let p : Program :=
    { code := #[13, 1, 9, 20, 13, 0, 5, 1, 0, 11, 18, 13, 0, 9, 6, 14, 9, 6, 14, 16, 1, 0, 6, 0, 0, 4, 15, 0, 12, 14]
      consts := #[.number (.int 0)]
      scopes := #[#[], #[.text "f"], #[.text "x"], #[], #[]]
      routines := #[⟨.text "f", [.text "x"], some 4⟩] }
  have hparse : Node.parse tokens = .ok (.program body) := by cbv
  have hp : Program.ofNode [] (.program body) = .ok p := by cbv
  have hbodies : Layout.bodies [] body = [⟨4, 20⟩] := by decide +kernel
  obtain ⟨lines, hdecode, -, hstates, hends⟩ := control_flow hparse hp (by decide +kernel) []
  rw [hbodies] at hstates
  have hafter : (((Machine.start p []).after? 6).map fun m => (m.frames.length, m.pc)) = some (1, 4) := by
    decide +kernel
  obtain ⟨m, hm, hview⟩ := Option.map_eq_some_iff.mp hafter
  obtain ⟨hlength, hpc⟩ := Prod.mk.inj hview
  obtain ⟨bases, address, -, hcontained⟩ := hstates (after?_eq_some_iff.mp hm)
  have haddress : (address : Int) = (4 : Nat) := hcontained.pc.symm.trans hpc
  cases Int.ofNat.inj haddress
  have hrun : ((Machine.start p []).run 30).1.isOk = true := by decide +kernel
  cases hresult : (Machine.start p []).run 30 with
  | mk r last =>
    rw [hresult] at hrun
    cases r with
    | error e => cases hrun
    | ok u => exact ⟨p, lines, bases, m, last, hdecode, hlength, hcontained, hresult, hends hresult⟩

end Machine

end Cilly
