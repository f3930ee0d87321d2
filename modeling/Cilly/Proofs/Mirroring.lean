import Cilly.Proofs.Effects
import Cilly.Proofs.Interpreter

/-!
# A machine that does what is evaluated

`Mirrors` says of a machine and an evaluation that the one does what the other comes to: it prints the same, it goes on to where the
result is at hand, or it fails in the same way; and where the evaluation is out of fuel, the machine has gone on for as many steps as there was
fuel. So a machine that comes to an end bounds the fuel that is needed.

Evaluations are put together, and so is what mirrors them: `Mirrors.bind` for one after the other, and for each instruction of the machine
that has no counterpart, `Mirrors.step`.
-/

namespace Cilly

open Acting Reference

namespace Snapshot

variable {α β : Type} {p : Program} {c c' : Snapshot} {fuel fuel' n : Nat} {Done : α → Snapshot → Prop}
  {Done' : β → Snapshot → Prop}

/-- What the machine does from a snapshot on, by what is evaluated and printed. -/
def Follows (p : Program) (fuel : Nat) (c : Snapshot) (Done : α → Snapshot → Prop) : Except Stop α × String → Prop
  | (.ok a, text) => ∃ n c', Leads p n c c' ∧ c'.printed = text ∧ Done a c'
  | (.error (.fault f), text) => ∃ n c', Leads p n c c' ∧ Stops p c' f ∧ c'.printed = text
  | (.error .outOfFuel, text) => ∃ n c', fuel ≤ n ∧ Leads p n c c' ∧ c'.printed = text
  | (.error .stuck, _) => False

/-- The machine does what is evaluated. -/
def Mirrors (p : Program) (fuel : Nat) (c : Snapshot) (x : Eval α) (Done : α → Snapshot → Prop) : Prop :=
  Follows p fuel c Done (outcome x c.printed)

theorem Follows.behind {r : Except Stop α × String} (h : Follows p fuel c' Done r) (hleads : Leads p n c c') :
    Follows p (fuel + n) c Done r := by
  match r, h with
  | (.ok a, text), ⟨n', c'', hleads', hrest⟩ => exact ⟨n + n', c'', hleads.trans hleads', hrest⟩
  | (.error (.fault f), text), ⟨n', c'', hleads', hrest⟩ => exact ⟨n + n', c'', hleads.trans hleads', hrest⟩
  | (.error .outOfFuel, text), ⟨n', c'', hle, hleads', hprinted⟩ =>
    exact ⟨n + n', c'', by omega, hleads.trans hleads', hprinted⟩

theorem Follows.mono {r : Except Stop α × String} (h : Follows p fuel c Done r) (hle : fuel' ≤ fuel)
    {Done' : α → Snapshot → Prop} (hdone : ∀ a c', Done a c' → Done' a c') : Follows p fuel' c Done' r := by
  match r, h with
  | (.ok a, text), ⟨n, c', hleads, hprinted, ha⟩ => exact ⟨n, c', hleads, hprinted, hdone a c' ha⟩
  | (.error (.fault f), text), h => exact h
  | (.error .outOfFuel, text), ⟨n, c', hle', hrest⟩ => exact ⟨n, c', Nat.le_trans hle hle', hrest⟩

namespace Mirrors

variable {x : Eval α} {f : α → Eval β} {a : α}

theorem mono (h : Mirrors p fuel c x Done) (hle : fuel' ≤ fuel) : Mirrors p fuel' c x Done :=
  Follows.mono h hle fun _ _ ha => ha

theorem imp (h : Mirrors p fuel c x Done) {Done' : α → Snapshot → Prop} (hdone : ∀ a c', Done a c' → Done' a c') :
    Mirrors p fuel c x Done' := Follows.mono h (Nat.le_refl _) hdone

theorem returns (h : Done a c) : Mirrors p fuel c (pure a) Done := ⟨0, c, .refl p c, rfl, h⟩

theorem bind (hx : Mirrors p fuel c x Done) (hf : ∀ a c', Done a c' → Mirrors p fuel c' (f a) Done') :
    Mirrors p fuel c (x >>= f) Done' := by
  unfold Mirrors at hx ⊢
  rw [outcome_bind]
  match outcome x c.printed, hx with
  | (.ok a, text), ⟨n, c', hleads, hprinted, ha⟩ =>
    have hrest := hf a c' ha
    unfold Mirrors at hrest
    rw [hprinted] at hrest
    exact (hrest.behind hleads).mono (Nat.le_add_right ..) fun _ _ hb => hb
  | (.error (.fault f), text), hx => exact hx
  | (.error .outOfFuel, text), hx => exact hx

theorem discard (h : Mirrors p fuel c x Done) : Mirrors p fuel c (discard x) fun _ c' => ∃ a, Done a c' :=
  show Mirrors p fuel c (x >>= fun _ => pure ()) _ from h.bind fun a _ ha => returns ⟨a, ha⟩

theorem leads (hleads : Leads p n c c') (hprinted : c'.printed = c.printed) (h : Mirrors p fuel c' x Done) :
    Mirrors p (fuel + n) c x Done := by
  unfold Mirrors at h ⊢
  rw [hprinted] at h
  exact h.behind hleads

theorem step (hsteps : Steps p c c') (hprinted : c'.printed = c.printed) (h : Mirrors p fuel c' x Done) :
    Mirrors p fuel c x Done := (leads hsteps.leads hprinted h).mono (Nat.le_add_right ..)

theorem andThen (h : Mirrors p fuel c x Done) {Done' : α → Snapshot → Prop}
    (hstep : ∀ a c', Done a c' → ∃ c'', Steps p c' c'' ∧ c''.printed = c'.printed ∧ Done' a c'') :
    Mirrors p fuel c x Done' := by
  have hbind : Mirrors p fuel c (x >>= pure) Done' := h.bind fun a c' ha => by
    obtain ⟨c'', hsteps, hprinted, hdone⟩ := hstep a c' ha
    exact step hsteps hprinted (returns hdone)
  rwa [bind_pure] at hbind

theorem ofFault {r : Except Fault α} (hstop : ∀ f, r = .error f → Stops p c f)
    (hf : ∀ a, r = .ok a → Mirrors p fuel c (f a) Done') : Mirrors p fuel c (ofFault r >>= f) Done' := by
  cases r with
  | ok a => exact hf a rfl
  | error fault => exact ⟨0, c, .refl p c, hstop fault rfl, rfl⟩

/-- What may fail and gives a result, where the machine takes a step. -/
theorem attempt {r : Except Fault α} (hstop : ∀ f, r = .error f → Stops p c f)
    (hok : ∀ a, r = .ok a → ∃ c', Steps p c c' ∧ c'.printed = c.printed ∧ Done a c') :
    Mirrors p fuel c (Reference.ofFault r) Done := by
  rw [← bind_pure (Reference.ofFault r)]
  refine ofFault hstop fun a ha => ?_
  obtain ⟨c', hsteps, hprinted, hdone⟩ := hok a ha
  exact step hsteps hprinted (returns hdone)

theorem emit {text : String} {f : Unit → Eval β} (hsteps : Steps p c c') (hprinted : c'.printed = c.printed ++ text)
    (hf : Mirrors p fuel c' (f ()) Done') : Mirrors p fuel c (Reference.emit text >>= f) Done' := by
  unfold Mirrors at hf ⊢
  rw [bind_ok (show outcome (Reference.emit text) c.printed = (.ok (), c'.printed) by rw [hprinted]; rfl)]
  exact (hf.behind hsteps.leads).mono (Nat.le_add_right ..) fun _ _ hb => hb

theorem outOfFuel : Mirrors p 0 c (throw .outOfFuel) Done := ⟨0, c, Nat.le_refl _, .refl p c, rfl⟩

end Mirrors

end Snapshot

end Cilly
