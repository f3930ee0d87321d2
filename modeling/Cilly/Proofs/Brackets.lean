import Cilly.Proofs.Compiling
import Cilly.Proofs.Segments
import Mathlib

/-!
# What compiling a tree leaves as it found it

Compiling a tree opens scopes, enters loops and functions and leaves them again. Whatever the tree is, and in whatever state it is
compiled, if that succeeds the same scopes are open as before, in the same loop and the same function: names may have come to
the innermost scope, jumps out of the loop to those that were there, and functions to the table, of which those that were there
have at most another address (`Assembly.Framed`). Together with what is known of code and constants this is
`CompileM.visit_bracketed`.
-/

namespace Cilly

/-- The state of scopes, loops and functions is as before, but for what has been added. -/
structure Assembly.Framed (a a' : Assembly) : Prop where
  scopes : ∀ (i : Nat) names, a.scopes[i]? = some names →
    ∃ more, a'.scopes[i]? = some (names ++ more) ∧ (a.chain.head? ≠ some i → more = #[])
  chain : a'.chain = a.chain
  routines : ∀ (i : Nat) (r : Routine), a.routines[i]? = some r → ∃ entry, a'.routines[i]? = some { r with entry := entry }
  current : a'.current = a.current
  breaks : ∃ more, a'.breaks = a.breaks ++ more
  continues : a'.continues = a.continues
  primitives : a'.primitives = a.primitives

namespace Assembly.Framed

variable {a b c : Assembly}

theorem of_keeps (h : CompileM.Keeps a b) : Framed a b where
  scopes i names hi := ⟨#[], by rw [h.scopes, hi, Array.append_empty], fun _ => rfl⟩
  chain := h.chain
  routines i r hr := ⟨r.entry, by rw [h.routines, hr]⟩
  current := h.current
  breaks := ⟨#[], by rw [h.breaks, Array.append_empty]⟩
  continues := h.continues
  primitives := h.primitives

theorem trans (h : Framed a b) (h' : Framed b c) : Framed a c where
  scopes i names hi := by
    obtain ⟨more, hmore, hinner⟩ := h.scopes i names hi
    obtain ⟨more', hmore', hinner'⟩ := h'.scopes i _ hmore
    refine ⟨more ++ more', by rw [hmore', Array.append_assoc], fun hi => ?_⟩
    rw [hinner hi, hinner' (h.chain ▸ hi), Array.append_empty]
  chain := h'.chain.trans h.chain
  routines i r hr := by
    obtain ⟨entry, hentry⟩ := h.routines i r hr
    obtain ⟨entry', hentry'⟩ := h'.routines i _ hentry
    exact ⟨entry', hentry'⟩
  current := h'.current.trans h.current
  breaks := by
    obtain ⟨more, hmore⟩ := h.breaks
    obtain ⟨more', hmore'⟩ := h'.breaks
    exact ⟨more ++ more', by rw [hmore', hmore, Array.append_assoc]⟩
  continues := h'.continues.trans h.continues
  primitives := h'.primitives.trans h.primitives

/-- A scope that was opened is closed again. -/
theorem closed {outer : List Nat} {current : Option Nat} (h : Framed (a.opened outer current) b) :
    Framed a { b with chain := a.chain, current := a.current } where
  scopes i names hi := by
    have hlt : i < a.scopes.size := (Array.getElem?_eq_some_iff.mp hi).1
    have hpushed : (a.scopes.push #[])[i]? = some names := by rw [Array.getElem?_push, if_neg (by omega), hi]
    obtain ⟨more, hmore, hinner⟩ := h.scopes i names hpushed
    exact ⟨more, hmore, fun _ => hinner (by simp [opened]; omega)⟩
  chain := rfl
  routines := h.routines
  current := rfl
  breaks := h.breaks
  continues := h.continues
  primitives := h.primitives

/-- A loop that was entered is left again. -/
theorem left {start exit : Nat} (h : Framed (a.looping start exit) b) :
    Framed a { b with breaks := a.breaks, continues := a.continues } where
  scopes := h.scopes
  chain := h.chain
  routines := h.routines
  current := h.current
  breaks := ⟨#[], by rw [Array.append_empty]⟩
  continues := rfl
  primitives := h.primitives

end Assembly.Framed

instance : Assembly.Allows Assembly.Framed where
  refl a := .of_keeps (.withCode a a.code)
  trans := .trans
  name {a i outer} x hchain := by
    refine { Assembly.Framed.of_keeps (.withCode a a.code) with scopes := fun j names hj => ?_ }
    by_cases hji : j = i
    · subst hji
      refine ⟨#[x], ?_, fun hne => absurd (by rw [hchain]; rfl) hne⟩
      rw [Array.getElem?_setIfInBounds_self_of_lt (Array.getElem?_eq_some_iff.mp hj).1, Array.getD_eq_getD_getElem?, hj]
      simp
    · exact ⟨#[], by rw [Array.getElem?_setIfInBounds_ne (Ne.symm hji), hj, Array.append_empty], fun _ => rfl⟩
  routine a r := by
    refine { Assembly.Framed.of_keeps (.withCode a a.code) with routines := fun i s hs => ⟨s.entry, ?_⟩ }
    exact Extends.push _ r i s hs
  entry a id address := by
    refine { Assembly.Framed.of_keeps (.withCode a a.code) with routines := fun i r hr => ?_ }
    by_cases hid : id = i
    · exact ⟨some address, by simp [Array.getElem?_modify, hid, hr]⟩
    · exact ⟨r.entry, by simp [Array.getElem?_modify, hid, hr]⟩

namespace CompileM

open Acting Assembly Node List

namespace Brackets

theorem patchWords (address : Nat) (word : Int) : Confined Framed (patchWords address (some word) none) := by
  refine Confined.bind ?_ fun _ => .pure _
  refine Confined.of_get fun a r a' h => ?_
  obtain ⟨code, b, hcode, hset⟩ := bind_eq_ok.mp h
  obtain ⟨-, rfl⟩ := ofFault_eq_ok.mp hcode
  cases hset
  exact .of_keeps (.withCode ..)

theorem patchHere (address : Nat) : Confined Framed (patchHere address) :=
  Confined.nextAddress.bind fun _ => patchWords ..

theorem emit (op : Opcode) : Confined Framed (emit op) := by
  rintro a _ _ ⟨⟩
  exact .of_keeps (.withCode ..)

theorem emit1 (op : Opcode) (operand : Int) : Confined Framed (emit1 op operand) := by
  rintro a _ _ ⟨⟩
  exact .of_keeps (.withCode ..)

theorem withConst (c : Datum) (op : Opcode) :
    Confined Framed (addConst c >>= fun i => Functor.discard (CompileM.emit1 op i)) := by
  refine Confined.bind ?_ fun _ => (emit1 ..).discard
  intro a r a' h
  obtain ⟨i, consts, hadd, -⟩ := outcome_addConst (a := a) c
  rw [hadd] at h
  cases h
  exact .of_keeps ⟨rfl, rfl, rfl, rfl, rfl, rfl, rfl⟩

theorem emitFinalReturn : Confined Framed emitFinalReturn := by
  refine Confined.get.bind fun a => ?_
  dsimp only
  split
  · exact emit _
  · exact .pure _

theorem walk (all : List Node) : Walk all (fun _ => True) fun x => Confined Framed x where
  seq hx hy := hx.bind fun _ => hy
  quiet h := h _
  quietly h hf := (h _).bind hf
  emit := emit
  emit1 hf := (emit1 ..).bind fun r => hf r trivial
  emit2 op x y := by
    rintro a _ _ ⟨⟩
    exact .of_keeps (.withCode ..)
  patchHere _ := patchHere _
  literal {kind fields} _ := by
    cases kind with
    | num | str => exact withConst _ .loadConst
    | true | false | null => exact emit _
  withConst op _ := withConst _ op
  leave address := by
    rintro a _ _ ⟨⟩
    exact { Framed.of_keeps (.withCode a a.code) with breaks := ⟨#[address + 1], rfl⟩ }
  loop hbody _ := by
    refine Confined.of_get fun a r a' h => ?_
    rw [bind_ok (outcome_modify _ a)] at h
    obtain ⟨_, b, hb, h⟩ := bind_eq_ok.mp h
    obtain ⟨_, c, hc, h⟩ := bind_eq_ok.mp h
    obtain ⟨_, d, hd, h⟩ := bind_eq_ok.mp h
    cases h
    exact .left ((hbody hb).trans (((emit1 ..).discard hc).trans (patchHere _ hd)))
  function params hbody hrest := by
    refine Confined.of_get fun a r a' h => ?_
    rw [bind_ok (outcome_modify _ a)] at h
    obtain ⟨_, b, hb, h⟩ := bind_eq_ok.mp h
    obtain ⟨_, c, hc, h⟩ := bind_eq_ok.mp h
    obtain ⟨_, d, hd, h⟩ := bind_eq_ok.mp h
    rw [bind_ok (outcome_modify _ d)] at h
    have hinside := (Confined.declareAll (R := Framed) params hb).trans ((hbody hc).trans (emitFinalReturn hd))
    exact (Framed.closed hinside).trans (hrest h)
  block hbody := by
    intro a r a' h
    rw [visitBlock, bind_ok outcome_openScope] at h
    obtain ⟨_, b, hb, h⟩ := bind_eq_ok.mp h
    obtain ⟨_, c, hc, h⟩ := bind_eq_ok.mp h
    obtain ⟨_, d, hd, h⟩ := bind_eq_ok.mp h
    obtain ⟨_, e, he, h⟩ := bind_eq_ok.mp h
    obtain ⟨_, f, hf, h⟩ := bind_eq_ok.mp h
    have hend := (emit _ hd).trans ((Confined.scopeSize (R := Framed) he).trans (patchWords _ _ hf))
    have hinside : Framed (a.opened a.chain a.current) f := (emit1 _ _ hb).trans ((hbody hc).trans hend)
    have hchain : f.chain = a.scopes.size :: a.chain := hinside.chain
    have hcurrent : f.current = a.current := hinside.current
    have hclosed := hinside.closed
    rw [closeScope, bind_ok (outcome_get f), hchain] at h
    cases h
    rw [← hcurrent] at hclosed
    exact hclosed

end Brackets

/-- Code and constants are added behind those that are there, and the scopes, loops and functions that are left are those
that were found. -/
theorem visit_bracketed {n : Node} {a a' : Assembly} (h : outcome (visit n) a = (.ok (), a')) :
    Extends a.code a'.code ∧ Extends a.consts a'.consts ∧ Framed a a' := by
  obtain ⟨-, hspared⟩ : True ∧ Spared (Brings n.parts) 0 a.code.size a a' :=
    (Spares.walk id).visit n (Subset.refl _) (Nat.le_refl _) h
  refine ⟨fun i word hi => ?_, hspared.consts, (Brackets.walk _).visit n (Subset.refl _) h⟩
  rw [hspared.code i (Nat.zero_le i) (Array.getElem?_eq_some_iff.mp hi).1, hi]

/-- Inside a loop, a block defines a function with a loop of its own and then leaves the loop. -/
theorem visit_bracketed_two_loops :
    ∃ a a' : Assembly,
      (outcome (visit (.block [.define (.string (.text "f")) (.function [] (.loop (.literal .true []) .breakLoop)),
        .breakLoop])) a = (.ok (), a') ∧ Framed a a') ∧
      a.scopes = #[#[]] ∧ a'.scopes = #[#[], #[.string (.text "f")], #[]] ∧ a.breaks = #[7] ∧ a'.breaks = #[7, 19] := by
  refine ⟨{ code := #[1], breaks := #[7], continues := #[0] }, _,
    (and_iff_left_of_imp fun h => (visit_bracketed h).2.2).mpr (Prod.ext ?_ rfl), rfl, ?_, rfl, ?_⟩
  all_goals cbv

end CompileM

end Cilly
