import Cilly.Fault

/-!
# Counted stacks

A stack that counts its pushes and pops and remembers its greatest depth. A pop counts even if there is
nothing to pop.
-/

namespace Cilly

structure CountedStack (α : Type) where
  /-- The top comes first. -/
  items : List α := []
  pushes : Nat := 0
  pops : Nat := 0
  maxDepth : Nat := 0
  deriving Inhabited, Repr

namespace CountedStack

variable {α : Type}

def depth (s : CountedStack α) : Nat := s.items.length

def isEmpty (s : CountedStack α) : Bool := s.items.isEmpty

def push (s : CountedStack α) (a : α) : CountedStack α :=
  { items := a :: s.items, pushes := s.pushes + 1, pops := s.pops, maxDepth := max s.maxDepth (s.depth + 1) }

/-- The value on top, if there is one, and the stack after the attempt. -/
def pop (s : CountedStack α) : Option α × CountedStack α :=
  match s.items with
  | [] => (none, { s with pops := s.pops + 1 })
  | a :: rest => (some a, { s with items := rest, pops := s.pops + 1 })

def top? (s : CountedStack α) : Option α := s.items.head?

@[simp] theorem items_push (s : CountedStack α) (a : α) : (s.push a).items = a :: s.items := rfl

@[simp] theorem depth_push (s : CountedStack α) (a : α) : (s.push a).depth = s.depth + 1 := rfl

@[simp] theorem pop_push (s : CountedStack α) (a : α) : (s.push a).pop.1 = some a := rfl

@[simp] theorem items_pop_push (s : CountedStack α) (a : α) : (s.push a).pop.2.items = s.items := rfl

@[simp] theorem pops_pop (s : CountedStack α) : s.pop.2.pops = s.pops + 1 := by
  unfold pop
  split <;> rfl

theorem pop_eq_none_iff (s : CountedStack α) : s.pop.1 = none ↔ s.items = [] := by
  unfold pop
  split <;> simp_all

end CountedStack

end Cilly
