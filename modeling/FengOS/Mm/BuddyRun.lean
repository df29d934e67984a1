import FengOS.Lib.Run
import FengOS.Mm.Buddy

/-!
# Runs of the buddy allocator

A run starts with `buddy_system_init`. The blocks handed out and not yet given back are recorded with their orders, which the
allocator does not keep.
-/

namespace FengOS.Mm

open FengOS.Lib

structure BuddySys where
  buddy : Buddy
  live : List (Nat × Nat)

inductive BuddyOp
  | alloc (order : Nat)
  | free (addr order : Nat)
  deriving DecidableEq, Repr

def BuddySys.alloc (s : BuddySys) (order : Nat) : Option Nat × BuddySys :=
  match allocPages s.buddy order with
  | (none, b) => (none, ⟨b, s.live⟩)
  | (some page, b) => (some page, ⟨b, (page, order) :: s.live⟩)

def BuddySys.free (s : BuddySys) (addr order : Nat) : BuddySys :=
  ⟨freePages s.buddy addr order, s.live.filter fun l => virtual l.1 ≠ pageLowerAlign addr⟩

def BuddySys.step (s : BuddySys) : BuddyOp → Option BuddySys
  | .alloc order => some (s.alloc order).2
  | .free addr order => some (s.free addr order)

/-- Allocations ask for an order below `MAX_ORDER`; what is freed is a live block, with its order. -/
def BuddySys.ok (s : BuddySys) : BuddyOp → Prop
  | .alloc order => order < maxOrder
  | .free addr order => ∃ page, (page, order) ∈ s.live ∧ pageLowerAlign addr = virtual page

def BuddySys.init (memMap : Nat → Page) (nr : Nat) : BuddySys := ⟨buddySystemInit memMap nr, []⟩

abbrev BuddySys.Reach (memMap : Nat → Page) (nr : Nat) : BuddySys → Prop :=
  Run BuddySys.step BuddySys.ok (· = BuddySys.init memMap nr)

/-- A memory map in which page 0 is reserved and all others are free. -/
def firstReserved : Nat → Page := fun i => ⟨i == 0, false, none⟩

def InBlock (k p y : Nat) : Prop := p ≤ y ∧ y < p + 2 ^ k

def BuddySys.FreePage (alloc : BuddySys) (y : Nat) : Prop := ∃ k < maxOrder, ∃ p ∈ alloc.buddy.block k, InBlock k p y

def BuddySys.Allocated (s : BuddySys) (y : Nat) : Prop := ∃ l ∈ s.live, InBlock l.2 l.1 y

end FengOS.Mm
