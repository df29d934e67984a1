import FengOS.Mm.Page
import Mathlib.Algebra.Ring.Nat

/-!
# The address space of a child (`copy_mm` in `core/fork.c`)

The parent is the running process, so the processor reads user addresses through its top table.
-/

namespace FengOS.Mm

open FengOS.Lib

def pageUpperAlign (addr : Nat) : Nat := (addr / pageSize + if addr % pageSize > 0 then 1 else 0) * pageSize % 2 ^ 64

structure Seg where
  vstart : Nat
  vend : Nat
  deriving DecidableEq, Repr

/-- `proc->mm`: `psegs` are the first `nr_seg` elements of the array. -/
structure ProcMm where
  flags : Nat
  pgd : Nat
  psegs : List Seg
  startBrk : Nat
  brk : Nat
  startStack : Nat
  endStack : Nat
  deriving DecidableEq, Repr

def memcpy (mem : Mem) (dst src : Nat) : Nat → Mem
  | 0 => mem
  | n + 1 => memcpy (Function.update mem dst (mem src)) (dst + 1) (src + 1) n

/-- `memcpy` from a user address. There is no result if a byte of the source is not mapped. -/
def memcpyUser (pgd : Nat) (mem : Mem) (dst src : Nat) : Nat → Option Mem
  | 0 => some mem
  | n + 1 => do
    let addr ← translate mem pgd src
    memcpyUser pgd (Function.update mem dst (mem addr)) (dst + 1) (src + 1) n

/-- The loop that copies the pages until `start` equals `last`; the first argument bounds the rounds. -/
def copyRange (cur pgd : Nat) : Nat → Machine → Nat → Nat → Option Machine
  | 0, _, _, _ => none
  | fuel + 1, s, start, last =>
    if start = last then some s
    else do
      let (kstart, s) ← mapPage s pgd start
      let mem ← memcpyUser cur s.mem kstart start pageSize
      copyRange cur pgd fuel { s with mem := mem } ((start + pageSize) % 2 ^ 64) last

def ProcMm.ranges (mm : ProcMm) : List (Nat × Nat) :=
  mm.psegs.map (fun seg => (pageLowerAlign seg.vstart, pageUpperAlign seg.vend)) ++
    [(mm.startStack, mm.endStack), (mm.startBrk, mm.brk)]

/-- `copy_mm`: the `mm` of the child, or nothing (-1) without a page for the top table. -/
def copyMm (fuel : Nat) (s : Machine) (cur : ProcMm) : Option (Option ProcMm × Machine) :=
  match getZeroedPage s with
  | none => some (none, s)
  | some (pgd, s) => do
    let mem := memset (memcpy s.mem pgd cur.pgd pageSize) pgd 0 (pageSize / 2)
    let s ← cur.ranges.foldlM (fun s range => copyRange cur.pgd pgd fuel s range.1 range.2) { s with mem := mem }
    return (some { cur with pgd := pgd }, s)

/-! ## The parent -/

/-- The tables on the way along the indices and what the last points to, as far as entries are present. -/
def walkAlong (mem : Mem) : Nat → List Nat → List Nat
  | table, [] => [table]
  | table, i :: is => table :: (follow mem table i).elim [] fun next => walkAlong mem next is

/-- The tables and the page that the processor uses for a user address. -/
def walk (mem : Mem) (pgd addr : Nat) : List Nat := walkAlong mem pgd (indices addr)

instance (k p y : Nat) : Decidable (InBlock k p y) := inferInstanceAs (Decidable (_ ∧ _))

instance (alloc : BuddySys) (y : Nat) : Decidable (alloc.FreePage y) :=
  inferInstanceAs (Decidable (∃ k < maxOrder, ∃ p ∈ alloc.buddy.block k, InBlock k p y))

def BuddySys.freeCount (alloc : BuddySys) (nr : Nat) : Nat := ((List.range nr).filter fun y => alloc.FreePage y).length

/-- The tables and pages that a process can use are frames, and none of them is free. -/
def Backed (s : Machine) (pgd : Nat) : Prop :=
  ∀ addr < 2 ^ 47, ∀ a ∈ walk s.mem pgd addr, ∃ f, a = virtual f ∧ ¬ s.alloc.FreePage f

/-- The range is page aligned, ordered and within the lower half, and all of it is mapped. -/
structure MappedRange (mem : Mem) (pgd : Nat) (range : Nat × Nat) : Prop where
  start : range.1 % pageSize = 0
  last : range.2 % pageSize = 0
  le : range.1 ≤ range.2
  bound : range.2 ≤ 2 ^ 47
  mapped : ∀ a, range.1 ≤ a → a < range.2 → ∃ x, translate mem pgd a = some x

def pageCount (ranges : List (Nat × Nat)) : Nat := (ranges.map fun range => (range.2 - range.1) / pageSize).sum

end FengOS.Mm
