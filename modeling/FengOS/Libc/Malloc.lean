import FengOS.Lib.Run

/-!
# The heap of a user process (`libc/malloc.c`)

An `m_node` is named by its address, and the lists are lists of nodes or addresses. `sbrk` hands out one region behind the
other, below `2 ^ 64`, as long as the kernel lets it; what it was asked for is recorded.
-/

namespace FengOS.Libc

open FengOS.Lib

structure MNode where
  addr : Nat
  ptr : Nat
  size : Nat
  deriving DecidableEq, Repr

/-- `EACH_BRK`, `NODE_INC_SIZE` and `sizeof(m_node)`. -/
def eachBrk : Nat := 0x2000
def nodeIncSize : Nat := 1024
def sizeofNode : Nat := 32

/-- The three lists and `_brk`, with the regions for data and the regions for nodes. -/
structure Heap where
  mFreeNode : List Nat
  mFree : List MNode
  mBusy : List MNode
  brk : Nat
  regions : List (Nat × Nat)
  nodeRegions : List Nat
  deriving DecidableEq, Repr

/-! ## Nodes -/

/-- `sbrk` for data. There is no result if it does not succeed. -/
def sbrkData (h : Heap) (size : Nat) : Option (Nat × Heap) :=
  if h.brk + size < 2 ^ 64 then
    some (h.brk, { h with brk := h.brk + size, regions := h.regions ++ [(h.brk, size)] })
  else none

def nodesAt (base : Nat) : List Nat := (List.range nodeIncSize).map fun i => base + i * sizeofNode

def growNodes (h : Heap) : Option Heap :=
  if h.brk + nodeIncSize * sizeofNode < 2 ^ 64 then
    some { h with
      mFreeNode := h.mFreeNode ++ nodesAt h.brk
      brk := h.brk + nodeIncSize * sizeofNode
      nodeRegions := h.nodeRegions ++ [h.brk] }
  else none

def takeNode (h : Heap) : Option (Nat × Heap) :=
  match h.mFreeNode with
  | [] => none
  | a :: as => some (a, { h with mFreeNode := as })

def allocNode (h : Heap) : Option (Nat × Heap) :=
  if h.mFreeNode = [] then (growNodes h).bind takeNode else takeNode h

/-! ## Blocks -/

def MNode.stop (n : MNode) : Nat := (n.ptr + n.size) % 2 ^ 64

/-- The loop of `merge_free`, with what it leaves in `m_free` and puts on `m_free_node`. -/
def mergeLoop : List MNode → MNode → List Nat → List MNode × List Nat
  | [], node, nodes => ([node], nodes)
  | entry :: rest, node, nodes =>
    if entry.stop = node.ptr then
      mergeLoop rest { node with ptr := entry.ptr, size := (node.size + entry.size) % 2 ^ 64 } (entry.addr :: nodes)
    else if node.stop = entry.ptr then
      mergeLoop rest { node with size := (node.size + entry.size) % 2 ^ 64 } (entry.addr :: nodes)
    else if entry.ptr > node.ptr then (node :: entry :: rest, nodes)
    else
      let (l, nodes) := mergeLoop rest node nodes
      (entry :: l, nodes)

def mergeFree (h : Heap) (node : MNode) : Heap :=
  let (l, nodes) := mergeLoop h.mFree node h.mFreeNode
  { h with mFree := l, mFreeNode := nodes }

/-- `(size + 0x7) & ~0x7`. -/
def roundSize (size : Nat) : Nat := (size + 7) % 2 ^ 64 / 8 * 8

def findNode (h : Heap) (size : Nat) : Option (MNode × Heap) :=
  match h.mFree.find? fun pos => pos.size ≥ size with
  | some node => some (node, { h with mFree := h.mFree.erase node })
  | none => do
    let (addr, h) ← allocNode h
    let size := if size > eachBrk then size else eachBrk
    let (ptr, h) ← sbrkData h size
    return (⟨addr, ptr, size⟩, h)

def cutNode (h : Heap) (node : MNode) (size : Nat) : Option (MNode × Heap) :=
  if node.size > size then do
    let (addr, h) ← allocNode h
    return ({ node with size := size }, mergeFree h ⟨addr, (node.ptr + size) % 2 ^ 64, node.size - size⟩)
  else some (node, h)

def malloc (h : Heap) (size : Nat) : Option (Nat × Heap) := do
  let size := roundSize size
  let (node, h) ← findNode h size
  let (node, h) ← cutNode h node size
  return (node.ptr, { h with mBusy := h.mBusy ++ [node] })

def free (h : Heap) (ptr : Nat) : Heap :=
  if ptr = 0 then h
  else
    match h.mBusy.find? fun pos => pos.ptr = ptr with
    | none => h
    | some node => mergeFree { h with mBusy := h.mBusy.erase node } node

/-! ## Runs -/

def initHeap (h : Heap) : Option Heap := do
  let h ← growNodes h
  let (addr, h) ← allocNode h
  let (ptr, h) ← sbrkData h eachBrk
  return { h with mFree := ⟨addr, ptr, eachBrk⟩ :: h.mFree }

def mallocInit : Option Heap := initHeap ⟨[], [], [], 0x700000000000, [], []⟩

inductive HeapOp
  | malloc (size : Nat)
  | free (ptr : Nat)
  deriving DecidableEq, Repr

def Heap.step (h : Heap) : HeapOp → Option Heap
  | .malloc size => (malloc h size).map Prod.snd
  | .free ptr => some (free h ptr)

def HeapOp.ok (_ : Heap) : HeapOp → Prop
  | .malloc size => 0 < size ∧ size < 2 ^ 62
  | .free _ => True

instance (h : Heap) : DecidablePred (HeapOp.ok h)
  | .malloc size => inferInstanceAs (Decidable (0 < size ∧ size < 2 ^ 62))
  | .free _ => instDecidableTrue

abbrev Heap.Reach : Heap → Prop := Run Heap.step HeapOp.ok fun h => mallocInit = some h

/-! ## Well-formed heaps -/

def MNode.Has (n : MNode) (x : Nat) : Prop := n.ptr ≤ x ∧ x < n.ptr + n.size

def MNode.Disjoint (m n : MNode) : Prop := ∀ x, ¬ (m.Has x ∧ n.Has x)

/-- `m_free` ascends without neighbours, the blocks of both lists partition the regions, and each node is on one list. -/
structure Heap.Ok (h : Heap) : Prop where
  sorted : h.mFree.Pairwise fun m n => m.ptr < n.ptr
  apart : ∀ m ∈ h.mFree, ∀ n ∈ h.mFree, m ≠ n → m.ptr + m.size ≠ n.ptr
  disjoint : (h.mFree ++ h.mBusy).Pairwise MNode.Disjoint
  cover : ∀ x, (∃ r ∈ h.regions, r.1 ≤ x ∧ x < r.1 + r.2) ↔ ∃ n ∈ h.mFree ++ h.mBusy, n.Has x
  nodes : (h.mFree.map MNode.addr ++ h.mBusy.map MNode.addr ++ h.mFreeNode).Perm (h.nodeRegions.flatMap nodesAt)
  once : (h.nodeRegions.flatMap nodesAt).Nodup

end FengOS.Libc
