import FengOS.Libc.Malloc

/-!
# `malloc` when `sbrk` fails (`libc/malloc.c` and `sbrk` in `libc/syscall.c`)

`accepts` says for which addresses `brk` returns 0. The pointer that `sbrk` computes goes round at `2 ^ 64`, so that a large
size moves the break down.
-/

namespace FengOS.Libc.Brk

open FengOS.Lib

/-! ## The functions -/

/-- `sbrk`: the returned pointer and `_brk`. -/
def sbrk (accepts : Nat → Bool) (brk size : Nat) : Nat × Nat :=
  if (brk + size) % 2 ^ 64 = brk then (brk, brk)
  else if accepts ((brk + size) % 2 ^ 64) then (brk, (brk + size) % 2 ^ 64)
  else (0, brk)

def nodesSize : Nat := nodeIncSize * sizeofNode

/-- `sbrk` for data. A region is recorded if the break has moved. -/
def sbrkData (accepts : Nat → Bool) (h : Heap) (size : Nat) : Nat × Heap :=
  let (ptr, brk) := sbrk accepts h.brk size
  (ptr, if brk = h.brk then h else { h with brk := brk, regions := h.regions ++ [(ptr, size)] })

def takeNode (h : Heap) : Option Nat × Heap := (Libc.takeNode h).elim (none, h) fun r => (some r.1, r.2)

def allocNode (accepts : Nat → Bool) (h : Heap) : Option Nat × Heap :=
  if h.mFreeNode = [] then
    let (newnodes, brk) := sbrk accepts h.brk nodesSize
    if newnodes = 0 then (none, { h with brk := brk })
    else takeNode { h with mFreeNode := nodesAt newnodes, brk := brk, nodeRegions := h.nodeRegions ++ [newnodes] }
  else takeNode h

/-- A missing node is used, or `malloc` returns `NULL`, or it returns the pointer of a block. -/
inductive Outcome
  | fault
  | failed (h : Heap)
  | got (ptr : Nat) (h : Heap)
  deriving DecidableEq, Repr

def finish (accepts : Nat → Bool) (h : Heap) (node : MNode) (size : Nat) : Outcome :=
  if node.size > size then
    match allocNode accepts h with
    | (none, h) => .failed h
    | (some addr, h) =>
      let h := mergeFree h ⟨addr, (node.ptr + size) % 2 ^ 64, node.size - size⟩
      .got node.ptr { h with mBusy := h.mBusy ++ [{ node with size := size }] }
  else .got node.ptr { h with mBusy := h.mBusy ++ [node] }

def newSize (size : Nat) : Nat := if size > eachBrk then size else eachBrk

def extend (accepts : Nat → Bool) (h : Heap) (size : Nat) : Outcome :=
  match allocNode accepts h with
  | (none, _) => .fault
  | (some addr, h) =>
    let (ptr, h) := sbrkData accepts h (newSize size)
    if ptr = 0 then .failed h else finish accepts h ⟨addr, ptr, newSize size⟩ size

def malloc (accepts : Nat → Bool) (h : Heap) (size : Nat) : Outcome :=
  match h.mFree.find? fun pos => pos.size ≥ roundSize size with
  | some node => finish accepts { h with mFree := h.mFree.erase node } node (roundSize size)
  | none => extend accepts h (roundSize size)

/-! ## Runs -/

inductive Op
  | malloc (accepts : Nat → Bool) (size : Nat)
  | free (ptr : Nat)

def step (h : Heap) : Op → Option Heap
  | .malloc accepts size =>
    match malloc accepts h size with
    | .fault => none
    | .failed h => some h
    | .got _ h => some h
  | .free ptr => some (free h ptr)

/-- A size that is not 0, also after rounding, and for which the break does not go round at `2 ^ 64`. -/
def SizeOk (h : Heap) (size : Nat) : Prop :=
  0 < size ∧ size + 7 < 2 ^ 64 ∧ h.brk + 2 * nodesSize + newSize (roundSize size) < 2 ^ 64

def Op.ok (h : Heap) : Op → Prop
  | .malloc _ size => SizeOk h size
  | .free _ => True

instance (h : Heap) (size : Nat) : Decidable (SizeOk h size) := inferInstanceAs (Decidable (_ ∧ _ ∧ _))

instance (h : Heap) : DecidablePred (Op.ok h)
  | .malloc _ _ => inferInstanceAs (Decidable (SizeOk _ _))
  | .free _ => instDecidableTrue

abbrev Reach : Heap → Prop := Run step Op.ok fun h => mallocInit = some h

/-! ## What is expected -/

/-- The block of `malloc` is large enough, its pointer is not live, and `free` of it releases this block. -/
structure Granted (h : Heap) (size ptr : Nat) (h' : Heap) : Prop where
  block : ∃ n : MNode, h'.mBusy = h.mBusy ++ [n] ∧ n.ptr = ptr ∧ size ≤ n.size
  fresh : ptr ∉ h.mBusy.map MNode.ptr
  released : (free h' ptr).mBusy = h.mBusy

/-- A call that succeeds, or returns `NULL` with the blocks and regions of `h`. -/
def Outcome.Clean (h : Heap) : Outcome → Prop
  | .fault => False
  | .failed h' => h'.mFree = h.mFree ∧ h'.mBusy = h.mBusy ∧ h'.regions = h.regions
  | .got _ _ => True

/-- `sbrk` for nodes does not fail at a break. -/
def NodesAt (accepts : Nat → Bool) (brk : Nat) : Prop := (sbrk accepts brk nodesSize).1 ≠ 0

def dataBrk (accepts : Nat → Bool) (h : Heap) : Nat := if h.mFreeNode = [] then (sbrk accepts h.brk nodesSize).2 else h.brk

/-- `sbrk` does not fail where a node is needed, and the break is not 0 where a block is. -/
def NodesMet (accepts : Nat → Bool) (h : Heap) (size : Nat) : Prop :=
  match h.mFree.find? fun pos => pos.size ≥ roundSize size with
  | some node => roundSize size < node.size → h.mFreeNode = [] → NodesAt accepts h.brk
  | none =>
    (h.mFreeNode = [] → NodesAt accepts h.brk) ∧
    ((sbrk accepts (dataBrk accepts h) (newSize (roundSize size))).1 = 0 →
      (sbrk accepts (dataBrk accepts h) (newSize (roundSize size))).2 = dataBrk accepts h) ∧
    ((sbrk accepts (dataBrk accepts h) (newSize (roundSize size))).1 ≠ 0 → roundSize size < eachBrk →
      h.mFreeNode.length = 1 → NodesAt accepts (sbrk accepts (dataBrk accepts h) (newSize (roundSize size))).2)

end FengOS.Libc.Brk
