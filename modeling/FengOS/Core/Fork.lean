import FengOS.Core.Sys
import FengOS.Mm.Copy

/-!
# `do_fork` with its memory (`core/fork.c`)

The pages that `do_fork` takes and gives back and the value it returns. What happens while `copy_fs` waits is left out; the
answer is given.
-/

namespace FengOS.Core

open FengOS.Mm

def kernelStackOrder : Nat := 1

/-- The process table, the memory and the allocator. -/
structure World where
  kernel : Kernel
  machine : Machine

/-- The label `faild`, with `proc->mm.pgd`, which is zero if `copy_mm` has got no page for it. -/
def faild (w : World) (child page : Nat) (pgd : Option Nat) : Int × World :=
  let machine : Machine :=
    match pgd with
    | none => w.machine
    | some pgd =>
      let s := (freeProcMm w.machine pgd).2
      { s with alloc := freePage s.alloc pgd }
  (-1, ⟨forkFailed w.kernel child, { machine with alloc := machine.alloc.free (virtual page) kernelStackOrder }⟩)

/-- `do_fork` with the memory `cur` and the answer `retval` of the file server; no result if a missing `proc_t` is used. -/
def forkProcess (fuel : Nat) (w : World) (cur : ProcMm) (retval : BitVec 64) : Option (Int × World) :=
  match w.machine.alloc.alloc kernelStackOrder with
  | (none, _) => some (0, ⟨toUser w.kernel, w.machine⟩)
  | (some page, alloc) => do
    let mem := memset w.machine.mem (virtual page) 0 (pageSize * (1 <<< kernelStackOrder))
    let (child, kernel) ← (newProc w.kernel).toOption
    match ← copyMm fuel ⟨mem, alloc⟩ cur with
    | (none, machine) => return faild ⟨kernel, machine⟩ child page none
    | (some mm, machine) =>
      if retval ≠ 0 then return faild ⟨kernel, machine⟩ child page (some mm.pgd)
      else
        let kernel ← (forkLink kernel child { (default : Message) with retval := retval }).toOption
        return ((kernel.proc child).pid, ⟨forkTail kernel child, machine⟩)

/-! ## A clean failure -/

/-- The child is there: on `proc_head`, with the pid that is returned. -/
def Forked (w : World) (ret : Int) (w' : World) : Prop :=
  w'.kernel.procHead = w.kernel.procHead ++ [w.kernel.nextProc] ∧ ret = (w'.kernel.proc w.kernel.nextProc).pid ∧ 0 < ret

/-- The failure is reported; the lists, the hash map and the allocated pages are as before. -/
structure ForkRefused (w : World) (ret : Int) (w' : World) : Prop where
  ret : ret < 0
  children : w'.kernel.cur.children = w.kernel.cur.children
  procHead : w'.kernel.procHead = w.kernel.procHead
  hashMap : w'.kernel.hashMap = w.kernel.hashMap
  pages : ∀ y, w'.machine.alloc.Allocated y ↔ w.machine.alloc.Allocated y

/-- `do_fork` returns, and either the child is there or the failure is clean. -/
def ForkClean (fuel : Nat) (w : World) (cur : ProcMm) (retval : BitVec 64) : Prop :=
  ∃ ret w', forkProcess fuel w cur retval = some (ret, w') ∧ (Forked w ret w' ∨ ForkRefused w ret w')

end FengOS.Core
