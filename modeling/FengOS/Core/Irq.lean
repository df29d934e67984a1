import FengOS.Core.Kin
import FengOS.Core.Queue

/-!
# The interrupt table (`boot/irq.c`)

`hw_proc` has `NR_HW_IRQ` entries, but the vector is tested against what the I/O APIC reports; an entry stays when its
process exits.
-/

namespace FengOS.Core

open FengOS.Lib

def nrHwIrq : Nat := 0x10

def Kernel.irqIndices (k : Kernel) : Action → List Nat
  | .call (.registerIrq vector) | .call (.unregisterIrq vector) => if validIrq k vector then [vector - 0x20] else []
  | .hwint ind => [ind]
  | _ => []

/-- `do_IRQ` hands the vectors from 0x21 to 0x2f to `do_hwint`. -/
def Action.Vectored : Action → Prop
  | .hwint ind => 0 < ind ∧ ind ≤ 0xf
  | _ => True

/-- Every entry names a process that has not exited, and `do_hwint` finds it. -/
structure Kernel.IrqTable (k : Kernel) : Prop where
  live : ∀ i < nrHwIrq, k.hwProc i ≠ 0 → k.LivePid (k.hwProc i)
  sends : ∀ i < nrHwIrq, ∃ k', hwint k i = .ok k'

/-- The vector is inside the table if it passes the test, and a process that exits is not in the table. -/
def Kernel.IrqSafe (k : Kernel) : Action → Prop
  | .call (.registerIrq vector) | .call (.unregisterIrq vector) => validIrq k vector → vector < 0x20 + nrHwIrq
  | .call (.exit _ _) => ∀ i < nrHwIrq, k.hwProc i ≠ k.cur.pid
  | _ => True

/-- `proc_init` with boot modules whose pids differ and are below those of forked processes. -/
def Kernel.FromBoot (k : Kernel) : Prop :=
  ∃ maxIntr pids, pids.Nodup ∧ (∀ pid ∈ pids, 0 < pid ∧ pid ≤ 128) ∧ procInit maxIntr pids = .ok k

abbrev Kernel.ReachIrq : Kernel → Prop :=
  Run Kernel.step (fun k a => k.PidLeft a ∧ a.Vectored ∧ k.IrqSafe a) Kernel.FromBoot

instance Action.decidableVectored : ∀ a : Action, Decidable a.Vectored
  | .hwint ind => inferInstanceAs (Decidable (0 < ind ∧ ind ≤ 0xf))
  | .call _ | .timer | .signal _ _ | .resume => .isTrue trivial

instance Kernel.decidableIrqSafe (k : Kernel) : ∀ a, Decidable (k.IrqSafe a)
  | .call (.registerIrq vector) | .call (.unregisterIrq vector) =>
    inferInstanceAs (Decidable (validIrq k vector → vector < 0x20 + nrHwIrq))
  | .call (.exit _ _) => inferInstanceAs (Decidable (∀ i < nrHwIrq, k.hwProc i ≠ k.cur.pid))
  | .call (.send _ _) | .call (.recv _ _) | .call (.sendrecv _ _) | .call .wait | .call (.fork _) | .call .other
  | .timer | .hwint _ | .signal _ _ | .resume => .isTrue trivial

def RpcCaller.exits : RpcCaller → Bool
  | .exit _ => true
  | _ => false

/-- The invariant: the owner of an entry is on `proc_head`, and it is not in `do_exit`. -/
structure Kernel.Routed (k : Kernel) : Prop where
  owner : ∀ i < nrHwIrq, k.hwProc i ≠ 0 →
    ∃ q ∈ k.procHead, (k.proc q).pid = k.hwProc i ∧ (k.proc q).state ≠ .stopped
  exiting : ∀ q, (k.proc q).kont.doing.exits = true → ∀ i < nrHwIrq, k.hwProc i ≠ 0 → k.hwProc i ≠ (k.proc q).pid

/-- Who has not exited stays on `proc_head`, unless the running process exits. -/
structure Kernel.Keeps (k : Kernel) (caller : RpcCaller) (k' : Kernel) : Prop where
  hwProc : k'.hwProc = k.hwProc
  stays : ∀ q ∈ k.procHead, (k.proc q).state ≠ .stopped → (q = k.current → caller.exits = false) →
    q ∈ k'.procHead ∧ (k'.proc q).state ≠ .stopped
  pid : ∀ q < k.nextProc, (k'.proc q).pid = (k.proc q).pid
  exiting : ∀ q, (k'.proc q).kont.doing.exits = true →
    q ≠ k.current ∧ (k.proc q).kont.doing.exits = true ∨ q = k.current ∧ caller.exits = true

end FengOS.Core
