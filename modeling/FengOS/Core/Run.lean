import FengOS.Core.Inv

/-!
# Runs of the kernel

The kernel is started by `proc_init` with the processes of the boot modules.
-/

namespace FengOS.Core

open FengOS.Lib

/-! ## `proc_init` -/

/-- `INIT_PROC`: the idle process. -/
def Proc.init : Proc := { Proc.unused with state := .running, idle := true, kont := .user }

/-- `module_proc`: the process of a boot module, with the pid that `proc_init` gives it. -/
def moduleProc (pid : Int) : Proc :=
  { Proc.unused with state := .runnable, pid := pid, parent := some 0, kont := .user }

def addModule (k : Kernel) (pid : Int) : Except Fault Kernel :=
  let p := k.nextProc
  let k := { k with alive := Function.update k.alive p true, nextProc := p + 1 }.set p (moduleProc pid)
  hashProc { k with procHead := k.procHead ++ [p] } p

/-- The kernel before the loop of `proc_init`; `global_pid` is initialised to 128. -/
def Kernel.empty (maxIntr : Nat) : Kernel :=
  { proc := Function.update (fun _ => Proc.unused) 0 Proc.init, alive := fun p => p = 0, procHead := [],
    hashMap := fun _ => [], current := 0, globalPid := 128, nextProc := 1, maxIntr := maxIntr, hwProc := fun _ => 0,
    log := [] }

/-- `proc_init` with the pids of the boot modules. -/
def procInit (maxIntr : Nat) (pids : List Int) : Except Fault Kernel := pids.foldlM addModule (Kernel.empty maxIntr)

/-! ## Runs -/

/-- The tables are in order, every process is in user mode or about to return to it, and nothing has happened. -/
structure Kernel.Quiet (k : Kernel) : Prop where
  base : k.Base
  user : ∀ p, p < k.nextProc → (k.proc p).kont = .user ∧ (k.proc p).phase = .ready
  current : k.current < k.nextProc
  log : k.log = []

abbrev Kernel.Reach : Kernel → Prop := Run Kernel.step Kernel.PidLeft Kernel.Quiet

abbrev Kernel.ReachCareful : Kernel → Prop :=
  Run Kernel.step (fun k a => k.PidLeft a ∧ k.Careful a) Kernel.Quiet

instance Kernel.decidablePidLeft (k : Kernel) : ∀ a, Decidable (k.PidLeft a)
  | .call (.fork _) => inferInstanceAs (Decidable (k.globalPid + 1 < ipcSignal))
  | .call (.send _ _) | .call (.recv _ _) | .call (.sendrecv _ _) | .call (.registerIrq _) | .call (.unregisterIrq _)
  | .call (.exit _ _) | .call .wait | .call .other | .timer | .hwint _ | .signal _ _ | .resume => .isTrue trivial

instance (k : Kernel) (p q : Nat) : Decidable (k.Linked p q) := inferInstanceAs (Decidable (_ ∧ _ ∧ _))

instance (k : Kernel) (p q : Nat) : Decidable (k.Awaits p q) := inferInstanceAs (Decidable ((_ ∨ _) ∧ _ ∧ _))

instance (k : Kernel) (pid : Int) : Decidable (k.LiveTarget pid) :=
  inferInstanceAs (Decidable (∃ q ∈ k.lookup pid, _ ∧ _))

instance (k : Kernel) (pid : Int) : Decidable (k.Answers pid) :=
  inferInstanceAs (Decidable (∃ q ∈ k.lookup pid, k.Linked q k.current))

instance (k : Kernel) (pid : Int) : Decidable (k.Unawaited pid) :=
  inferInstanceAs (Decidable (∀ p < k.nextProc, _ → _ → _))

instance Kernel.decidableCarefulKont (k : Kernel) : ∀ kont, Decidable (k.CarefulKont kont)
  | .send _ _ (.rpc dst (.exit _)) => inferInstanceAs (Decidable (k.LiveTarget dst ∧ (k.Answers dst → k.Unawaited dst)))
  | .send _ _ (.rpc dst .syscall) | .send _ _ (.rpc dst (.fork _)) => inferInstanceAs (Decidable (k.LiveTarget dst))
  | .recvFrom source _ (.rpc (.exit _)) => inferInstanceAs (Decidable (k.Unawaited (k.proc source).pid))
  | .user | .send _ _ .syscall | .recvAll _ _ | .recvIntr _ _ | .recvFrom _ _ .syscall
  | .recvFrom _ _ (.rpc .syscall) | .recvFrom _ _ (.rpc (.fork _)) | .wait | .forkTail _ | .dead => .isTrue trivial

instance Kernel.decidableCareful (k : Kernel) : ∀ a, Decidable (k.Careful a)
  | .call (.send dst _) => inferInstanceAs (Decidable (k.LiveTarget dst))
  | .call (.recv src _) => inferInstanceAs (Decidable (src = ipcAll ∨ src = ipcIntr ∨ k.LiveTarget src))
  | .call (.sendrecv dst _) => inferInstanceAs (Decidable (k.LiveTarget dst))
  | .call (.exit _ _) => inferInstanceAs (Decidable (k.LiveTarget ipcVfs))
  | .call (.fork env) => inferInstanceAs (Decidable (env.pages = true → env.pgd = true → k.LiveTarget ipcVfs))
  | .resume => inferInstanceAs (Decidable (k.CarefulKont k.cur.kont))
  | .call (.registerIrq _) | .call (.unregisterIrq _) | .call .wait | .call .other | .timer | .hwint _
  | .signal _ _ => .isTrue trivial

end FengOS.Core
