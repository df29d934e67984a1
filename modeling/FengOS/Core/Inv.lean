import FengOS.Core.Step

/-!
# The invariant of the kernel

The place where a process goes on determines its `state` and `wait`, the queues `wait_proc` hold the processes that are
sending, and the log is a trace of the rendezvous protocol. When `strict` holds, nobody waits for a process that has exited.
-/

namespace FengOS.Core

open FengOS.Lib FengOS.Lib.Rendezvous

/-- The state for others, who do not tell `PROC_RUNNABLE` from `PROC_RUNNING`. -/
inductive Phase
  | ready
  | sending
  | receiving
  | stopped
  deriving DecidableEq

def ProcState.phase : ProcState → Phase
  | .runnable | .running => .ready
  | .sending => .sending
  | .receiving => .receiving
  | .stopped => .stopped

def Proc.phase (P : Proc) : Phase := P.state.phase

def Kernel.Linked (k : Kernel) (p q : Nat) : Prop :=
  (k.proc p).phase = .sending ∧ (k.proc p).wait = (k.proc q).pid ∧ 0 < (k.proc q).pid

/-- The process is in the hash map and has not exited, and its pages have not been freed. -/
def Kernel.Live (k : Kernel) (q : Nat) : Prop :=
  (∃ i, q ∈ k.hashMap i) ∧ (k.proc q).phase ≠ .stopped ∧ k.alive q = true

def Kernel.Awaits (k : Kernel) (p q : Nat) : Prop :=
  ((k.proc p).phase = .sending ∨ (k.proc p).phase = .receiving) ∧ (k.proc p).wait = (k.proc q).pid ∧
    0 < (k.proc q).pid

def Kont.copyChild : Kont → Option Nat
  | .send _ _ (.rpc _ (.fork child)) => some child
  | .recvFrom _ _ (.rpc (.fork child)) => some child
  | _ => none

def Kont.forkChild : Kont → Option Nat
  | .forkTail child => some child
  | kont => kont.copyChild

structure Kernel.Pending (k : Kernel) (p child : Nat) : Prop where
  phase : (k.proc child).phase = .sending
  wait : (k.proc child).wait = ipcNowait
  kont : (k.proc child).kont = .user
  parent : (k.proc child).parent = some p
  pid : 0 < (k.proc child).pid
  alive : k.alive child = true

/-- What the place where `p` goes on says about the child it is forking. -/
structure Kernel.Forking (k : Kernel) (p : Nat) (kont : Kont) : Prop where
  pending : ∀ child, kont.forkChild = some child → k.Pending p child
  unhashed : ∀ child, kont.copyChild = some child → ∀ i, child ∉ k.hashMap i

/-- What the place where `p` goes on says about its record. -/
def Kernel.KontOk (strict : Prop) (k : Kernel) (p : Nat) : Kont → Prop
  | .user => (k.proc p).phase = .ready ∨ (k.proc p).phase = .sending ∧ (k.proc p).wait = ipcNowait
  | .send dest _ caller => 0 < (k.proc dest).pid ∧ (∀ dst c, caller = .rpc dst c → dst = (k.proc dest).pid) ∧
      ((k.proc p).phase = .ready ∨
        (k.proc p).phase = .sending ∧ (k.proc p).wait = (k.proc dest).pid ∧ (strict → k.Live dest))
  | .recvAll _ caller => caller = .syscall ∧
      ((k.proc p).phase = .ready ∨
        (k.proc p).phase = .receiving ∧ (k.proc p).wait = ipcAll ∧ (k.proc p).waitProc = [] ∧
          (k.proc p).hasIntr = false)
  | .recvIntr _ caller => caller = .syscall ∧
      ((k.proc p).phase = .ready ∧ (k.proc p).hasIntr = true ∨
        (k.proc p).phase = .receiving ∧ (k.proc p).wait = ipcIntr ∧ (k.proc p).hasIntr = false)
  | .recvFrom source _ _ => 0 < (k.proc source).pid ∧
      ((k.proc p).phase = .ready ∧ k.Linked source p ∨
        (k.proc p).phase = .receiving ∧ (k.proc p).wait = (k.proc source).pid ∧ ¬ k.Linked source p ∧
          (strict → k.Live source))
  | .wait => (k.proc p).phase = .ready ∨
      (k.proc p).phase = .receiving ∧ (k.proc p).wait = ipcSignal ∧ (k.proc p).signal ≠ sigchld
  | .forkTail _ => (k.proc p).phase = .ready
  | .dead => (k.proc p).phase = .stopped

/-- What holds of the tables and queues at every point of a step. -/
structure Kernel.Base (k : Kernel) : Prop where
  idle : (k.proc 0).pid = 0 ∧ (k.proc 0).kont = .user ∧ (k.proc 0).phase = .ready ∧ k.alive 0 = true
  unused : ∀ p, k.nextProc ≤ p →
    (k.proc p).pid = 0 ∧ (k.proc p).kont = .dead ∧ (k.proc p).phase = .stopped ∧ (k.proc p).hasIntr = false
  alive_lt : ∀ p, k.alive p = true → p < k.nextProc
  pid_pos : ∀ p, p ≠ 0 → p < k.nextProc → 0 < (k.proc p).pid
  pid_le : ∀ p, (k.proc p).pid ≤ k.globalPid
  global : 0 ≤ k.globalPid ∧ k.globalPid < ipcSignal
  pid_inj : ∀ p q, (k.proc p).pid = (k.proc q).pid → 0 < (k.proc p).pid → p = q
  hash : ∀ i, ∀ p ∈ k.hashMap i, 0 < (k.proc p).pid ∧ (i : Int) = (k.proc p).pid % procHashMapSize
  hash_alive : ∀ i, ∀ p ∈ k.hashMap i, k.alive p = true
  hash_nodup : ∀ i, (k.hashMap i).Nodup
  linked : ∀ p q, k.Linked p q → (k.proc q).waitProc.count p = 1
  unlinked : ∀ p q, ¬ k.Linked p q → p ∉ (k.proc q).waitProc
  alarm : ∀ p, (k.proc p).alarm = 0
  freed : ∀ p, k.alive p = false →
    (k.proc p).phase = .stopped ∨ (k.proc p).phase = .sending ∧ (k.proc p).wait = ipcNowait
  fork : ∀ p, k.Forking p (k.proc p).kont

/-! ## The protocol -/

def Proc.status (P : Proc) : Status Nat Message :=
  match P.kont with
  | .send dest _ caller =>
    if P.phase = .sending then .sending dest P.msg (caller ≠ .syscall) else .copied dest (caller ≠ .syscall)
  | .recvFrom source _ (.rpc _) => .awaiting source
  | _ => .ready

def Kernel.protocol (k : Kernel) : State Nat Message :=
  ⟨fun p => (k.proc p).status, fun p => (k.proc p).hasIntr⟩

/-! ## The invariants -/

structure Kernel.Inv (s₀ : State Nat Message) (strict : Prop) (k : Kernel) : Prop where
  base : k.Base
  kont : ∀ p, k.KontOk strict p (k.proc p).kont
  ready : k.cur.phase = .ready
  trace : Trace s₀ k.log k.protocol

/-- Inside a step: the running process is in the kernel, with the given status in the protocol. -/
structure Kernel.Busy (s₀ : State Nat Message) (strict : Prop) (k : Kernel) (a : Status Nat Message) : Prop where
  base : k.Base
  kont : ∀ p, p ≠ k.current → k.KontOk strict p (k.proc p).kont
  ready : k.cur.phase = .ready
  user : k.current ≠ 0
  trace : Trace s₀ k.log (k.protocol.set k.current a)

/-! ## Careful steps -/

def Kernel.lookup (k : Kernel) (pid : Int) : Option Nat := (mapProc k pid).toOption.join

/-- The pid belongs to a process that has not exited. -/
def Kernel.LiveTarget (k : Kernel) (pid : Int) : Prop :=
  ∃ q ∈ k.lookup pid, (k.proc q).phase ≠ .stopped ∧ k.alive q = true

def Kernel.LivePid (k : Kernel) (pid : Int) : Prop := ∃ q, (k.proc q).pid = pid ∧ k.Live q

def Kernel.Answers (k : Kernel) (pid : Int) : Prop := ∃ q ∈ k.lookup pid, k.Linked q k.current

/-- Nobody waits for the running process, except perhaps the process with the given pid. -/
def Kernel.Unawaited (k : Kernel) (pid : Int) : Prop :=
  ∀ p < k.nextProc, p ≠ k.current → (k.proc p).pid ≠ pid → ¬ k.Awaits p k.current

/-- Going on, the process addresses nobody that has exited, and nobody waits for it if it exits. -/
def Kernel.CarefulKont (k : Kernel) : Kont → Prop
  | .send _ _ (.rpc dst (.exit _)) => k.LiveTarget dst ∧ (k.Answers dst → k.Unawaited dst)
  | .send _ _ (.rpc dst .syscall) => k.LiveTarget dst
  | .send _ _ (.rpc dst (.fork _)) => k.LiveTarget dst
  | .recvFrom source _ (.rpc (.exit _)) => k.Unawaited (k.proc source).pid
  | _ => True

def Kernel.Careful (k : Kernel) : Action → Prop
  | .call (.send dst _) => k.LiveTarget dst
  | .call (.recv src _) => src = ipcAll ∨ src = ipcIntr ∨ k.LiveTarget src
  | .call (.sendrecv dst _) => k.LiveTarget dst
  | .call (.exit _ _) => k.LiveTarget ipcVfs
  | .call (.fork env) => env.pages = true → env.pgd = true → k.LiveTarget ipcVfs
  | .resume => k.CarefulKont k.cur.kont
  | _ => True

/-- There is a pid for the child if the step is a fork. -/
def Kernel.PidLeft (k : Kernel) : Action → Prop
  | .call (.fork _) => k.globalPid + 1 < ipcSignal
  | _ => True

end FengOS.Core
