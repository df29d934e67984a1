import FengOS.Core.Run
import FengOS.Lib.RoundRobin

/-!
# The run queue

What a step does to `proc_head`, `current` and the states. Up to its `schedule` or its return a step is calm: it blocks or
wakes processes, but neither moves them nor marks one as running. Only forks, `do_exit` and `do_wait` do more.
-/

namespace FengOS.Core

open FengOS.Lib

/-! ## What the scheduler is for -/

def RpcCaller.child : RpcCaller → Option Nat
  | .fork child => some child
  | _ => none

def SendCaller.doing : SendCaller → RpcCaller
  | .syscall => .syscall
  | .rpc _ caller => caller

def RecvCaller.doing : RecvCaller → RpcCaller
  | .syscall => .syscall
  | .rpc caller => caller

def Kont.doing : Kont → RpcCaller
  | .send _ _ caller => caller.doing
  | .recvAll _ caller | .recvIntr _ caller | .recvFrom _ _ caller => caller.doing
  | _ => .syscall

def Kernel.copying (k : Kernel) (p : Nat) : Option Nat := (k.proc p).kont.doing.child

/-- The process is one of `proc_init`, or the `do_fork` that made it has come to its end. -/
def Kernel.Created (k : Kernel) (p : Nat) : Prop :=
  p ≠ 0 ∧ k.alive p = true ∧ ∀ q, (k.proc q).kont ≠ .forkTail p ∧ k.copying q ≠ some p

/-- One process runs at a time, and it is the current one. -/
structure Kernel.Disciplined (k : Kernel) : Prop where
  listed : ∀ p, k.Created p → k.procHead.count p = 1
  single : k.procHead.countP (fun p => (k.proc p).state = .running) ≤ 1
  current : ∀ p ∈ k.procHead, (k.proc p).state = .running → p = k.current
  idle : k.current = 0 → ∀ p ∈ k.procHead, (k.proc p).state ≠ .running

/-- What `schedule` chooses when it is called in the state `k`. -/
structure Kernel.ChoosesReady (k : Kernel) : Prop where
  switch : (schedule k).current ≠ k.current →
    (schedule k).current = 0 ∨ (k.proc (schedule k).current).state = .runnable
  idle : (schedule k).current = 0 →
    ∀ p ∈ k.procHead, (k.proc p).state ≠ .runnable ∧ (p = k.current → (k.proc p).state ≠ .running)

/-- `k₀` may be the state in which the step from `k` calls `schedule`. -/
structure Kernel.AtCall (k k₀ : Kernel) : Prop where
  current : k₀.current = k.current
  procHead : k₀.procHead = k.procHead
  idle : ∀ p, (k₀.proc p).idle = (k.proc p).idle

def Kernel.Awaiting (k : Kernel) (p : Nat) : Prop :=
  p ∈ k.procHead ∧ (k.proc p).state = .runnable ∧ k.current ≠ p

/-- Steps from `k` in which `p` waits all the time, with the processes that the CPU is given to on the way. -/
inductive Kernel.Stretch (p : Nat) (k : Kernel) : List Nat → Kernel → Prop
  | start : k.Awaiting p → Stretch p k [] k
  | stay {selected : List Nat} {k₁ k₂ : Kernel} {a : Action} : Stretch p k selected k₁ → k₁.step a = some k₂ →
      k₂.current = k₁.current → k₂.Awaiting p → Stretch p k selected k₂
  | select {selected : List Nat} {k₁ k₂ : Kernel} {a : Action} : Stretch p k selected k₁ → k₁.step a = some k₂ →
      k₂.current ≠ k₁.current → k₂.Awaiting p → Stretch p k (selected ++ [k₂.current]) k₂

/-! ## Calm steps -/

structure Proc.Calm (P P' : Proc) : Prop where
  pid : P'.pid = P.pid
  idle : P'.idle = P.idle
  alarm : P'.alarm = P.alarm
  running : P'.state = .running → P.state = .running
  stopped : P'.state = .stopped → P.state = .stopped

/-- The kernel has worked on messages only, since the state `k`. -/
structure Kernel.Calm (k k' : Kernel) : Prop where
  current : k'.current = k.current
  procHead : k'.procHead = k.procHead
  nextProc : k'.nextProc = k.nextProc
  alive : k'.alive = k.alive
  irq : k'.hwProc = k.hwProc ∧ k'.maxIntr = k.maxIntr
  proc : ∀ p, (k.proc p).Calm (k'.proc p)
  kont : ∀ p, p ≠ k.current → (k'.proc p).kont = (k.proc p).kont
  runnable : ∀ p, p ≠ k.current → (k.proc p).state = .runnable → (k'.proc p).state = .runnable

def Flow.Calm (k : Kernel) (caller : RpcCaller) : Flow → Prop
  | .switched k' => ∃ k₀, k.Calm k₀ ∧ k₀.cur.kont.doing = caller ∧ k' = schedule k₀
  | .returned k' _ => k.Calm k'

/-- How a step ends that goes on from `k`, where the running process does what `caller` says. -/
inductive Kernel.Outcome (k : Kernel) (caller : RpcCaller) : Kernel → Prop
  | calm {k' : Kernel} : k.Calm k' → k'.cur.kont.doing = caller → Outcome k caller k'
  | switch {k₀ : Kernel} : k.Calm k₀ → k₀.cur.kont.doing = caller → Outcome k caller (schedule k₀)
  /-- The end of `do_exit`. -/
  | stop {k₁ : Kernel} {status : BitVec 32} : caller = .exit status → k.Calm k₁ →
      Outcome k caller (schedule (k₁.setCur { k₁.cur with state := .stopped, kont := .dead }))
  /-- The label `faild` of `do_fork`. -/
  | failed {k₁ : Kernel} {c : Nat} : caller = .fork c → k.Calm k₁ → Outcome k caller (forkFailed k₁ c)
  /-- `do_fork` up to `enable_interrupt`. -/
  | linked {k₁ : Kernel} {c : Nat} {hashMap : Nat → List Nat} : caller = .fork c → k.Calm k₁ →
      Outcome k caller ({ k₁ with procHead := k₁.procHead ++ [c], hashMap := hashMap }.setCur
        { k₁.cur with kont := .forkTail c })
  /-- The end of `do_wait`. -/
  | reaped (k₁ : Kernel) {c : Nat} {hashMap : Nat → List Nat} : caller = .syscall → k.Calm k₁ →
      (k₁.proc c).state = .stopped →
      Outcome k caller (toUser { k₁ with
        hashMap := hashMap, procHead := k₁.procHead.erase c, alive := Function.update k₁.alive c false })

/-- A step that leaves the running process where it is, whether or not it keeps the CPU. -/
def Kernel.Interrupted (k k' : Kernel) : Prop :=
  ∃ k₀, k.Calm k₀ ∧ k₀.cur.kont = k.cur.kont ∧ (k' = k₀ ∨ k' = schedule k₀)

def Action.Routes (a : Action) : Prop := ∃ vector, a = .call (.registerIrq vector) ∨ a = .call (.unregisterIrq vector)

/-- Where a step goes on: `do_exit` begins, `do_fork` has made a process, or neither. -/
inductive Kernel.Start (k : Kernel) : Action → RpcCaller → Kernel → Prop
  | same {a : Action} : Start k a k.cur.kont.doing k
  | exit {status : BitVec 32} {env : Env} : k.cur.kont.doing = .syscall →
      Start k (.call (.exit status env)) (.exit status) k
  | new {env : Env} {c : Nat} {k' : Kernel} : k.cur.kont.doing = .syscall → newProc k = .ok (c, k') →
      Start k (.call (.fork env)) (.fork c) k'

/-! ## The invariant -/

/-- `proc_head` holds who is alive, except the idle process and the children in `copying`, whose forks are not so far. -/
structure Tables (procHead : List Nat) (alive : Nat → Bool) (nextProc : Nat) (copying : Nat → Option Nat) : Prop where
  nodup : procHead.Nodup
  mem : ∀ p, p ∈ procHead ↔ alive p = true ∧ p ≠ 0 ∧ ∀ q, copying q ≠ some p
  alive_lt : ∀ p, alive p = true → p < nextProc
  pos : 0 < nextProc
  unused : ∀ q, nextProc ≤ q → copying q = none
  copied : ∀ q p, copying q = some p → alive p = true ∧ p ≠ 0
  inj : ∀ q q' p, copying q = some p → copying q' = some p → q = q'

structure Kernel.Ordered (k : Kernel) (copying : Nat → Option Nat) : Prop where
  tables : Tables k.procHead k.alive k.nextProc copying
  current : k.current ≠ 0 → k.current ∈ k.procHead
  idle : ∀ p, (k.proc p).idle = true ↔ p = 0
  alarm : ∀ p, (k.proc p).alarm = 0
  running : ∀ p ∈ k.procHead, (k.proc p).state = .running → p = k.current
  init : (k.proc 0).kont = .user ∧ (k.proc 0).state ≠ .stopped
  copied : ∀ q p, copying q = some p → (k.proc p).state ≠ .stopped ∧ (k.proc p).state ≠ .running

structure Kernel.Settled (k : Kernel) : Prop where
  ordered : k.Ordered k.copying
  ready : k.cur.state ≠ .stopped

def Kernel.Initial (k : Kernel) : Prop := ∃ maxIntr pids, procInit maxIntr pids = .ok k

end FengOS.Core
