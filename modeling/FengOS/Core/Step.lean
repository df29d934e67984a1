import FengOS.Core.Sys
import FengOS.Lib.Run

/-!
# The kernel as a transition system (`boot/syscall.c`, `boot/irq.c`, `boot/entry.S`)

One CPU. The gates clear the interrupt flag, so that a step runs from the entry of the kernel to the next `schedule` or to
the return. A process that is not in user mode goes on at once when it is switched to. The end of `do_fork`, with interrupts
enabled, is the exception.
-/

namespace FengOS.Core

open FengOS.Lib

/-! ## System calls -/

/-- What a process can ask of the kernel, after `pre_syscall` and the decoding of messages to the kernel. -/
inductive Call
  | send (dst : Int) (msg : Message)
  | recv (src : Int) (msg : Message)
  | sendrecv (dst : Int) (msg : Message)
  | registerIrq (vector : Nat)
  | unregisterIrq (vector : Nat)
  | exit (status : BitVec 32) (env : Env)
  | wait
  | fork (env : Env)
  | other
  deriving DecidableEq

def validIrq (k : Kernel) (vector : Nat) : Bool := 0x20 < vector && vector < 0x20 + k.maxIntr

def registerIrq (k : Kernel) (vector : Nat) (pid : Int) : Kernel :=
  if validIrq k vector ∧ k.hwProc (vector - 0x20) = 0 then
    { k with hwProc := Function.update k.hwProc (vector - 0x20) pid }
  else k

def unregisterIrq (k : Kernel) (vector : Nat) : Kernel :=
  if validIrq k vector then { k with hwProc := Function.update k.hwProc (vector - 0x20) 0 } else k

def rpcReturn (k : Kernel) (msg : Message) : RpcCaller → Except Fault Kernel
  | .syscall => .ok (toUser (k.emit (.reply k.current msg)))
  | .exit status => exitTail (k.emit (.reply k.current msg)) status
  | .fork child => forkLink (k.emit (.reply k.current msg)) child msg

def recvReturn : RecvCaller → Flow → Except Fault Kernel
  | _, .switched k => .ok k
  | .syscall, .returned k _ => .ok (toUser k)
  | .rpc caller, .returned k msg => rpcReturn k msg caller

def sendReturn (k : Kernel) (msg : Message) : SendCaller → Except Fault Kernel
  | .syscall => .ok (toUser (k.emit (.sent k.current)))
  | .rpc dst caller => do recvReturn (.rpc caller) (← doRecv (k.emit (.sent k.current)) dst msg (.rpc caller))

def call (k : Kernel) : Call → Except Fault Kernel
  | .send dst msg => do
    match ← doSend k dst { msg with src := k.cur.pid } .syscall with
    | .switched k => return k
    | .returned k _ => return toUser k
  | .recv src msg => do recvReturn .syscall (← doRecv k src { msg with src := k.cur.pid } .syscall)
  | .sendrecv dst msg => do
    recvReturn (.rpc .syscall) (← doSendrecv k dst { msg with src := k.cur.pid } .syscall)
  | .registerIrq vector => .ok (registerIrq k vector k.cur.pid)
  | .unregisterIrq vector => .ok (unregisterIrq k vector)
  | .exit status env => doExit k status env
  | .wait => doWait k
  | .fork env => doFork k env
  | .other => .ok k

def processKernelMessage (msg : Message) (env : Env) : Call :=
  if msg.type = msgIrq then
    if msg.body.get 0 = 1 then .registerIrq (msg.body.get 1).toNat
    else if msg.body.get 0 = 2 then .unregisterIrq (msg.body.get 1).toNat
    else .other
  else if msg.type = msgExit then .exit (msg.body.get 0) env
  else if msg.type = msgWait then .wait
  else .other

/-- The request of `open_exec`, with which `do_execve` begins. Its later requests to the file server are calls of their own. -/
def openExec (env : Env) : Call :=
  .sendrecv ipcVfs { env.stack.setType msgOpen with body := env.stack.body.set 2 0 }

/-- `process_mm_message`. The other requests only change the address space. -/
def processMmMessage (msg : Message) (env : Env) : Call :=
  if msg.type = msgFork then .fork env else if msg.type = msgExecve then openExec env else .other

def pidOfReg (reg : BitVec 64) : Int := (reg.setWidth 32).toInt

def sysSend (rdi : BitVec 64) (msg : Message) : Call := .send (pidOfReg rdi) msg

def sysRecv (rdi : BitVec 64) (msg : Message) : Call := .recv (pidOfReg rdi) msg

def sysSendrecv (rdi : BitVec 64) (msg : Message) (env : Env) : Call :=
  if pidOfReg rdi = ipcKernel then processKernelMessage msg env
  else if pidOfReg rdi = ipcMm then processMmMessage msg env
  else .sendrecv (pidOfReg rdi) msg

/-! ## Interrupts -/

def retFromInt (k : Kernel) : Kernel := if k.cur.needSchedule then schedule k else k

/-- The timer interrupt: `do_timer` and the return from it. -/
def timer (k : Kernel) : Kernel :=
  let k := updateAlarm k
  retFromInt (k.setCur { k.cur with needSchedule := true })

/-- `do_hwint` and the return from it; `ind` is the index into `hw_proc`. -/
def hwint (k : Kernel) (ind : Nat) : Except Fault Kernel :=
  if k.hwProc ind = 0 then .ok (retFromInt k)
  else do
    let msg : Message := ({ (default : Message) with src := ipcIntr }.setType msgIntr).setFirst intrOk
    match ← doSend k (k.hwProc ind) msg .syscall with
    | .switched k => return k
    | .returned k _ => return retFromInt k

/-! ## Steps -/

inductive Action
  | call (c : Call)
  | timer
  | hwint (ind : Nat)
  | signal (p : Nat) (signal : Int)
  | resume
  deriving DecidableEq

/-- The running process goes on after the `schedule` that had switched away from it. -/
def resume (k : Kernel) : Except Fault Kernel :=
  match k.cur.kont with
  | .user => .ok k
  | .send _ msg caller => sendReturn k msg caller
  | .recvAll msg caller => do recvReturn caller (← recvAll k msg caller)
  | .recvIntr msg caller => recvReturn caller (takeIntr k msg)
  | .recvFrom source _ caller => do recvReturn caller (← takeMessage k source)
  | .wait => waitTail k
  | .forkTail child => .ok (forkTail k child)
  | .dead => .error .useAfterFree

def Kernel.interruptible (k : Kernel) : Bool :=
  match k.cur.kont with
  | .user | .forkTail _ => true
  | _ => false

/-- When the machine can take a step. The idle process makes no system calls. -/
def Kernel.enabled (k : Kernel) : Action → Bool
  | .call _ => k.cur.kont = .user && k.current ≠ 0
  | .resume => k.cur.kont ≠ .user
  | _ => k.interruptible

def act (k : Kernel) : Action → Except Fault Kernel
  | .call c => call k c
  | .timer => .ok (timer k)
  | .hwint ind => hwint k ind
  | .signal p signal => do
    k.deref p
    return sendSignal k p signal
  | .resume => resume k

/-- One step; a fault has no successor. -/
def Kernel.step (k : Kernel) (a : Action) : Option Kernel := if k.enabled a then (act k a).toOption else none

end FengOS.Core
