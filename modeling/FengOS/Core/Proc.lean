import FengOS.Lib.Rendezvous

/-!
# Processes (`kernel/sched.h`, `kernel/ipc.h`)

A `proc_t` is named by a number, given out in turn and not used again, so that a pointer to a freed process never names
another one; using it is a fault. Number 0 is the idle process.

A list head is the list of the processes linked behind it.
-/

namespace FengOS.Core

open FengOS.Lib.Rendezvous (Event)

/-! ## Constants -/

def ipcNowait : Int := 0

def ipcVfs : Int := 2

def ipcMm : Int := 6

/-- `IPC_SIGNAL`, the smallest of the reserved numbers. -/
def ipcSignal : Int := 0x0ffffffc

def ipcIntr : Int := 0x0ffffffd

def ipcAll : Int := 0x0ffffffe

def ipcKernel : Int := 0x0fffffff

def procHashMapSize : Int := 256

def sigchld : Int := 17

def msgOpen : Int := 3
def msgFork : Int := 5
def msgExecve : Int := 6
def msgExit : Int := 8
def msgWait : Int := 9
def msgIrq : Int := 258
def msgIntr : Int := 259
def msgForkfs : Int := 264
def msgFreefs : Int := 265

def intrOk : BitVec 32 := 1

/-! ## Messages -/

/-- `message`. The 64 bits of `retval` are also `type`; the union of the structures is forty bytes, in words. -/
structure Message where
  src : Int
  retval : BitVec 64
  body : Vector (BitVec 32) 10
  deriving DecidableEq, Inhabited

def Message.type (m : Message) : Int := (m.retval.setWidth 32).toInt

def Message.setType (m : Message) (type : Int) : Message :=
  { m with retval := m.retval.extractLsb' 32 32 ++ BitVec.ofInt 32 type }

def Message.setFirst (m : Message) (x : BitVec 32) : Message := { m with body := m.body.set 0 x }

/-! ## Processes -/

inductive ProcState
  | runnable
  | running
  | sending
  | receiving
  | stopped
  deriving DecidableEq, Repr

/-- Who called `do_sendrecv`: `sys_sendrecv`, `do_exit` or `copy_fs` in `do_fork`. -/
inductive RpcCaller
  | syscall
  | exit (status : BitVec 32)
  | fork (child : Nat)
  deriving DecidableEq

/-- Who called `do_send`: `sys_send` or `do_sendrecv` with the process to send to. -/
inductive SendCaller
  | syscall
  | rpc (dst : Int) (caller : RpcCaller)
  deriving DecidableEq

inductive RecvCaller
  | syscall
  | rpc (caller : RpcCaller)
  deriving DecidableEq

/-- The kernel stack: where a process goes on; `msg` is what the message buffer of the caller holds. -/
inductive Kont
  /-- In user mode, or on the way back to it. -/
  | user
  /-- After `schedule` in `do_send`. -/
  | send (dest : Nat) (msg : Message) (caller : SendCaller)
  /-- After `schedule` in the first part of `do_recv`. -/
  | recvAll (msg : Message) (caller : RecvCaller)
  /-- After `schedule` in the second part of `do_recv`. -/
  | recvIntr (msg : Message) (caller : RecvCaller)
  /-- After `schedule` in the last part of `do_recv`. -/
  | recvFrom (source : Nat) (msg : Message) (caller : RecvCaller)
  /-- After `schedule` in `do_wait`. -/
  | wait
  /-- After `enable_interrupt` in `do_fork`. -/
  | forkTail (child : Nat)
  /-- After `schedule` in `do_exit`. -/
  | dead
  deriving DecidableEq

/-- `struct proc_struct`, with the place where the process goes on. -/
structure Proc where
  state : ProcState
  needSchedule : Bool
  idle : Bool
  pid : Int
  alarm : Nat
  signal : Int
  exitStatus : BitVec 32
  parent : Option Nat
  children : List Nat
  wait : Int
  waitProc : List Nat
  hasIntr : Bool
  msg : Message
  kont : Kont

def Proc.unused : Proc :=
  { state := .stopped, needSchedule := false, idle := false, pid := 0, alarm := 0, signal := 0, exitStatus := 0,
    parent := none, children := [], wait := ipcNowait, waitProc := [], hasIntr := false, msg := default, kont := .dead }

/-! ## The kernel -/

/-- What the code does when it leaves defined behaviour. -/
inductive Fault
  /-- `map_proc` has returned NULL and the result is used. -/
  | noProc
  /-- The index into `__proc_hash_map` is negative. -/
  | badIndex
  /-- A null pointer is used. -/
  | nullDeref
  /-- A `proc_t` is used after its pages have been freed. -/
  | useAfterFree
  deriving DecidableEq, Repr

/-- The kernel state. `log` records what the message functions do; the code does not read it. -/
structure Kernel where
  proc : Nat → Proc
  alive : Nat → Bool
  procHead : List Nat
  hashMap : Nat → List Nat
  current : Nat
  globalPid : Int
  nextProc : Nat
  maxIntr : Nat
  hwProc : Nat → Int
  log : List (Event Nat Message)

def Kernel.set (k : Kernel) (p : Nat) (P : Proc) : Kernel := { k with proc := Function.update k.proc p P }

def Kernel.cur (k : Kernel) : Proc := k.proc k.current

def Kernel.setCur (k : Kernel) (P : Proc) : Kernel := k.set k.current P

def Kernel.emit (k : Kernel) (e : Event Nat Message) : Kernel := { k with log := k.log ++ [e] }

def Kernel.deref (k : Kernel) (p : Nat) : Except Fault Unit := if k.alive p then .ok () else .error .useAfterFree

def Kernel.derefAll (k : Kernel) (ps : List Nat) : Except Fault Unit :=
  if ps.all k.alive then .ok () else .error .useAfterFree

end FengOS.Core
