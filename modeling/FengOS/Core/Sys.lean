import FengOS.Core.Ipc

/-!
# Exit, wait and fork (`core/sys.c`, `core/fork.c`)

What these functions do to the address space is left out. Where it decides their course, the environment says how it
ends.
-/

namespace FengOS.Core

/-- Whether there are pages for a `proc_t` and a page table, and what an uninitialised `message` holds. -/
structure Env where
  pages : Bool
  pgd : Bool
  stack : Message
  deriving DecidableEq, Inhabited

def toUser (k : Kernel) : Kernel := k.setCur { k.cur with kont := .user }

/-! ## `do_exit` -/

/-- The loop of `do_exit` that gives the children to the parent; it leaves their field `parent`. -/
def adopt (k : Kernel) : Except Fault Kernel :=
  match k.cur.children, k.cur.parent with
  | [], _ => .ok k
  | _ :: _, none => .error .nullDeref
  | children, some parent => do
    k.derefAll (parent :: (k.proc parent).children.take 1 ++ children)
    return k.set parent { k.proc parent with children := children.reverse ++ (k.proc parent).children }

/-- The rest of `do_exit`, after the call of the file server. -/
def exitTail (k : Kernel) (status : BitVec 32) : Except Fault Kernel := do
  let k := k.setCur { k.cur with exitStatus := status }
  match k.cur.parent with
  | none => .error .nullDeref
  | some parent =>
    k.deref parent
    let k := sendSignal k parent sigchld
    return schedule (k.setCur { k.cur with state := .stopped, kont := .dead })

def doExit (k : Kernel) (status : BitVec 32) (env : Env) : Except Fault Kernel := do
  let k ← adopt k
  let mess := { env.stack with src := k.cur.pid }.setType msgFreefs
  match ← doSendrecv k ipcVfs mess (.exit status) with
  | .switched k => return k
  | .returned k _ => exitTail k status

/-! ## `do_wait` -/

def findStopped (k : Kernel) : List Nat → Except Fault (Option Nat)
  | [] => .ok none
  | p :: ps => do
    k.deref p
    if (k.proc p).state = .stopped then return some p else findStopped k ps

/-- The end of `do_wait`: the child leaves the hash map and `proc_head` but not the list of children; its pages are freed. -/
def reap (k : Kernel) (child : Nat) : Except Fault Kernel := do
  let k ← unmapProc k (k.proc child).pid
  return { k with procHead := k.procHead.erase child, alive := Function.update k.alive child false }

def waitTail (k : Kernel) : Except Fault Kernel := do
  let k := k.setCur { k.cur with signal := 0 }
  match ← findStopped k k.cur.children with
  | none => .error .nullDeref
  | some child => return toUser (← reap k child)

def doWait (k : Kernel) : Except Fault Kernel :=
  if k.cur.children = [] then .ok (toUser k)
  else if k.cur.signal ≠ sigchld then .ok (blockReceiving k ipcSignal .wait)
  else waitTail k

/-! ## `do_fork` -/

def allocPid (k : Kernel) : Int × Kernel :=
  let pid := Int.bmod (k.globalPid + 1) (2 ^ 32)
  (pid, { k with globalPid := pid })

/-- The new child can be linked in front of the children there are: the first of them has not been freed. -/
def Kernel.CanLink (k : Kernel) : Prop := ∀ p ∈ k.cur.children.take 1, k.alive p = true

instance (k : Kernel) : Decidable k.CanLink := inferInstanceAs (Decidable (∀ p ∈ k.cur.children.take 1, _))

/-- The new `proc_t`, linked to the children of the running process. The code writes to the first of them even if it has been
freed; there is no result then. -/
def newProc (k : Kernel) : Except Fault (Nat × Kernel) := do
  let child := k.nextProc
  let (pid, k) := allocPid k
  k.derefAll (k.cur.children.take 1)
  let k := { k with alive := Function.update k.alive child true, nextProc := child + 1 }
  let k := k.set child { Proc.unused with state := .sending, pid := pid, parent := some k.current, kont := .user }
  return (child, k.setCur { k.cur with children := child :: k.cur.children })

/-- The label `faild` of `do_fork`. -/
def forkFailed (k : Kernel) (child : Nat) : Kernel :=
  toUser { k with alive := Function.update k.alive child false }

/-- `do_fork` after the call of the file server, up to `enable_interrupt`. -/
def forkLink (k : Kernel) (child : Nat) (msg : Message) : Except Fault Kernel := do
  if msg.retval ≠ 0 then return forkFailed k child
  else
    let k := { k with procHead := k.procHead ++ [child] }
    let k ← hashProc k child
    return k.setCur { k.cur with kont := .forkTail child }

def forkTail (k : Kernel) (child : Nat) : Kernel :=
  toUser (k.set child { k.proc child with state := .runnable })

/-- `do_fork` up to the call of the file server in `copy_fs`. -/
def doFork (k : Kernel) (env : Env) : Except Fault Kernel :=
  if !env.pages then .ok (toUser k)
  else do
    let (child, k) ← newProc k
    if !env.pgd then return forkFailed k child
    else
      let mess := (({ env.stack with src := k.cur.pid }.setType msgForkfs).setFirst (BitVec.ofInt 32 (k.proc child).pid))
      match ← doSendrecv k ipcVfs mess (.fork child) with
      | .switched k => return k
      | .returned k msg => forkLink k child msg

end FengOS.Core
