import FengOS.Core.Sched

/-!
# Messages between processes (`core/ipc.c`)

A function that calls `schedule` is cut there: the rest runs when the process is switched to again.
-/

namespace FengOS.Core

open FengOS.Lib.Rendezvous (Event)

/-- A call ends for now in `schedule`, or returns with the message in the buffer of the caller. -/
inductive Flow
  | switched (k : Kernel)
  | returned (k : Kernel) (msg : Message)

/-! ## Sending -/

/-- `dest->state = PROC_RUNNABLE` if `dest` is receiving from one of the numbers. -/
def wakeReceiver (k : Kernel) (dest : Nat) (waits : List Int) : Kernel :=
  if (k.proc dest).state = .receiving ∧ (k.proc dest).wait ∈ waits then
    k.set dest { k.proc dest with state := .runnable }
  else k

/-- The part of `do_send` for interrupts. -/
def sendIntr (k : Kernel) (dest : Nat) : Kernel :=
  wakeReceiver ((k.set dest { k.proc dest with hasIntr := true }).emit (.notify dest)) dest [ipcIntr, ipcAll]

/-- The part of `do_send` that queues the running process on the destination. -/
def enqueue (k : Kernel) (dest : Nat) (dst : Int) (msg : Message) (caller : SendCaller) : Kernel :=
  let k := k.setCur
    { k.cur with msg := msg, wait := dst, state := .sending, kont := .send dest msg caller }
  (k.set dest { k.proc dest with waitProc := (k.proc dest).waitProc ++ [k.current] }).emit
    (.send k.current dest msg (caller ≠ .syscall))

def doSend (k : Kernel) (dst : Int) (msg : Message) (caller : SendCaller) : Except Fault Flow := do
  let dest ← findProc k dst
  if msg.src = ipcIntr then return .returned (sendIntr k dest) msg
  else
    let k := enqueue k dest dst msg caller
    return .switched (schedule (wakeReceiver k dest [k.cur.pid, ipcAll]))

/-! ## Receiving -/

/-- `list_del(&source->wait_list)`. -/
def unlinkWait (k : Kernel) (p : Nat) : Kernel :=
  { k with proc := fun q => { k.proc q with waitProc := (k.proc q).waitProc.erase p } }

/-- `list_del`, `memcpy` and what follows them in both parts of `do_recv`: `source` goes on. -/
def copyMessage (k : Kernel) (source : Nat) : Kernel :=
  let msg := (k.proc source).msg
  let k := unlinkWait k source
  let k := k.setCur { k.cur with wait := ipcNowait }
  let k := k.set source { k.proc source with state := .runnable }
  k.emit (.copy source k.current msg)

def takeMessage (k : Kernel) (source : Nat) : Except Fault Flow := do
  k.deref source
  return .returned (copyMessage k source) (k.proc source).msg

def takeIntr (k : Kernel) (msg : Message) : Flow :=
  .returned ((k.setCur { k.cur with hasIntr := false }).emit (.take k.current))
    ((msg.setType msgIntr).setFirst intrOk)

/-- `current->wait = wait; current->state = PROC_RECEIVING; schedule()`. -/
def blockReceiving (k : Kernel) (wait : Int) (kont : Kont) : Kernel :=
  schedule (k.setCur { k.cur with wait := wait, state := .receiving, kont := kont })

/-- The first part of `do_recv`, from the label `recv_all` on. -/
def recvAll (k : Kernel) (msg : Message) (caller : RecvCaller) : Except Fault Flow :=
  if k.cur.hasIntr then .ok (takeIntr k msg)
  else
    match k.cur.waitProc with
    | source :: _ => takeMessage k source
    | [] => .ok (.switched (blockReceiving k ipcAll (.recvAll msg caller)))

/-- `do_recv`. The assertion on `source` only prints, so a missing process is used. -/
def doRecv (k : Kernel) (src : Int) (msg : Message) (caller : RecvCaller) : Except Fault Flow :=
  if src = ipcAll then recvAll k msg caller
  else if src = ipcIntr then
    if k.cur.hasIntr then .ok (takeIntr k msg)
    else .ok (.switched (blockReceiving k ipcIntr (.recvIntr msg caller)))
  else do
    let source ← findProc k src
    if (k.proc source).state = .sending ∧ (k.proc source).wait = k.cur.pid then takeMessage k source
    else return .switched (blockReceiving k src (.recvFrom source msg caller))

def doSendrecv (k : Kernel) (dst : Int) (msg : Message) (caller : RpcCaller) : Except Fault Flow := do
  match ← doSend k dst msg (.rpc dst caller) with
  | .switched k => return .switched k
  | .returned k msg => doRecv k dst msg (.rpc caller)

def sendSignal (k : Kernel) (p : Nat) (signal : Int) : Kernel :=
  wakeReceiver (k.set p { k.proc p with signal := signal }) p [ipcSignal]

end FengOS.Core
