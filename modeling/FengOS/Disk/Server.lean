import FengOS.Core.Ipc
import FengOS.Lib.Mem
import FengOS.Lib.Run

/-!
# The disk server (`srv/disk/disk.c`)

The server runs from one system call to the next. What the device and the heap answer is given; the bytes of the sectors are
left out, and the waiting loops on the status register end.

Of the kernel the flag `has_intr` and the messages of the processes on `wait_proc` are kept.
-/

namespace FengOS.Disk

open FengOS.Core FengOS.Lib

/-! ## Constants -/

def msgBdevTransfer : Int := 257

def msgBdevPart : Int := 269

def sectorSize : Nat := 512

/-! ## Messages -/

def quad (m : Message) (i : Fin 9) : Nat := (m.body[i.val + 1] ++ m.body[i.val]).toNat

def transferPos (m : Message) : Nat := quad m 0
def transferSize (m : Message) : Nat := quad m 4
def transferWrite (m : Message) : Bool := m.body[6] ≠ 0

def partNumber (m : Message) : Nat := (m.body.getD 0 0).toNat
def partPos (m : Message) : Nat := quad m 2
def partSize (m : Message) : Nat := quad m 6

/-! ## The server -/

/-- What follows a `transfer`: the reply to `MSG_BDEV_TRANSFER`, the rest of `disk_part`, or the reply to `MSG_BDEV_PART`. -/
inductive After
  | reply
  | header
  | entry
  | part (base : Nat)
  deriving DecidableEq

inductive Loc
  /-- `_recv(IPC_INTR, &msg)` in `init_disk`. -/
  | identify
  /-- The label `fail` of `main`. -/
  | fail
  /-- `_recv(IPC_ALL, &mess)` in `main`. -/
  | recv
  /-- `_recv(IPC_INTR, &mess)` in `transfer`. -/
  | intr (write : Bool) (after : After)
  /-- `_send(mess.src, &mess)`. -/
  | send
  /-- The server is linked to the `wait_proc` of the process with the pid. -/
  | sending (dst : Int)
  deriving DecidableEq

/-- The variables of the server: `mess` of `main`, `request` and `sector_per_drq`. -/
structure Server where
  pid : Int
  loc : Loc
  mess : Message
  position : Nat
  size : Nat
  sectorPerDrq : Nat
  deriving DecidableEq

/-- What the server finds outside: `DISK_STATUS_ERROR`, the results of `malloc`, the partition table and words 49, 59 and 83.
-/
structure Device where
  error : Bool
  mallocHeader : Bool
  mallocEntry : Bool
  signature : Bool
  pentry : Nat
  pensz : Nat
  firstLba : Nat
  lba : Nat
  sectorPerDrq : Nat
  lba48 : Nat
  deriving DecidableEq, Inhabited

inductive Status
  | error
  | done
  | undone
  deriving DecidableEq

def Status.retval : Status → BitVec 64
  | .error => -1
  | .done => 0
  | .undone => 1

/-- `mess.retval = retval`, on the way to `_send`. -/
def Server.reply (s : Server) (retval : BitVec 64) : Server :=
  { s with mess := { s.mess with retval := retval }, loc := .send }

/-! ## `transfer` -/

def diskRead (s : Server) (dev : Device) : Status × Server :=
  if dev.error then (.error, s)
  else
    let copysz := min (sectorSize - s.position % sectorSize) s.size
    let s := { s with position := (s.position + copysz) % 2 ^ 64, size := s.size - copysz }
    (if s.size = 0 then .done else .undone, s)

def diskWrite (s : Server) (dev : Device) : Status × Server :=
  if dev.error then (.error, s)
  else if sectorSize < s.size then (.undone, { s with size := s.size - sectorSize })
  else (.done, s)

def nsect (pos size : Nat) : Nat :=
  let posBase := pos / sectorSize * sectorSize
  let posHigh := upperDiv ((pos + size) % 2 ^ 64) sectorSize * sectorSize % 2 ^ 64
  (posHigh + 2 ^ 64 - posBase) % 2 ^ 64 / sectorSize

def transfer (s : Server) (pos size : Nat) (write : Bool) (after : After) : Option Server :=
  if write ∧ pos % sectorSize ≠ 0 then none
  else if s.sectorPerDrq < nsect pos size then none
  else some { s with position := pos, size := size, loc := .intr write after }

/-! ## `disk_part` -/

/-- `main` after `disk_part`. The test `part_base < 0` is never true, since `part_base` is unsigned. -/
def partRead (s : Server) (base : Nat) : Server :=
  (transfer s ((base + partPos s.mess) % 2 ^ 64) (partSize s.mess) false (.part base)).getD (s.reply Status.error.retval)

/-- `disk_part` after its second `transfer`. -/
def diskPartEntry (s : Server) (status : Status) (dev : Device) : Server :=
  partRead s (if status = .done then dev.firstLba * sectorSize % 2 ^ 64 else 2 ^ 64 - 1)

def entryPos (m : Message) (dev : Device) : Nat :=
  (dev.pentry + dev.pensz * partNumber m % 2 ^ 32 / sectorSize) * sectorSize % 2 ^ 64

/-- `disk_part` after its first `transfer`. If it fails, `buffer` is not set, and `free` does nothing. -/
def diskPartHeader (s : Server) (status : Status) (dev : Device) : Server :=
  if status ≠ .done ∨ dev.signature = false ∨ dev.mallocEntry = false then partRead s (2 ^ 64 - 1)
  else (transfer s (entryPos s.mess dev) (sectorSize * 2) false .entry).getD (diskPartEntry s .error dev)

def diskPart (s : Server) (dev : Device) : Server :=
  if dev.mallocHeader then (transfer s sectorSize sectorSize false .header).getD (diskPartHeader s .error dev)
  else partRead s (2 ^ 64 - 1)

/-! ## `main` -/

def Server.handle (s : Server) (dev : Device) : Server :=
  if s.mess.type = msgBdevTransfer then
    (transfer s (transferPos s.mess) (transferSize s.mess) (transferWrite s.mess) .reply).getD
      (s.reply Status.error.retval)
  else if s.mess.type = msgBdevPart then diskPart s dev
  else { s with loc := .send }

def Server.finish (s : Server) (status : Status) (dev : Device) : After → Server
  | .reply => s.reply status.retval
  | .header => diskPartHeader s status dev
  | .entry => diskPartEntry s status dev
  | .part base => s.reply (if status = .done then BitVec.ofNat 64 base else Status.error.retval)

def Server.interrupted (s : Server) (dev : Device) : Server :=
  match s.loc with
  | .identify =>
    if dev.lba &&& 0x0100 = 0 ∨ dev.lba48 &&& 0x0200 ≠ 0 then { s with loc := .fail }
    else { s with sectorPerDrq := dev.sectorPerDrq, loc := .recv }
  | .intr write after =>
    let r := if write then diskWrite s dev else diskRead s dev
    if r.1 = .undone then r.2 else r.2.finish r.1 dev after
  | _ => s

/-! ## The system -/

/-- The server in the kernel. `received` and `sent` record the processes it has received from and sent to. -/
structure System where
  server : Server
  hasIntr : Bool
  queue : List Message
  received : List Int
  sent : List Int
  deriving DecidableEq

inductive Event
  /-- Another process sends to the server. -/
  | request (client : Int) (msg : Message)
  /-- `do_hwint` for the vector of the disk. -/
  | intr
  /-- The server goes on to its next system call. -/
  | run (dev : Device)
  /-- The process that the server sends to receives the message. -/
  | taken
  deriving DecidableEq

/-- `do_recv` with `IPC_ALL`, after `pre_syscall`: a notification leaves `src` as `pre_syscall` has set it. -/
def System.recvAll (S : System) (dev : Device) : Option System :=
  if S.hasIntr then
    let mess := (({ S.server.mess with src := S.server.pid } : Message).setType msgIntr).setFirst intrOk
    some { S with hasIntr := false, server := { S.server with mess := mess }.handle dev }
  else
    match S.queue with
    | [] => none
    | m :: queue =>
      some { S with
        queue := queue, received := S.received ++ [m.src], server := { S.server with mess := m }.handle dev }

/-- `do_recv` with `IPC_INTR`. -/
def System.recvIntr (S : System) (dev : Device) : Option System :=
  if S.hasIntr then some { S with hasIntr := false, server := S.server.interrupted dev } else none

/-- `do_send`, after `pre_syscall`. -/
def System.send (S : System) : System :=
  let dst := S.server.mess.src
  { S with
    sent := S.sent ++ [dst]
    server := { S.server with mess := { S.server.mess with src := S.server.pid }, loc := .sending dst } }

/-- A message to the server itself is not received: the server would have to run for it. -/
def System.step (S : System) : Event → Option System
  | .request client msg =>
    if client = S.server.pid then none else some { S with queue := S.queue ++ [{ msg with src := client }] }
  | .intr => some { S with hasIntr := true }
  | .run dev =>
    match S.server.loc with
    | .recv => S.recvAll dev
    | .identify | .intr _ _ => S.recvIntr dev
    | .send => some S.send
    | .sending _ | .fail => none
  | .taken =>
    match S.server.loc with
    | .sending dst => if dst = S.server.pid then none else some { S with server := { S.server with loc := .recv } }
    | _ => none

def System.Init (S : System) : Prop :=
  S.server.loc = .identify ∧ S.hasIntr = false ∧ S.queue = [] ∧ S.received = [] ∧ S.sent = []

end FengOS.Disk
