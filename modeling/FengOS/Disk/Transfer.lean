import FengOS.Disk.Server
import FengOS.Lib.Mem

/-!
# The bytes of a transfer (`srv/disk/disk.c`)

`transfer` with the ports, the sectors and the memory. A register of the drive keeps the byte written before the last one; an
LBA48 command takes both. The waiting loops end, and `_recv(IPC_INTR, …)` waits for the next interrupt. The buffer does not
reach the end of the address space.
-/

namespace FengOS.Disk.Bytes

open FengOS.Lib

/-! ## The registers -/

/-- The last byte written and the one before. -/
structure Reg where
  cur : UInt8
  prev : UInt8
  deriving DecidableEq, Inhabited

structure Ports where
  device : Reg
  errFeature : Reg
  sectorCnt : Reg
  sectorLow : Reg
  sectorMid : Reg
  sectorHigh : Reg
  deriving DecidableEq, Inhabited

/-- `outb` to one of the registers. -/
def Reg.outb (r : Reg) (v : Nat) : Reg := ⟨UInt8.ofNat v, r.cur⟩

def Ports.count (p : Ports) : Nat :=
  let n := p.sectorCnt.prev.toNat * 2 ^ 8 + p.sectorCnt.cur.toNat
  if n = 0 then 2 ^ 16 else n

def Ports.lba (p : Ports) : Nat :=
  p.sectorLow.cur.toNat + p.sectorMid.cur.toNat * 2 ^ 8 + p.sectorHigh.cur.toNat * 2 ^ 16 +
    p.sectorLow.prev.toNat * 2 ^ 24 + p.sectorMid.prev.toNat * 2 ^ 32 + p.sectorHigh.prev.toNat * 2 ^ 40

/-- The registers after `do_request` with `LBA48_READ_CMD` or `LBA48_WRITE_CMD`; `nsect` is an `unsigned short`. -/
def doRequest (p : Ports) (nsect sector : Nat) : Ports :=
  let nsect := nsect % 2 ^ 16
  { device := p.device.outb 0x40
    errFeature := (p.errFeature.outb 0).outb 0
    sectorCnt := (p.sectorCnt.outb (nsect >>> 8 &&& 0xff)).outb (nsect &&& 0xff)
    sectorLow := (p.sectorLow.outb (sector >>> 24 &&& 0xff)).outb (sector &&& 0xff)
    sectorMid := (p.sectorMid.outb (sector >>> 32 &&& 0xff)).outb (sector >>> 8 &&& 0xff)
    sectorHigh := (p.sectorHigh.outb (sector >>> 40 &&& 0xff)).outb (sector >>> 16 &&& 0xff) }

structure Request where
  position : Nat
  size : Nat
  buffer : Nat
  deriving DecidableEq

/-! ## Reads -/

def sectorData (disk : Nat → UInt8) (sector : Nat) : Nat → UInt8 := fun i => disk (sector * sectorSize + i)

/-- What the drive has for each interrupt of a read: its sectors in order. -/
def readIntrs (disk : Nat → UInt8) (p : Ports) : List (Option (Nat → UInt8)) :=
  (List.range' p.lba p.count).map fun sector => some (sectorData disk sector)

/-- `disk_read`: none for `DISK_STATUS_ERROR`. -/
def diskRead (r : Request) (mem : Mem) : Option (Nat → UInt8) → Status × Request × Mem
  | none => (.error, r, mem)
  | some data =>
    let offset := r.position % sectorSize
    let copysz := min (sectorSize - offset) r.size
    let mem := mem.write r.buffer (fun i => data (offset + i)) copysz
    let r := ⟨(r.position + copysz) % 2 ^ 64, r.size - copysz, r.buffer + copysz⟩
    (if r.size = 0 then .done else .undone, r, mem)

/-- A read that has returned: the status, the memory, the sectors asked for and the interrupts that are left. -/
structure Readback where
  status : Status
  mem : Mem
  requested : Nat
  left : List (Option (Nat → UInt8))

/-- The loop of `transfer` for a read. It waits for ever if no interrupt is left. -/
def readLoop (requested : Nat) (r : Request) (mem : Mem) : List (Option (Nat → UInt8)) → Option Readback
  | [] => none
  | intr :: intrs =>
    let (status, r, mem) := diskRead r mem intr
    if status = .undone then readLoop requested r mem intrs else some ⟨status, mem, requested, intrs⟩

def transferRead (sectorPerDrq : Nat) (disk : Nat → UInt8) (p : Ports) (mem : Mem) (pos buf size : Nat) :
    Option Readback :=
  if sectorPerDrq < nsect pos size then some ⟨.error, mem, 0, []⟩
  else
    let p := doRequest p (nsect pos size) (pos / sectorSize)
    readLoop p.count ⟨pos, size, buf⟩ mem (readIntrs disk p)

/-! ## Writes -/

def bytesAt (mem : Mem) (a n : Nat) : List UInt8 := (List.range n).map fun i => mem (a + i)

/-- A sector given to the drive, and the range of the caller's memory that was read for it. -/
structure Sent where
  data : List UInt8
  start : Nat
  length : Nat
  deriving DecidableEq, Repr

def firstSector (mem : Mem) (buf : Nat) : Sent := ⟨bytesAt mem buf sectorSize, buf, sectorSize⟩

/-- `disk_write`; the flag is `DISK_STATUS_ERROR`. -/
def diskWrite (r : Request) (mem : Mem) (error : Bool) : Status × Request × Option Sent :=
  if error then (.error, r, none)
  else if sectorSize < r.size then
    let r := { r with size := r.size - sectorSize, buffer := r.buffer + sectorSize }
    let copysz := if sectorSize < r.size then sectorSize else r.size
    let data := bytesAt mem r.buffer copysz ++ List.replicate (sectorSize - copysz) 0
    (.undone, r, some ⟨data, r.buffer, copysz⟩)
  else (.done, r, none)

structure Written where
  status : Status
  sent : List Sent
  requested : Nat
  left : List Bool
  deriving DecidableEq

def writeLoop (requested : Nat) (mem : Mem) (r : Request) (sent : List Sent) : List Bool → Option Written
  | [] => none
  | error :: intrs =>
    let (status, r, sector) := diskWrite r mem error
    let sent := sent ++ sector.toList
    if status = .undone then writeLoop requested mem r sent intrs else some ⟨status, sent, requested, intrs⟩

/-- `transfer(pos, buf, size, 1)`. The drive interrupts once for each sector it was told of, without an error. -/
def transferWrite (sectorPerDrq : Nat) (p : Ports) (mem : Mem) (pos buf size : Nat) : Option Written :=
  if pos % sectorSize ≠ 0 then some ⟨.error, [], 0, []⟩
  else if sectorPerDrq < nsect pos size then some ⟨.error, [], 0, []⟩
  else
    let p := doRequest p (nsect pos size) (pos / sectorSize)
    writeLoop p.count mem ⟨pos, size, buf⟩ [firstSector mem buf] (List.replicate p.count false)

/-! ## What is asked of them -/

def covering (pos size : Nat) : Nat := (pos + size - 1) / sectorSize - pos / sectorSize + 1

/-- The drive gets the buffer and zeros after it, from the buffer alone, in as many sectors as it was told. -/
structure SendsPadded (mem : Mem) (buf size : Nat) (w : Written) : Prop where
  data : (w.sent.map Sent.data).flatten =
    bytesAt mem buf size ++ List.replicate (covering 0 size * sectorSize - size) 0
  reads : ∀ s ∈ w.sent, ∀ a, s.start ≤ a → a < s.start + s.length → buf ≤ a ∧ a < buf + size
  count : w.sent.length = w.requested

end FengOS.Disk.Bytes
