import FengOS.Lib.Mem
import FengOS.Mm.BuddyRun

/-!
# Page tables (`mm/page.c`)

From `KERNEL_OFFSET` on the kernel sees the whole physical memory, through the upper half of the top table, which all
processes share; a byte of the memory is named by this address. The pages come from the buddy allocator.
-/

namespace FengOS.Mm

open FengOS.Lib

def toPhy (address : Nat) : Nat := (address + (2 ^ 64 - kernelOffset)) % 2 ^ 64

def toVir (address : Nat) : Nat := (address + kernelOffset) % 2 ^ 64

/-- `-((uint64)1 << 12)`. -/
def pageMask : Nat := 2 ^ 64 - 2 ^ 12

/-- `PRE_PAGE_ENTRY`, which is `PAGE_SIZE / sizeof(uint64)`. -/
def prePageEntry : Nat := pageSize / 8

def pml4eAttr : Nat := 0x007
def pdpteAttr : Nat := 0x007
def pdeAttr : Nat := 0x007
def pteAttr : Nat := 0x007

structure Machine where
  mem : Mem
  alloc : BuddySys

/-- `table[ind]` in a table of `uint64`. -/
def entry (mem : Mem) (table ind : Nat) : Nat := mem.load (table + 8 * ind) 8

/-- `memset`, which stores before it tests: with the counter 0 it goes round all addresses. -/
def memset (mem : Mem) (addr : Nat) (value : UInt8) (n : Nat) : Mem :=
  if n = 0 then fun _ => value else mem.write addr (fun _ => value) n

def getZeroedPage (s : Machine) : Option (Nat × Machine) :=
  match s.alloc.alloc 0 with
  | (none, _) => none
  | (some page, alloc) => some (virtual page, ⟨memset s.mem (virtual page) 0 pageSize, alloc⟩)

def freePage (alloc : BuddySys) (addr : Nat) : BuddySys := alloc.free addr 0

/-! ## `map_page` and `kmap` -/

/-- A new page is entered at `table[ind]`; no result without a free page, where a null pointer is used. -/
def newEntry (s : Machine) (table ind attr : Nat) : Option (Nat × Machine) := do
  let (next, s) ← getZeroedPage s
  return (next, { s with mem := s.mem.store (table + 8 * ind) (toPhy next ||| attr) 8 })

/-- One of the first three levels of `map_page`: the table that `table[ind]` points to. -/
def nextTable (s : Machine) (table ind attr : Nat) : Option (Nat × Machine) :=
  if entry s.mem table ind = 0 then newEntry s table ind attr
  else some (toVir (entry s.mem table ind &&& pageMask), s)

/-- The last level of `map_page`, where the mask is applied after `to_vir`. -/
def lastPage (s : Machine) (pt ind attr : Nat) : Option (Nat × Machine) :=
  if entry s.mem pt ind = 0 then newEntry s pt ind attr
  else some (toVir (entry s.mem pt ind) &&& pageMask, s)

/-- `map_page` with `proc->mm.pgd`. -/
def mapPage (s : Machine) (pgd ustart : Nat) : Option (Nat × Machine) := do
  let ustart := ustart &&& (2 ^ 48 - 1)
  let (pdpt, s) ← nextTable s pgd (ustart / 2 ^ 39) pml4eAttr
  let ustart := ustart &&& (2 ^ 39 - 1)
  let (pd, s) ← nextTable s pdpt (ustart / 2 ^ 30) pdpteAttr
  let ustart := ustart &&& (2 ^ 30 - 1)
  let (pt, s) ← nextTable s pd (ustart / 2 ^ 21) pdeAttr
  let ustart := ustart &&& (2 ^ 21 - 1)
  lastPage s pt (ustart / 2 ^ 12) pteAttr

/-- `kmap` with `current->mm.pgd`. It does not look whether the entries on the way are zero. -/
def kmap (mem : Mem) (pgd uaddr : Nat) : Nat :=
  if uaddr &&& (0xffff <<< 48) ≠ 0 then uaddr
  else
    let addr := uaddr
    let pdpt := toVir (entry mem pgd (addr / 2 ^ 39) &&& pageMask)
    let addr := addr &&& (2 ^ 39 - 1)
    let pd := toVir (entry mem pdpt (addr / 2 ^ 30) &&& pageMask)
    let addr := addr &&& (2 ^ 30 - 1)
    let pt := toVir (entry mem pd (addr / 2 ^ 21) &&& pageMask)
    let addr := addr &&& (2 ^ 21 - 1)
    toVir ((entry mem pt (addr / 2 ^ 12) &&& pageMask) ||| addr % 2 ^ 12)

/-! ## `free_proc_mm` -/

/-- A loop of `free_proc_mm` over `nr` entries, with the loop `inner` inside; what `free_page` gets is recorded. -/
def freeEntries (mem : Mem) (inner : Nat → List Nat × BuddySys → List Nat × BuddySys) (nr table : Nat)
    (acc : List Nat × BuddySys) : List Nat × BuddySys :=
  (List.range nr).foldl (fun acc ind =>
    if entry mem table ind = 0 then acc
    else
      let level := toVir (entry mem table ind &&& pageMask)
      let (freed, alloc) := inner level acc
      (freed ++ [level], freePage alloc level)) acc

/-- The loops over a table with `depth` levels of tables below it. -/
def freeLevel (mem : Mem) : Nat → Nat → Nat → List Nat × BuddySys → List Nat × BuddySys
  | 0 => freeEntries mem fun _ acc => acc
  | depth + 1 => freeEntries mem (freeLevel mem depth prePageEntry)

def freeProcMm (s : Machine) (pgd : Nat) : List Nat × Machine :=
  let (freed, alloc) := freeLevel s.mem 3 (prePageEntry / 2) pgd ([], s.alloc)
  (freed, ⟨memset s.mem pgd 0 (pageSize / 2), alloc⟩)

/-! ## The processor -/

/-- The table or page that `table[ind]` points to, if the entry is present. -/
def follow (mem : Mem) (table ind : Nat) : Option Nat :=
  if entry mem table ind % 2 = 0 then none else some (toVir (entry mem table ind &&& pageMask))

/-- The indices of an address in the tables, from the top one on. -/
def indices (u : Nat) : List Nat := [u / 2 ^ 39, u / 2 ^ 30 % 512, u / 2 ^ 21 % 512, u / 2 ^ 12 % 512]

/-- How the processor finds the byte at a user address. -/
def translate (mem : Mem) (pgd addr : Nat) : Option Nat := do
  let pdpt ← follow mem pgd (addr / 2 ^ 39)
  let pd ← follow mem pdpt (addr / 2 ^ 30 % 512)
  let pt ← follow mem pd (addr / 2 ^ 21 % 512)
  let page ← follow mem pt (addr / 2 ^ 12 % 512)
  return page + addr % 2 ^ 12

/-! ## `MSG_KMAP` -/

structure KmapMessage where
  addr1 : Nat
  addr2 : Nat
  addr3 : Nat
  deriving DecidableEq

def KmapMessage.addrs (m : KmapMessage) : List Nat := [m.addr1, m.addr2, m.addr3]

def ipcKmapAddr (mem : Mem) (pgd addr : Nat) : Nat := if addr ≠ 0 then kmap mem pgd addr else addr

/-- `ipc_kmap`, with what it returns. -/
def ipcKmap (mem : Mem) (pgd : Nat) (m : KmapMessage) : Nat × KmapMessage :=
  (0, ⟨ipcKmapAddr mem pgd m.addr1, ipcKmapAddr mem pgd m.addr2, ipcKmapAddr mem pgd m.addr3⟩)

def shifts : List Nat := [39, 30, 21, 12]

def below (mem : Mem) (u shift table : Nat) : Nat := toVir (entry mem table (u / 2 ^ shift % 512) &&& pageMask)

/-- Where a walk without checks ends. -/
def walkEnd (mem : Mem) (u : Nat) (levels : List Nat) (table : Nat) : Nat :=
  levels.foldl (fun table shift => below mem u shift table) table

/-- The tables that it reads. -/
def walkTables (mem : Mem) (u : Nat) (levels : List Nat) (table : Nat) : List Nat :=
  (levels.scanl (fun table shift => below mem u shift table) table).dropLast

/-- The page that is mapped at an address; there is none if an entry on the way is zero. -/
def walkPage (mem : Mem) (u : Nat) (levels : List Nat) (table : Nat) : Option Nat :=
  levels.foldlM (fun table shift =>
    if entry mem table (u / 2 ^ shift % 512) = 0 then none else some (below mem u shift table)) table

/-- The tables that `ipc_kmap` reads for an address. -/
def ipcKmapTables (mem : Mem) (pgd addr : Nat) : List Nat := if addr ≠ 0 then walkTables mem addr shifts pgd else []

/-- An answer for `u` is in the page mapped at `u`, and without a page the frame 0 is not read as a table. -/
structure KmapSafe (mem : Mem) (pgd u answer : Nat) : Prop where
  mapped : kernelOffset ≤ answer → ∃ page, walkPage mem u shifts pgd = some page ∧ page ≤ answer ∧ answer < page + pageSize
  tables : walkPage mem u shifts pgd = none → virtual 0 ∉ ipcKmapTables mem pgd u

/-! ## Calls of `map_page` -/

/-- Calls of `map_page` in turn, with what they return. -/
def mapPages (pgd : Nat) : Machine → List Nat → Option (List Nat × Machine)
  | s, [] => some ([], s)
  | s, ustart :: ustarts => do
    let (page, s) ← mapPage s pgd ustart
    let (pages, s) ← mapPages pgd s ustarts
    return (page :: pages, s)

/-- A top table without pages: allocated, within the direct map, with a zero lower half. -/
structure EmptyLower (s : Machine) (root : Nat) : Prop where
  bound : root < 2 ^ 35
  held : ∀ k, ∀ p ∈ s.alloc.buddy.block k, ¬ InBlock k p root
  empty : ∀ i < prePageEntry / 2, entry s.mem (virtual root) i = 0

end FengOS.Mm
