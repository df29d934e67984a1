import FengOS.Mm.Copy
import FengOS.Mm.SlabRun

/-!
# The memory at boot (`mm/memory.c`)

`mm_init` takes the size of the memory from the map of the boot loader, puts the page tables and `mem_map` behind the
modules, reserves pages and builds the allocators. The entries of the page tables are left out.
-/

namespace FengOS.Mm

open FengOS.Lib

/-- `MULTIBOOT_MEMORY_AVAILABLE`. -/
def memoryAvailable : Nat := 1

structure Zone where
  addr : Nat
  len : Nat
  type : Nat
  deriving DecidableEq, Repr

structure BootModule where
  modStart : Nat
  modEnd : Nat
  deriving DecidableEq, Repr

/-- What `mm_init` reads in `kinfo`: the map and the modules in the order of the tags. -/
structure KInfo where
  mmap : List Zone
  modules : List BootModule
  kernelStart : Nat
  kernelEnd : Nat
  deriving DecidableEq, Repr

def mmioStart : Nat := 0xc0000000

def mmioEnd : Nat := 0xffffffff

/-- `sizeof(struct page)`. -/
def structPageSize : Nat := 48

/-! ## The layout -/

/-- `addr + len` in 64 bits. -/
def Zone.limit (z : Zone) : Nat := (z.addr + z.len) % 2 ^ 64

def KInfo.memsize (k : KInfo) : Nat :=
  k.mmap.foldl (fun size z => if z.type ≠ memoryAvailable then size else if z.limit > size then z.limit else size) 0

/-- `global_pgd_start` after the loop over the modules: the end of what is loaded. -/
def KInfo.loadedEnd (k : KInfo) : Nat :=
  k.modules.foldl (fun last m => if m.modEnd > last then m.modEnd else last) (toPhy k.kernelEnd)

def KInfo.globalPgdStart (k : KInfo) : Nat := pageUpperAlign (toVir k.loadedEnd)

/-- `page_table_size`: the memory that the tables map. -/
def KInfo.pageTableSize (k : KInfo) : Nat := if k.memsize > mmioEnd then k.memsize else mmioEnd

/-- The bytes that `setup_page_table` takes for the four levels. -/
def tablesSize (memsize : Nat) : Nat :=
  let nrPte := memsize / pageSize
  let nrPde := upperDiv nrPte prePageEntry
  let nrPdpte := upperDiv nrPde prePageEntry
  let nrPml4e := upperDiv nrPdpte prePageEntry
  upperDiv nrPml4e prePageEntry * pageSize + upperDiv nrPdpte prePageEntry * pageSize +
    upperDiv nrPde prePageEntry * pageSize + upperDiv nrPte prePageEntry * pageSize

/-- `setup_page_table`: the end of the tables that start at `globalPgdStart`. -/
def setupPageTable (globalPgdStart memsize : Nat) : Nat := (globalPgdStart + tablesSize memsize) % 2 ^ 64

/-- `kinfo.global_pgd_end`. -/
def KInfo.globalPgdEnd (k : KInfo) : Nat := setupPageTable k.globalPgdStart k.pageTableSize

def KInfo.memMapStart (k : KInfo) : Nat := pageUpperAlign k.globalPgdEnd

/-- `nr_pages`, a `uint32`. -/
def KInfo.nrPages (k : KInfo) : Nat := k.memsize / pageSize % 2 ^ 32

def KInfo.memMapEnd (k : KInfo) : Nat := (k.memMapStart + structPageSize * k.nrPages) % 2 ^ 64

/-! ## `mem_map` -/

def eachPage (f : Page → Page) : Nat → Nat → (Nat → Page) → Nat → Page
  | 0, _, memMap => memMap
  | n + 1, i, memMap => eachPage f n (i + 1) (Function.update memMap i (f (memMap i)))

/-- `init_pages` at `mem_map`: the entries of all pages are cleared, and page 0 is reserved. -/
def initPages (num : Nat) (mem : Nat → Page) : Nat → Page :=
  eachPage (fun page => { page with reserve := true }) 1 0
    (eachPage (fun page => { page with reserve := false, busy := false }) num 0 mem)

/-- `setup_pages_flags` with `PF_RESERVE`; `last` is reserved too. -/
def setupPagesFlags (memMap : Nat → Page) (first last : Nat) : Nat → Page :=
  eachPage (fun page => { page with reserve := true }) (last + 1 - first) first memMap

def Zone.pages (z : Zone) : Nat × Nat := (z.addr / pageSize % 2 ^ 32, z.limit / pageSize % 2 ^ 32)

/-- How `setup_pages_reserved` cuts a range at the number of pages; `none` where it skips the range. -/
def cut (nrPage : Nat) (range : Nat × Nat) : Option (Nat × Nat) :=
  if range.1 ≥ nrPage then none else some (range.1, if range.2 ≥ nrPage then nrPage - 1 else range.2)

def mmioPages : Nat × Nat := (mmioStart / pageSize, mmioEnd / pageSize)

def KInfo.lastPage (k : KInfo) : Nat := toPhy k.memMapEnd / pageSize % 2 ^ 32

/-- The arguments of `setup_pages_flags`: the zones not available, the MMIO window and all up to the end of `mem_map`. -/
def KInfo.reservedRanges (k : KInfo) (nrPage : Nat) : List (Nat × Nat) :=
  k.mmap.filterMap (fun z => if z.type = memoryAvailable then none else cut nrPage z.pages) ++
    (cut nrPage mmioPages).toList ++ [(0, k.lastPage)]

def setupPagesReserved (k : KInfo) (nrPage : Nat) (memMap : Nat → Page) : Nat → Page :=
  (k.reservedRanges nrPage).foldl (fun memMap range => setupPagesFlags memMap range.1 range.2) memMap

/-! ## `mm_init` -/

def kmallocSizes : List Nat :=
  [1 <<< 5, 1 <<< 6, 1 <<< 7, 1 <<< 8, 1 <<< 9, 1 <<< 10, 1 <<< 11, 1 <<< 12, 1 <<< 13, 1 <<< 14, 1 <<< 15]

/-- `kmalloc_cache_init`. A cache that is not created is reported by `panic`, which returns. -/
def kmallocCacheInit (s : SlabSys) : Option SlabSys :=
  kmallocSizes.foldlM (fun s size => (kmemCacheCreate s size 0).map Prod.snd) s

/-- `mem_map` when `mm_init` calls `buddy_system_init`. -/
def KInfo.bootMap (k : KInfo) (mem : Nat → Page) : Nat → Page :=
  setupPagesReserved k k.nrPages (initPages k.nrPages mem)

/-- `mm_init`, with the memory `mem` at the place of `mem_map`. -/
def mmInit (k : KInfo) (mem : Nat → Page) : Option SlabSys :=
  kmallocCacheInit (SlabSys.init (k.bootMap mem) k.nrPages)

/-! ## Usable memory -/

/-- Not to be handed out: the low megabyte, kernel, page tables, `mem_map`, MMIO window and modules. -/
def KInfo.inUse (k : KInfo) : List (Nat × Nat) :=
  (0, 0x100000) :: (toPhy k.kernelStart, toPhy k.kernelEnd) :: (toPhy k.globalPgdStart, toPhy k.globalPgdEnd) ::
    (toPhy k.memMapStart, toPhy k.memMapEnd) :: (mmioStart, mmioEnd + 1) ::
    k.modules.map fun m => (m.modStart, m.modEnd)

/-- The page and the range of addresses have a byte in common. -/
def Overlaps (page : Nat) (range : Nat × Nat) : Prop :=
  max range.1 (page * pageSize) < min range.2 ((page + 1) * pageSize)

/-- The page lies entirely inside an available zone. -/
def KInfo.Available (k : KInfo) (page : Nat) : Prop :=
  ∃ z ∈ k.mmap, z.type = memoryAvailable ∧ z.addr ≤ page * pageSize ∧ (page + 1) * pageSize ≤ z.addr + z.len

/-- After `mm_init` the free pages and those of `kmalloc` are available and unused, and only entries of pages are written. -/
def HandsOutUsable (k : KInfo) : Prop :=
  (∀ mem, ∃ s, mmInit k mem = some s ∧ ∀ page, s.mem.FreePage page ∨ s.mem.Allocated page →
    k.Available page ∧ ∀ range ∈ k.inUse, ¬ Overlaps page range) ∧
  ∀ range ∈ k.reservedRanges k.nrPages, ∀ i, range.1 ≤ i → i ≤ range.2 → i < k.nrPages

/-- The page is in the memory behind `mem_map`, outside the MMIO window and entries of other types. -/
structure KInfo.Unclaimed (k : KInfo) (page : Nat) : Prop where
  memory : page < k.nrPages
  behind : k.lastPage < page
  mmio : ¬ (mmioPages.1 ≤ page ∧ page ≤ mmioPages.2)
  zones : ∀ z ∈ k.mmap, z.type ≠ memoryAvailable → ¬ (z.pages.1 ≤ page ∧ page ≤ z.pages.2)

/-- With tables and `mem_map` behind them, the kernel and the modules stay below `2 ^ 44`. -/
def KInfo.Fits (k : KInfo) : Prop :=
  k.loadedEnd + tablesSize k.pageTableSize + structPageSize * k.nrPages + pageSize ≤ 2 ^ 44

/-- `mem_map` ends before the memory, the map has no hole behind it, and the layout avoids unclaimed pages. -/
structure KInfo.Sound (k : KInfo) : Prop where
  room : k.lastPage < k.nrPages
  described : ∀ page, k.Unclaimed page → k.Available page
  apart : k.Fits ∨ ∀ page, k.Unclaimed page → ∀ range ∈ k.inUse, ¬ Overlaps page range

end FengOS.Mm
