import FengOS.Lib.Run
import FengOS.Mm.Exec
import FengOS.Mm.MapFail

/-!
# The heap of processes (`do_brk` in `core/sys.c`) and the address spaces it shares memory with

Processes take their pages from one allocator: `brk` extends a heap, `execve` builds an address space anew and `fork`
copies one.
-/

namespace FengOS.Mm

open FengOS.Lib

def userBrkStart : Nat := 0x700000000000

def userStackEnd : Nat := 0x7ffffffff000

/-! ## `do_brk` -/

/-- There is no result if a page table is missing, which `map_page` reads. -/
def brkLoop (pgd : Nat) : Nat → Machine → Nat → Option (Bool × Machine)
  | 0, s, _ => some (true, s)
  | rounds + 1, s, brk =>
    match mapPageOrNull s pgd brk with
    | .error _ => none
    | .ok (page, s) => if page = 0 then some (false, s) else brkLoop pgd rounds s ((brk + pageSize) % 2 ^ 64)

def nrPages (newBrk brk : Nat) : Int :=
  (((newBrk + (2 ^ 64 - brk)) % 2 ^ 64 / pageSize : Nat) + 2 ^ 31) % 2 ^ 32 - 2 ^ 31

def doBrk (s : Machine) (mm : ProcMm) (addr : Nat) : Option (Int × Machine × ProcMm) := do
  let newBrk := pageUpperAlign addr
  let (ok, s) ← brkLoop mm.pgd (nrPages newBrk mm.brk).toNat s mm.brk
  if ok then return (0, s, { mm with brk := newBrk }) else return (-1, s, mm)

/-! ## `do_execve` -/

/-- The new stack, which has two pages. `args` are the bytes that `setup_args` leaves in them. -/
def execStack (s : Machine) (pgd : Nat) (args : Nat → UInt8) : Option Machine := do
  let (high, s) ← mapPage s pgd (userStackEnd - pageSize)
  let (low, s) ← mapPage s pgd (userStackEnd - 2 * pageSize)
  return { s with mem := (s.mem.write high args pageSize).write low (fun i => args (pageSize + i)) pageSize }

/-- The part of `do_execve` that builds the address space. -/
def execMm (s : Machine) (mm : ProcMm) (args : Nat → UInt8) (file : ExecFile) (phdrs : List Phdr) :
    Option (Machine × ProcMm) := do
  let (_, s) := freeProcMm s mm.pgd
  let s ← execStack s mm.pgd args
  let (psegs, s) ← loadSegments file mm.pgd [] s phdrs
  return (s, { mm with
    psegs := psegs
    startBrk := userBrkStart
    brk := userBrkStart
    startStack := userStackEnd - 2 * pageSize
    endStack := userStackEnd })

/-! ## Runs -/

/-- The machine and the processes by their number. -/
structure MmSys where
  machine : Machine
  procs : Nat → Option ProcMm

inductive MmOp
  | brk (i addr : Nat)
  | exec (i : Nat) (args : Nat → UInt8) (file : ExecFile) (phdrs : List Phdr)
  | fork (i child : Nat)
  /-- The process stores a byte to its memory. There is none behind a page that was missing. -/
  | store (i addr : Nat) (value : UInt8)
  /-- The end of a process, or of a child when `do_fork` fails after `copy_mm`. -/
  | reap (i : Nat)
  /-- The kernel allocates or frees pages of its own. -/
  | kernel (op : BuddyOp)

/-- The loops of `copy_mm` come back to their first address after `2 ^ 52` rounds. -/
def copyRounds : Nat := 2 ^ 52 + 1

def MmSys.step (sys : MmSys) : MmOp → Option MmSys
  | .brk i addr => do
    let mm ← sys.procs i
    let (_, s, mm) ← doBrk sys.machine mm addr
    return ⟨s, Function.update sys.procs i (some mm)⟩
  | .exec i args file phdrs => do
    let mm ← sys.procs i
    let (s, mm) ← execMm sys.machine mm args file phdrs
    return ⟨s, Function.update sys.procs i (some mm)⟩
  | .fork i child => do
    let mm ← sys.procs i
    let (copy, s) ← copyMm copyRounds sys.machine mm
    return ⟨s, copy.elim sys.procs fun mm => Function.update sys.procs child (some mm)⟩
  | .store i addr value => do
    let mm ← sys.procs i
    let b ← userAddr sys.machine.mem mm.pgd addr
    if b < kernelOffset then none
    else return { sys with machine := { sys.machine with mem := Function.update sys.machine.mem b value } }
  | .reap i => do
    let mm ← sys.procs i
    let (_, s) := freeProcMm sys.machine mm.pgd
    return ⟨{ s with alloc := freePage s.alloc mm.pgd }, Function.update sys.procs i none⟩
  | .kernel op => do
    let alloc ← sys.machine.alloc.step op
    return { sys with machine := { sys.machine with alloc := alloc } }

def MmSys.Uses (sys : MmSys) (page : Nat) : Prop :=
  ∃ i mm, sys.procs i = some mm ∧ ∃ a < 2 ^ 47, page ∈ walk sys.machine.mem mm.pgd a

/-- A child gets a new number, and the kernel frees what it has allocated itself. -/
def MmSys.ok (sys : MmSys) : MmOp → Prop
  | .brk _ addr => addr < 2 ^ 64
  | .fork _ child => sys.procs child = none
  | .kernel (.alloc order) => sys.machine.alloc.ok (.alloc order)
  | .kernel (.free addr order) => sys.machine.alloc.ok (.free addr order) ∧ ¬ sys.Uses (pageLowerAlign addr)
  | _ => True

/-- The new break is in the lower half, not below the start, and the number of pages fits an `int`. -/
def BrkOk (mm : ProcMm) (addr : Nat) : Prop :=
  mm.startBrk ≤ pageUpperAlign addr ∧ pageUpperAlign addr ≤ 2 ^ 47 ∧ pageUpperAlign addr < mm.brk + 2 ^ 43 ∧
    mm.brk ≤ pageUpperAlign addr + 2 ^ 43

instance (mm : ProcMm) (addr : Nat) : Decidable (BrkOk mm addr) := inferInstanceAs (Decidable (_ ∧ _ ∧ _ ∧ _))

/-- The requests for which the heaps stay in order. -/
def MmSys.cond (sys : MmSys) (op : MmOp) : Prop :=
  sys.ok op ∧ match op with
    | .brk i addr => ∀ mm, sys.procs i = some mm → BrkOk mm addr
    | .exec _ _ file phdrs => ElfOk file (loads phdrs)
    | _ => True

/-- A process that has a top table and nothing else. -/
def ProcMm.fresh (root : Nat) : ProcMm := ⟨0, virtual root, [], userBrkStart, userBrkStart, userStackEnd, userStackEnd⟩

structure MmSys.Init (memMap : Nat → Page) (nr : Nat) (sys : MmSys) : Prop where
  alloc : BuddySys.Reach memMap nr sys.machine.alloc
  fresh : ∀ i mm, sys.procs i = some mm → ∃ root, mm = .fresh root ∧ (root, 0) ∈ sys.machine.alloc.live ∧
    ∀ i < prePageEntry / 2, entry sys.machine.mem (virtual root) i = 0
  apart : ∀ i j mm mm', sys.procs i = some mm → sys.procs j = some mm' → mm.pgd = mm'.pgd → i = j

abbrev MmSys.Reach (memMap : Nat → Page) (nr : Nat) : MmSys → Prop := Run MmSys.step MmSys.ok (MmSys.Init memMap nr)

abbrev MmSys.CondReach (memMap : Nat → Page) (nr : Nat) : MmSys → Prop :=
  Run MmSys.step MmSys.cond (MmSys.Init memMap nr)

/-! ## The heap of a process -/

def ProcMm.heapPages (mm : ProcMm) : Nat := (mm.brk - mm.startBrk) / pageSize

/-- The heap is a range of mapped pages, and `copy_mm` takes one round for each: fewer do not end, more change nothing. -/
structure HeapOk (mem : Mem) (mm : ProcMm) : Prop where
  le : mm.startBrk ≤ mm.brk
  aligned : mm.brk % pageSize = 0
  mapped : ∀ a, mm.startBrk ≤ a → a < mm.brk → ∃ x, translate mem mm.pgd a = some x
  rounds_lt : ∀ rounds ≤ mm.heapPages, ∀ pgd s, copyRange mm.pgd pgd rounds s mm.startBrk mm.brk = none
  rounds_ge : ∀ rounds, mm.heapPages < rounds → ∀ pgd s, copyRange mm.pgd pgd rounds s mm.startBrk mm.brk =
    copyRange mm.pgd pgd (mm.heapPages + 1) s mm.startBrk mm.brk

end FengOS.Mm
