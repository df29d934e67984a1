import FengOS.Mm.Copy

/-!
# Loading a program (the loop over the program headers of `do_execve` in `core/exec.c`)

The process is the running one, so that user addresses go through its top table. The messages of the VFS are left out; the
bytes of the file go to the address that `kmap` gives for the buffer.
-/

namespace FengOS.Mm

open FengOS.Lib

def ptLoad : Nat := 1

def procMmSegSize : Nat := 8

structure Phdr where
  pType : Nat
  pOffset : Nat
  pVaddr : Nat
  pFilesz : Nat
  pMemsz : Nat
  deriving DecidableEq, Repr

structure ExecFile where
  size : Nat
  byte : Nat → UInt8

/-! ## `memset` on user addresses -/

/-- The byte at a user address; addresses from `2 ^ 47` on are not canonical. -/
def userAddr (mem : Mem) (pgd addr : Nat) : Option Nat := if addr < 2 ^ 47 then translate mem pgd addr else none

/-- The loop of `memset` with the number of its rounds. There is no result if a store faults. -/
def memsetLoop (pgd : Nat) (value : UInt8) : Nat → Mem → Nat → Option Mem
  | 0, mem, _ => some mem
  | rounds + 1, mem, addr => do
    let b ← userAddr mem pgd addr
    memsetLoop pgd value rounds (Function.update mem b value) (addr + 1)

/-- `memset`, which counts down before it tests the counter. -/
def memsetUser (pgd : Nat) (mem : Mem) (addr : Nat) (value : UInt8) (n : Nat) : Option Mem :=
  memsetLoop pgd value ((n + (2 ^ 64 - 1)) % 2 ^ 64 + 1) mem addr

/-! ## The loops -/

/-- `read_exec` at the position `pos`: the number of bytes and the memory with them. -/
def readExec (file : ExecFile) (pgd : Nat) (mem : Mem) (pos buf nbytes : Nat) : Nat × Mem :=
  let n := min nbytes (file.size - pos)
  (n, mem.write (kmap mem pgd buf) (fun i => file.byte (pos + i)) n)

structure LoadVars where
  segStart : Nat
  filesz : Nat
  copyaddr : Nat
  pos : Nat
  deriving DecidableEq, Repr

/-- The part of a round that reads; no result for segments that cannot be read in full. -/
def readPart (file : ExecFile) (pgd : Nat) (mem : Mem) (vars : LoadVars) : Option (Mem × LoadVars) :=
  if 0 < vars.filesz then
    let left := (vars.segStart + (2 ^ 64 - vars.copyaddr)) % 2 ^ 64
    let copysz := if vars.filesz < left then vars.filesz else left
    let (n, mem) := readExec file pgd mem vars.pos vars.copyaddr copysz
    if n = copysz then
      some (mem, { vars with
        filesz := vars.filesz - copysz, copyaddr := (vars.copyaddr + copysz) % 2 ^ 64, pos := vars.pos + copysz })
    else none
  else some (mem, vars)

def zeroPart (pgd : Nat) (mem : Mem) (vars : LoadVars) : Option (Mem × LoadVars) :=
  if vars.filesz = 0 then do
    let copysz := (vars.segStart + (2 ^ 64 - vars.copyaddr)) % 2 ^ 64
    let mem ← memsetUser pgd mem vars.copyaddr 0 copysz
    return (mem, { vars with copyaddr := (vars.copyaddr + copysz) % 2 ^ 64 })
  else some (mem, vars)

def loadPages (file : ExecFile) (pgd : Nat) : Nat → Machine → LoadVars → Option Machine
  | 0, s, _ => some s
  | pageNum + 1, s, vars => do
    let (_, s) ← mapPage s pgd vars.segStart
    let vars := { vars with segStart := (vars.segStart + pageSize) % 2 ^ 64 }
    let (mem, vars) ← readPart file pgd s.mem vars
    let (mem, vars) ← zeroPart pgd mem vars
    loadPages file pgd pageNum { s with mem := mem } vars

def Phdr.start (p : Phdr) : Nat := pageLowerAlign p.pVaddr
def Phdr.last (p : Phdr) : Nat := pageUpperAlign ((p.pVaddr + p.pMemsz) % 2 ^ 64)

def Phdr.pageNum (p : Phdr) : Nat := (p.last + (2 ^ 64 - p.start)) % 2 ^ 64 / pageSize

/-- The loop over the program headers, with `psegs`; no result if it writes behind this array. -/
def loadSegments (file : ExecFile) (pgd : Nat) : List Seg → Machine → List Phdr → Option (List Seg × Machine)
  | psegs, s, [] => some (psegs, s)
  | psegs, s, phdr :: phdrs =>
    if phdr.pType ≠ ptLoad then loadSegments file pgd psegs s phdrs
    else if procMmSegSize ≤ psegs.length then none
    else do
      let s ← loadPages file pgd phdr.pageNum s ⟨phdr.start, phdr.pFilesz, phdr.pVaddr, phdr.pOffset⟩
      loadSegments file pgd (psegs ++ [⟨phdr.pVaddr, (phdr.pVaddr + phdr.pMemsz) % 2 ^ 64⟩]) s phdrs

/-! ## The image of a program -/

def loads (phdrs : List Phdr) : List Phdr := phdrs.filter fun phdr => phdr.pType = ptLoad

/-- Readable segments below `2 ^ 47`, in ascending order and without overlaps. -/
structure ElfOk (file : ExecFile) (segs : List Phdr) : Prop where
  sizes : ∀ p ∈ segs, p.pFilesz ≤ p.pMemsz
  bound : ∀ p ∈ segs, p.pVaddr + p.pMemsz ≤ 2 ^ 47
  readable : ∀ p ∈ segs, p.pOffset + p.pFilesz ≤ file.size
  ascending : segs.Pairwise fun p q => p.pVaddr + p.pMemsz ≤ q.pVaddr

def userByte (s : Machine) (pgd addr : Nat) : Option UInt8 := (userAddr s.mem pgd addr).map s.mem

/-- The segments hold the file and zeros up to the end of their pages, and only free frames have changed besides. -/
structure LoadedRight (file : ExecFile) (segs : List Phdr) (pgd : Nat) (s s' : Machine) : Prop where
  data : ∀ p ∈ segs, ∀ i < p.pFilesz, userByte s' pgd (p.pVaddr + i) = some (file.byte (p.pOffset + i))
  zero : ∀ p ∈ segs, ∀ a, p.pVaddr + p.pFilesz ≤ a → a < p.last → userByte s' pgd a = some 0
  other : ∀ a < 2 ^ 47, (∀ p ∈ segs, ¬ (p.start ≤ a ∧ a < p.last)) →
    userAddr s'.mem pgd a = userAddr s.mem pgd a ∧ userByte s' pgd a = userByte s pgd a
  frames : ∀ f, ¬ s.alloc.FreePage f → (∀ a < 2 ^ 47, virtual f ∉ walk s.mem pgd a) →
    ∀ b, virtual f ≤ b → b < virtual f + pageSize → s'.mem b = s.mem b

/-- Before the loop: into an empty lower half the pages of `us` were mapped, and only they have been written. -/
def Prepared (root : Nat) (s₀ : Machine) (us : List Nat) (s : Machine) : Prop :=
  ∃ vs s₁, mapPages (virtual root) s₀ us = some (vs, s₁) ∧ s.alloc = s₁.alloc ∧
    ∀ b, (∀ v ∈ vs, b < v ∨ v + pageSize ≤ b) → s.mem b = s₁.mem b

/-- There are at most eight segments, none ends its file part with a page, and what lies in the last page of another is zero.
-/
structure LoadCond (file : ExecFile) (segs : List Phdr) : Prop where
  count : segs.length ≤ procMmSegSize
  inside : ∀ p ∈ segs, 0 < p.pFilesz → (p.pVaddr + p.pFilesz) % pageSize ≠ 0
  shared : segs.Pairwise fun p q => ∀ i < q.pFilesz, q.pVaddr + i < p.last → file.byte (q.pOffset + i) = 0

def segPages (segs : List Phdr) : Nat := (segs.map Phdr.pageNum).sum

end FengOS.Mm
