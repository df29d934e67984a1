import FengOS.Exec.Execve

/-!
# The segments of a process (`mm.psegs` and `mm.nr_seg` in `core/exec.c`, `core/sched.c` and `core/fork.c`)

The structure `mm` is a sequence of bytes, in which `nr_seg` is the byte behind the array `psegs`, in front of the limits of
the heap and the stack.
-/

namespace FengOS.Exec

open FengOS.Lib
open FengOS.Mm (Machine Phdr Seg pageSize mapPage ptLoad procMmSegSize)

/-! ## The structure `mm` -/

/-- The offset of `psegs` in `mm`, the size of an element, and the offset of `nr_seg`. -/
def psegsAt : Nat := 16
def segSize : Nat := 24
def nrSegAt : Nat := psegsAt + segSize * procMmSegSize

def nrSeg (mm : Mem) : Nat := mm.load nrSegAt 1

/-- The offset of `proc->mm.psegs[i]`: the flags, then `vstart` and `vend`. -/
def segAt (i : Nat) : Nat := psegsAt + segSize * i

def segOf (mm : Mem) (i : Nat) : Seg := ⟨mm.load (segAt i + 8) 8, mm.load (segAt i + 16) 8⟩

/-- The segments that the loop of `copy_mm` copies. -/
def forkSegs (mm : Mem) : List Seg := (List.range (nrSeg mm)).map (segOf mm)

/-! ## Program headers -/

structure SegHeader extends Phdr where
  pFlags : Nat
  deriving DecidableEq, Repr

/-- A program header, which `do_execve` reads and `module_proc` finds in the module. -/
def segHeaderOf (table : Mem) (i : Nat) : SegHeader := { phdrOf table i with pFlags := table.load (phdrSize * i + 4) 4 }

def segHeaders (table : Mem) (ePhnum : Nat) : List SegHeader := (List.range ePhnum).map (segHeaderOf table)

def segLoads (phdrs : List SegHeader) : List SegHeader := phdrs.filter fun phdr => phdr.pType = ptLoad

def SegHeader.seg (phdr : SegHeader) : Seg := ⟨phdr.pVaddr, (phdr.pVaddr + phdr.pMemsz) % 2 ^ 64⟩

/-! ## Recording -/

/-- The assignments to `psegs[nr_seg]` and `nr_seg++`, each of which reads `nr_seg` again, with the indices written. -/
def recordSeg (phdr : SegHeader) (mm : Mem) : List Nat × Mem :=
  let mm₁ := mm.store (segAt (nrSeg mm) + 8) phdr.pVaddr 8
  let mm₂ := mm₁.store (segAt (nrSeg mm₁) + 16) ((phdr.pVaddr + phdr.pMemsz) % 2 ^ 64) 8
  let mm₃ := mm₂.store (segAt (nrSeg mm₂)) phdr.pFlags 4
  ([nrSeg mm, nrSeg mm₁, nrSeg mm₂], mm₃.store nrSegAt ((nrSeg mm₃ + 1) % 2 ^ 8) 1)

/-- What the loops of `do_execve` and `module_proc` over the program headers do to `mm`. -/
def recordSegs : List SegHeader → Mem → List Nat × Mem
  | [], mm => ([], mm)
  | phdr :: phdrs, mm =>
    if phdr.pType ≠ ptLoad then recordSegs phdrs mm
    else
      let (indices, mm) := recordSeg phdr mm
      let (rest, mm) := recordSegs phdrs mm
      (indices ++ rest, mm)

def noSegs (mm : Mem) : Mem := mm.store nrSegAt 0 1

def modulePages (pgd : Nat) : Nat → Machine → Nat → Option Machine
  | 0, s, _ => some s
  | pageNum + 1, s, segStart => do
    let (_, s) ← mapPage s pgd segStart
    modulePages pgd pageNum s ((segStart + pageSize) % 2 ^ 64)

def moduleSegments (pgd : Nat) : List SegHeader → Mem → Machine → Option (Mem × Machine)
  | [], mm, s => some (mm, s)
  | phdr :: phdrs, mm, s =>
    if phdr.pType ≠ ptLoad then moduleSegments pgd phdrs mm s
    else do
      let s ← modulePages pgd phdr.pageNum s phdr.start
      moduleSegments pgd phdrs (recordSeg phdr mm).2 s

/-! ## What is expected -/

/-- Only the array is written, `nr_seg` counts the loaded segments, and `fork` copies them. -/
structure SegsRecorded (mm : Mem) (phdrs : List SegHeader) : Prop where
  indices : ∀ i ∈ (recordSegs phdrs (noSegs mm)).1, i < procMmSegSize
  count : nrSeg (recordSegs phdrs (noSegs mm)).2 = (segLoads phdrs).length
  forked : forkSegs (recordSegs phdrs (noSegs mm)).2 = (segLoads phdrs).map SegHeader.seg

end FengOS.Exec
