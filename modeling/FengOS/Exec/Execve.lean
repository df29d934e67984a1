import FengOS.Exec.Args
import FengOS.Mm.Brk
import FengOS.Vfs.Table

/-!
# `do_execve` (`core/exec.c`)

The kernel reads the program through the VFS; while it waits, other processes make requests. Assertions only print, so that a
short read does not end the call. There is no result if memory runs out, and objects of `kmalloc` are kept apart from the
memory.
-/

namespace FengOS.Exec

open FengOS.Lib
open FengOS.Mm (Machine ProcMm Phdr Seg pageSize getZeroedPage freePage mapPage freeProcMm kmap LoadVars userByte
  userAddr userStackEnd userBrkStart ptLoad procMmSegSize virtual walk)

/-! ## Headers -/

structure Ehdr where
  eIdent : List Nat
  eType : Nat
  eMachine : Nat
  eEntry : Nat
  ePhoff : Nat
  ePhnum : Nat
  deriving DecidableEq, Repr

def ehdrSize : Nat := 64
def phdrSize : Nat := 56

def ehdrOf (bytes : Mem) : Ehdr where
  eIdent := (List.range 16).map fun i => bytes.load i 1
  eType := bytes.load 16 2
  eMachine := bytes.load 18 2
  eEntry := bytes.load 24 8
  ePhoff := bytes.load 32 8
  ePhnum := bytes.load 56 2

def phdrOf (bytes : Mem) (i : Nat) : Phdr where
  pType := bytes.load (phdrSize * i) 4
  pOffset := bytes.load (phdrSize * i + 8) 8
  pVaddr := bytes.load (phdrSize * i + 16) 8
  pFilesz := bytes.load (phdrSize * i + 32) 8
  pMemsz := bytes.load (phdrSize * i + 40) 8

/-- `verify_ehdr`: the magic number, `ELFCLASS64`, `ET_EXEC` and `EM_X86_64`. -/
def verifyEhdr (ehdr : Ehdr) : Bool :=
  ehdr.eIdent.take 5 = [0x7f, 0x45, 0x4c, 0x46, 2] && ehdr.eType = 2 && ehdr.eMachine = 62

/-! ## The state -/

/-- The VFS, the machine, the memory of the process, the objects of `kmalloc` in use and the number of requests so far. -/
structure ExecSys where
  vfs : Vfs.State
  machine : Machine
  mm : ProcMm
  objs : List Nat
  nr : Nat

/-- What is around a call: the process, the servers and the requests of others at each request, and the objects of `kmalloc`.
-/
structure ExecEnv where
  pid : Nat
  fs : Nat → Vfs.Fs
  others : Nat → List Vfs.Call
  data : Nat → Mem
  ehdr : Nat
  phdrTable : Nat

def ExecSys.request (env : ExecEnv) (x : ExecSys) (request : Vfs.Request) : Option (Int × ExecSys) := do
  let (ret, v) ← x.vfs.process ⟨env.pid, request, env.fs x.nr⟩
  let v ← (env.others x.nr).foldlM Vfs.State.step v
  return (ret, { x with vfs := v, nr := x.nr + 1 })

/-- The size of the largest cache. -/
def kmallocMax : Nat := 2 ^ 15

def kmalloc (x : ExecSys) (size obj : Nat) : Option (Nat × ExecSys) :=
  if kmallocMax < size ∨ obj = 0 then none else some (obj, { x with objs := obj :: x.objs })

def kfree (x : ExecSys) (obj : Nat) : ExecSys := if obj = 0 then x else { x with objs := x.objs.erase obj }

def ExecSys.freePage (x : ExecSys) (addr : Nat) : ExecSys :=
  { x with machine := { x.machine with alloc := Mm.freePage x.machine.alloc addr } }

def ExecSys.view (x : ExecSys) : Mem := fun a =>
  if a < 2 ^ 47 then (userByte x.machine x.mm.pgd a).getD 0 else x.machine.mem a

/-! ## Requests -/

/-- A number of 64 bits as an `off_t`. -/
def toOff (x : Nat) : Int := if x < 2 ^ 63 then x else (x : Int) - 2 ^ 64

def openExec (env : ExecEnv) (x : ExecSys) (pathname : Vfs.CString) : Option (Int × ExecSys) := do
  let (ret, x) ← x.request env (.open pathname 0)
  return (toInt ret, x)

def readExec (env : ExecEnv) (x : ExecSys) (fd : Int) (nbytes : Nat) : Option (Int × ExecSys) :=
  x.request env (.read fd nbytes)

def lseekExec (env : ExecEnv) (x : ExecSys) (fd offset : Int) : Option (Int × ExecSys) := x.request env (.lseek fd offset 0)

/-! ## Segments -/

/-- The part of a round that reads. The VFS keeps the position; `pos` only counts along. -/
def readPart (env : ExecEnv) (fd : Int) (x : ExecSys) (vars : LoadVars) : Option (ExecSys × LoadVars) :=
  if 0 < vars.filesz then do
    let left := (vars.segStart + (2 ^ 64 - vars.copyaddr)) % 2 ^ 64
    let copysz := if vars.filesz < left then vars.filesz else left
    let buf := kmap x.machine.mem x.mm.pgd vars.copyaddr
    let bytes := env.data x.nr
    let (n, x) ← readExec env x fd copysz
    let mem := x.machine.mem.write buf bytes (min n.toNat copysz)
    return ({ x with machine := { x.machine with mem := mem } }, { vars with
      filesz := vars.filesz - copysz, copyaddr := (vars.copyaddr + copysz) % 2 ^ 64, pos := vars.pos + copysz })
  else some (x, vars)

def zeroPart (x : ExecSys) (vars : LoadVars) : Option (ExecSys × LoadVars) :=
  (Mm.zeroPart x.mm.pgd x.machine.mem vars).map fun r => ({ x with machine := { x.machine with mem := r.1 } }, r.2)

def loadPages (env : ExecEnv) (fd : Int) : Nat → ExecSys → LoadVars → Option ExecSys
  | 0, x, _ => some x
  | pageNum + 1, x, vars => do
    let (_, s) ← mapPage x.machine x.mm.pgd vars.segStart
    let vars := { vars with segStart := (vars.segStart + pageSize) % 2 ^ 64 }
    let (x, vars) ← readPart env fd { x with machine := s } vars
    let (x, vars) ← zeroPart x vars
    loadPages env fd pageNum x vars

/-- The loop over the program headers. There is no result if it writes behind the end of `psegs`. -/
def loadSegments (env : ExecEnv) (fd : Int) : List Phdr → ExecSys → Option ExecSys
  | [], x => some x
  | phdr :: phdrs, x =>
    if phdr.pType ≠ ptLoad then loadSegments env fd phdrs x
    else if procMmSegSize ≤ x.mm.psegs.length then none
    else do
      let psegs := x.mm.psegs ++ [⟨phdr.pVaddr, (phdr.pVaddr + phdr.pMemsz) % 2 ^ 64⟩]
      let (_, x) ← lseekExec env { x with mm := { x.mm with psegs := psegs } } fd (toOff phdr.pOffset)
      let x ← loadPages env fd phdr.pageNum x ⟨phdr.start, phdr.pFilesz, phdr.pVaddr, phdr.pOffset⟩
      loadSegments env fd phdrs x

/-! ## The call -/

/-- The new address space with its stack: the address of the arguments on it, and the state. -/
def newStack (x : ExecSys) (argv envp : Nat) : Option (Nat × ExecSys) := do
  let (_, s) := freeProcMm x.machine x.mm.pgd
  let (high, s) ← mapPage s x.mm.pgd (userStackEnd - pageSize)
  let (low, s) ← mapPage s x.mm.pgd (userStackEnd - 2 * pageSize)
  let (endStack, mem) ← setupArgs { x with machine := s }.view argv envp userStackEnd pageSize
  let highBytes := fun i => mem (userStackEnd - pageSize + i)
  let lowBytes := fun i => mem (userStackEnd - 2 * pageSize + i)
  return (endStack, { x with
    machine := { s with mem := (s.mem.write high highBytes pageSize).write low lowBytes pageSize }
    mm := { x.mm with
      psegs := []
      startBrk := userBrkStart
      brk := userBrkStart
      startStack := userStackEnd - 2 * pageSize
      endStack := userStackEnd } })

def keepArgs (x : ExecSys) (argv envp : Nat) : Option (Int × Nat × Nat × Nat × ExecSys) := do
  let (argsbuf, s) ← getZeroedPage x.machine
  let x := { x with machine := s }
  let (ret, mem, argv, envp) ← dupArgs x.view argv envp argsbuf pageSize
  let mem := fun a => if a < 2 ^ 47 then s.mem a else mem a
  return (ret, argsbuf, argv, envp, { x with machine := { s with mem := mem } })

/-- The call returns -1, or the process goes on at the entry with its new stack. -/
inductive Outcome where
  | failed
  | switched (entry endStack : Nat)
  deriving DecidableEq, Repr

/-- The label `failed`. -/
def execFailed (x : ExecSys) (ehdr argsbuf : Nat) : Outcome × ExecSys := (.failed, (kfree x ehdr).freePage argsbuf)

/-- `do_execve` from the point where it no longer fails. -/
def loadProgram (env : ExecEnv) (x : ExecSys) (fd : Int) (ehdr : Nat) (header : Ehdr) (argsbuf argv envp : Nat) :
    Option (Outcome × ExecSys) := do
  let (endStack, x) ← newStack x argv envp
  let (table, x) ← kmalloc x (header.ePhnum * phdrSize) env.phdrTable
  let (_, x) ← lseekExec env x fd (toOff header.ePhoff)
  let phdrs := (List.range header.ePhnum).map (phdrOf (env.data x.nr))
  let (_, x) ← readExec env x fd (header.ePhnum * phdrSize)
  let x ← loadSegments env fd phdrs x
  return (.switched header.eEntry endStack, (kfree (kfree x ehdr) table).freePage argsbuf)

def execOpened (env : ExecEnv) (x : ExecSys) (fd : Int) (argv envp : Nat) : Option (Outcome × ExecSys) := do
  let (ehdr, x) ← kmalloc x ehdrSize env.ehdr
  let header := ehdrOf (env.data x.nr)
  let (n, x) ← readExec env x fd ehdrSize
  if toInt n ≠ ehdrSize then return execFailed x ehdr 0
  else if ! verifyEhdr header then return execFailed x ehdr 0
  else
    let (ret, argsbuf, argv, envp, x) ← keepArgs x argv envp
    if ret ≠ 0 then return execFailed x ehdr argsbuf
    else loadProgram env x fd ehdr header argsbuf argv envp

def doExecve (env : ExecEnv) (x : ExecSys) (pathname : Vfs.CString) (argv envp : Nat) : Option (Outcome × ExecSys) := do
  let (fd, x) ← openExec env x pathname
  if fd < 0 then return execFailed x 0 0 else execOpened env x fd argv envp

/-! ## What a call leaves behind -/

/-- The descriptors of a process; its first request makes the standard table. -/
def descriptor (v : Vfs.State) (pid fd : Nat) : Option Vfs.File := ((v.table pid).getD v.stdTable).files fd

/-- Only pages of the address space are new, and it is the old one if the call fails. -/
structure NoResidue (pid : Nat) (x : ExecSys) (out : Outcome) (x' : ExecSys) : Prop where
  descriptors : ∀ fd, descriptor x.vfs pid fd = none → descriptor x'.vfs pid fd = none
  objs : x'.objs = x.objs
  pages : ∀ l ∈ x'.machine.alloc.live, l ∈ x.machine.alloc.live ∨
    ∃ a < 2 ^ 47, virtual l.1 ∈ walk x'.machine.mem x'.mm.pgd a
  space : out = .failed → x'.mm = x.mm ∧ ∀ a, userAddr x'.machine.mem x.mm.pgd a = userAddr x.machine.mem x.mm.pgd a ∧
    userByte x'.machine x.mm.pgd a = userByte x.machine x.mm.pgd a

/-- The path leads nowhere, or all descriptors are in use. -/
def OpenFails (fs : Vfs.Fs) (v : Vfs.State) (pid : Nat) (path : Vfs.Name) : Prop :=
  (Vfs.vfsLookup fs v ((v.table pid).getD v.stdTable).cwd path).map Prod.fst = some none ∨
    ∀ fd < Vfs.nrFiles, descriptor v pid fd ≠ none

end FengOS.Exec
