import FengOS.Lib.Chain

/-!
# Dentries, open files and their tables (`srv/vfs/vfs.c`, `vfs.h`)

Dentries and open files are numbered in the order of their allocation. The file systems are functions from messages to
replies; one that does not reply stands for a failing `_kmap` or `_sendrecv`. There is no result after a null or freed
pointer or a write beyond a buffer. Assertions only print.
-/

namespace FengOS.Vfs

open FengOS.Lib

/-- The bytes of a string, without the terminating 0. -/
abbrev Name : Type := List UInt8

/-! ## Messages to the servers -/

/-- What a server writes to a dentry. -/
structure FsEntry where
  ino : Nat
  size : Nat
  mode : Nat

inductive FsMsg where
  | lookup (filename : Name) (pino : Nat)
  | read (size inode fsize : Nat) (offset : Int)
  | write (size inode fsize : Nat) (offset : Int)
  | stat (inode : Nat)
  | getdents (inode : Nat) (offset : Int) (nbytes : Nat)
  | mkdir (ino : Nat) (name : Name) (mode : Nat)

structure FsReply where
  retval : Int
  dentry : FsEntry

/-- The reply of a process to a message. -/
abbrev Fs : Type := Nat → FsMsg → Option FsReply

/-! ## The state of the server -/

structure Dentry where
  fsPid : Nat
  ino : Nat
  count : Int
  size : Nat
  mode : Nat
  name : Name
  parent : Option Nat
  children : List Nat

structure File where
  mode : Nat
  dentry : Nat
  pos : Int

structure ProcFile where
  pid : Nat
  filp : Nat → Option Nat
  cwd : Nat

structure State where
  dentry : Nat → Dentry
  nrDentry : Nat
  file : Nat → Option File
  nrFile : Nat
  fileMap : Chain.Table ProcFile
  rootEntry : Nat
  stdin : Nat
  stdout : Nat
  stderr : Nat

def nrFiles : Nat := 64

def fileMapSize : Nat := 1024

def State.addCount (v : State) (d : Nat) (k : Int) : State :=
  { v with dentry := Function.update v.dentry d { v.dentry d with count := (v.dentry d).count + k } }

/-! ## Tables of processes -/

def State.mapProcFile (v : State) (pid : Nat) : Option ProcFile := Chain.find ProcFile.pid fileMapSize v.fileMap pid

def State.unmapProcFile (v : State) (pid : Nat) : State :=
  { v with fileMap := Chain.erase ProcFile.pid fileMapSize v.fileMap pid }

/-- The `assert` only prints if the pid is 0, but this is the idle process, which sends nothing: there is no result for it. Pids
of senders and of new processes are positive. -/
def State.appendProcFile (v : State) (fsp : ProcFile) : Option (Int × State) :=
  if fsp.pid = 0 then none
  else if (v.mapProcFile fsp.pid).isSome then some (-1, v)
  else some (0, { v with fileMap := Chain.append ProcFile.pid fileMapSize v.fileMap fsp })

def State.setProcFile (v : State) (fsp : ProcFile) : State :=
  { v with fileMap := Chain.replace ProcFile.pid fileMapSize v.fileMap fsp }

/-! ## Open files -/

def State.newFile (v : State) (f : File) : Nat × State :=
  (v.nrFile, { v with file := Function.update v.file v.nrFile (some f), nrFile := v.nrFile + 1 })

def State.setFile (v : State) (filp : Nat) (f : File) : State :=
  { v with file := Function.update v.file filp (some f) }

def State.makeFilp (v : State) (mode entry : Nat) : Nat × State :=
  let (filp, v) := v.newFile ⟨mode, entry, 0⟩
  (filp, v.addCount entry 1)

def State.freeFilp (v : State) (filp : Nat) : Option State := do
  let f ← v.file filp
  return { v.addCount f.dentry (-1) with file := Function.update v.file filp none }

def State.makeStd (v : State) (fsp : ProcFile) : ProcFile × State :=
  let (f₀, v) := v.makeFilp (v.dentry v.stdin).mode v.stdin
  let (f₁, v) := v.makeFilp (v.dentry v.stdout).mode v.stdout
  let (f₂, v) := v.makeFilp (v.dentry v.stderr).mode v.stderr
  let filp := Function.update (Function.update (Function.update fsp.filp 0 (some f₀)) 1 (some f₁)) 2 (some f₂)
  ({ fsp with filp := filp }, v)

def State.initProcFile (v : State) (pid : Nat) : ProcFile × State :=
  (v.addCount v.rootEntry 1).makeStd ⟨pid, fun _ => none, v.rootEntry⟩

def State.needProcFile (v : State) (pid : Nat) : Option (ProcFile × State) :=
  match v.mapProcFile pid with
  | some fsp => some (fsp, v)
  | none => do
    let (fsp, v) := v.initProcFile pid
    let (_, v) ← v.appendProcFile fsp
    return (fsp, v)

def State.getfilp (v : State) (pid : Nat) (fd : Int) : Option (Option Nat × State) := do
  let (fsp, v) ← v.needProcFile pid
  return (if 0 ≤ fd ∧ fd < nrFiles then fsp.filp fd.toNat else none, v)

/-! ## Mounting -/

/-- `IPC_EXT2`, `IPC_KERNEL`, `IPC_VIDEO` and `IPC_KB`. -/
def ipcExt2 : Nat := 7
def ipcKernel : Nat := 0x0fffffff
def ipcVideo : Nat := 5
def ipcKb : Nat := 4

def slash : UInt8 := 0x2f

def dot : Name := [0x2e]

def dotdot : Name := [0x2e, 0x2e]

def devName : Name := [0x64, 0x65, 0x76]

def videoName : Name := [0x76, 0x69, 0x64, 0x65, 0x6f]

def keyboardName : Name := [0x6b, 0x65, 0x79, 0x62, 0x6f, 0x61, 0x72, 0x64]

def Dentry.zero : Dentry := ⟨0, 0, 0, 0, 0, [], none, []⟩

def mountRoot (root : FsEntry) : State where
  dentry := Function.update (fun _ => .zero) 0 ⟨ipcExt2, root.ino, 1, root.size, root.mode, [slash], some 0, []⟩
  nrDentry := 1
  file := fun _ => none
  nrFile := 0
  fileMap := fun _ => []
  rootEntry := 0
  stdin := 0
  stdout := 0
  stderr := 0

/-- `malloc` of a dentry, and the link at the end of `f_children` with the reference it takes. -/
def State.linkTail (v : State) (parent : Nat) (d : Dentry) : State :=
  let p := v.dentry parent
  let parent' := { p with count := p.count + 1, children := p.children ++ [v.nrDentry] }
  { v with dentry := Function.update (Function.update v.dentry v.nrDentry d) parent parent', nrDentry := v.nrDentry + 1 }

structure DevFile where
  name : Name
  driverPid : Nat
  mode : Nat

def devTable : List DevFile := [⟨videoName, ipcVideo, 0x92⟩, ⟨keyboardName, ipcKb, 0x124⟩]

def devLoop (devDir : Nat) : Nat → List DevFile → State → State
  | _, [], v => v
  | i, dev :: devs, v =>
    let d := v.nrDentry
    let v := v.linkTail devDir
      { Dentry.zero with fsPid := dev.driverPid, ino := i, count := 1, mode := dev.mode, name := dev.name }
    let v :=
      if dev.driverPid = ipcVideo then { v with stdout := d, stderr := d }
      else if dev.driverPid = ipcKb then { v with stdin := d }
      else v
    devLoop devDir (i + 1) devs v

def State.mountDev (v : State) : State :=
  let devDir := v.nrDentry
  devLoop devDir 0 devTable
    (v.linkTail v.rootEntry { Dentry.zero with fsPid := ipcKernel, mode := 0x1b6, name := devName })

def mounted (root : FsEntry) : State := (mountRoot root).mountDev

end FengOS.Vfs
