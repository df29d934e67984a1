import FengOS.Lib.Run
import FengOS.Vfs.Lookup

/-!
# Requests (`do_process` in `srv/vfs/vfs.c`)

A request of a process changes the state and returns a value. `vfs_close` does not check its descriptor, so there is no
result if it is out of range.
-/

namespace FengOS.Vfs

open FengOS.Lib

/-! ## Requests on an open file -/

def State.onFile (v : State) (pid : Nat) (fd : Int) (call : Dentry → File → Int × Int) : Option (Int × State) := do
  let (filp, v) ← v.getfilp pid fd
  match filp with
  | none => return (-1, v)
  | some filp =>
    let f ← v.file filp
    let (ret, pos) := call (v.dentry f.dentry) f
    return (ret, v.setFile filp { f with pos := pos })

def moved (reply : Option FsReply) (pos : Int) : Int × Int :=
  match reply with
  | none => (-1, pos)
  | some reply => (reply.retval, if 0 < reply.retval then pos + reply.retval else pos)

def vfsRead (fs : Fs) (v : State) (pid : Nat) (fd : Int) (size : Nat) : Option (Int × State) :=
  v.onFile pid fd fun d f => moved (fs d.fsPid (.read size d.ino d.size f.pos)) f.pos

def vfsWrite (fs : Fs) (v : State) (pid : Nat) (fd : Int) (size : Nat) : Option (Int × State) :=
  v.onFile pid fd fun d f => moved (fs d.fsPid (.write size d.ino d.size f.pos)) f.pos

/-- The cases are `SEEK_SET`, `SEEK_CUR` and `SEEK_END`. -/
def vfsLseek (v : State) (pid : Nat) (fd offset whence : Int) : Option (Int × State) :=
  v.onFile pid fd fun d f =>
    match whence with
    | 0 => if offset < 0 then (-1, f.pos) else (offset, offset)
    | 1 => if f.pos + offset < 0 then (-1, f.pos) else (f.pos + offset, f.pos + offset)
    | 2 => if d.size + offset < 0 then (-1, f.pos) else (d.size + offset, d.size + offset)
    | _ => (-1, f.pos)

def vfsGetdents (fs : Fs) (v : State) (pid : Nat) (fd : Int) (nbytes : Nat) : Option (Int × State) :=
  v.onFile pid fd fun d f =>
    match fs d.fsPid (.getdents d.ino f.pos nbytes) with
    | none => (-1, f.pos)
    | some reply => if reply.retval < 0 then (-1, f.pos) else (reply.retval, f.pos + reply.retval)

/-! ## `vfs_open` and `vfs_close` -/

def oAppend : Nat := 0x400

def ProcFile.freeFd (fsp : ProcFile) : Option Nat := (List.range nrFiles).find? fun fd => (fsp.filp fd).isNone

def ProcFile.setFilp (fsp : ProcFile) (fd : Nat) (filp : Option Nat) : ProcFile :=
  { fsp with filp := Function.update fsp.filp fd filp }

def State.openEntry (v : State) (fsp : ProcFile) (entry oflag : Nat) : Int × State :=
  let d := v.dentry entry
  let (filp, v) := v.makeFilp d.mode entry
  let v := if oflag &&& oAppend ≠ 0 then v.setFile filp ⟨d.mode, entry, d.size⟩ else v
  match fsp.freeFd with
  | some fd => (fd, v.setProcFile (fsp.setFilp fd (some filp)))
  | none => (-1, v)

def vfsOpen (fs : Fs) (v : State) (pid : Nat) (path : Name) (oflag : Nat) : Option (Int × State) := do
  let (fsp, v) ← v.needProcFile pid
  let (entry, v) ← vfsLookup fs v fsp.cwd path
  match entry with
  | none => return (-1, v)
  | some entry => return v.openEntry fsp entry oflag

def vfsClose (v : State) (pid : Nat) (fd : Int) : Option (Int × State) := do
  let fsp ← v.mapProcFile pid
  if 0 ≤ fd ∧ fd < nrFiles then
    match fsp.filp fd.toNat with
    | none => return (0, v)
    | some filp =>
      let v ← v.freeFilp filp
      return (0, v.setProcFile (fsp.setFilp fd.toNat none))
  else none

/-! ## Requests on the current directory -/

def vfsGetcwd (v : State) (pid : Nat) (size : Int) : Option (Int × State) :=
  match v.mapProcFile pid with
  | none => some (-1, v)
  | some fsp => do
    let (n, _) ← getcwdstr v (v.nrDentry + 1) (some fsp.cwd) (fun _ => 0) size
    return (if n < 0 then -1 else 0, v)

def vfsChdir (fs : Fs) (v : State) (pid : Nat) (pathname : Name) : Option (Int × State) :=
  match v.mapProcFile pid with
  | none => some (-1, v)
  | some fsp => do
    let (newcwd, v) ← vfsLookup fs v fsp.cwd pathname
    match newcwd with
    | none => return (-1, v)
    | some newcwd => return (0, (v.addCount fsp.cwd (-1)).setProcFile { fsp with cwd := newcwd })

def vfsStat (fs : Fs) (v : State) (pid : Nat) (pathname : Name) : Option (Int × State) :=
  match v.mapProcFile pid with
  | none => some (-1, v)
  | some fsp => do
    let (entry, v) ← vfsLookup fs v fsp.cwd pathname
    match entry with
    | none => return (-1, v)
    | some entry =>
      let d := v.dentry entry
      return (if (fs d.fsPid (.stat d.ino)).isNone then -1 else 0, v)

def vfsMkdir (fs : Fs) (v : State) (pid : Nat) (name : Name) (mode : Nat) : Option (Int × State) :=
  match v.mapProcFile pid with
  | none => some (-1, v)
  | some fsp =>
    let d := v.dentry fsp.cwd
    match fs d.fsPid (.mkdir d.ino name mode) with
    | none => some (-1, v)
    | some reply => some (reply.retval, v)

/-! ## Requests of the kernel -/

def copyFiles (pfilp : Nat → Option Nat) :
    List Nat → (Nat → Option Nat) → State → Option ((Nat → Option Nat) × State)
  | [], filp, v => some (filp, v)
  | fd :: fds, filp, v =>
    match pfilp fd with
    | none => copyFiles pfilp fds filp v
    | some p => do
      let f ← v.file p
      let (n, v) := v.newFile f
      copyFiles pfilp fds (Function.update filp fd (some n)) (v.addCount f.dentry 1)

def vfsForkfs (v : State) (ppid pid : Nat) : Option (Int × State) := do
  let (pfsp, v) ← v.needProcFile ppid
  let (filp, v) ← copyFiles pfsp.filp (List.range nrFiles) (fun _ => none) (v.addCount pfsp.cwd 1)
  let (_, v) ← v.appendProcFile ⟨pid, filp, pfsp.cwd⟩
  return (0, v)

def freeFiles (filp : Nat → Option Nat) : List Nat → State → Option State
  | [], v => some v
  | fd :: fds, v =>
    match filp fd with
    | none => freeFiles filp fds v
    | some p => do
      let v ← v.freeFilp p
      freeFiles filp fds v

def vfsExecfs (v : State) (pid : Nat) : Option (Int × State) :=
  match v.mapProcFile pid with
  | none => do
    let (_, v) ← v.needProcFile pid
    return (0, v)
  | some fsp => do
    let v ← freeFiles fsp.filp (List.range nrFiles) v
    let (fsp, v) := v.makeStd { fsp with filp := fun _ => none }
    return (0, v.setProcFile fsp)

def vfsFreefs (v : State) (pid : Nat) : Option (Int × State) :=
  match v.mapProcFile pid with
  | none => some (0, v)
  | some fsp => do
    let v ← freeFiles fsp.filp (List.range nrFiles) v
    return (0, v.unmapProcFile pid)

/-! ## Runs of the server -/

/-- A string without a 0. -/
abbrev CString : Type := { s : Name // 0 ∉ s }

inductive Request where
  | read (fd : Int) (size : Nat)
  | write (fd : Int) (size : Nat)
  | open (filepath : CString) (oflag : Nat)
  | close (fd : Int)
  | lseek (fd offset whence : Int)
  | getcwd (size : Int)
  | chdir (pathname : CString)
  | stat (pathname : CString)
  | getdents (fd : Int) (count : Nat)
  | mkdir (name : CString) (mode : Nat)
  | forkfs (pid : Nat)
  | execfs
  | freefs
  | other

/-- A request with the process that sends it, and the servers of the file systems at that time. -/
structure Call where
  src : Nat
  request : Request
  fs : Fs

def State.process (v : State) (call : Call) : Option (Int × State) :=
  match call.request with
  | .read fd size => vfsRead call.fs v call.src fd size
  | .write fd size => vfsWrite call.fs v call.src fd size
  | .open filepath oflag => vfsOpen call.fs v call.src filepath oflag
  | .close fd => vfsClose v call.src fd
  | .lseek fd offset whence => vfsLseek v call.src fd offset whence
  | .getcwd size => vfsGetcwd v call.src size
  | .chdir pathname => vfsChdir call.fs v call.src pathname
  | .stat pathname => vfsStat call.fs v call.src pathname
  | .getdents fd count => vfsGetdents call.fs v call.src fd count
  | .mkdir name mode => vfsMkdir call.fs v call.src name mode
  | .forkfs pid => vfsForkfs v call.src pid
  | .execfs => vfsExecfs v call.src
  | .freefs => vfsFreefs v call.src
  | .other => some (-1, v)

def State.step (v : State) (call : Call) : Option State := (v.process call).map (·.2)

def Reach : State → Prop := Run State.step (fun _ _ => True) fun v => ∃ root, v = mounted root

end FengOS.Vfs
