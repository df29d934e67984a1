import FengOS.Ext2.Failure
import FengOS.Ext2.Scan
import FengOS.Vfs.Replies

/-!
# Sizes of files (`srv/vfs/vfs.c` with `srv/ext2/main.c`)

The two servers together. A dentry holds the size that `ext2_lookup` gave, and `vfs_open` and `vfs_lseek` take it for the end
of the file; `ext2_write` changes the size in the inode. Both handle one message at a time.
-/

namespace FengOS.Vfs

open FengOS.Lib

/-! ## The server of ext2 -/

/-- The answer of ext2 as an `int`, with its state afterwards; `fuel` bounds the blocks of a directory. -/
def serve (fuel : Nat) (buf : Nat → UInt8) (fs : Ext2.Fs) : FsMsg → Option (FsReply × Ext2.Fs)
  | .lookup filename pino =>
    (Ext2.ext2Lookup (fs.sb.blockSize + 1) fuel fs filename pino).map fun r =>
      (r.1.elim ⟨-1, ⟨0, 0, 0⟩⟩ fun e => ⟨0, ⟨e.fIno, e.fSize, e.fMode⟩⟩, r.2)
  | .write size inode _ offset =>
    (Ext2.ext2Write fs inode buf offset size).map fun r => (⟨toInt r.1, ⟨0, 0, 0⟩⟩, r.2)
  | _ => none

def serveAll (fuel : Nat) (buf : Nat → UInt8) : Ext2.Fs → List (Nat × FsMsg) → Option Ext2.Fs
  | fs, [] => some fs
  | fs, (pid, msg) :: msgs =>
    if pid = ipcExt2 then (serve fuel buf fs msg).bind fun r => serveAll fuel buf r.2 msgs
    else serveAll fuel buf fs msgs

/-! ## Both servers -/

structure Servers where
  vfs : State
  ext2 : Ext2.Fs

/-- The requests that take a size for the end of a file or change one, and `close`. -/
inductive FileOp where
  | open (filepath : CString) (oflag : Nat)
  | write (fd : Int) (size : Nat) (buf : Nat → UInt8)
  | lseek (fd offset whence : Int)
  | close (fd : Int)

def FileOp.request : FileOp → Request
  | .open filepath oflag => .open filepath oflag
  | .write fd size _ => .write fd size
  | .lseek fd offset whence => .lseek fd offset whence
  | .close fd => .close fd

def FileOp.buf : FileOp → Nat → UInt8
  | .write _ _ buf => buf
  | _ => fun _ => 0

structure Op where
  src : Nat
  op : FileOp
  devices : Fs
  fuel : Nat

def Servers.answers (s : Servers) (o : Op) : Fs := fun pid msg =>
  if pid = ipcExt2 then (serve o.fuel o.op.buf s.ext2 msg).map Prod.fst else o.devices pid msg

def Servers.call (s : Servers) (o : Op) : Call := ⟨o.src, o.op.request, s.answers o⟩

def Servers.process (s : Servers) (o : Op) : Option (Int × Servers) := do
  let (r, vfs) ← s.vfs.process (s.call o)
  let ext2 ← serveAll o.fuel o.op.buf s.ext2 (s.vfs.forwarded (s.call o))
  return (r, ⟨vfs, ext2⟩)

def Servers.step (s : Servers) (o : Op) : Option Servers := (s.process o).map Prod.snd

def Servers.Booted (s : Servers) : Prop :=
  ∃ disk bad junk, Ext2.ext2Mount disk bad junk = some s.ext2 ∧
    s.vfs = mounted ⟨Ext2.ext2RootIno, Ext2.fileSize s.ext2 Ext2.ext2RootIno,
      Ext2.iMode (Ext2.getinode s.ext2 Ext2.ext2RootIno).1⟩

/-! ## Sizes that agree -/

/-- The size in a dentry is that in the inode, and a file that is opened with `O_APPEND` begins at its end. -/
structure SizesAgree (s : Servers) : Prop where
  dentry : ∀ d, (s.vfs.dentry d).fsPid = ipcExt2 → (s.vfs.dentry d).size = Ext2.fileSize s.ext2 (s.vfs.dentry d).ino
  append : ∀ o filepath oflag fd s', o.op = .open filepath oflag → oflag &&& oAppend ≠ 0 → s.process o = some (fd, s') →
    ∀ d f, s'.vfs.openFile o.src fd = some (d, f) → d.fsPid = ipcExt2 → f.pos = Ext2.fileSize s'.ext2 d.ino

/-- The request writes nothing to a file of ext2. -/
def WritesNothing (s : Servers) (o : Op) : Prop :=
  match o.op with
  | .write fd size _ => ∀ d f, s.vfs.openFile o.src fd = some (d, f) → d.fsPid = ipcExt2 →
      Ext2.CopiesNothing s.ext2 d.ino f.pos size
  | _ => True

end FengOS.Vfs
