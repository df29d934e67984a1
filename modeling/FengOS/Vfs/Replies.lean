import FengOS.Lib.Mem
import FengOS.Vfs.Copies

/-!
# What a client gets back (`do_process` in `srv/vfs/vfs.c`)

The messages that a request sends to the servers, and the value that the client sees: a `long` of `vfs_lseek` and
`vfs_getdents`, otherwise an `int`.
-/

namespace FengOS.Vfs

open FengOS.Lib

/-! ## Descriptors -/

def Request.fd : Request → Option Int
  | .read fd _ => some fd
  | .write fd _ => some fd
  | .close fd => some fd
  | .lseek fd _ _ => some fd
  | .getdents fd _ => some fd
  | _ => none

structure State.Untouched (v w : State) : Prop where
  table : ∀ pid, w.mapProcFile pid = v.mapProcFile pid
  file : ∀ filp, w.file filp = v.file filp
  count : ∀ d, (w.dentry d).count = (v.dentry d).count

/-! ## Messages to the servers -/

def State.openFile (v : State) (pid : Nat) (fd : Int) : Option (Dentry × File) := do
  let (filp, v) ← v.getfilp pid fd
  let f ← v.file (← filp)
  return (v.dentry f.dentry, f)

def lookupMsgs (fs : Fs) : List Name → Option Nat → State → List (Nat × FsMsg)
  | [], _, _ => []
  | filename :: rest, current, v =>
    if filenameSize ≤ filename.length then []
    else if filename = dotdot then current.elim [] fun d => lookupMsgs fs rest (v.dentry d).parent v
    else if filename = dot then lookupMsgs fs rest current v
    else current.elim [] fun d =>
      (if v.cached d filename = none then [((v.dentry d).fsPid, .lookup filename (v.dentry d).ino)] else []) ++
        match child fs v d filename with
        | some (some next, v) => lookupMsgs fs rest (some next) v
        | _ => []

def statMsgs (found : Option (Option Nat × State)) : List (Nat × FsMsg) :=
  match found with
  | some (some entry, v) => [((v.dentry entry).fsPid, .stat (v.dentry entry).ino)]
  | _ => []

def State.pathMsgs (v : State) (call : Call) : List (Nat × FsMsg) :=
  match v.lookups call with
  | none => []
  | some (w, cwd, path) =>
    lookupMsgs call.fs (pathNames path) (some (w.start cwd path)) w ++
      match call.request with
      | .stat _ => statMsgs (vfsLookup call.fs w cwd path)
      | _ => []

def State.forwarded (v : State) (call : Call) : List (Nat × FsMsg) :=
  match call.request with
  | .read fd size => (v.openFile call.src fd).toList.map fun r => (r.1.fsPid, .read size r.1.ino r.1.size r.2.pos)
  | .write fd size => (v.openFile call.src fd).toList.map fun r => (r.1.fsPid, .write size r.1.ino r.1.size r.2.pos)
  | .getdents fd count => (v.openFile call.src fd).toList.map fun r => (r.1.fsPid, .getdents r.1.ino r.2.pos count)
  | .mkdir name mode => (v.mapProcFile call.src).toList.map fun fsp =>
    ((v.dentry fsp.cwd).fsPid, .mkdir (v.dentry fsp.cwd).ino name mode)
  | _ => v.pathMsgs call

/-! ## Replies to the client -/

def Request.narrow : Request → Int → Int
  | .lseek _ _ _, r => r
  | .getdents _ _, r => r
  | _, r => toInt r

def State.reply (v : State) (call : Call) : Option (Int × State) :=
  (v.process call).map fun r => (call.request.narrow r.1, r.2)

/-- Messages that are answered with a number of bytes. -/
def FsMsg.IsCount : FsMsg → Prop
  | .lookup _ _ => False
  | .stat _ => False
  | _ => True

/-- Failures of the servers are reported, the counts are passed on, and `stat` needs an answer of a server. -/
structure Reports (v : State) (call : Call) : Prop where
  failed : ∀ m ∈ v.forwarded call, ∀ reply, call.fs m.1 m.2 = some reply → reply.retval < 0 →
    ∃ r w, v.reply call = some (r, w) ∧ r < 0
  count : ∀ m ∈ v.forwarded call, m.2.IsCount → ∀ reply, call.fs m.1 m.2 = some reply → 0 ≤ reply.retval →
    ∃ w, v.reply call = some (reply.retval, w)
  stat : ∀ pathname w, call.request = .stat pathname → v.reply call = some (0, w) →
    ∃ pid inode reply, (pid, .stat inode) ∈ v.forwarded call ∧ call.fs pid (.stat inode) = some reply ∧ 0 ≤ reply.retval

/-- A count is an `int`, a failure is negative as an `int`, and `MSG_FSSTAT` does not fail. -/
def FsMsg.GetsThrough : FsMsg → Int → Prop
  | .lookup _ _, _ => True
  | .getdents _ _ _, _ => True
  | .stat _, retval => 0 ≤ retval
  | _, retval => if 0 ≤ retval then retval < 2 ^ 31 else 2 ^ 31 ≤ retval % 2 ^ 32

end FengOS.Vfs
