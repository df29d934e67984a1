import FengOS.Vfs.Path
import FengOS.Vfs.Table

/-!
# Counts and references

A dentry is referred to by open files, directories of processes and cached children. `vfs_lookup` counts every name on the
way, and nobody gives these references back.
-/

namespace FengOS.Vfs

/-- What the count of a dentry has in excess of its references. -/
def State.excess (v : State) (d : Nat) : Int := (v.dentry d).count - (v.refs d + (v.dentry d).children.length)

/-! ## Lookups that keep the balance -/

def Dots (ns : List Name) : Prop := ∀ n ∈ ns, n = dot ∨ n = dotdot

def State.climb (v : State) : List Name → Nat → Option Nat
  | [], d => some d
  | n :: ns, d => if n = dotdot then (v.dentry d).parent.bind (v.climb ns) else v.climb ns d

/-- A name that no child has: it is not cached and the server does not know it. -/
structure State.Missing (v : State) (fs : Fs) (d : Nat) (n : Name) : Prop where
  cached : v.cached d n = none
  unknown : ∀ reply, fs (v.dentry d).fsPid (.lookup n (v.dentry d).ino) = some reply → reply.retval ≠ 0

/-- The first name other than `.` and `..` is missing. -/
def State.FirstMissing (v : State) (fs : Fs) (d : Nat) (ns : List Name) : Prop :=
  ∃ dots n rest e, ns = dots ++ n :: rest ∧ Dots dots ∧ n ≠ dot ∧ n ≠ dotdot ∧ v.climb dots d = some e ∧ v.Missing fs e n

/-- There is one name other than `.` and `..`, and only `.` after it. -/
def OneName (ns : List Name) : Prop :=
  ∃ dots n rest, ns = dots ++ n :: rest ∧ Dots dots ∧ n ≠ dot ∧ n ≠ dotdot ∧ ∀ m ∈ rest, m = dot

/-- Their lookups count no name, or one that becomes the directory, and they free or fork no process with a table. -/
def CountsOk (v : State) (call : Call) : Prop :=
  let t := (v.table call.src).getD v.stdTable
  match call.request with
  | .open path _ => v.FirstMissing call.fs (v.start t.cwd path) (pathNames path) ∨
      Dots (pathNames path) ∧ ∃ fd < nrFiles, t.files fd = none
  | .chdir path => v.table call.src = none ∨ v.FirstMissing call.fs (v.start t.cwd path) (pathNames path) ∨
      OneName (pathNames path)
  | .stat path => v.table call.src = none ∨ v.FirstMissing call.fs (v.start t.cwd path) (pathNames path) ∨
      Dots (pathNames path)
  | .forkfs pid => pid ≠ call.src ∧ v.table pid = none
  | .freefs => v.table call.src = none
  | _ => True

end FengOS.Vfs
