import FengOS.Vfs.Request

/-!
# Tables by value

The table of a process as a directory and a list of files, without hash table and numbers. Every slot of every table has a
file of its own.
-/

namespace FengOS.Vfs

open FengOS.Lib

@[ext]
structure Table where
  cwd : Nat
  files : Nat → Option File

def ProcFile.view (fsp : ProcFile) (v : State) : Table := ⟨fsp.cwd, fun fd => (fsp.filp fd).bind v.file⟩

def State.table (v : State) (pid : Nat) : Option Table := (v.mapProcFile pid).map (·.view v)

def State.stdTable (v : State) : Table where
  cwd := v.rootEntry
  files fd :=
    if fd = 0 then some ⟨(v.dentry v.stdin).mode, v.stdin, 0⟩
    else if fd = 1 then some ⟨(v.dentry v.stdout).mode, v.stdout, 0⟩
    else if fd = 2 then some ⟨(v.dentry v.stderr).mode, v.stderr, 0⟩
    else none

def State.procFiles (v : State) : List ProcFile := (List.range fileMapSize).flatMap v.fileMap

/-- Every process has at most one table and every slot has a file of its own. -/
structure State.Owned (v : State) : Prop where
  chains : Chain.Ok ProcFile.pid fileMapSize v.fileMap
  fresh : ∀ x, v.nrFile ≤ x → v.file x = none
  slot : ∀ p fsp fd x, v.mapProcFile p = some fsp → fsp.filp fd = some x → fd < nrFiles ∧ ∃ f, v.file x = some f
  inj : ∀ p q fsp fsq i j x, v.mapProcFile p = some fsp → v.mapProcFile q = some fsq → fsp.filp i = some x →
    fsq.filp j = some x → p = q ∧ i = j

/-! ## References to dentries -/

def refersTo (d : Nat) : Option File → Int
  | some f => if f.dentry = d then 1 else 0
  | none => 0

def Table.refs (t : Table) (d : Nat) : Int :=
  (∑ fd ∈ Finset.range nrFiles, refersTo d (t.files fd)) + if t.cwd = d then 1 else 0

def State.refs (v : State) (d : Nat) : Int := Chain.total fileMapSize v.fileMap fun fsp => (fsp.view v).refs d

end FengOS.Vfs
