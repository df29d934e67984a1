import FengOS.Vfs.State

/-!
# Paths (`vfs_lookup` and `getcwdstr` in `srv/vfs/vfs.c`)

The loop of `vfs_lookup` reads the path name by name. Which names it reads does not depend on the dentries, so the list of
them comes first.
-/

namespace FengOS.Vfs

/-! ## Names of a path -/

/-- `getfilename`: the name at `sptr`, and the rest after it and after the `/` that ends it. -/
def getfilename (sptr : Name) : Name × Name :=
  (sptr.takeWhile (· ≠ slash), (sptr.dropWhile (· ≠ slash)).drop 1)

def namesLoop : Nat → Name → List Name
  | 0, _ => []
  | fuel + 1, sptr => if sptr = [] then [] else (getfilename sptr).1 :: namesLoop fuel (getfilename sptr).2

def names (sptr : Name) : List Name := namesLoop sptr.length sptr

/-! ## `vfs_lookup` -/

def State.cached (v : State) (d : Nat) (name : Name) : Option Nat :=
  (v.dentry d).children.find? fun c => (v.dentry c).name = name

/-- Links a new child in front, with a reference to it and one to its parent. -/
def State.addChild (v : State) (parent : Nat) (name : Name) (e : FsEntry) : State :=
  let p := v.dentry parent
  let child : Dentry := ⟨p.fsPid, e.ino, 1, e.size, e.mode, name, some parent, []⟩
  let parent' := { p with count := p.count + 1, children := v.nrDentry :: p.children }
  { v with
    dentry := Function.update (Function.update v.dentry v.nrDentry child) parent parent'
    nrDentry := v.nrDentry + 1 }

/-- `f_name` has 128 bytes. -/
def nameSize : Nat := 128

/-- The buffer for a name of the path has 256 bytes. -/
def filenameSize : Nat := 256

def vfsLookupInFs (fs : Fs) (v : State) (parent : Nat) (filename : Name) : Option (Option Nat × State) :=
  match fs (v.dentry parent).fsPid (.lookup filename (v.dentry parent).ino) with
  | none => some (none, v)
  | some reply =>
    if reply.retval ≠ 0 then some (none, v)
    else if nameSize ≤ filename.length then none
    else some (some v.nrDentry, v.addChild parent filename reply.dentry)

/-- The child with a name: a cached one, or one that the server knows. -/
def child (fs : Fs) (v : State) (d : Nat) (filename : Name) : Option (Option Nat × State) :=
  match v.cached d filename with
  | some next => some (some next, v.addCount next 1)
  | none => vfsLookupInFs fs v d filename

/-- The loop over the names, which may take `current` to a null pointer. -/
def lookupLoop (fs : Fs) : List Name → Option Nat → State → Option (Option Nat × State)
  | [], current, v => some (current, v)
  | filename :: rest, current, v =>
    if filenameSize ≤ filename.length then none
    else if filename = dotdot then current.bind fun d => lookupLoop fs rest (v.dentry d).parent v
    else if filename = dot then lookupLoop fs rest current v
    else current.bind fun d =>
      match child fs v d filename with
      | none => none
      | some (none, v) => some (none, v)
      | some (some next, v) => lookupLoop fs rest (some next) v

def vfsLookup (fs : Fs) (v : State) (cwd : Nat) (path : Name) : Option (Option Nat × State) :=
  if path.head? = some slash then lookupLoop fs (names path.tail) (some v.rootEntry) v
  else lookupLoop fs (names path) (some cwd) v

/-! ## `getcwdstr` -/

abbrev Buf : Type := Int → UInt8

def Buf.set (buf : Buf) (i : Int) (c : UInt8) : Buf := Function.update buf i c

def Buf.strncpy (buf : Buf) (i : Int) (name : Name) : Buf :=
  fun j => if i ≤ j ∧ j < i + name.length then name.getD (j - i).toNat 0 else buf j

/-- `getcwdstr` with a bound on the depth of the recursion. -/
def getcwdstr (v : State) : Nat → Option Nat → Buf → Int → Option (Int × Buf)
  | 0, _, _, _ => none
  | _ + 1, none, _, _ => none
  | fuel + 1, some entry, buf, size =>
    let name := (v.dentry entry).name
    let len : Int := name.length
    if entry = v.rootEntry then
      if size < len + 1 then some (-1, buf) else some (len, (buf.strncpy 0 name).set len 0)
    else do
      let (n, buf) ← getcwdstr v fuel (v.dentry entry).parent buf size
      if size < len + 2 then return (-1, buf)
      return (n + len + 1, ((buf.strncpy n name).set (n + len) slash).set (n + len + 1) 0)

end FengOS.Vfs
