import FengOS.Vfs.Path

/-!
# The stores of `vfs_getcwd` (`srv/vfs/vfs.c`)

`getcwdstr` with the list of the bytes it stores in place of the buffer. The size becomes an `int`, and so are the offsets:
there is no result if one overflows.
-/

namespace FengOS.Vfs

/-! ## `getcwdstr` -/

abbrev Stores : Type := List (Int × UInt8)

def Buf.apply (buf : Buf) (ws : Stores) : Buf := ws.foldl (fun buf w => buf.set w.1 w.2) buf

def copyStores : Int → Name → Stores
  | _, [] => []
  | i, c :: cs => (i, c) :: copyStores (i + 1) cs

def rootStores (name : Name) (size : Int) : Int × Stores :=
  if size < name.length + 1 then (-1, []) else (name.length, copyStores 0 name ++ [((name.length : Int), 0)])

def nameStores (name : Name) (size : Int) (r : Int × Stores) : Option (Int × Stores) :=
  let len : Int := name.length
  if size < len + 2 then some (-1, r.2)
  else if 2 ^ 31 ≤ r.1 + len + 1 then none
  else some (r.1 + len + 1, r.2 ++ (copyStores r.1 name ++ [(r.1 + len, slash), (r.1 + len + 1, 0)]))

def getcwdStores (v : State) : Nat → Option Nat → Int → Option (Int × Stores)
  | 0, _, _ => none
  | _ + 1, none, _ => none
  | fuel + 1, some entry, size =>
    let name := (v.dentry entry).name
    if entry = v.rootEntry then some (rootStores name size)
    else (getcwdStores v fuel (v.dentry entry).parent size).bind (nameStores name size)

def intOfSize (size : Nat) : Int := (BitVec.ofNat 32 size).toInt

def vfsGetcwdStores (v : State) (pid size : Nat) : Option (Int × Stores) :=
  match v.mapProcFile pid with
  | none => some (-1, [])
  | some fsp => do
    let (n, ws) ← getcwdStores v (v.nrDentry + 1) (some fsp.cwd) (intOfSize size)
    return (if n < 0 then -1 else 0, ws)

/-! ## What is expected of it -/

/-- The names from a dentry up to the root, which is left out. -/
def State.lineage (v : State) : Nat → Option Nat → Option (List Name)
  | 0, _ => none
  | _ + 1, none => none
  | fuel + 1, some d =>
    if d = v.rootEntry then some [] else (v.lineage fuel (v.dentry d).parent).map ((v.dentry d).name :: ·)

def State.rootName (v : State) : Name := (v.dentry v.rootEntry).name

/-- The path through these names, of which the first is the last component. -/
def cwdPath (root : Name) : List Name → Name
  | [] => root
  | n :: up => cwdPath root up ++ (n ++ [slash])

/-- The call stores in the buffer only, and succeeds with the path exactly if it fits with its 0. -/
def GetcwdClean (v : State) (pid size : Nat) : Prop :=
  ∃ r ws, vfsGetcwdStores v pid size = some (r, ws) ∧ (∀ w ∈ ws, 0 ≤ w.1 ∧ w.1 < size) ∧
    ∀ fsp, v.mapProcFile pid = some fsp → ∃ up, v.lineage (v.nrDentry + 1) (some fsp.cwd) = some up ∧
      if (cwdPath v.rootName up).length + 1 ≤ size then r = 0 ∧ ∀ buf : Buf, (buf.apply ws).Holds (cwdPath v.rootName up)
      else r = -1

/-! ## The checks of the sizes -/

/-- The check that `getcwdstr` makes for the last of these names, or for the root. -/
def Passes (root : Name) (size : Int) : List Name → Prop
  | [] => root.length + 1 ≤ size
  | n :: _ => n.length + 2 ≤ size

/-- Where a name passes, the directory above has passed, and the path up to it fits in the buffer and an `int`. -/
def Fits (root : Name) (size : Nat) : List Name → Prop
  | [] => True
  | n :: up => Fits root size up ∧ (Passes root (intOfSize size) (n :: up) →
      Passes root (intOfSize size) up ∧ (cwdPath root (n :: up)).length + 1 ≤ size ∧ (cwdPath root (n :: up)).length < 2 ^ 31)

end FengOS.Vfs
