import FengOS.Ext2.Dir
import FengOS.Libc.Strings
import Mathlib.Logic.Function.Iterate

/-!
# The loops over directory entries, byte by byte (`ext2_lookup` and `ext2_mkdir` in `srv/ext2/main.c`)

`strncmp` stops at the first byte that differs, and returns an uninitialised variable if there is nothing to compare.
`ext2_mkdir` cuts entries with room for the new name while it goes on.
-/

namespace FengOS.Ext2

open FengOS.Lib

/-! ## One entry -/

/-- `strncmp` of a name with the buffer from `x` on; no result if a byte behind the buffer is read. -/
def strncmp (junk : Int) (blockSize : Nat) (name : List UInt8) (buf : Mem) (x : Nat) : Option Int :=
  let r := Libc.strncmp junk (name.getD · 0) (fun i => buf (x + i)) name.length
  if x + r.2 ≤ blockSize then some r.1 else none

def sameName (junk : Int) (blockSize : Nat) (name : List UInt8) (buf : Mem) (off : Nat) : Option Bool :=
  if dNameLen buf off = name.length then (strncmp junk blockSize name buf (off + 8)).map (· == 0) else some false

/-- What `ext2_mkdir` does at an entry with another name. If it is shorter than its name needs, the difference wraps round.
-/
def carveEntry (name : List UInt8) (buf : Mem) (off : Nat) : Mem :=
  let dirsz := dirSize (dNameLen buf off)
  let freelen := (dRecLen buf off + (2 ^ 32 - dirsz)) % 2 ^ 32
  if 8 + name.length ≤ freelen then setDRecLen (setDRecLen buf (off + dirsz) freelen) off dirsz else buf

/-- `ext2_lookup` leaves the buffer as it is. -/
def keepEntry (buf : Mem) (_ : Nat) : Mem := buf

/-! ## The loops -/

def scanBlock (carve : Mem → Nat → Mem) (junk : Int) (blockSize : Nat) (name : List UInt8) :
    Nat → Nat → Mem → Option (Option Nat × Mem)
  | 0, _, _ => none
  | rounds + 1, off, buf =>
    if off = blockSize then some (none, buf)
    else if blockSize < off + 8 then none
    else
      match sameName junk blockSize name buf off with
      | none => none
      | some true => some (some off, buf)
      | some false => scanBlock carve junk blockSize name rounds (off + dRecLen buf off) (carve buf off)

def scanLoop (carve : Mem → Nat → Mem) (fs : Fs) (pinode : Inode) (name : List UInt8) (rounds : Nat) :
    Nat → Nat → Option (Option Nat)
  | 0, _ => none
  | fuel + 1, block =>
    match getblock fs block pinode fun _ => 0 with
    | none => none
    | some (0, _) => some none
    | some (_ + 1, buffer) =>
      match scanBlock carve fs.junk fs.sb.blockSize name rounds 0 buffer with
      | none => none
      | some (some off, buffer) => some (some (dInode buffer off))
      | some (none, _) => scanLoop carve fs pinode name rounds fuel (block + 1)

/-- The inode is in the inode map, or its group is in `group_desc_table`. -/
def Fetchable (fs : Fs) (ino : Nat) : Prop := (fs.cache ino).isSome ∨ inodeGroup fs.sb ino < fs.sb.nrGroup

instance (fs : Fs) (ino : Nat) : Decidable (Fetchable fs ino) := inferInstanceAs (Decidable (_ ∨ _))

/-- `getinode`; no result if it reads behind `group_desc_table`. -/
def fetch (fs : Fs) (ino : Nat) : Option (Inode × Fs) := if Fetchable fs ino then some (getinode fs ino) else none

/-- The fields of `struct dentry` that `ext2_lookup` sets. -/
structure Dentry where
  fIno : Nat
  fMode : Nat
  fSize : Nat
  deriving DecidableEq, Repr

def ext2Lookup (rounds fuel : Nat) (fs : Fs) (name : List UInt8) (pino : Nat) : Option (Option Dentry × Fs) :=
  match fetch fs pino with
  | none => none
  | some (pinode, fs) =>
    match scanLoop keepEntry fs pinode name rounds fuel 0 with
    | none => none
    | some none => some (none, fs)
    | some (some ino) => (fetch fs ino).map fun (inode, fs) => (some ⟨ino, iMode inode, iSize inode⟩, fs)

/-! ## What the loops are for -/

/-- `ext2_lookup` gives the inode of an entry in use that has the name, or it fails and fetches no inode. -/
def LookupExact (fs : Fs) (pino : Nat) (dir : List (Nat × List Nat)) (name : List UInt8) : Prop :=
  ∃ bound, ∀ rounds ≥ bound, ∀ fuel ≥ bound, ∃ r fs', ext2Lookup rounds fuel fs name pino = some (r, fs') ∧
    (∀ ino, r.map Dentry.fIno = some ino ↔ ino ≠ 0 ∧ (name, ino) ∈ listing fs dir) ∧
    (r = none → fs' = (getinode fs pino).2)

/-- The loops end, and they read headers and names inside the buffer only. -/
def ScanEnds (carve : Mem → Nat → Mem) (fs : Fs) (pino : Nat) (name : List UInt8) : Prop :=
  ∃ rounds fuel, (scanLoop carve (getinode fs pino).2 (getinode fs pino).1 name rounds fuel 0).isSome

/-! ## When they do it -/

/-- The inode of the first entry with the name; an empty name compares as `retval`, which has not been assigned. -/
def taken (junk : Int) (name : List UInt8) (l : List (List UInt8 × Nat)) : Option Nat :=
  if name = [] ∧ junk ≠ 0 then none else l.lookup name

/-- How many blocks come before the one with the first entry that has the name, or all of them. -/
def blocksBefore (fs : Fs) (name : List UInt8) (dir : List (Nat × List Nat)) : Nat :=
  (dir.takeWhile fun block => (taken fs.junk name (entries (blockAt fs block.1) block.2)).isNone).length

/-- The first entry with the name is in use, its inode can be fetched, and no other one has it with another inode. -/
def FirstInUse (fs : Fs) (dir : List (Nat × List Nat)) (name : List UInt8) : Prop :=
  if name = [] ∧ fs.junk ≠ 0 then ∀ ino, (name, ino) ∈ listing fs dir → ino = 0
  else
    ∀ pre ino post, listing fs dir = pre ++ (name, ino) :: post → name ∉ pre.map Prod.fst →
      ino ≠ 0 ∧ Fetchable fs ino ∧ ∀ other, (name, other) ∈ post → other = 0 ∨ other = ino

def advance (carve : Mem → Nat → Mem) (s : Nat × Mem) : Nat × Mem := (s.1 + dRecLen s.2 s.1, carve s.2 s.1)

/-- An entry with its header in the block, whose name gives this result where it is compared. -/
structure EntryIn (fs : Fs) (name : List UInt8) (same : Bool) (s : Nat × Mem) : Prop where
  ne : s.1 ≠ fs.sb.blockSize
  header : s.1 + 8 ≤ fs.sb.blockSize
  compared : sameName fs.junk fs.sb.blockSize name s.2 s.1 = some same

/-- The lengths of the entries lead from the start of the block exactly to its end. -/
def Covered (carve : Mem → Nat → Mem) (fs : Fs) (name : List UInt8) (buf : Mem) : Prop :=
  ∃ k, (∀ j < k, EntryIn fs name false ((advance carve)^[j] (0, buf))) ∧
    ((advance carve)^[k] (0, buf)).1 = fs.sb.blockSize

/-- The lengths of the entries lead from the start of the block to an entry with the name. -/
def Named (carve : Mem → Nat → Mem) (fs : Fs) (name : List UInt8) (buf : Mem) : Prop :=
  ∃ k, (∀ j < k, EntryIn fs name false ((advance carve)^[j] (0, buf))) ∧
    EntryIn fs name true ((advance carve)^[k] (0, buf))

/-- The entries cover the blocks before the end of the directory or before the name. -/
def ScanCond (carve : Mem → Nat → Mem) (fs : Fs) (inode : Inode) (name : List UInt8) : Prop :=
  ∃ m, (∀ n < m, ∃ buf, getblock fs n inode (fun _ => 0) = some (1, buf) ∧ Covered carve fs name buf) ∧
    ((∃ buf, getblock fs m inode (fun _ => 0) = some (0, buf)) ∨
      ∃ buf, getblock fs m inode (fun _ => 0) = some (1, buf) ∧ Named carve fs name buf)

end FengOS.Ext2
