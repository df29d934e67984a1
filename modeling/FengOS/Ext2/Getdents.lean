import FengOS.Ext2.Read
import FengOS.Ext2.BlockTheorems
import FengOS.Ext2.Dir

/-!
# Listing a directory (`ext2_getdents` in `srv/ext2/main.c`)

The entries go to the buffer of the caller as a sequence of `struct dirent`; the function returns how far it came, which the
caller adds to the position.
-/

namespace FengOS.Ext2

open FengOS.Lib

/-! ## `struct dirent` -/

def dNameOffset : Nat := 25

def dFileType (buf : Mem) (off : Nat) : Nat := (buf (off + 7)).toNat

/-- An entry of a directory, with its place in it. -/
structure DirRecord where
  ino : Nat
  fileType : Nat
  name : List UInt8
  off : Nat
  deriving DecidableEq, Repr

def recordAt (buf : Mem) (base off : Nat) : DirRecord := ⟨dInode buf off, dFileType buf off, dName buf off, base + off⟩

/-- `d_reclen`. -/
def DirRecord.size (r : DirRecord) : Nat := dNameOffset + r.name.length + 1

def DirRecord.cName (r : DirRecord) : List UInt8 := r.name.takeWhile (· ≠ 0)

def putDirent (mem : Mem) (dirp : Nat) (r : DirRecord) : Mem :=
  let mem := mem.store dirp r.ino 8
  let mem := mem.store (dirp + 24) r.fileType 1
  let mem := mem.write (dirp + dNameOffset) (fun i => r.cName.getD i 0) r.cName.length
  let mem := mem.store (dirp + dNameOffset + r.name.length) 0 1
  let mem := mem.store (dirp + 16) r.size 8
  mem.store (dirp + 8) r.off 8

/-! ## `ext2_getdents` -/

structure Dents where
  offset : Nat
  count : Nat
  nbytes : Nat
  dirp : Nat
  mem : Mem

def Dents.put (d : Dents) (buf : Mem) (base : Nat) : Dents :=
  let r := recordAt buf base d.offset
  { offset := d.offset + dRecLen buf d.offset
    count := d.count + dRecLen buf d.offset
    nbytes := d.nbytes - r.size
    dirp := d.dirp + r.size
    mem := putDirent d.mem d.dirp r }

/-- The loop over the entries, and whether the buffer of the caller is full; no result if an entry leaves the block. -/
def getdentsBlock (buf : Mem) (blockSize base : Nat) : Nat → Dents → Option (Bool × Dents)
  | 0, _ => none
  | rounds + 1, d =>
    if d.offset = blockSize then some (false, d)
    else if blockSize < d.offset + 8 then none
    else if d.nbytes < (recordAt buf base d.offset).size then some (true, d)
    else if blockSize < d.offset + 8 + dNameLen buf d.offset then none
    else getdentsBlock buf blockSize base rounds (d.put buf base)

/-- The loop over the blocks. The offset is not set back, so that no entry is looked at after the first block. -/
def getdentsLoop (fs : Fs) (inode : Inode) : Nat → Nat → Dents → Option Dents
  | 0, _, _ => none
  | fuel + 1, block, d =>
    match getblock fs block inode fun _ => 0 with
    | none => none
    | some (0, _) => some d
    | some (_ + 1, buffer) =>
      match getdentsBlock buffer fs.sb.blockSize (block * fs.sb.blockSize) (fs.sb.blockSize + 1) d with
      | none => none
      | some (true, d) => some d
      | some (false, d) => getdentsLoop fs inode fuel (block + 1) d

/-- `ext2_getdents`: what it returns and the buffer of the caller. -/
def ext2Getdents (fuel : Nat) (fs : Fs) (ino : Nat) (mem : Mem) (pos nbytes : Nat) : Option (Nat × Mem × Fs) :=
  let (inode, fs) := getinode fs ino
  (getdentsLoop fs inode fuel (pos / fs.sb.blockSize) ⟨pos % fs.sb.blockSize, 0, nbytes, 0, mem⟩).map
    fun d => (d.count, d.mem, fs)

/-- Calls from `pos` on until one returns 0, each with its buffer and size: what they return and leave there. -/
def enumerate (fuel : Nat) (ino : Nat) (mems : Nat → Mem) (sizes : Nat → Nat) :
    Nat → Nat → Fs → Nat → Option (List (Nat × Mem))
  | 0, _, _, _ => none
  | calls + 1, i, fs, pos =>
    match ext2Getdents fuel fs ino (mems i) pos (sizes i) with
    | none => none
    | some (0, mem, _) => some [(0, mem)]
    | some (count + 1, mem, fs) =>
      (enumerate fuel ino mems sizes calls (i + 1) fs (pos + (count + 1))).map ((count + 1, mem) :: ·)

/-! ## Directories -/

/-- The entries from `off` on begin at these offsets; none is empty or leaves the block, which is less than `Chain` asks. -/
inductive EntryChain (buf : Mem) (blockSize : Nat) : Nat → List Nat → Prop
  | nil : EntryChain buf blockSize blockSize []
  | cons {off : Nat} {offs : List Nat} : 0 < dRecLen buf off → off + 8 + dNameLen buf off ≤ blockSize →
      EntryChain buf blockSize (off + dRecLen buf off) offs → EntryChain buf blockSize off (off :: offs)

/-- A directory whose first logical blocks are these, with the offsets of the entries, and no other block pointer. -/
structure Directory (fs : Fs) (inode : Inode) (dir : List (Nat × List Nat)) : Prop where
  blockSize : BlockSizeOk fs.sb
  length : dir.length ≤ 12 + fs.sb.blockSize / 4
  size : dir.length * fs.sb.blockSize < 2 ^ 32
  number : ∀ n block, dir[n]? = some block → ext2BlockNo fs.disk fs.sb.blockSize inode n = block.1 ∧ block.1 ≠ 0
  chain : ∀ block ∈ dir, EntryChain (blockAt fs block.1) fs.sb.blockSize 0 block.2
  unused : ∀ n, dir.length ≤ n → n < 12 + fs.sb.blockSize / 4 → ext2BlockNo fs.disk fs.sb.blockSize inode n = 0
  top : iBlock inode 13 = 0 ∧ iBlock inode 14 = 0

def blockRecords (fs : Fs) : Nat → List (Nat × List Nat) → List (List DirRecord)
  | _, [] => []
  | n, (b, offs) :: dir => offs.map (recordAt (blockAt fs b) (n * fs.sb.blockSize)) :: blockRecords fs (n + 1) dir

/-- How many of the entries fit in a buffer. -/
def fitting : Nat → List DirRecord → Nat
  | _, [] => 0
  | nbytes, r :: rs => if nbytes < r.size then 0 else fitting (nbytes - r.size) rs + 1

/-- Of the entries that are left, block by block, a call gives those of the first block that fit. -/
def batch (nbytes : Nat) : List (List DirRecord) → List DirRecord
  | [] => []
  | rs :: _ => rs.take (fitting nbytes rs)

def afterBatch (nbytes : Nat) : List (List DirRecord) → List (List DirRecord)
  | [] => []
  | rs :: blocks => if fitting nbytes rs < rs.length then rs.drop (fitting nbytes rs) :: blocks else blocks

/-! ## What the calls are for -/

structure DirentAt (mem : Mem) (dirp : Nat) (r : DirRecord) : Prop where
  ino : mem.load dirp 8 = r.ino
  off : mem.load (dirp + 8) 8 = r.off
  reclen : mem.load (dirp + 16) 8 = r.size
  fileType : mem.load (dirp + 24) 1 = r.fileType
  name : ∀ i < r.cName.length, mem (dirp + dNameOffset + i) = r.cName.getD i 0
  terminator : mem (dirp + dNameOffset + r.name.length) = 0

/-- The entries stand one behind the other from `dirp` on, and end at `stop`. -/
def DirentsAt (mem : Mem) (stop : Nat) : Nat → List DirRecord → Prop
  | dirp, [] => dirp = stop
  | dirp, r :: rs => DirentAt mem dirp r ∧ DirentsAt mem stop (dirp + r.size) rs

/-- The entries are in the buffers in order, and no call writes behind them or behind its size. -/
def Delivered (mems : Nat → Mem) (sizes : Nat → Nat) : Nat → List DirRecord → List (Nat × Mem) → Prop
  | _, rs, [] => rs = []
  | i, rs, (_, mem) :: calls => ∃ first rest stop, rs = first ++ rest ∧ stop ≤ sizes i ∧ DirentsAt mem stop 0 first ∧
      (∀ x, stop ≤ x → mem x = mems i x) ∧ Delivered mems sizes (i + 1) rest calls

/-- The calls end, and they give every entry exactly once and in order. -/
def Enumerates (fs : Fs) (ino : Nat) (mems : Nat → Mem) (sizes : Nat → Nat) (rs : List DirRecord) : Prop :=
  ∃ bound, ∀ fuel ≥ bound, ∀ calls ≥ bound, ∃ results, enumerate fuel ino mems sizes calls 0 fs 0 = some results ∧
    Delivered mems sizes 0 rs results

end FengOS.Ext2
