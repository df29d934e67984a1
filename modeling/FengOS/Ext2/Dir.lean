import FengOS.Ext2.File

/-!
# Directories (`init_newdir` and `ext2_mkdir` in `srv/ext2/main.c`)

A name is the list of its bytes. The loops over blocks get a bound on their rounds; those over the entries of a block end
within its bytes, unless an entry has length 0. There is no result if a loop does not end or leaves the buffer.
-/

namespace FengOS.Ext2

open FengOS.Lib

/-! ## `struct linked_directory` -/

def dInode (buf : Mem) (off : Nat) : Nat := buf.load off 4
def dRecLen (buf : Mem) (off : Nat) : Nat := buf.load (off + 4) 2
def dNameLen (buf : Mem) (off : Nat) : Nat := (buf (off + 6)).toNat

def setDInode (buf : Mem) (off value : Nat) : Mem := buf.store off value 4
def setDRecLen (buf : Mem) (off value : Nat) : Mem := buf.store (off + 4) value 2
def setDNameLen (buf : Mem) (off value : Nat) : Mem := buf.store (off + 6) value 1
def setDFileType (buf : Mem) (off value : Nat) : Mem := buf.store (off + 7) value 1

/-- `strncpy` of a whole name to `name[]`. -/
def setDName (buf : Mem) (off : Nat) (name : List UInt8) : Mem := buf.write (off + 8) (fun i => name.getD i 0) name.length

def dName (buf : Mem) (off : Nat) : List UInt8 := (List.range (dNameLen buf off)).map fun i => buf (off + 8 + i)

def ext2FtDir : Nat := 2

def dirSize (nameLen : Nat) : Nat := (8 + nameLen + 3) / 4 * 4

/-- The header, and the name if it is compared, lie in the buffer. -/
def InBuffer (buf : Mem) (blockSize off : Nat) (name : List UInt8) : Prop :=
  off + 8 ≤ blockSize ∧ (dNameLen buf off = name.length → off + 8 + name.length ≤ blockSize)

instance (buf : Mem) (blockSize off : Nat) (name : List UInt8) : Decidable (InBuffer buf blockSize off name) :=
  inferInstanceAs (Decidable (_ ∧ _))

/-! ## `init_newdir` -/

def newdirBlock (blockSize ino pino : Nat) : Mem :=
  let buf : Mem := fun _ => 0
  let buf := setDInode (setDFileType buf 0 ext2FtDir) 0 ino
  let buf := setDNameLen (setDName buf 0 [46]) 0 1
  let offset := dirSize 1
  let buf := setDRecLen buf 0 offset
  let buf := setDInode (setDFileType buf offset ext2FtDir) offset pino
  let buf := setDNameLen (setDName buf offset [46, 46]) offset 2
  setDRecLen buf offset (blockSize - offset)

/-- The second half of `init_newdir`. The number of the block is unsigned, so that the test for an error is never true. -/
def addNewdirBlock (fs : Fs) (ino pino : Nat) : Bool × Fs :=
  let (block, fs) := allocBlock fs
  let block := (block % 2 ^ 32).toNat
  match setblock fs ino 0 block with
  | (false, fs) => (false, fs)
  | (true, fs) =>
    let fs := fs.setInode ino (setILinksCount (setISize (getinode fs ino).1 fs.sb.blockSize) 1)
    let fs := (bdevWrite fs (block * fs.sb.blockSize) (newdirBlock fs.sb.blockSize ino pino) fs.sb.blockSize).getD fs
    (true, putinode fs ino)

def initNewdir (fs : Fs) (pino mode : Nat) : Int × Fs :=
  let (no, fs) := allocInode fs
  if no < 0 then (-1, fs)
  else
    let ino := no.toNat
    let fs := (getinode fs ino).2
    let fs := (getinode fs pino).2
    let fs := fs.setInode ino (setIMode (fun _ => 0) mode)
    let pinode := (getinode fs pino).1
    let fs := fs.setInode ino (setIUid (setIGid (getinode fs ino).1 (iGid pinode)) (iUid pinode))
    match addNewdirBlock fs ino pino with
    | (false, fs) => (-1, fs)
    | (true, fs) => (no, fs)

/-! ## `ext2_mkdir` -/

/-- The loop over the entries: the buffer with the entries cut and the last place made, or nothing if the name is there. -/
def carveBlock (blockSize : Nat) (name : List UInt8) : Nat → Nat → Mem → Option Nat → Option (Option (Mem × Option Nat))
  | 0, _, _, _ => none
  | fuel + 1, off, buf, newdir =>
    if off = blockSize then some (some (buf, newdir))
    else if ¬ InBuffer buf blockSize off name then none
    else if dName buf off = name then some none
    else
      let reclen := dRecLen buf off
      let dirsz := dirSize (dNameLen buf off)
      let freelen := (reclen + (2 ^ 32 - dirsz)) % 2 ^ 32
      if 8 + name.length ≤ freelen then
        if blockSize < off + dirsz + 8 then none
        else
          let buf := setDRecLen (setDRecLen buf (off + dirsz) freelen) off dirsz
          carveBlock blockSize name fuel (off + reclen) buf (some (off + dirsz))
      else carveBlock blockSize name fuel (off + reclen) buf newdir

/-- What the loop over the blocks leaves: their number, the buffer, and the place for the new entry with its block. -/
structure MkdirScan where
  n : Nat
  buffer : Mem
  newdir : Option (Nat × Nat)

/-- The loop over the blocks. The buffer is the same for all of them. -/
def mkdirLoop (fs : Fs) (pinode : Inode) (name : List UInt8) : Nat → MkdirScan → Option (Option MkdirScan)
  | 0, _ => none
  | fuel + 1, scan =>
    match getblock fs scan.n pinode scan.buffer with
    | none => none
    | some (0, buffer) => some (some { scan with buffer := buffer })
    | some (_ + 1, buffer) =>
      match carveBlock fs.sb.blockSize name (fs.sb.blockSize + 1) 0 buffer none, getBlockNo fs pinode scan.n with
      | some none, _ => some none
      | some (some (buffer, none)), _ => mkdirLoop fs pinode name fuel ⟨scan.n + 1, buffer, scan.newdir⟩
      | some (some (buffer, some off)), some no =>
        mkdirLoop fs pinode name fuel ⟨scan.n + 1, buffer, some (off, (no % 2 ^ 32).toNat)⟩
      | _, _ => none

/-- The end of `ext2_mkdir`: the entry is filled in and the buffer is written to the block. -/
def mkdirFinish (fs : Fs) (pino : Nat) (name : List UInt8) (mode : Nat) (buffer : Mem) (newdir block : Nat) : Fs :=
  let buffer := setDNameLen (setDName (setDFileType buffer newdir ext2FtDir) newdir name) newdir name.length
  let (ino, fs) := initNewdir fs pino mode
  let buffer := setDInode buffer newdir (ino % 2 ^ 32).toNat
  (bdevWrite fs (block * fs.sb.blockSize) buffer fs.sb.blockSize).getD fs

/-- `ext2_mkdir`; `buffer` is what the buffer holds at the start. -/
def ext2Mkdir (fuel : Nat) (fs : Fs) (pino : Nat) (name : List UInt8) (mode : Nat) (buffer : Mem) : Option (Int × Fs) :=
  let (pinode, fs) := getinode fs pino
  match mkdirLoop fs pinode name fuel ⟨0, buffer, none⟩ with
  | none => none
  | some none => some (-1, fs)
  | some (some ⟨_, buffer, some (newdir, block)⟩) => some (0, mkdirFinish fs pino name mode buffer newdir block)
  | some (some ⟨n, buffer, none⟩) =>
    let (block, fs) := allocBlock fs
    let block := (block % 2 ^ 32).toNat
    match setblock fs pino n block with
    | (false, fs) => some (-1, fs)
    | (true, fs) =>
      let fs := putinode fs pino
      some (0, mkdirFinish fs pino name mode (setDRecLen buffer 0 fs.sb.blockSize) 0 block)

/-! ## Directories -/

/-- The entries from `off` to `blockSize` begin at these offsets, aligned to 4, with room for their names. -/
inductive Chain (buf : Mem) (blockSize : Nat) : Nat → List Nat → Prop
  | nil : Chain buf blockSize blockSize []
  | cons {off : Nat} {offs : List Nat} : 4 ∣ dRecLen buf off → 8 + dNameLen buf off ≤ dRecLen buf off →
      Chain buf blockSize (off + dRecLen buf off) offs → Chain buf blockSize off (off :: offs)

theorem chain_nil_iff {buf : Mem} {blockSize off : Nat} : Chain buf blockSize off [] ↔ off = blockSize := by
  constructor
  · intro h
    cases h with
    | nil => rfl
  · rintro rfl
    exact .nil

theorem chain_cons_iff {buf : Mem} {blockSize off o : Nat} {offs : List Nat} : Chain buf blockSize off (o :: offs) ↔
    o = off ∧ 4 ∣ dRecLen buf off ∧ 8 + dNameLen buf off ≤ dRecLen buf off ∧
      Chain buf blockSize (off + dRecLen buf off) offs := by
  constructor
  · intro h
    cases h with
    | cons hdvd hlen htail => exact ⟨rfl, hdvd, hlen, htail⟩
  · rintro ⟨rfl, hdvd, hlen, htail⟩
    exact .cons hdvd hlen htail

instance decidableChain (buf : Mem) (blockSize : Nat) : ∀ off offs, Decidable (Chain buf blockSize off offs)
  | _, [] => decidable_of_iff _ chain_nil_iff.symm
  | off, _ :: offs =>
    have := decidableChain buf blockSize (off + dRecLen buf off) offs
    decidable_of_iff _ chain_cons_iff.symm

def entries (buf : Mem) (offs : List Nat) : List (List UInt8 × Nat) := offs.map fun off => (dName buf off, dInode buf off)

def blockAt (fs : Fs) (b : Nat) : Mem := bdevRead fs.disk (b * fs.sb.blockSize)

/-- The blocks of a directory from the `n`-th on, each with the offsets of its entries, if these are the numbers of its
blocks. -/
def DirFrom (fs : Fs) (number : Nat → Nat) : Nat → List (Nat × List Nat) → Prop
  | n, [] => number n = 0
  | n, (b, offs) :: dir =>
    number n = b ∧ b ≠ 0 ∧ Chain (blockAt fs b) fs.sb.blockSize 0 offs ∧ DirFrom fs number (n + 1) dir

instance decidableDirFrom (fs : Fs) (number : Nat → Nat) : ∀ n dir, Decidable (DirFrom fs number n dir)
  | n, [] => inferInstanceAs (Decidable (number n = 0))
  | n, (_, _) :: dir =>
    have := decidableDirFrom fs number (n + 1) dir
    inferInstanceAs (Decidable (_ ∧ _))

/-- The number of a block of a file by the indexing scheme. -/
def treeNo (fs : Fs) (ino n : Nat) : Nat := ext2BlockNo fs.disk fs.sb.blockSize (getinode fs ino).1 n

/-- The directory consists of these blocks by the indexing scheme. -/
def DirAt (fs : Fs) (ino : Nat) (dir : List (Nat × List Nat)) : Prop := DirFrom fs (treeNo fs ino) 0 dir

instance (fs : Fs) (ino : Nat) (dir : List (Nat × List Nat)) : Decidable (DirAt fs ino dir) :=
  inferInstanceAs (Decidable (DirFrom ..))

/-- `get_block_no` gives the numbers of the indexing scheme up to the block `m`. -/
def Numbers (fs : Fs) (ino m : Nat) : Prop :=
  ∀ n ≤ m, getBlockNo fs (getinode fs ino).1 n = some (Int.ofNat (treeNo fs ino n))

instance (fs : Fs) (ino m : Nat) : Decidable (Numbers fs ino m) := inferInstanceAs (Decidable (∀ n ≤ m, _))

def listing (fs : Fs) (dir : List (Nat × List Nat)) : List (List UInt8 × Nat) :=
  dir.flatMap fun block => entries (blockAt fs block.1) block.2

end FengOS.Ext2
