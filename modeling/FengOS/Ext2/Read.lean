import FengOS.Ext2.File

/-!
# What a read should give

The contents of a file by the block numbers of `get_block_no` and by those of the indexing scheme, and the bytes that `ext2_read` stores whatever the number is
where `get_block_no` reads past the end of its buffer.
-/

namespace FengOS.Ext2

open FengOS.Lib

/-! ## Contents -/

def blockOf (fs : Fs) (inode : Inode) (n : Nat) : Option Int := getBlockNo fs inode (n % 2 ^ 32)

def Mapped (fs : Fs) (inode : Inode) (n : Nat) : Prop := ∃ b : Nat, b ≠ 0 ∧ blockOf fs inode n = some (Int.ofNat b)

/-- The byte of the file at `p`; there are zeros in the blocks that are not on the disk. -/
def fileByte (fs : Fs) (inode : Inode) (p : Nat) : UInt8 :=
  match blockOf fs inode (p / fs.sb.blockSize) with
  | some (.ofNat (b + 1)) => fs.disk ((b + 1) * fs.sb.blockSize + p % fs.sb.blockSize)
  | _ => 0

def fileBytes (fs : Fs) (inode : Inode) (p len : Nat) : List UInt8 := (List.range len).map fun x => fileByte fs inode (p + x)

/-- Block sizes of a mounted image: `1024 << s_log_block_size` in an `int`. -/
def BlockSizeOk (sb : SuperBlock) : Prop := ∃ s ≤ 20, sb.blockSize = 1024 * 2 ^ s

/-- The blocks of a file are on the disk up to the end of the file. -/
def AllMapped (fs : Fs) (inode : Inode) : Prop := ∀ n, n * fs.sb.blockSize < iSize inode → Mapped fs inode n

/-- The read gives the bytes from `pos` on, up to `size` of them and to the end of the file. -/
def ReadContract (fs : Fs) (ino pos size : Nat) : Prop :=
  ext2Read fs ino pos size =
    some (fileBytes fs (getinode fs ino).1 pos (min size (iSize (getinode fs ino).1 - pos)), (getinode fs ino).2)

/-- The byte of the file at `p` by the indexing scheme. -/
def treeByte (fs : Fs) (inode : Inode) (p : Nat) : UInt8 :=
  let b := ext2BlockNo fs.disk fs.sb.blockSize inode (p / fs.sb.blockSize)
  if b = 0 then 0 else fs.disk (b * fs.sb.blockSize + p % fs.sb.blockSize)

def treeBytes (fs : Fs) (inode : Inode) (p len : Nat) : List UInt8 := (List.range len).map fun x => treeByte fs inode (p + x)

/-- The read gives what the blocks of the indexing scheme hold, and zeros where there is no block. -/
def SparseContract (fs : Fs) (ino pos size : Nat) : Prop :=
  ext2Read fs ino pos size =
    some (treeBytes fs (getinode fs ino).1 pos (min size (iSize (getinode fs ino).1 - pos)), (getinode fs ino).2)

/-- Every byte of the range that is in the file is in a block with a number, and is what the indexing scheme says. -/
def RangeRight (fs : Fs) (inode : Inode) (pos size : Nat) : Prop :=
  ∀ q, pos ≤ q → q < pos + size → q < iSize inode →
    Mapped fs inode (q / fs.sb.blockSize) ∧ fileByte fs inode q = treeByte fs inode q

/-! ## Bytes that are stored -/

/-- The numbers of `get_block_no`, with anything where it reads past its buffer. -/
structure Completes (fs : Fs) (inode : Inode) (no : Nat → Int) : Prop where
  some : ∀ n b, getBlockNo fs inode n = some b → no n = b
  none : ∀ n, getBlockNo fs inode n = none → 0 ≤ no n ∧ no n < 2 ^ 32

def storedLoop (fs : Fs) (no : Nat → Int) : Nat → Nat → Nat → Nat → List UInt8
  | 0, _, _, _ => []
  | fuel + 1, block, offset, size =>
    let b := (no (block % 2 ^ 32) % 2 ^ 64).toNat
    if size = 0 ∨ b = 0 then []
    else
      let copysz := min (fs.sb.blockSize - offset) size
      (List.range copysz).map (fun x => fs.disk (b * fs.sb.blockSize % 2 ^ 64 + (offset + x))) ++
        storedLoop fs no fuel (block + 1) 0 (size - copysz)

/-- The bytes that `ext2_read` stores with these numbers. -/
def storedBytes (fs : Fs) (ino : Nat) (no : Nat → Int) (pos : Int) (size : Nat) : List UInt8 :=
  let (inode, fs) := getinode fs ino
  if pos < 0 ∨ pos ≥ iSize inode then []
  else
    let pos := pos.toNat
    let size := if (pos + size) % 2 ^ 64 ≥ iSize inode then iSize inode - pos else size
    storedLoop fs no size (pos / fs.sb.blockSize) (pos % fs.sb.blockSize) size

/-- At most `size` bytes are stored, and none from beyond the end of the file. -/
def ReadBounded (fs : Fs) (ino : Nat) (pos : Int) (size : Nat) : Prop :=
  ∀ no, Completes fs (getinode fs ino).1 no →
    ((storedBytes fs ino no pos size).length : Int) ≤ max 0 (min (size : Int) (iSize (getinode fs ino).1 - pos))

end FengOS.Ext2
