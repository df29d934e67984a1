import FengOS.Ext2.Alloc

/-!
# Reading and writing files (`ext2_read` and `ext2_write` in `srv/ext2/main.c`)

A loop gets the number of its rounds as fuel; each round of the two copy loops moves at least one byte.
-/

namespace FengOS.Ext2

open FengOS.Lib

/-! ## `ext2_read` -/

def readLoop (fs : Fs) (inode : Inode) : Nat → Nat → Nat → Nat → Option (List UInt8)
  | 0, _, _, _ => some []
  | fuel + 1, block, offset, size =>
    if size = 0 then some []
    else
      match getblock fs block inode fun _ => 0 with
      | none => none
      | some (0, _) => some []
      | some (_ + 1, buffer) =>
        let copysz := min (fs.sb.blockSize - offset) size
        (readLoop fs inode fuel (block + 1) 0 (size - copysz)).map fun rest =>
          (List.range copysz).map (fun x => buffer (offset + x)) ++ rest

/-- `ext2_read`, with the bytes in the buffer of the caller. -/
def ext2Read (fs : Fs) (ino : Nat) (pos : Int) (size : Nat) : Option (List UInt8 × Fs) :=
  let (inode, fs) := getinode fs ino
  if pos < 0 ∨ pos ≥ iSize inode then some ([], fs)
  else
    let pos := pos.toNat
    let size := if (pos + size) % 2 ^ 64 ≥ iSize inode then iSize inode - pos else size
    (readLoop fs inode size (pos / fs.sb.blockSize) (pos % fs.sb.blockSize) size).map fun bytes => (bytes, fs)

/-! ## `ext2_write` -/

def writeAlloc (ino n sblock : Nat) : Nat → Fs → Option (Bool × Fs)
  | 0, _ => none
  | fuel + 1, fs =>
    let (inode, fs) := getinode fs ino
    if iBlocks inode < sblock then
      let (block, fs) := allocBlock fs
      if toInt block < 0 then some (false, fs)
      else
        match setblock fs ino n (toInt block).toNat with
        | (false, fs) => some (false, fs)
        | (true, fs) => writeAlloc ino n sblock fuel fs
    else some (true, fs)

/-- The loop of `ext2_write` that copies the buffer, and what comes after it. -/
def writeLoop (ino : Nat) (buf : Nat → UInt8) : Nat → Fs → Nat → Nat → Nat → Nat → Option (Int × Fs)
  | 0, _, _, _, _, _ => none
  | fuel + 1, fs, n, offset, count, size =>
    if size = 0 then some (Int.ofNat count, putinode fs ino)
    else
      let (inode, fs) := getinode fs ino
      match getblock fs n inode fun _ => 0 with
      | none => none
      | some (0, _) => some (-1, fs)
      | some (_ + 1, buffer) =>
        let copysz := min (fs.sb.blockSize - offset) size
        let buffer := buffer.write offset buf copysz
        match getBlockNo fs inode n with
        | none => none
        | some block =>
          let block := toInt block
          if block ≤ 0 then some (-1, fs)
          else
            match bdevWrite fs (block.toNat * fs.sb.blockSize) buffer fs.sb.blockSize with
            | none => some (-1, fs)
            | some fs =>
              let fs := fs.setInode ino (setISize inode ((iSize inode + copysz) % 2 ^ 32))
              writeLoop ino buf fuel fs (n + 1) 0 (count + copysz) (size - copysz)

def ext2Write (fs : Fs) (ino : Nat) (buf : Nat → UInt8) (pos : Int) (size : Nat) : Option (Int × Fs) :=
  let (inode, fs) := getinode fs ino
  if pos < 0 ∨ pos > iSize inode then some (-1, fs)
  else
    let pos := pos.toNat
    let sblock := upperDiv ((pos + size) % 2 ^ 64) 512 % 2 ^ 32
    let n := iBlocks inode / (fs.sb.blockSize / 512)
    match writeAlloc ino n sblock (sblock + 1) fs with
    | none => none
    | some (false, fs) => some (-1, fs)
    | some (true, fs) => writeLoop ino buf (size + 1) fs (pos / fs.sb.blockSize) (pos % fs.sb.blockSize) 0 size

/-! ## What a write should do -/

def fileBlocks (fs : Fs) (ino : Nat) : Nat := iBlocks (getinode fs ino).1 / (fs.sb.blockSize / 512)

def fileBlock (fs : Fs) (ino j : Nat) : Nat := iBlock (getinode fs ino).1 j

def fileSize (fs : Fs) (ino : Nat) : Nat := iSize (getinode fs ino).1

/-- A file with direct blocks, without I/O errors; none of the blocks `others` of other files is a bitmap or has the inode.
-/
structure DirectFile (fs : Fs) (ino : Nat) (others : Nat → Prop) : Prop where
  blockSize : ∃ s, fs.sb.blockSize = 1024 * 2 ^ s
  bound : 12 * fs.sb.blockSize < 2 ^ 31
  io : ∀ pos, fs.bad pos = false
  count : iBlocks (getinode fs ino).1 = fileBlocks fs ino * (fs.sb.blockSize / 512)
  direct : fileBlocks fs ino ≤ 12
  size : fileSize fs ino ≤ fileBlocks fs ino * fs.sb.blockSize
  used : ∀ j < fileBlocks fs ino, fileBlock fs ino j ≠ 0
  unused : ∀ j < 12, fileBlocks fs ino ≤ j → fileBlock fs ino j = 0
  inj : ∀ j < fileBlocks fs ino, ∀ j' < fileBlocks fs ino, fileBlock fs ino j = fileBlock fs ino j' → j = j'
  slot : inodeOffset fs.sb ino + inodeBytes ≤ fs.sb.blockSize
  table : ∀ j < fileBlocks fs ino, fileBlock fs ino j ≠ inodeBlock fs.sb ino
  bitmap : ∀ j < fileBlocks fs ino, ∀ i < fs.sb.nrGroup, fileBlock fs ino j ≠ (fs.sb.groupDescTable i).bgBlockBitmap
  others : ∀ b, others b → b ≠ inodeBlock fs.sb ino ∧ (∀ j < fileBlocks fs ino, b ≠ fileBlock fs ino j) ∧
    ∀ i < fs.sb.nrGroup, b ≠ (fs.sb.groupDescTable i).bgBlockBitmap

/-- The write returns `size` and sets the size of the file; the buffer is in the range, and the rest and other files stay. -/
def WriteContract (fs : Fs) (ino : Nat) (others : Nat → Prop) (buf : Nat → UInt8) (pos size : Nat) : Prop :=
  ∃ fs', ext2Write fs ino buf pos size = some (Int.ofNat size, fs') ∧
    fileSize fs' ino = max (fileSize fs ino) (pos + size) ∧
    (ext2Read fs' ino pos size).map Prod.fst = some ((List.range size).map buf) ∧
    (∀ p < fileSize fs ino, p < pos ∨ pos + size ≤ p →
      (ext2Read fs' ino p 1).map Prod.fst = (ext2Read fs ino p 1).map Prod.fst) ∧
    ∀ b, others b → ∀ x < fs.sb.blockSize, fs'.disk (b * fs.sb.blockSize + x) = fs.disk (b * fs.sb.blockSize + x)

/-- The number for the first clear bit is a nonzero `int` and no block of a file; an inode in the block is behind the write.
-/
def NewBlockOk (fs : Fs) (ino : Nat) (others : Nat → Prop) (size : Nat) : Prop :=
  ∀ i idx, FirstClear fs .block i idx →
    let b := (i * fs.sb.blockSize + idx) % 2 ^ 32
    0 < b ∧ b < 2 ^ 31 ∧ ¬ others b ∧ (∀ j < fileBlocks fs ino, b ≠ fileBlock fs ino j) ∧
      (b = inodeBlock fs.sb ino → size ≤ inodeOffset fs.sb ino)

/-- Nothing is written, or the write begins at the end of the file and stays in one block, which can be written. -/
def WriteCond (fs : Fs) (ino : Nat) (others : Nat → Prop) (pos size : Nat) : Prop :=
  size = 0 ∨ pos = fileSize fs ino ∧ pos % fs.sb.blockSize + size ≤ fs.sb.blockSize ∧
    if pos / fs.sb.blockSize < fileBlocks fs ino then fileBlock fs ino (pos / fs.sb.blockSize) < 2 ^ 31
    else NewBlockOk fs ino others size

end FengOS.Ext2
