import FengOS.Ext2.Disk

/-!
# Blocks of a file and free blocks (`srv/ext2/main.c`)

`get_block_no` and `setblock` work on the block numbers of an inode, `alloc_block` and `alloc_inode` on the bitmaps of the
groups. Only the reads of bitmaps can fail here.
-/

namespace FengOS.Ext2

open FengOS.Lib

/-! ## `get_block_no` -/

def nrInodeBlock : Nat := 15

/-- `array_ladder`, as `ext2_mount` fills it; `base` is the number of block numbers in a block. -/
def arrayLadder (base : Nat) : Nat → Nat
  | 0 => 1
  | i + 1 => if 12 ≤ i + 1 then arrayLadder base i * base % 2 ^ 32 else arrayLadder base i

/-- The first loop of `get_block_no` from `i` on: the index in `i_block` and the depth for block `n`. -/
def findLevel (ladder : Nat → Nat) (n : Nat) : Nat → Nat → Nat → Nat → Option (Nat × Nat)
  | 0, _, _, _ => none
  | rounds + 1, i, sum, depth =>
    let depth := if 12 ≤ i then depth + 1 else depth
    if sum ≤ n ∧ n < (sum + ladder i) % 2 ^ 32 then some (i, depth)
    else findLevel ladder n rounds (i + 1) ((sum + ladder i) % 2 ^ 32) depth

/-- The second loop of `get_block_no`. There is no result if it reads past the end of the buffer. -/
def descend (disk : Mem) (blockSize : Nat) (ladder : Nat → Nat) : Nat → Nat → Nat → Option Nat
  | 0, block, _ => some block
  | depth + 1, block, reminder =>
    if block = 0 then some block
    else
      let blockArray := bdevRead disk (block * blockSize)
      let index := reminder / ladder (12 + depth - 1)
      if 4 * index + 4 ≤ blockSize then
        descend disk blockSize ladder depth (blockArray.load (4 * index) 4) (reminder % ladder (12 + depth - 1))
      else none

def getBlockNo (fs : Fs) (inode : Inode) (n : Nat) : Option Int :=
  let ladder := arrayLadder (fs.sb.blockSize / 4)
  match findLevel ladder n nrInodeBlock 0 0 0 with
  | none => some (-1)
  | some (i, depth) =>
    (descend fs.disk fs.sb.blockSize ladder depth (iBlock inode i) ((n + (2 ^ 32 - 12)) % 2 ^ 32)).map Int.ofNat

/-! ## The indexing scheme -/

/-- The number at an index of an indirect block. -/
def indirect (disk : Mem) (blockSize block index : Nat) : Nat :=
  if block = 0 then 0 else disk.load (block * blockSize + 4 * index) 4

/-- The number of the `n`-th block of a file by the format, whatever `get_block_no` makes of it. -/
def ext2BlockNo (disk : Mem) (blockSize : Nat) (inode : Inode) (n : Nat) : Nat :=
  let base := blockSize / 4
  let entry := indirect disk blockSize
  if n < 12 then iBlock inode n
  else if n < 12 + base then entry (iBlock inode 12) (n - 12)
  else if n < 12 + base + base ^ 2 then
    let m := n - 12 - base
    entry (entry (iBlock inode 13) (m / base)) (m % base)
  else
    let m := n - 12 - base - base ^ 2
    entry (entry (entry (iBlock inode 14) (m / base ^ 2)) (m / base % base)) (m % base)

/-! ## `getblock` and `setblock` -/

/-- `getblock`. The number is an `unsigned long`, so that only 0 is taken for the end of the file. -/
def getblock (fs : Fs) (n : Nat) (inode : Inode) (data : Mem) : Option (Nat × Mem) :=
  (getBlockNo fs inode (n % 2 ^ 32)).map fun block =>
    let block := (block % 2 ^ 64).toNat
    if block = 0 then (0, data) else (1, bdevRead fs.disk (block * fs.sb.blockSize % 2 ^ 64))

/-- `setblock`: whether it returns 0. -/
def setblock (fs : Fs) (ino n no : Nat) : Bool × Fs :=
  if 12 ≤ n then (false, fs)
  else
    let (inode, fs) := getinode fs ino
    if iBlock inode n ≠ 0 then (false, fs)
    else
      let inode := setIBlock inode n no
      (true, fs.setInode ino (setIBlocks inode ((iBlocks inode + fs.sb.blockSize / 512) % 2 ^ 32)))

/-! ## `alloc_block` and `alloc_inode` -/

def clearBit (val : UInt8) : Option Nat := (List.range 8).find? fun k => !val.toNat.testBit k

def clearByte (bitmap : Mem) (blockSize : Nat) : Option (Nat × Nat) :=
  (List.range blockSize).findSome? fun j => (clearBit (bitmap j)).map fun k => (j, k)

/-- The first clear bit in what the buffer holds for each group. -/
def clearGroup (fs : Fs) (buffer : Nat → Mem) : Option (Nat × Nat × Nat) :=
  (List.range fs.sb.nrGroup).findSome? fun i => (clearByte (buffer i) fs.sb.blockSize).map fun jk => (i, jk)

def bitmapPos (fs : Fs) (field : GroupDesc → Nat) (i : Nat) : Nat := field (fs.sb.groupDescTable i) * fs.sb.blockSize

/-- What `alloc_block` and `alloc_inode` share; `field` selects the bitmap. If all bits are set the last bitmap is written as
it is, and the number is the unassigned `junk`. -/
def allocBit (fs : Fs) (field : GroupDesc → Nat) (buffer : Nat → Mem) (number : Nat → Nat → Nat → Int) (junk : Int) :
    Int × Fs :=
  match clearGroup fs buffer with
  | none =>
    if fs.sb.nrGroup = 0 then (junk, fs)
    else
      match bdevWrite fs (bitmapPos fs field (fs.sb.nrGroup - 1)) (buffer (fs.sb.nrGroup - 1)) fs.sb.blockSize with
      | none => (-1, fs)
      | some fs => (junk, fs)
  | some (i, j, k) =>
    let bitmap := Function.update (buffer i) j (buffer i j ||| UInt8.ofNat (1 <<< k))
    match bdevWrite fs (bitmapPos fs field i) bitmap fs.sb.blockSize with
    | none => (-1, fs)
    | some fs => (number i j k, fs)

def readBitmap (fs : Fs) (field : GroupDesc → Nat) (i : Nat) : Mem := bdevRead fs.disk (bitmapPos fs field i)

def blockNumber (fs : Fs) (i j k : Nat) : Int := Int.ofNat (i * fs.sb.blockSize + j * 8 + k)

/-- `alloc_inode` keeps the number in an `unsigned int`. -/
def inodeNumber (fs : Fs) (i j k : Nat) : Int := Int.ofNat ((i * fs.sb.blockSize + j * 8 + k + 1) % 2 ^ 32)

/-- `alloc_block` and `alloc_inode` if every bitmap can be read. -/
def allocBlock (fs : Fs) : Int × Fs :=
  allocBit fs GroupDesc.bgBlockBitmap (readBitmap fs GroupDesc.bgBlockBitmap) (blockNumber fs) fs.junk

def allocInode (fs : Fs) : Int × Fs :=
  allocBit fs GroupDesc.bgInodeBitmap (readBitmap fs GroupDesc.bgInodeBitmap) (inodeNumber fs) (fs.junk % 2 ^ 32)

/-! ## Bitmaps that cannot be read -/

/-- The reads that fail in a call, and what the buffer holds when `get_block_buffer` gives it. -/
structure ReadErrors where
  fails : Nat → Bool
  stale : Mem

/-- The buffer after the read of the bitmap of group `i`: a read that fails leaves it as it was. -/
def bitmapBuffer (errs : ReadErrors) (fs : Fs) (field : GroupDesc → Nat) : Nat → Mem
  | 0 => if errs.fails (bitmapPos fs field 0) then errs.stale else readBitmap fs field 0
  | i + 1 =>
    if errs.fails (bitmapPos fs field (i + 1)) then bitmapBuffer errs fs field i else readBitmap fs field (i + 1)

/-- `alloc_block`, which does not look at the result of the read. -/
def allocBlockErr (errs : ReadErrors) (fs : Fs) : Int × Fs :=
  allocBit fs GroupDesc.bgBlockBitmap (bitmapBuffer errs fs GroupDesc.bgBlockBitmap) (blockNumber fs) fs.junk

/-- A read of `alloc_inode` fails before it has found a clear bit. -/
def failsFirst (errs : ReadErrors) (fs : Fs) : Bool :=
  ((List.range fs.sb.nrGroup).findSome? fun i =>
    if errs.fails (bitmapPos fs GroupDesc.bgInodeBitmap i) then some true
    else (clearByte (readBitmap fs GroupDesc.bgInodeBitmap i) fs.sb.blockSize).map fun _ => false).getD false

/-- `alloc_inode`, which returns -1 if a read fails. -/
def allocInodeErr (errs : ReadErrors) (fs : Fs) : Int × Fs := if failsFirst errs fs then (-1, fs) else allocInode fs

end FengOS.Ext2
