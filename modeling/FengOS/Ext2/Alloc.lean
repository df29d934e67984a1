import FengOS.Ext2.Block

/-!
# What an allocation should do

The bitmaps of an image, the bit that belongs to a block or inode number, and sequences of allocations.
-/

namespace FengOS.Ext2

open FengOS.Lib

/-- The two kinds of bitmaps, one for each kind of allocation. -/
inductive Bitmap
  | block
  | inode
  deriving DecidableEq, Repr

def Bitmap.field : Bitmap → GroupDesc → Nat
  | .block => GroupDesc.bgBlockBitmap
  | .inode => GroupDesc.bgInodeBitmap

def alloc (fs : Fs) : Bitmap → Int × Fs
  | .block => allocBlock fs
  | .inode => allocInode fs

/-- The call if these reads fail. -/
def allocErr (errs : ReadErrors) (fs : Fs) : Bitmap → Int × Fs
  | .block => allocBlockErr errs fs
  | .inode => allocInodeErr errs fs

def Mounted (sb : SuperBlock) : Prop := ∃ disk bad junk fs, ext2Mount disk bad junk = some fs ∧ fs.sb = sb

/-! ## Bits -/

def bit (fs : Fs) (kind : Bitmap) (i idx : Nat) : Bool :=
  (fs.disk (kind.field (fs.sb.groupDescTable i) * fs.sb.blockSize + idx / 8)).toNat.testBit (idx % 8)

def bitOf (sb : SuperBlock) : Bitmap → Nat → Nat × Nat
  | .block, no => ((no - sb.sFirstDataBlock) / sb.sBlocksPerGroup, (no - sb.sFirstDataBlock) % sb.sBlocksPerGroup)
  | .inode, no => (inodeGroup sb no, inodeIndex sb no)

def firstNo (sb : SuperBlock) : Bitmap → Nat
  | .block => sb.sFirstDataBlock
  | .inode => 0

structure Used (fs : Fs) (kind : Bitmap) (no : Nat) : Prop where
  first : firstNo fs.sb kind ≤ no
  group : (bitOf fs.sb kind no).1 < fs.sb.nrGroup
  index : (bitOf fs.sb kind no).2 < 8 * fs.sb.blockSize
  set : bit fs kind (bitOf fs.sb kind no).1 (bitOf fs.sb kind no).2 = true

/-- Of all bits of the image the one at `i` and `idx` is set, and it was clear. -/
structure Takes (fs fs' : Fs) (kind : Bitmap) (i idx : Nat) : Prop where
  group : i < fs.sb.nrGroup
  index : idx < 8 * fs.sb.blockSize
  clear : bit fs kind i idx = false
  set : bit fs' kind i idx = true
  other : ∀ kind' i' idx', i' < fs.sb.nrGroup → idx' < 8 * fs.sb.blockSize → (kind', i', idx') ≠ (kind, i, idx) →
    bit fs' kind' i' idx' = bit fs kind' i' idx'

/-- The bits after a call that returns `no`: a number takes the bit that belongs to it, a failure none. -/
def TakesNo (fs fs' : Fs) (kind : Bitmap) (no : Int) : Prop :=
  if no < 0 then
    ∀ kind' i idx, i < fs.sb.nrGroup → idx < 8 * fs.sb.blockSize → bit fs' kind' i idx = bit fs kind' i idx
  else firstNo fs.sb kind ≤ no.toNat ∧ Takes fs fs' kind (bitOf fs.sb kind no.toNat).1 (bitOf fs.sb kind no.toNat).2

def AllocRight (errs : ReadErrors) (fs : Fs) (kind : Bitmap) : Prop :=
  TakesNo fs (allocErr errs fs kind).2 kind (allocErr errs fs kind).1

/-! ## When the numbers are right -/

/-- The first clear bit of the bitmaps. -/
structure FirstClear (fs : Fs) (kind : Bitmap) (i idx : Nat) : Prop where
  group : i < fs.sb.nrGroup
  index : idx < 8 * fs.sb.blockSize
  clear : bit fs kind i idx = false
  groups : ∀ i' < i, ∀ idx' < 8 * fs.sb.blockSize, bit fs kind i' idx' = true
  before : ∀ idx' < idx, bit fs kind i idx' = true

def AllSet (fs : Fs) (kind : Bitmap) : Prop :=
  ∀ i < fs.sb.nrGroup, ∀ idx < 8 * fs.sb.blockSize, bit fs kind i idx = true

/-- The layout of the groups agrees with the formula of the code at this bit. -/
def Numbered (sb : SuperBlock) : Bitmap → Nat → Nat → Prop
  | .block, i, idx => i * sb.blockSize = sb.sFirstDataBlock + i * sb.sBlocksPerGroup ∧ idx < sb.sBlocksPerGroup
  | .inode, i, idx => (i * sb.blockSize + idx) % 2 ^ 32 = i * sb.sInodesPerGroup + idx ∧ idx < sb.sInodesPerGroup

/-- No other bitmap is in the block of this one. -/
def Unshared (sb : SuperBlock) (kind : Bitmap) (i : Nat) : Prop :=
  ∀ kind' i', i' < sb.nrGroup → (kind', i') ≠ (kind, i) →
    kind'.field (sb.groupDescTable i') ≠ kind.field (sb.groupDescTable i)

/-- The bitmap of the group cannot be written. -/
def BadBitmap (fs : Fs) (kind : Bitmap) (i : Nat) : Prop :=
  fs.bad (kind.field (fs.sb.groupDescTable i) * fs.sb.blockSize) = true

/-- The number for a bit. -/
def allocNo (sb : SuperBlock) : Bitmap → Nat → Nat → Int
  | .block, i, idx => Int.ofNat (i * sb.blockSize + idx)
  | .inode, i, idx => Int.ofNat ((i * sb.blockSize + idx + 1) % 2 ^ 32)

/-- The number that is returned if all bits are set. -/
def junkNo (fs : Fs) : Bitmap → Int
  | .block => fs.junk
  | .inode => fs.junk % 2 ^ 32

/-! ### What is in the buffer -/

/-- What the search of a call goes through. -/
def buffers (errs : ReadErrors) (fs : Fs) : Bitmap → Nat → Mem
  | .block => bitmapBuffer errs fs GroupDesc.bgBlockBitmap
  | .inode => readBitmap fs GroupDesc.bgInodeBitmap

def bufBit (buf : Mem) (idx : Nat) : Bool := (buf (idx / 8)).toNat.testBit (idx % 8)

def mark (buf : Mem) (idx : Nat) : Mem := Function.update buf (idx / 8) (buf (idx / 8) ||| UInt8.ofNat (1 <<< (idx % 8)))

/-- The first clear bit of what is in the buffer. -/
structure ClearIn (sb : SuperBlock) (buffer : Nat → Mem) (i idx : Nat) : Prop where
  group : i < sb.nrGroup
  index : idx < 8 * sb.blockSize
  clear : bufBit (buffer i) idx = false
  groups : ∀ i' < i, ∀ idx' < 8 * sb.blockSize, bufBit (buffer i') idx' = true
  before : ∀ idx' < idx, bufBit (buffer i) idx' = true

def FullIn (sb : SuperBlock) (buffer : Nat → Mem) : Prop :=
  ∀ i < sb.nrGroup, ∀ idx < 8 * sb.blockSize, bufBit (buffer i) idx = true

/-- What is written for the group differs from the bitmap on the disk in the bit that belongs to the number, and only there.
-/
structure MarksOne (fs : Fs) (kind : Bitmap) (i : Nat) (buf : Mem) (no : Nat) : Prop where
  first : firstNo fs.sb kind ≤ no
  group : (bitOf fs.sb kind no).1 = i
  index : (bitOf fs.sb kind no).2 < 8 * fs.sb.blockSize
  clear : bit fs kind i (bitOf fs.sb kind no).2 = false
  bits : ∀ idx < 8 * fs.sb.blockSize, bufBit buf idx = (bit fs kind i idx || decide (idx = (bitOf fs.sb kind no).2))
  unshared : Unshared fs.sb kind i

/-- The same for a call that returns `no`: nothing differs if it is a failure. -/
def Marks (fs : Fs) (kind : Bitmap) (i : Nat) (buf : Mem) (no : Int) : Prop :=
  if no < 0 then ∀ idx < 8 * fs.sb.blockSize, bufBit buf idx = bit fs kind i idx else MarksOne fs kind i buf no.toNat

/-- A bitmap of `alloc_inode` cannot be read, and those before it are full. -/
def UnreadFirst (errs : ReadErrors) (fs : Fs) : Prop :=
  ∃ i < fs.sb.nrGroup, errs.fails (bitmapPos fs GroupDesc.bgInodeBitmap i) = true ∧
    ∀ i' < i, errs.fails (bitmapPos fs GroupDesc.bgInodeBitmap i') = false ∧
      ∀ idx < 8 * fs.sb.blockSize, bit fs .inode i' idx = true

/-- The read or the write fails with -1, or what is written has one bit more, that of the number. -/
def AllocCond (errs : ReadErrors) (fs : Fs) (kind : Bitmap) : Prop :=
  kind = .inode ∧ UnreadFirst errs fs ∨
  (∃ i idx, ClearIn fs.sb (buffers errs fs kind) i idx ∧ (BadBitmap fs kind i ∨
    Marks fs kind i (mark (buffers errs fs kind i) idx) (allocNo fs.sb kind i idx))) ∨
  FullIn fs.sb (buffers errs fs kind) ∧ if fs.sb.nrGroup = 0 then junkNo fs kind < 0 else
    BadBitmap fs kind (fs.sb.nrGroup - 1) ∨
      Marks fs kind (fs.sb.nrGroup - 1) (buffers errs fs kind (fs.sb.nrGroup - 1)) (junkNo fs kind)

/-! ## Sequences of allocations -/

/-- Calls one after the other, each with the reads that fail in it. -/
def allocs : Fs → List (Bitmap × ReadErrors) → List Int × Fs
  | fs, [] => ([], fs)
  | fs, (kind, errs) :: calls =>
    let (no, fs) := allocErr errs fs kind
    let (nos, fs) := allocs fs calls
    (no :: nos, fs)

def AllocConds : Fs → List (Bitmap × ReadErrors) → Prop
  | _, [] => True
  | fs, (kind, errs) :: calls => AllocCond errs fs kind ∧ AllocConds (allocErr errs fs kind).2 calls

end FengOS.Ext2
