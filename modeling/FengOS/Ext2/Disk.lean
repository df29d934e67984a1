import FengOS.Lib.Mem

/-!
# The ext2 server (`srv/ext2`): the disk, the super block and the inodes

The disk is the bytes of the partition. Reads do not fail; which writes fail is part of the state. The fields of a structure
are read and written at the offsets of `ext2.h`.
-/

namespace FengOS.Ext2

open FengOS.Lib

/-- The fields of `struct group_desc` that the server uses. -/
structure GroupDesc where
  bgBlockBitmap : Nat
  bgInodeBitmap : Nat
  bgInodeTable : Nat
  deriving DecidableEq, Repr

/-- The fields of `struct super_block` that the server uses after `ext2_mount`. -/
structure SuperBlock where
  sFirstDataBlock : Nat
  sBlocksPerGroup : Nat
  sInodesPerGroup : Nat
  sInodeSize : Nat
  blockSize : Nat
  nrGroup : Nat
  groupDescTable : Nat → GroupDesc

/-- The bytes of a `struct inode`. -/
abbrev Inode := Mem

/-- `cache` is the inode map, `junk` what an uninitialised variable holds. -/
structure Fs where
  sb : SuperBlock
  disk : Mem
  bad : Nat → Bool
  cache : Nat → Option Inode
  junk : Int

/-! ## The block device -/

def bdevRead (disk : Mem) (pos : Nat) : Mem := fun i => disk (pos + i)

/-- `ext2_bdev_write`; there is no result if it returns -1. -/
def bdevWrite (fs : Fs) (pos : Nat) (buf : Mem) (size : Nat) : Option Fs :=
  if fs.bad pos then none else some { fs with disk := fs.disk.write pos buf size }

/-! ## Inodes -/

/-- `sizeof(struct inode)`. -/
def inodeBytes : Nat := 128

def iMode (inode : Inode) : Nat := inode.load 0 2
def iUid (inode : Inode) : Nat := inode.load 2 2
def iSize (inode : Inode) : Nat := inode.load 4 4
def iGid (inode : Inode) : Nat := inode.load 24 2
def iBlocks (inode : Inode) : Nat := inode.load 28 4
def iBlock (inode : Inode) (n : Nat) : Nat := inode.load (40 + 4 * n) 4

def setIMode (inode : Inode) (value : Nat) : Inode := inode.store 0 value 2
def setIUid (inode : Inode) (value : Nat) : Inode := inode.store 2 value 2
def setISize (inode : Inode) (value : Nat) : Inode := inode.store 4 value 4
def setIGid (inode : Inode) (value : Nat) : Inode := inode.store 24 value 2
def setILinksCount (inode : Inode) (value : Nat) : Inode := inode.store 26 value 2
def setIBlocks (inode : Inode) (value : Nat) : Inode := inode.store 28 value 4
def setIBlock (inode : Inode) (n value : Nat) : Inode := inode.store (40 + 4 * n) value 4

/-- The group of an inode and its index there, which `getinode` and `putinode` compute. -/
def inodeGroup (sb : SuperBlock) (ino : Nat) : Nat := (ino + (2 ^ 32 - 1)) % 2 ^ 32 / sb.sInodesPerGroup
def inodeIndex (sb : SuperBlock) (ino : Nat) : Nat := (ino + (2 ^ 32 - 1)) % 2 ^ 32 % sb.sInodesPerGroup

def inodeBlock (sb : SuperBlock) (ino : Nat) : Nat :=
  ((sb.groupDescTable (inodeGroup sb ino)).bgInodeTable + inodeIndex sb ino / (sb.blockSize / sb.sInodeSize)) % 2 ^ 32

def inodeOffset (sb : SuperBlock) (ino : Nat) : Nat :=
  sb.sInodeSize * (inodeIndex sb ino % (sb.blockSize / sb.sInodeSize))

def readInode (fs : Fs) (ino : Nat) : Inode := fun i =>
  if i < inodeBytes then bdevRead fs.disk (inodeBlock fs.sb ino * fs.sb.blockSize) (inodeOffset fs.sb ino + i) else 0

def Fs.setInode (fs : Fs) (ino : Nat) (inode : Inode) : Fs :=
  { fs with cache := Function.update fs.cache ino (some inode) }

def getinode (fs : Fs) (ino : Nat) : Inode × Fs :=
  match fs.cache ino with
  | some inode => (inode, fs)
  | none => (readInode fs ino, fs.setInode ino (readInode fs ino))

/-- `putinode`, whose result no caller looks at. -/
def putinode (fs : Fs) (ino : Nat) : Fs :=
  match fs.cache ino with
  | none => fs
  | some inode =>
    let pos := inodeBlock fs.sb ino * fs.sb.blockSize
    let buffer := (bdevRead fs.disk pos).write (inodeOffset fs.sb ino) inode inodeBytes
    (bdevWrite fs pos buffer fs.sb.blockSize).getD fs

/-! ## `ext2_mount` -/

def ext2SuperMagic : Nat := 0xEF53
def ext2RootIno : Nat := 2

/-- `ext2_mount`; no result without the magic number or after a division by zero. -/
def ext2Mount (disk : Mem) (bad : Nat → Bool) (junk : Int) : Option Fs :=
  let super := bdevRead disk 1024
  let blockSize := 1024 <<< super.load 24 4
  if super.load 56 2 ≠ ext2SuperMagic then none
  else if super.load 32 4 = 0 ∨ super.load 40 4 = 0 ∨ super.load 88 2 = 0 ∨ blockSize / super.load 88 2 = 0 then none
  else
    let table := bdevRead disk ((super.load 20 4 + 1) % 2 ^ 32 * blockSize)
    let sb : SuperBlock :=
      { sFirstDataBlock := super.load 20 4
        sBlocksPerGroup := super.load 32 4
        sInodesPerGroup := super.load 40 4
        sInodeSize := super.load 88 2
        blockSize := blockSize
        nrGroup := super.load 4 4 / super.load 32 4 + if super.load 4 4 % super.load 32 4 ≠ 0 then 1 else 0
        groupDescTable := fun i => ⟨table.load (32 * i) 4, table.load (32 * i + 4) 4, table.load (32 * i + 8) 4⟩ }
    some (getinode ⟨sb, disk, bad, fun _ => none, junk⟩ ext2RootIno).2

end FengOS.Ext2
