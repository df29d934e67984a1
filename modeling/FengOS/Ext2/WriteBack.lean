import FengOS.Ext2.File

/-!
# Writing inodes back (`getinode` and `putinode` with the map of `cache.c`)

Here the inode map is the table of lists that it is in `cache.c`, and the numbers that `getinode` and `putinode` compute are
the `int`s of the source.
-/

namespace FengOS.Ext2

open FengOS.Lib

/-! ## The inode map -/

/-- `__INDOE_HASH_MAP_SIZE`. -/
def inodeHashMapSize : Nat := 1024

abbrev InodeMap := Nat → List (Nat × Inode)

def initInodeMap : InodeMap := fun _ => []

/-- `put_inode_map`, which adds a node at the head. -/
def putInodeMap (map : InodeMap) (ino : Nat) (inode : Inode) : InodeMap :=
  Function.update map (ino % inodeHashMapSize) ((ino, inode) :: map (ino % inodeHashMapSize))

def getInodeMap (map : InodeMap) (ino : Nat) : Option Inode :=
  ((map (ino % inodeHashMapSize)).find? fun node => node.1 = ino).map Prod.snd

/-- A change to the inode that a list holds under a number. -/
def changeNode (ino : Nat) (inode : Inode) : List (Nat × Inode) → List (Nat × Inode)
  | [] => []
  | node :: nodes => if node.1 = ino then (ino, inode) :: nodes else node :: changeNode ino inode nodes

/-- A change through the pointer that `get_inode_map` returns. -/
def changeInode (map : InodeMap) (ino : Nat) (inode : Inode) : InodeMap :=
  Function.update map (ino % inodeHashMapSize) (changeNode ino inode (map (ino % inodeHashMapSize)))

/-! ## The slot of an inode -/

def SuperBlock.inodePerBlock (sb : SuperBlock) : Nat := sb.blockSize / sb.sInodeSize

def SuperBlock.index (sb : SuperBlock) (ino : Nat) : Int := toInt (inodeIndex sb ino)

def SuperBlock.tableBlock (sb : SuperBlock) (ino : Nat) : Nat :=
  (((sb.groupDescTable (inodeGroup sb ino)).bgInodeTable + (sb.index ino).tdiv sb.inodePerBlock) % 2 ^ 32).toNat

def SuperBlock.slotOffset (sb : SuperBlock) (ino : Nat) : Int := sb.sInodeSize * (sb.index ino).tmod sb.inodePerBlock

/-- The slot is in the block buffer. -/
def SuperBlock.SlotInBuffer (sb : SuperBlock) (ino : Nat) : Prop :=
  0 ≤ sb.slotOffset ino ∧ sb.slotOffset ino + inodeBytes ≤ sb.blockSize

instance (sb : SuperBlock) (ino : Nat) : Decidable (sb.SlotInBuffer ino) := inferInstanceAs (Decidable (_ ∧ _))

/-! ## `getinode` and `putinode` -/

structure Server where
  sb : SuperBlock
  disk : Mem
  bad : Nat → Bool
  map : InodeMap

namespace Server

def tablePos (s : Server) (ino : Nat) : Nat := s.sb.tableBlock ino * s.sb.blockSize

/-- `*(struct inode *)(buffer + sb->s_inode_size * itable_index)`. -/
def slot (s : Server) (ino : Nat) : Inode := fun i =>
  if i < inodeBytes then bdevRead s.disk (s.tablePos ino) ((s.sb.slotOffset ino).toNat + i) else 0

/-- `getinode`. There is no result if it reads outside the block buffer. -/
def getinode (s : Server) (ino : Nat) : Option (Inode × Server) :=
  match getInodeMap s.map ino with
  | some inode => some (inode, s)
  | none => if s.sb.SlotInBuffer ino then some (s.slot ino, { s with map := putInodeMap s.map ino (s.slot ino) }) else none

/-- `putinode`. There is no result if it writes outside the block buffer. -/
def putinode (s : Server) (ino : Nat) : Option (Int × Server) :=
  match getInodeMap s.map ino with
  | none => some (-1, s)
  | some inode =>
    if s.sb.SlotInBuffer ino then
      let buffer := (bdevRead s.disk (s.tablePos ino)).write (s.sb.slotOffset ino).toNat inode inodeBytes
      if s.bad (s.tablePos ino) then some (0, s)
      else some (0, { s with disk := s.disk.write (s.tablePos ino) buffer s.sb.blockSize })
    else none

def empty (s : Server) : Server := { s with map := initInodeMap }

end Server

/-! ## The round trip -/

def SuperBlock.Valid (sb : SuperBlock) (ino : Nat) : Prop :=
  1 ≤ ino ∧ ino < 2 ^ 32 ∧ ino ≤ sb.nrGroup * sb.sInodesPerGroup

def SuperBlock.slotBlock (sb : SuperBlock) (group index : Nat) : Nat :=
  (sb.groupDescTable group).bgInodeTable + index / sb.inodePerBlock

/-- The block size and `nr_group` are `int`s, and no block of the inode tables is in two or beyond 32 bits. -/
structure Server.Image (s : Server) : Prop where
  blockSize : ∃ k ≤ 20, s.sb.blockSize = 2 ^ (10 + k)
  inodeSize : ∃ k, s.sb.sInodeSize = 2 ^ k
  inodeSize_ge : inodeBytes ≤ s.sb.sInodeSize
  inodeSize_le : s.sb.sInodeSize ≤ s.sb.blockSize
  inodes : 0 < s.sb.sInodesPerGroup ∧ s.sb.sInodesPerGroup < 2 ^ 32
  groups : s.sb.nrGroup < 2 ^ 31
  fits : ∀ g < s.sb.nrGroup, ∀ index < s.sb.sInodesPerGroup, s.sb.slotBlock g index < 2 ^ 32
  apart : ∀ g < s.sb.nrGroup, ∀ g' < s.sb.nrGroup, g ≠ g' → ∀ index < s.sb.sInodesPerGroup,
    ∀ index' < s.sb.sInodesPerGroup, s.sb.slotBlock g index ≠ s.sb.slotBlock g' index'
  io : ∀ pos, s.bad pos = false

/-- A changed inode is found on the disk when it is written back, others are as before, and only its block is written. -/
def Server.RoundTrip (s : Server) (ino : Nat) (inode : Inode) : Prop :=
  ∃ s', { s with map := changeInode s.map ino inode }.putinode ino = some (0, s') ∧
    (∃ r, s'.empty.getinode ino = some r ∧ ∀ i < inodeBytes, r.1 i = inode i) ∧
    (∀ other, s.sb.Valid other → other ≠ ino →
      (s'.getinode other).map Prod.fst = (s.getinode other).map Prod.fst ∧
        (s'.empty.getinode other).map Prod.fst = (s.empty.getinode other).map Prod.fst) ∧
    ∀ b, b / s.sb.blockSize ≠ s.sb.slotBlock (inodeGroup s.sb ino) (inodeIndex s.sb ino) → s'.disk b = s.disk b

/-- Every inode in the map makes the round trip. -/
def Server.RoundTrips (s : Server) : Prop :=
  ∀ map ino inode, s.sb.Valid ino → (getInodeMap map ino).isSome → { s with map := map }.RoundTrip ino inode

end FengOS.Ext2
