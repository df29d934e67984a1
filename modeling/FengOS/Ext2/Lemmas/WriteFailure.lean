import FengOS.Ext2.Failure
import FengOS.Ext2.ReadTheorems
import FengOS.Ext2.Lemmas.Dir
import FengOS.Ext2.AllocTheorems

/-!
# The beginning of a write
-/

namespace FengOS.Ext2

open FengOS.Lib

variable {fs fs' : Fs} {inode : Inode} {ino n fuel : Nat}
  {bad : Nat → Bool} {junk : Int} {buf : Nat → UInt8} {pos : Int} {size : Nat} {r : Int}

def opened (fs : Fs) (ino : Nat) (bad : Nat → Bool) (junk : Int) : Fs :=
  (fs.withErrors bad junk).setInode ino (getinode fs ino).1

theorem opened_cache : (opened fs ino bad junk).cache ino = some (getinode fs ino).1 := setInode_cache

theorem getinode_withErrors : getinode (fs.withErrors bad junk) ino = ((getinode fs ino).1, opened fs ino bad junk) := by
  have hcache : (fs.withErrors bad junk).cache ino = fs.cache ino := rfl
  unfold opened getinode
  rw [hcache]
  cases hino : fs.cache ino with
  | none => rfl
  | some inode =>
    have hsame : Function.update (fs.withErrors bad junk).cache ino (some inode) = (fs.withErrors bad junk).cache := by
      rw [← hino, ← hcache, Function.update_eq_self]
    dsimp only [Fs.setInode]
    rw [hsame]

theorem ext2Write_withErrors (hpos : ¬ (pos < 0 ∨ pos > fileSize fs ino)) :
    ext2Write (fs.withErrors bad junk) ino buf pos size =
      match writeAlloc ino (fileBlocks fs ino) (sectors pos.toNat size) (sectors pos.toNat size + 1)
        (opened fs ino bad junk) with
      | none => none
      | some (false, fs) => some (-1, fs)
      | some (true, fs) =>
        writeLoop ino buf (size + 1) fs (pos.toNat / fs.sb.blockSize) (pos.toNat % fs.sb.blockSize) 0 size := by
  rw [ext2Write, getinode_withErrors]
  exact if_neg hpos

theorem ext2Write_needless (hpos : ¬ (pos < 0 ∨ pos > fileSize fs ino))
    (hneed : ¬ iBlocks (getinode fs ino).1 < sectors pos.toNat size) :
    ext2Write (fs.withErrors bad junk) ino buf pos size = writeLoop ino buf (size + 1) (opened fs ino bad junk)
      (pos.toNat / fs.sb.blockSize) (pos.toNat % fs.sb.blockSize) 0 size := by
  rw [ext2Write_withErrors hpos, writeAlloc_done opened_cache (Nat.le_of_not_lt hneed)]
  rfl

theorem ext2Write_refused (buf : Nat → UInt8) (hpos : ¬ (pos < 0 ∨ pos > fileSize fs ino))
    (hneed : iBlocks (getinode fs ino).1 < sectors pos.toNat size)
    (halloc : allocBlock (opened fs ino bad junk) = (r, fs')) (hrefused : toInt r < 0 ∨ ¬ HasPlace fs ino) :
    ext2Write (fs.withErrors bad junk) ino buf pos size = some (-1, fs') := by
  have hrefused' : toInt r < 0 ∨ 12 ≤ fileBlocks fs ino ∨ fileBlock fs ino (fileBlocks fs ino) ≠ 0 := by
    unfold HasPlace at hrefused
    omega
  rw [ext2Write_withErrors hpos, writeAlloc_refused opened_cache hneed halloc hrefused']

theorem writeLoop_empty {off count : Nat} :
    writeLoop ino buf (fuel + 1) fs n off count 0 = some (Int.ofNat count, putinode fs ino) := if_pos rfl

end FengOS.Ext2
