import FengOS.Lib.Mem
import Mathlib.Logic.Function.Iterate

/-!
# Reading a file (`fs/fat32/fat32.c`)

`storage_read` reads sectors of 512 bytes, and `malloc` returns a buffer. The disk is a memory.
-/

namespace FengOS.Fat32

open FengOS.Lib

structure Superblock where
  sectorPerClus : Nat
  dataFirstSector : Nat
  fat1FirstSector : Nat
  sectorPerClus_pos : 0 < sectorPerClus

def Superblock.bytesPerClus (sb : Superblock) : Nat := 512 * sb.sectorPerClus

/-- The fields of `struct fs_entry` that are read; `fsize` is a `DIR_FileSize`. -/
structure FsEntry where
  pread : Nat
  fsize : Nat
  fsize_lt : fsize < 2 ^ 32

def getnextclus (sb : Superblock) (disk : Mem) (entry : Nat) : Nat :=
  disk.load (512 * (sb.fat1FirstSector + entry % 2 ^ 32 / 128) + 4 * (entry % 128)) 4 % 2 ^ 28

/-- The buffer after `storage_read` of a cluster. -/
def readClus (sb : Superblock) (disk : Mem) (clus : Nat) : Mem := fun i =>
  disk (512 * ((sb.dataFirstSector + (clus + 2 ^ 64 - 2) * sb.sectorPerClus) % 2 ^ 64) + i)

/-- The `do` loop; `buf` is an address in the memory `m`. -/
def readLoop (sb : Superblock) (disk : Mem) : Nat → Nat → Nat → Nat → Nat → Nat → Mem → Option (Nat × Mem)
  | 0, _, _, _, _, _, _ => none
  | rounds + 1, clus, offset, size, retval, buf, m =>
    let cpysize := if sb.bytesPerClus - offset > size then size else sb.bytesPerClus - offset
    let m := m.write buf (fun i => readClus sb disk clus (offset + i)) cpysize
    if size - cpysize > 0 then
      readLoop sb disk rounds (getnextclus sb disk clus) 0 (size - cpysize) (retval + cpysize) (buf + cpysize) m
    else some (retval + cpysize, m)

def fat32Read (sb : Superblock) (disk : Mem) (rounds : Nat) (entry : FsEntry) (buf pos size : Nat) (m : Mem) :
    Option (Int × Mem) :=
  if pos ≥ entry.fsize then some (0, m)
  else
    let clus := (getnextclus sb disk)^[pos / sb.bytesPerClus] entry.pread
    let size := if (pos + size) % 2 ^ 64 ≥ entry.fsize then entry.fsize - pos else size
    (readLoop sb disk rounds clus (pos % sb.bytesPerClus) size 0 buf m).map fun r => ((r.1 : Int), r.2)

/-- The bytes of the clusters of a chain, one cluster behind the other. -/
def chainBytes (sb : Superblock) (disk : Mem) (first : Nat) : Mem := fun x =>
  readClus sb disk ((getnextclus sb disk)^[x / sb.bytesPerClus] first) (x % sb.bytesPerClus)

variable {sb : Superblock} {disk m : Mem} {first q offset size retval buf rounds : Nat}

theorem Superblock.bytesPerClus_pos : 0 < sb.bytesPerClus := Nat.mul_pos (by decide) sb.sectorPerClus_pos

theorem chainBytes_apply (h : offset < sb.bytesPerClus) :
    chainBytes sb disk first (q * sb.bytesPerClus + offset) = readClus sb disk ((getnextclus sb disk)^[q] first) offset := by
  rw [chainBytes, Nat.mul_comm, Nat.mul_add_div sb.bytesPerClus_pos, Nat.div_eq_of_lt h, Nat.mul_add_mod, Nat.mod_eq_of_lt h,
    Nat.add_zero]

theorem readLoop_eq (hoffset : offset < sb.bytesPerClus) (hrounds : size < rounds) :
    readLoop sb disk rounds ((getnextclus sb disk)^[q] first) offset size retval buf m =
      some (retval + size, m.write buf (fun i => chainBytes sb disk first (q * sb.bytesPerClus + offset + i)) size) := by
  induction rounds generalizing q offset size retval buf m with
  | zero => omega
  | succ rounds ih =>
    have hcopy : ∀ n ≤ sb.bytesPerClus - offset,
        m.write buf (fun i => readClus sb disk ((getnextclus sb disk)^[q] first) (offset + i)) n =
          m.write buf (fun i => chainBytes sb disk first (q * sb.bytesPerClus + offset + i)) n := fun n hn =>
      Mem.write_congr fun i hi => by rw [Nat.add_assoc, chainBytes_apply (by omega)]
    rcases Nat.lt_or_ge (sb.bytesPerClus - offset) size with hmore | hlast
    · have hcpy : (if sb.bytesPerClus - offset > size then size else sb.bytesPerClus - offset) = sb.bytesPerClus - offset :=
        if_neg (by omega)
      -- The rest begins with the next cluster of the chain.
      have hnext : (q + 1) * sb.bytesPerClus + 0 = q * sb.bytesPerClus + offset + (sb.bytesPerClus - offset) := by
        rw [Nat.succ_mul]
        omega
      simp only [readLoop, hcpy, Nat.sub_pos_of_lt hmore, if_true, hcopy _ (Nat.le_refl _), ← Function.iterate_succ_apply']
      rw [ih sb.bytesPerClus_pos (by omega), hnext]
      simp only [Nat.add_assoc _ (sb.bytesPerClus - offset)]
      rw [@Mem.write_append _ _ _ _ fun i => chainBytes sb disk first (q * sb.bytesPerClus + offset + i),
        Nat.add_sub_cancel' (Nat.le_of_lt hmore)]
    · have hcpy : (if sb.bytesPerClus - offset > size then size else sb.bytesPerClus - offset) = size := by
        split <;> omega
      simp [readLoop, hcpy, hcopy size hlast]

/-- `fat32_read` returns after enough rounds and has read the bytes of the chain that it should. -/
theorem fat32Read_eq (sb : Superblock) (disk m : Mem) (entry : FsEntry) (buf pos size rounds : Nat) (hpos : pos < entry.fsize)
    (hwrap : pos + size < 2 ^ 64) (hrounds : size < rounds) :
    fat32Read sb disk rounds entry buf pos size m =
      some (((min size (entry.fsize - pos) : Nat) : Int),
        m.write buf (fun i => chainBytes sb disk entry.pread (pos + i)) (min size (entry.fsize - pos))) := by
  have hsize : (if (pos + size) % 2 ^ 64 ≥ entry.fsize then entry.fsize - pos else size) = min size (entry.fsize - pos) := by
    rw [Nat.mod_eq_of_lt hwrap]
    split <;> omega
  simp only [fat32Read, Nat.not_le.mpr hpos, ge_iff_le, if_false] at hsize ⊢
  rw [hsize, readLoop_eq (Nat.mod_lt _ sb.bytesPerClus_pos) (by omega), Option.map_some, Nat.zero_add, Nat.div_add_mod']

/-- A file in the clusters 2 and 3, which have their own sectors; four bytes are read across the boundary. -/
theorem fat32Read_eq_twoClusters :
    let disk : Mem := fun i => if i = 8 then 3 else if i < 512 then 0 else UInt8.ofNat (i / 512)
    (fat32Read ⟨1, 1, 0, by decide⟩ disk 5 ⟨2, 600, by decide⟩ 16 510 4 (fun _ => 0)).map
      (fun r => (r.1, [15, 16, 17, 18, 19, 20].map r.2)) = some (4, [0, 1, 1, 2, 2, 0]) := by
  simp only []
  rw [fat32Read_eq _ _ _ _ _ _ _ _ (by decide) (by decide) (by decide)]
  decide +kernel

end FengOS.Fat32
