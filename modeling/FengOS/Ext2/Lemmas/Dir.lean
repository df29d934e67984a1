import FengOS.Ext2.Dir
import FengOS.Ext2.Lemmas.File

/-!
# Chains of directory entries
-/

namespace FengOS.Ext2

open FengOS.Lib

variable {fs : Fs} {inode : Inode} {buf : Mem} {off e n : Nat} {offs : List Nat} {dir : List (Nat × List Nat)}

theorem Chain.le (h : Chain buf e off offs) : off ≤ e := by
  induction h with
  | nil => exact Nat.le_refl e
  | cons _ _ _ ih => omega

theorem Chain.length_le (h : Chain buf e off offs) : off + 8 * offs.length ≤ e := by
  induction h with
  | nil => exact Nat.le_refl e
  | cons _ hlen _ ih =>
    rw [List.length_cons]
    omega

theorem getblock_eq {b : Nat} {data : Mem} (h : getBlockNo fs inode n = some (Int.ofNat b)) (hbs : fs.sb.blockSize < 2 ^ 32) :
    getblock fs n inode data = some (if b = 0 then (0, data) else (1, blockAt fs b)) := by
  obtain ⟨hn, hb⟩ := getBlockNo_lt h
  have hmod : (Int.ofNat b % 2 ^ 64).toNat = b := by
    simp only [Int.ofNat_eq_natCast]
    omega
  have hpos : b * fs.sb.blockSize % 2 ^ 64 = b * fs.sb.blockSize :=
    Nat.mod_eq_of_lt (Nat.lt_of_lt_of_le (Nat.mul_lt_mul'' hb hbs) (by decide))
  rw [getblock, Nat.mod_eq_of_lt hn, h, Option.map_some]
  dsimp only
  rw [hmod, hpos]
  rfl

theorem dirFrom_congr {fs' : Fs} {number : Nat → Nat} (hsb : fs'.sb = fs.sb) (hdisk : fs'.disk = fs.disk) :
    DirFrom fs' number n dir ↔ DirFrom fs number n dir := by
  induction dir generalizing n with
  | nil => rfl
  | cons block dir ih => simp only [DirFrom, blockAt, hsb, hdisk, ih]

end FengOS.Ext2
