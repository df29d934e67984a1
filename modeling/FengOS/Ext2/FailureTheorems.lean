import FengOS.Ext2.Lemmas.WriteFailure
import FengOS.Ext2.ScanTheorems

/-!
# Allocations without a clear bit
-/

namespace FengOS.Ext2

open FengOS.Lib

variable {fs : Fs} {kind : Bitmap} {i idx : Nat}

theorem markedByte_of_allSet (h : AllSet fs kind) :
    markedByte fs kind = if fs.sb.nrGroup = 0 then none else some fs.sb.blockSize := by
  have hfull : FullIn fs.sb (readBitmap fs kind.field) := h
  rw [markedByte, clearGroup_eq_none.mpr hfull]

/-- Otherwise it is the byte of the first clear bit, which the allocation sets. -/
theorem markedByte_of_firstClear (h : FirstClear fs kind i idx) (hgood : ¬ BadBitmap fs kind i) :
    markedByte fs kind = some (idx / 8) ∧ alloc fs kind = (allocNo fs.sb kind i idx, setBit fs kind i idx) := by
  refine ⟨?_, alloc_eq h hgood⟩
  have hclear : clearGroup fs (readBitmap fs kind.field) = some (i, idx / 8, idx % 8) := by
    refine clearGroup_eq_some.mpr ⟨Nat.mod_lt _ (by decide), ?_⟩
    rw [Nat.div_add_mod]
    exact firstClear_iff.mp h
  rw [markedByte, hclear]

/-- An allocation is right for images without a clear bit iff it does not meet one. -/
theorem exhaustion_iff (fs : Fs) (kind : Bitmap) : (AllSet fs kind → Exhaustion fs kind) ↔ ¬ AllSet fs kind := by
  constructor
  · intro h hall
    obtain ⟨j, hj, hmarked⟩ := (h hall).buffer
    rw [markedByte_of_allSet hall] at hmarked
    split at hmarked
    · cases hmarked
    · obtain rfl := Option.some.inj hmarked
      exact Nat.lt_irrefl _ hj
  · exact fun hnot hall => absurd hall hnot

def fullFs : Fs :=
  { entryFs 7 1024 [97] with disk := Mem.write (entryFs 7 1024 [97]).disk 3072 (fun _ => 255) 1024 }

theorem fullFs_allSet : AllSet fullFs .block := by
  intro i _ idx hidx
  have hlt : idx / 8 < 1024 := Nat.div_lt_of_lt_mul hidx
  have hbyte : fullFs.disk (3072 + idx / 8) = 255 := by
    show Mem.write _ 3072 (fun _ => 255) 1024 (3072 + idx / 8) = 255
    rw [Mem.write_add hlt]
  have htest : ∀ k < 8, (255 : UInt8).toNat.testBit k = true := by decide
  have hfield : Bitmap.block.field (fullFs.sb.groupDescTable i) = 3 := rfl
  have hbs : fullFs.sb.blockSize = 1024 := rfl
  rw [bit, hfield, hbs, hbyte]
  exact htest _ (Nat.mod_lt _ (by decide))

/-- The byte behind the buffer is changed, the number is the uninitialised variable, and a directory is made with it. -/
theorem exhaustion_ignored : AllSet fullFs .block ∧ markedByte fullFs .block = some fullFs.sb.blockSize ∧
    (alloc fullFs .block).1 = 0 ∧ (initNewdir fullFs 12 0).1 = 1 ∧ ¬ Exhaustion fullFs .block := by
  have hmarked := markedByte_of_allSet fullFs_allSet
  rw [if_neg (by decide)] at hmarked
  have hno : (alloc fullFs .block).1 = 0 :=
    (alloc_of_allSet fullFs_allSet).2.resolve_right fun hbad => Bool.false_ne_true hbad.2.1
  refine ⟨fullFs_allSet, hmarked, hno, by decide +kernel, fun h => ?_⟩
  cases hno.symm.trans h.result

end FengOS.Ext2
