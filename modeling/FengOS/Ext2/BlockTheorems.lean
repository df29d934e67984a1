import FengOS.Ext2.Lemmas.Block

/-!
# Block numbers
-/

namespace FengOS.Ext2

open FengOS.Lib

variable {base n i s : Nat} {fs : Fs} {inode : Inode}

/-! ## A disk that tells two entries apart -/

theorem load_const {m : Mem} {a : Nat} {v : UInt8} (h : ∀ b, a ≤ b → b < a + 4 → m b = v) :
    m.load a 4 = v.toNat * 0x01010101 := by
  simp only [Mem.load, h a (by omega) (by omega), h (a + 1) (by omega) (by omega), h (a + 1 + 1) (by omega) (by omega),
    h (a + 1 + 1 + 1) (by omega) (by omega)]
  omega

theorem exists_pointer (top : Nat) (hi : i < base) : ∃ (disk : Mem) (q : Nat), q ≠ 0 ∧
    disk.load (top * (4 * base) + 4 * i) 4 = q ∧ (∀ j < base, disk.load (q * (4 * base) + 4 * j) 4 = q) ∧
    ∀ j < base, j ≠ i → disk.load (top * (4 * base) + 4 * j) 4 = 0 := by
  obtain ⟨v, hv, hne⟩ : ∃ v : UInt8, (v = 1 ∨ v = 2) ∧ v.toNat * 0x01010101 ≠ top := by
    by_cases h : top = 0x01010101
    · exact ⟨2, Or.inr rfl, by rw [h]; decide⟩
    · exact ⟨1, Or.inl rfl, fun he => h he.symm⟩
  generalize hq : v.toNat * 0x01010101 = q at hne
  have hq' : q ≠ 0 ∧ q < 2 ^ 32 := by
    rcases hv with rfl | rfl <;> subst hq <;> decide
  have hapart : ∀ j < base, top * (4 * base) + 4 * j + 4 ≤ q * (4 * base) ∨
      q * (4 * base) + 4 * base ≤ top * (4 * base) + 4 * j := by
    intro j hj
    have hdisjoint := block_disjoint (4 * base) hne
    omega
  let blank : Mem := Mem.write (fun _ => 0) (q * (4 * base)) (fun _ => v) (4 * base)
  refine ⟨blank.store (top * (4 * base) + 4 * i) q 4, q, hq'.1, Mem.load_store hq'.2, fun j hj => ?_, fun j hj hji => ?_⟩
  · have hi' := hapart i hi
    rw [Mem.load_store_of_disjoint (by omega), load_const (v := v), hq]
    exact fun b hb hb' => if_pos ⟨by omega, by omega⟩
  · rw [Mem.load_store_of_disjoint (by omega), Mem.load_write_of_disjoint (hapart j hj)]
    exact Mem.load_eq_zero fun _ _ _ => rfl

/-! ## `get_block_no` -/

/-- The index in `i_block` that leads to a block `n` with two or three levels. -/
def topIndex (base n : Nat) : Nat := if n < 12 + base + base ^ 2 then 13 else 14

theorem getBlockNo_eq (hbs : fs.sb.blockSize = 4 * base) (hbase : base ^ 3 < 2 ^ 32)
    (hsum : 12 + base + base ^ 2 + base ^ 3 < 2 ^ 32) (hn : n < 12 + base + base ^ 2 + base ^ 3) : getBlockNo fs inode n =
      if n < 12 then some (Int.ofNat (iBlock inode n)) else if n < 12 + base then
        (descend fs.disk (4 * base) (arrayLadder base) 1 (iBlock inode 12) (n - 12)).map Int.ofNat
      else (descend fs.disk (4 * base) (arrayLadder base) (topIndex base n - 11) (iBlock inode (topIndex base n))
        (n - 12)).map Int.ofNat := by
  have hdiv : 4 * base / 4 = base := Nat.mul_div_cancel_left base (by decide)
  unfold getBlockNo
  dsimp only
  rw [hbs, hdiv, findLevel_eq hbase hn hsum]
  by_cases hdirect : n < 12
  · simp only [if_pos hdirect, descend, Option.map_some]
  · have hreminder : (n + (2 ^ 32 - 12)) % 2 ^ 32 = n - 12 := by omega
    rw [if_neg hdirect, if_neg hdirect, hreminder]
    by_cases hsingle : n < 12 + base
    · simp only [if_pos hsingle]
    · rw [if_neg hsingle, if_neg hsingle, topIndex]
      by_cases hdouble : n < 12 + base + base ^ 2
      · simp only [if_pos hdouble, Nat.reduceSub]
      · simp only [if_neg hdouble, Nat.reduceSub]

theorem descend_miss {disk : Mem} {top depth reminder : Nat} (htop : top ≠ 0)
    (hindex : reminder / arrayLadder base (12 + depth - 1) ≠ i)
    (hzero : ∀ j < base, j ≠ i → disk.load (top * (4 * base) + 4 * j) 4 = 0) :
    descend disk (4 * base) (arrayLadder base) (depth + 1) top reminder = none ∨
      descend disk (4 * base) (arrayLadder base) (depth + 1) top reminder = some 0 := by
  by_cases hlt : 4 * (reminder / arrayLadder base (12 + depth - 1)) + 4 ≤ 4 * base
  · right
    rw [descend_succ htop rfl hlt, indirect, if_neg htop, hzero _ (by omega) hindex, descend_zero]
  · left
    simp only [descend, if_neg htop, if_neg hlt]

theorem exists_disk_ne {depth reminder : Nat} (hindex : reminder / arrayLadder base (12 + depth - 1) ≠ i) (hi : i < base)
    (htop : iBlock inode (depth + 12) ≠ 0) : ∃ (disk : Mem) (q : Nat),
      indirect disk (4 * base) (iBlock inode (depth + 12)) i = q ∧ (∀ j < base, indirect disk (4 * base) q j = q) ∧
      (descend disk (4 * base) (arrayLadder base) (depth + 1) (iBlock inode (depth + 12)) reminder).map Int.ofNat ≠
        some (Int.ofNat q) := by
  obtain ⟨disk, q, hq, hload, hself, hzero⟩ := exists_pointer (iBlock inode (depth + 12)) hi
  refine ⟨disk, q, (if_neg htop).trans hload, fun j hj => (if_neg hq).trans (hself j hj), ?_⟩
  rcases descend_miss htop hindex hzero with he | he
  · rw [he]
    exact nofun
  · rw [he]
    exact fun h => hq (Int.ofNat.inj (Option.some.inj h)).symm

section Levels

variable (hbase : base ^ 3 < 2 ^ 32) (hpos : 0 < base) (hn : n < 12 + base + base ^ 2 + base ^ 3) (hlo : ¬ n < 12 + base)

include hbase hpos hn hlo

/-- With two or three levels the remainder is taken from the direct blocks only, so that the first index is too large. -/
theorem descend_ne (htop : iBlock inode (topIndex base n) ≠ 0) : ∃ disk,
    (descend disk (4 * base) (arrayLadder base) (topIndex base n - 11) (iBlock inode (topIndex base n)) (n - 12)).map
      Int.ofNat ≠ some (Int.ofNat (ext2BlockNo disk (4 * base) inode n)) := by
  obtain ⟨h₁, h₂, -⟩ := arrayLadder_indirect hbase
  have hdiv : 4 * base / 4 = base := Nat.mul_div_cancel_left base (by decide)
  have hdirect : ¬ n < 12 := by omega
  have hmod : ∀ k, k % base < base := fun k => Nat.mod_lt k hpos
  by_cases hdouble : n < 12 + base + base ^ 2
  · have hlevel : topIndex base n = 1 + 12 := if_pos hdouble
    have hindex : (n - 12) / arrayLadder base (12 + 1 - 1) ≠ (n - 12 - base) / base := by
      have hsplit : n - 12 = n - 12 - base + base := by omega
      generalize n - 12 - base = m at hsplit
      rw [h₁, hsplit, Nat.add_div_right m hpos]
      exact Nat.succ_ne_self _
    have hlt : (n - 12 - base) / base < base := by
      rw [Nat.div_lt_iff_lt_mul hpos, ← Nat.pow_two]
      omega
    rw [hlevel] at htop ⊢
    obtain ⟨disk, q, hwant, hself, hne⟩ := exists_disk_ne hindex hlt htop
    refine ⟨disk, ?_⟩
    have hspec : ext2BlockNo disk (4 * base) inode n = q := by
      simp only [ext2BlockNo, hdiv, if_neg hdirect, if_neg hlo, if_pos hdouble, hwant, hself _ (hmod _)]
    rwa [hspec]
  · have hlevel : topIndex base n = 2 + 12 := if_neg hdouble
    have hpos₂ : 0 < base ^ 2 := Nat.pow_pos hpos
    have hindex : (n - 12) / arrayLadder base (12 + 2 - 1) ≠ (n - 12 - base - base ^ 2) / base ^ 2 := by
      have hsplit : n - 12 = n - 12 - base - base ^ 2 + base + base ^ 2 := by omega
      generalize n - 12 - base - base ^ 2 = m at hsplit
      rw [h₂, hsplit, Nat.add_div_right _ hpos₂]
      exact Nat.ne_of_gt (Nat.lt_succ_of_le (Nat.div_le_div_right (Nat.le_add_right m base)))
    have hlt : (n - 12 - base - base ^ 2) / base ^ 2 < base := by
      have hcube : base * base ^ 2 = base ^ 3 := (Nat.pow_succ').symm
      rw [Nat.div_lt_iff_lt_mul hpos₂, hcube]
      omega
    rw [hlevel] at htop ⊢
    obtain ⟨disk, q, hwant, hself, hne⟩ := exists_disk_ne hindex hlt htop
    refine ⟨disk, ?_⟩
    have hspec : ext2BlockNo disk (4 * base) inode n = q := by
      simp only [ext2BlockNo, hdiv, if_neg hdirect, if_neg hlo, if_neg hdouble, hwant, hself _ (hmod _)]
    rwa [hspec]

omit hbase hpos hn in
theorem ext2BlockNo_zero (disk : Mem) (htop : iBlock inode (topIndex base n) = 0) :
    ext2BlockNo disk (4 * base) inode n = 0 := by
  have hdiv : 4 * base / 4 = base := Nat.mul_div_cancel_left base (by decide)
  have hdirect : ¬ n < 12 := by omega
  unfold topIndex at htop
  by_cases hdouble : n < 12 + base + base ^ 2
  · rw [if_pos hdouble] at htop
    simp only [ext2BlockNo, hdiv, if_neg hdirect, if_neg hlo, if_pos hdouble, htop, indirect, if_true]
  · rw [if_neg hdouble] at htop
    simp only [ext2BlockNo, hdiv, if_neg hdirect, if_neg hlo, if_neg hdouble, htop, indirect, if_true]

end Levels

theorem ladder_sum_lt (h : (256 * 2 ^ s) ^ 3 < 2 ^ 32) :
    12 + 256 * 2 ^ s + (256 * 2 ^ s) ^ 2 + (256 * 2 ^ s) ^ 3 < 2 ^ 32 := by
  have hs : s < 3 := by
    by_contra hs
    have hpow : 2 ^ 3 ≤ 2 ^ s := Nat.pow_le_pow_right (by decide) (Nat.le_of_not_lt hs)
    have hcube : (256 * 2 ^ 3) ^ 3 ≤ (256 * 2 ^ s) ^ 3 := Nat.pow_le_pow_left (Nat.mul_le_mul_left 256 hpow) 3
    omega
  match s, hs with
  | 0, _ => decide
  | 1, _ => decide
  | 2, _ => decide

/-- `get_block_no` follows the scheme exactly for direct blocks, those behind `i_block[12]`, and under a zero top pointer. -/
theorem get_block_no_iff {fs : Fs} {inode : Inode} {n s : Nat} (hbs : fs.sb.blockSize = 1024 * 2 ^ s)
    (hladder : (fs.sb.blockSize / 4) ^ 3 < 2 ^ 32)
    (hn : n < 12 + fs.sb.blockSize / 4 + (fs.sb.blockSize / 4) ^ 2 + (fs.sb.blockSize / 4) ^ 3) :
    (∀ disk, getBlockNo { fs with disk := disk } inode n =
      some (Int.ofNat (ext2BlockNo disk fs.sb.blockSize inode n))) ↔
    n < 12 + fs.sb.blockSize / 4 ∨ iBlock inode (topIndex (fs.sb.blockSize / 4) n) = 0 := by
  have hsize : fs.sb.blockSize = 4 * (256 * 2 ^ s) := by omega
  have hdiv : 4 * (256 * 2 ^ s) / 4 = 256 * 2 ^ s := Nat.mul_div_cancel_left _ (by decide)
  rw [hsize, hdiv] at hladder hn ⊢
  have hsum := ladder_sum_lt hladder
  have hpos : 0 < 256 * 2 ^ s := Nat.mul_pos (by decide) (Nat.two_pow_pos s)
  generalize 256 * 2 ^ s = base at *
  have heq : ∀ disk, getBlockNo { fs with disk := disk } inode n = _ := fun disk => getBlockNo_eq hsize hladder hsum hn
  dsimp only at heq
  constructor
  · intro h
    by_contra hcond
    obtain ⟨hlo, htop⟩ := not_or.mp hcond
    obtain ⟨disk, hne⟩ := descend_ne hladder hpos hn hlo htop
    refine hne ?_
    rw [← h disk, heq, if_neg (by omega), if_neg hlo]
  · intro hcond disk
    rw [heq]
    by_cases hdirect : n < 12
    · simp only [ext2BlockNo, if_pos hdirect]
    · by_cases hsingle : n < 12 + base
      · simp only [ext2BlockNo, hdiv, if_neg hdirect, if_pos hsingle]
        by_cases htop : iBlock inode 12 = 0
        · rw [htop, descend_zero, indirect, if_pos rfl, Option.map_some]
        · have hindex : (n - 12) / arrayLadder base (12 + 0 - 1) = n - 12 := by
            rw [arrayLadder_direct (by decide), Nat.div_one]
          rw [descend_succ htop hindex (by omega), descend, Option.map_some]
      · have htop := hcond.resolve_left hsingle
        rw [if_neg hdirect, if_neg hsingle, htop, descend_zero, ext2BlockNo_zero hsingle disk htop, Option.map_some]

/-! ### A file with blocks of 1024 bytes -/

def twoLevelDisk : Mem := Mem.store (Mem.store (fun _ => 0) (5 * 1024) 7 4) (7 * 1024) 9 4

def twoLevelFs : Fs := ⟨⟨1, 8192, 2048, 128, 1024, 1, fun _ => ⟨3, 4, 5⟩⟩, twoLevelDisk, fun _ => false, fun _ => none, 0⟩

def twoLevelInode : Inode := setIBlock (fun _ => 0) 13 5

theorem get_block_no_second_level : getBlockNo twoLevelFs twoLevelInode 268 = some 0 ∧
    ext2BlockNo twoLevelFs.disk twoLevelFs.sb.blockSize twoLevelInode 268 = 9 := by
  decide

theorem get_block_no_iff_indirect :
    getBlockNo { twoLevelFs with disk := twoLevelDisk } (setIBlock (fun _ => 0) 12 5) 12 = some 7 :=
  (get_block_no_iff (s := 0) rfl (by decide) (by decide)).mpr (Or.inl (by decide)) twoLevelDisk

end FengOS.Ext2
