import FengOS.Ext2.Block
import Mathlib.Tactic.IntervalCases

/-!
# The levels of `get_block_no`
-/

namespace FengOS.Ext2

open FengOS.Lib

variable {base n i bs rounds : Nat} {disk : Mem} {ladder : Nat → Nat}

theorem arrayLadder_direct (h : i < 12) : arrayLadder base i = 1 := by
  induction i with
  | zero => rfl
  | succ i ih => rw [arrayLadder, if_neg (by omega), ih (by omega)]

theorem arrayLadder_indirect (h : base ^ 3 < 2 ^ 32) :
    arrayLadder base 12 = base ∧ arrayLadder base 13 = base ^ 2 ∧ arrayLadder base 14 = base ^ 3 := by
  have hpos : ∀ k ≤ 3, base ^ k < 2 ^ 32 := by
    intro k hk
    rcases Nat.eq_zero_or_pos base with rfl | hbase
    · cases k with
      | zero => decide
      | succ k => simp
    · exact Nat.lt_of_le_of_lt (Nat.pow_le_pow_right hbase hk) h
  have h₁ : arrayLadder base 12 = base := by
    rw [arrayLadder, if_pos (by decide), arrayLadder_direct (by decide), Nat.one_mul]
    exact Nat.mod_eq_of_lt (by simpa using hpos 1 (by decide))
  have h₂ : arrayLadder base 13 = base ^ 2 := by
    rw [arrayLadder, if_pos (by decide), h₁, ← Nat.pow_two]
    exact Nat.mod_eq_of_lt (hpos 2 (by decide))
  refine ⟨h₁, h₂, ?_⟩
  rw [arrayLadder, if_pos (by decide), h₂, ← Nat.pow_succ]
  exact Nat.mod_eq_of_lt h

theorem findLevel_round (hl : ∀ i < 12, ladder i = 1) (hi : i < 12) (hn : i < n) :
    findLevel ladder n (rounds + 1) i i 0 = findLevel ladder n rounds (i + 1) (i + 1) 0 := by
  have hmod : (i + 1) % 2 ^ 32 = i + 1 := Nat.mod_eq_of_lt (by omega)
  have hround : ¬ (i ≤ n ∧ n < i + 1) := by omega
  simp only [findLevel, hl i hi, hmod, if_neg hround, if_neg (Nat.not_le.mpr hi)]

theorem findLevel_direct (hl : ∀ i < 12, ladder i = 1) (hi : i ≤ n) (hn : n < 12) :
    findLevel ladder n (12 - i + rounds) i i 0 = some (n, 0) := by
  induction hk : n - i generalizing i with
  | zero =>
    have hr : 12 - i + rounds = (11 - i + rounds) + 1 := by omega
    obtain rfl : i = n := by omega
    have hround : i ≤ i ∧ i < (i + 1) % 2 ^ 32 := by omega
    simp only [hr, findLevel, hl i hn, if_pos hround, if_neg (Nat.not_le.mpr hn)]
  | succ k ih =>
    have hr : 12 - i + rounds = (12 - (i + 1) + rounds) + 1 := by omega
    rw [hr, findLevel_round hl (by omega) (by omega)]
    exact ih (by omega) (by omega)

theorem findLevel_skip (hl : ∀ i < 12, ladder i = 1) (hi : i ≤ 12) (hn : 12 ≤ n) :
    findLevel ladder n (12 - i + rounds) i i 0 = findLevel ladder n rounds 12 12 0 := by
  induction hk : 12 - i generalizing i with
  | zero =>
    obtain rfl : i = 12 := by omega
    rw [Nat.zero_add]
  | succ k ih =>
    have hr : k + 1 + rounds = (k + rounds) + 1 := by omega
    rw [hr, findLevel_round hl (by omega) (by omega)]
    exact ih (by omega) (by omega)

theorem findLevel_eq (hbase : base ^ 3 < 2 ^ 32) (hn : n < 12 + base + base ^ 2 + base ^ 3)
    (hsum : 12 + base + base ^ 2 + base ^ 3 < 2 ^ 32) : findLevel (arrayLadder base) n nrInodeBlock 0 0 0 =
      if n < 12 then some (n, 0) else if n < 12 + base then some (12, 1)
      else if n < 12 + base + base ^ 2 then some (13, 2) else some (14, 3) := by
  have hl : ∀ i < 12, arrayLadder base i = 1 := fun i hi => arrayLadder_direct hi
  obtain ⟨h₁, h₂, h₃⟩ := arrayLadder_indirect hbase
  have hrounds : nrInodeBlock = 12 - 0 + 3 := rfl
  by_cases hdirect : n < 12
  · rw [if_pos hdirect, hrounds, findLevel_direct hl (Nat.zero_le n) hdirect]
  · rw [if_neg hdirect, hrounds, findLevel_skip hl (by decide) (by omega)]
    have hmod₁ : (12 + base) % 2 ^ 32 = 12 + base := Nat.mod_eq_of_lt (by omega)
    have hmod₂ : (12 + base + base ^ 2) % 2 ^ 32 = 12 + base + base ^ 2 := Nat.mod_eq_of_lt (by omega)
    have hmod₃ : (12 + base + base ^ 2 + base ^ 3) % 2 ^ 32 = 12 + base + base ^ 2 + base ^ 3 := Nat.mod_eq_of_lt hsum
    simp only [findLevel, h₁, h₂, h₃, hmod₁, hmod₂, hmod₃, Nat.le_refl, if_true, Nat.reduceLeDiff, Nat.reduceAdd]
    by_cases hsingle : n < 12 + base
    · rw [if_pos ⟨by omega, hsingle⟩, if_pos hsingle]
    · rw [if_neg (fun h => hsingle h.2), if_neg hsingle]
      by_cases hdouble : n < 12 + base + base ^ 2
      · rw [if_pos ⟨by omega, hdouble⟩, if_pos hdouble]
      · rw [if_neg (fun h => hdouble h.2), if_neg hdouble, if_pos ⟨by omega, hn⟩]

theorem findLevel_none {ladder : Nat → Nat} {n : Nat} (hn : 12 ≤ n) (h : findLevel ladder n 3 12 12 0 = none) :
    (12 + ladder 12) % 2 ^ 32 ≤ n ∧ ((12 + ladder 12) % 2 ^ 32 + ladder 13) % 2 ^ 32 ≤ n ∧
      (((12 + ladder 12) % 2 ^ 32 + ladder 13) % 2 ^ 32 + ladder 14) % 2 ^ 32 ≤ n := by
  simp only [findLevel] at h
  split at h
  · cases h
  rename_i h₁
  split at h
  · cases h
  rename_i h₂
  split at h
  · cases h
  rename_i h₃
  have h₁ : (12 + ladder 12) % 2 ^ 32 ≤ n := Nat.le_of_not_lt fun hlt => h₁ ⟨hn, hlt⟩
  have h₂ : ((12 + ladder 12) % 2 ^ 32 + ladder 13) % 2 ^ 32 ≤ n := Nat.le_of_not_lt fun hlt => h₂ ⟨h₁, hlt⟩
  exact ⟨h₁, h₂, Nat.le_of_not_lt fun hlt => h₃ ⟨h₂, hlt⟩⟩

theorem findLevel_isSome {s n : Nat} (hs : s ≤ 20) (hn : n * (1024 * 2 ^ s) < 2 ^ 32) :
    findLevel (arrayLadder (256 * 2 ^ s)) n nrInodeBlock 0 0 0 ≠ none := by
  have hl : ∀ i < 12, arrayLadder (256 * 2 ^ s) i = 1 := fun i hi => arrayLadder_direct hi
  have hrounds : nrInodeBlock = 12 - 0 + 3 := rfl
  by_cases hdirect : n < 12
  · rw [hrounds, findLevel_direct hl (Nat.zero_le n) hdirect]
    exact nofun
  · rw [hrounds, findLevel_skip hl (by decide) (by omega)]
    intro h
    obtain ⟨h₁, h₂, h₃⟩ := findLevel_none (by omega) h
    simp only [arrayLadder, Nat.reduceLeDiff, if_true, if_false] at h₁ h₂ h₃
    interval_cases s <;> omega
theorem bdevRead_load (disk : Mem) (pos a k : Nat) : (bdevRead disk pos).load a k = disk.load (pos + a) k := by
  induction k generalizing a with
  | zero => rfl
  | succ k ih => simp only [Mem.load, ih, bdevRead, Nat.add_assoc]

theorem descend_succ {depth block reminder index : Nat} (hblock : block ≠ 0)
    (hindex : reminder / ladder (12 + depth - 1) = index) (hlt : 4 * index + 4 ≤ bs) :
    descend disk bs ladder (depth + 1) block reminder =
      descend disk bs ladder depth (indirect disk bs block index) (reminder % ladder (12 + depth - 1)) := by
  simp only [descend, if_neg hblock, hindex, if_pos hlt, indirect, bdevRead_load]

theorem descend_zero (depth reminder : Nat) : descend disk bs ladder depth 0 reminder = some 0 := by
  cases depth <;> rfl

end FengOS.Ext2
