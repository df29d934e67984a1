import FengOS.Mm.BuddyTheorems
import FengOS.Mm.SlabRun

/-!
# The layout of a slab
-/

namespace FengOS.Mm

variable {C : Cache} {S : Slab} {p i n size obj : Nat}

theorem kmemAlign_eq (n : Nat) : kmemAlign n = (n + 7) / 8 * 8 := by
  unfold kmemAlign ptrSize
  by_cases h : n % 8 = 0
  · simp only [h, ne_eq, not_true_eq_false, if_false]
    omega
  · simp only [h, ne_eq, not_false_eq_true, if_true]
    omega

theorem headSize_le (n : Nat) : headSize n ≤ 2 * n + 41 := by
  simp only [headSize, kmemAlign_eq, slabHeadSize]
  omega

theorem headSize_mono {m : Nat} (h : m ≤ n) : headSize m ≤ headSize n := by
  simp only [headSize, kmemAlign_eq, slabHeadSize]
  omega

theorem findOrder_spec (size : Nat) : ∀ (n i : Nat), i ≤ findOrder size n i ∧
    (findOrder size n i < i + n → size * 4 ≤ pageSize * 2 ^ findOrder size n i) ∧
    (∀ j, i ≤ j → j < findOrder size n i → pageSize * 2 ^ j < size * 4)
  | 0, i => ⟨le_refl i, by simp [findOrder], fun j h₁ h₂ => absurd h₂ (by simp [findOrder]; omega)⟩
  | n + 1, i => by
    simp only [findOrder, Nat.one_shiftLeft, slabMinNum]
    split
    · rename_i hlt
      obtain ⟨h₁, h₂, h₃⟩ := findOrder_spec size n (i + 1)
      refine ⟨by omega, fun h => h₂ (by omega), fun j hj hj' => ?_⟩
      rcases eq_or_ne j i with rfl | hne
      · exact hlt
      · exact h₃ j (by omega) hj'
    · rename_i hge
      exact ⟨le_refl i, fun _ => by omega, fun j h₁ h₂ => by omega⟩

structure Cache.Geom (C : Cache) : Prop where
  size_pos : 0 < C.size
  order : C.gfporder < maxOrder
  num_ge : 3 ≤ C.num
  num_lt : C.num < bufctlEnd
  fits : headSize C.num + C.num * C.size ≤ 2 ^ C.gfporder * pageSize

theorem objsPerSlab_spec (hpos : 8 ≤ size) (ho : findOrder size maxOrder 0 < maxOrder) :
    3 ≤ objsPerSlab size (findOrder size maxOrder 0) ∧ objsPerSlab size (findOrder size maxOrder 0) < bufctlEnd ∧
    headSize (objsPerSlab size (findOrder size maxOrder 0)) + objsPerSlab size (findOrder size maxOrder 0) * size ≤
      2 ^ findOrder size maxOrder 0 * pageSize := by
  obtain ⟨-, hfit, hmin⟩ := findOrder_spec size maxOrder 0
  generalize findOrder size maxOrder 0 = order at *
  have hfit := hfit (by omega)
  simp only [objsPerSlab, Nat.one_shiftLeft, pageSize, bufctlEnd] at *
  set tnum := 2 ^ order * 0x1000 / size with htnum
  have hhead := headSize_le tnum
  -- either a single page, or fewer than eight objects fit
  have hroom : headSize tnum + 3 * size ≤ 2 ^ order * 0x1000 ∧ tnum ≤ 512 := by
    rcases Nat.eq_zero_or_pos order with rfl | hord
    · simp only [Nat.pow_zero, Nat.one_mul] at *
      have h512 : tnum ≤ 512 := Nat.div_le_of_le_mul (by omega)
      rcases Nat.lt_or_ge 512 size with hbig | hsmall
      · have h7 : tnum ≤ 7 := Nat.le_of_lt_succ ((Nat.div_lt_iff_lt_mul (by omega)).mpr (by omega))
        omega
      · omega
    · have hprev := hmin (order - 1) (by omega) (by omega)
      have hpow : 2 ^ order = 2 * 2 ^ (order - 1) := by rw [← Nat.pow_succ']; congr 1; omega
      have hone : 1 ≤ 2 ^ (order - 1) := Nat.one_le_two_pow
      have h7 : tnum ≤ 7 := Nat.le_of_lt_succ ((Nat.div_lt_iff_lt_mul (by omega)).mpr (by omega))
      omega
  have hnum : (2 ^ order * 0x1000 - headSize tnum) / size ≤ tnum := Nat.div_le_div_right (by omega)
  have hmul := Nat.div_mul_le_self (2 ^ order * 0x1000 - headSize tnum) size
  have hmono := headSize_mono hnum
  refine ⟨(Nat.le_div_iff_mul_le (by omega)).mpr (by omega), by omega, by omega⟩

theorem Cache.Geom.create (flags : Nat) (hpos : kmemAlign size ≠ 0) (ho : findOrder (kmemAlign size) maxOrder 0 < maxOrder) :
    Cache.Geom ⟨flags, 0, 0, objsPerSlab (kmemAlign size) (findOrder (kmemAlign size) maxOrder 0), kmemAlign size,
      findOrder (kmemAlign size) maxOrder 0, [], [], []⟩ := by
  have hsize : 8 ≤ kmemAlign size := by
    rw [kmemAlign_eq] at hpos ⊢
    omega
  obtain ⟨hnum, hlt, hfits⟩ := objsPerSlab_spec hsize ho
  exact ⟨Nat.pos_of_ne_zero hpos, ho, hnum, hlt, hfits⟩

/-- The record of the slab at page `p`: its index array holds indices of objects and the end mark, and `free` counts
the objects in use. -/
structure SlabOk (C : Cache) (p : Nat) (S : Slab) : Prop where
  sMem : S.sMem = virtual p + headSize C.num
  length : S.array.length = C.num + 1
  endMark : S.array.getD C.num 0 = bufctlEnd
  index : ∀ i < C.num, S.array.getD i 0 < C.num
  free : S.free = S.inuse
  le : S.inuse ≤ C.num

def ObjAt (C : Cache) (S : Slab) (addr : Nat) : Prop := ∃ i < C.num, addr = S.sMem + C.size * i

theorem SlabOk.at_end_iff (hS : SlabOk C p S) (hC : C.Geom) (hi : i ≤ C.num) :
    S.array.getD i 0 = bufctlEnd ↔ i = C.num := by
  constructor
  · intro h
    by_contra hne
    have := hS.index i (by omega)
    have := hC.num_lt
    omega
  · rintro rfl
    exact hS.endMark

theorem slabIndex_add (hC : C.Geom) (hi : i < C.num) : slabIndex C S (S.sMem + C.size * i) = some i := by
  have hle : C.size * i ≤ (C.num - 1) * C.size := by
    rw [Nat.mul_comm]
    exact Nat.mul_le_mul_right _ (by omega)
  simp only [slabIndex]
  rw [if_neg (by omega), if_neg (by omega), Nat.add_sub_cancel_left, Nat.mul_div_cancel_left _ hC.size_pos]

theorem slabIndex_of_objAt (hC : C.Geom) (h : ObjAt C S obj) : ∃ i < C.num, slabIndex C S obj = some i := by
  obtain ⟨i, hi, rfl⟩ := h
  exact ⟨i, hi, slabIndex_add hC hi⟩

theorem inBlock_of_slabIndex (hC : C.Geom) (hS : S.sMem = virtual p + headSize C.num)
    (h : (slabIndex C S obj).isSome) : InBlock C.gfporder p ((obj - kernelOffset) / pageSize) := by
  have hfits := hC.fits
  have hnum := hC.num_ge
  have hmul : (C.num - 1) * C.size + C.size = C.num * C.size := by
    rw [← Nat.succ_mul]
    congr 1
    omega
  have hpos := hC.size_pos
  simp only [slabIndex] at h
  split at h
  · cases h
  · split at h
    · cases h
    · rename_i h₁ h₂
      simp only [virtual, pageSize] at *
      constructor
      · omega
      · rw [Nat.div_lt_iff_lt_mul (by omega), Nat.add_mul]
        omega

theorem SlabOk.set {j ind : Nat} (hS : SlabOk C p S) (hj : j < C.num) (hind : ind < C.num) :
    (S.array.set j ind).length = C.num + 1 ∧ (S.array.set j ind).getD C.num 0 = bufctlEnd ∧
      ∀ i < C.num, (S.array.set j ind).getD i 0 < C.num := by
  refine ⟨by rw [List.length_set, hS.length], ?_, fun i hi => ?_⟩
  · rw [List.getD_eq_getElem?_getD, List.getElem?_set_ne (by omega), ← List.getD_eq_getElem?_getD, hS.endMark]
  · rw [List.getD_eq_getElem?_getD, List.getElem?_set]
    have hlen := hS.length
    split
    · rw [if_pos (by omega)]
      exact hind
    · rw [← List.getD_eq_getElem?_getD]
      exact hS.index i hi

end FengOS.Mm
