import Mathlib.Tactic.Ring

/-!
# Dyadic blocks and the maximal decomposition of a set of naturals

The order-`k` block around `x` is the set of `y` with `y / 2 ^ k = x / 2 ^ k`; two blocks are nested or disjoint. The order
of a point of `F` is the largest `k ≤ K` whose block around it lies in `F`; the blocks of these orders are the maximal ones,
and `F` determines them.
-/

namespace FengOS.Lib.Dyadic

/-- The order-`k` block around `x` lies in `F`. -/
def Full (F : Nat → Prop) (k x : Nat) : Prop := ∀ y, y / 2 ^ k = x / 2 ^ k → F y

/-- The order-`k` block around `x` is maximal among the blocks of order at most `K` in `F`. -/
def Max (F : Nat → Prop) (K k x : Nat) : Prop := Full F k x ∧ k ≤ K ∧ (k < K → ¬ Full F (k + 1) x)

variable {F G : Nat → Prop} {K j k p x y : Nat}

/-! ## Blocks -/

theorem div_pow_mono (hjk : j ≤ k) (h : x / 2 ^ j = y / 2 ^ j) : x / 2 ^ k = y / 2 ^ k := by
  obtain ⟨d, rfl⟩ := Nat.exists_eq_add_of_le hjk
  rw [Nat.pow_add, ← Nat.div_div_eq_div_mul, ← Nat.div_div_eq_div_mul, h]

/-- The members of the block that starts at the aligned point `p`. -/
theorem div_pow_eq_iff (hp : 2 ^ k ∣ p) : x / 2 ^ k = p / 2 ^ k ↔ p ≤ x ∧ x < p + 2 ^ k := by
  obtain ⟨i, rfl⟩ := hp
  have hpos : 0 < 2 ^ k := Nat.two_pow_pos k
  rw [Nat.mul_div_cancel_left _ hpos, Nat.div_eq_iff hpos, Nat.mul_comm (2 ^ k) i]
  omega

theorem eq_of_div_pow_eq (hx : 2 ^ k ∣ x) (hy : 2 ^ k ∣ y) (h : x / 2 ^ k = y / 2 ^ k) : x = y := by
  rw [← Nat.div_mul_cancel hx, ← Nat.div_mul_cancel hy, h]

theorem Full.congr (h : x / 2 ^ k = y / 2 ^ k) : Full F k x ↔ Full F k y := by
  simp only [Full, h]

theorem Full.mem (h : Full F k x) : F x := h x rfl

theorem Full.anti (hjk : j ≤ k) (h : Full F k x) : Full F j x :=
  fun y hy => h y (div_pow_mono hjk hy)

theorem Full.imp (hFG : ∀ y, F y → G y) (h : Full F k x) : Full G k x :=
  fun y hy => hFG y (h y hy)

/-- A block is full when its two halves are. -/
theorem Full.succ (hp : 2 ^ (k + 1) ∣ p) (h₁ : Full F k p) (h₂ : Full F k (p + 2 ^ k)) : Full F (k + 1) p := by
  have hk : 2 ^ k ∣ p := (Nat.pow_dvd_pow 2 (Nat.le_succ k)).trans hp
  intro y hy
  obtain ⟨hl, hr⟩ := (div_pow_eq_iff hp).mp hy
  have hpow : 2 ^ (k + 1) = 2 ^ k + 2 ^ k := by ring
  by_cases hy' : y < p + 2 ^ k
  · exact h₁ y ((div_pow_eq_iff hk).mpr ⟨hl, hy'⟩)
  · exact h₂ y ((div_pow_eq_iff (Nat.dvd_add hk (Nat.dvd_refl _))).mpr ⟨by omega, by omega⟩)

/-! ## Maximal blocks -/

theorem Max.full (h : Max F K k x) : Full F k x := h.1

theorem Max.le (h : Max F K k x) : k ≤ K := h.2.1

theorem Max.congr (h : x / 2 ^ k = y / 2 ^ k) : Max F K k x ↔ Max F K k y := by
  simp only [Max, Full.congr h, Full.congr (div_pow_mono (Nat.le_succ k) h)]

/-- No larger block around the point lies in the set. -/
theorem Max.not_full (h : Max F K k x) (hkj : k < j) (hj : j ≤ K) : ¬ Full F j x :=
  fun hf => h.2.2 (by omega) (hf.anti hkj)

/-- A point has one order. -/
theorem Max.unique (hj : Max F K j x) (hk : Max F K k x) : j = k := by
  rcases Nat.lt_trichotomy j k with h | h | h
  · exact absurd hk.full (hj.not_full h hk.le)
  · exact h
  · exact absurd hj.full (hk.not_full h hj.le)

/-- Every full block lies in a maximal one. -/
theorem Full.exists_max (h : Full F j x) (hj : j ≤ K) : ∃ k, j ≤ k ∧ Max F K k x := by
  obtain ⟨d, rfl⟩ := Nat.exists_eq_add_of_le hj
  induction d generalizing j with
  | zero => exact ⟨j, le_refl j, h, by omega, by omega⟩
  | succ d ih =>
    by_cases hf : Full F (j + 1) x
    · obtain ⟨k, hk, hm⟩ := ih hf (by omega)
      exact ⟨k, by omega, by rwa [show j + (d + 1) = j + 1 + d by omega]⟩
    · exact ⟨j, le_refl j, h, by omega, fun _ => hf⟩

theorem exists_max (h : F x) : ∃ k, Max F K k x := by
  have h0 : Full F 0 x := by
    intro y hy
    simp only [Nat.pow_zero, Nat.div_one] at hy
    rwa [hy]
  obtain ⟨k, _, hk⟩ := h0.exists_max (Nat.zero_le K)
  exact ⟨k, hk⟩

/-- Two maximal blocks that share a point are the same block. -/
theorem Max.eq_of_common (hj : Max F K j x) (hk : Max F K k y) (hx : 2 ^ j ∣ x) (hy : 2 ^ k ∣ y)
    {z : Nat} (hzx : z / 2 ^ j = x / 2 ^ j) (hzy : z / 2 ^ k = y / 2 ^ k) : j = k ∧ x = y := by
  have h : j = k := ((Max.congr hzx).mpr hj).unique ((Max.congr hzy).mpr hk)
  subst h
  exact ⟨rfl, eq_of_div_pow_eq hx hy (hzx.symm.trans hzy)⟩

/-! ## Adding and removing a block -/

/-- Around a point outside the new block, and for blocks that do not contain it, nothing changes. -/
theorem Full.union_iff (hx : x / 2 ^ j ≠ p / 2 ^ j) (hkx : x / 2 ^ k ≠ p / 2 ^ k) :
    Full (fun y => F y ∨ y / 2 ^ k = p / 2 ^ k) j x ↔ Full F j x := by
  constructor
  · intro h y hy
    rcases h y hy with hF | hb
    · exact hF
    · exfalso
      rcases Nat.le_total j k with hjk | hkj
      · exact hkx ((div_pow_mono hjk hy).symm.trans hb)
      · exact hx (hy.symm.trans (div_pow_mono hkj hb))
  · exact Full.imp fun _ => Or.inl

/-- The order of a point depends on the blocks around it. -/
theorem max_iff_of_full {G : Nat → Prop} (h : ∀ i, i ≤ K → (Full F i x ↔ Full G i x)) : Max F K j x ↔ Max G K j x := by
  constructor
  · rintro ⟨h₁, h₂, h₃⟩
    exact ⟨(h j h₂).mp h₁, h₂, fun hj hf => h₃ hj ((h _ hj).mpr hf)⟩
  · rintro ⟨h₁, h₂, h₃⟩
    exact ⟨(h j h₂).mpr h₁, h₂, fun hj hf => h₃ hj ((h _ hj).mp hf)⟩

/-- A disjoint block whose parent does not become full is maximal in the union, and the other maximal blocks stay. -/
theorem max_union (hkK : k ≤ K) (hdisj : ∀ y, y / 2 ^ k = p / 2 ^ k → ¬ F y)
    (hpar : k < K → ¬ Full (fun y => F y ∨ y / 2 ^ k = p / 2 ^ k) (k + 1) p) :
    Max (fun y => F y ∨ y / 2 ^ k = p / 2 ^ k) K j x ↔ (j = k ∧ x / 2 ^ k = p / 2 ^ k) ∨ Max F K j x := by
  have hblock : Max (fun y => F y ∨ y / 2 ^ k = p / 2 ^ k) K k p := ⟨fun y hy => Or.inr hy, hkK, hpar⟩
  by_cases hx : x / 2 ^ k = p / 2 ^ k
  · constructor
    · exact fun h => Or.inl ⟨h.unique ((Max.congr hx).mpr hblock), hx⟩
    · rintro (⟨rfl, _⟩ | h)
      · exact (Max.congr hx).mpr hblock
      · exact absurd h.full.mem (hdisj x hx)
  · -- a block around `x` that contains the new one is full in neither set
    have hiff : ∀ i, i ≤ K → (Full (fun y => F y ∨ y / 2 ^ k = p / 2 ^ k) i x ↔ Full F i x) := by
      intro i hi
      by_cases hxi : x / 2 ^ i = p / 2 ^ i
      · have hki : k < i := by
          by_contra hle
          exact hx (div_pow_mono (by omega) hxi)
        constructor
        · exact fun h => absurd ((Full.congr hxi).mp h) (hblock.not_full hki hi)
        · exact fun h => absurd (h p hxi.symm) (hdisj p rfl)
      · exact Full.union_iff hxi hx
    simp only [hx, and_false, false_or]
    exact max_iff_of_full hiff

/-- Taking a maximal block out of the set leaves the other maximal blocks. -/
theorem max_diff (hm : Max F K k p) :
    Max (fun y => F y ∧ y / 2 ^ k ≠ p / 2 ^ k) K j x ↔ Max F K j x ∧ x / 2 ^ k ≠ p / 2 ^ k := by
  by_cases hx : x / 2 ^ k = p / 2 ^ k
  · constructor
    · exact fun h => absurd hx h.full.mem.2
    · exact fun h => absurd hx h.2
  · have hiff : ∀ i, i ≤ K → (Full (fun y => F y ∧ y / 2 ^ k ≠ p / 2 ^ k) i x ↔ Full F i x) := by
      intro i hi
      constructor
      · exact Full.imp fun _ h => h.1
      · intro h y hy
        refine ⟨h y hy, fun hyp => ?_⟩
        rcases Nat.lt_or_ge k i with hki | hik
        · exact hm.not_full hki hi ((Full.congr (hy.symm.trans (div_pow_mono hki.le hyp))).mp h)
        · exact hx ((div_pow_mono hik hy).symm.trans hyp)
    rw [and_iff_left hx]
    exact max_iff_of_full hiff

/-! ## The two halves of a block -/

/-- Two aligned points with the same parent block are its two halves. -/
theorem sibling_cases (hx : 2 ^ k ∣ x) (hy : 2 ^ k ∣ y) (hne : x ≠ y) (h : x / 2 ^ (k + 1) = y / 2 ^ (k + 1)) :
    (2 ^ (k + 1) ∣ x ∧ y = x + 2 ^ k) ∨ (2 ^ (k + 1) ∣ y ∧ x = y + 2 ^ k) := by
  obtain ⟨i, rfl⟩ := hx
  obtain ⟨i', rfl⟩ := hy
  have hpos : 0 < 2 ^ k := Nat.two_pow_pos k
  have hii : i ≠ i' := fun he => hne (by rw [he])
  simp only [Nat.pow_succ, ← Nat.div_div_eq_div_mul, Nat.mul_div_cancel_left _ hpos] at h
  have hcases : (i % 2 = 0 ∧ i' = i + 1) ∨ (i' % 2 = 0 ∧ i = i' + 1) := by omega
  rcases hcases with ⟨hi, rfl⟩ | ⟨hi, rfl⟩
  · exact Or.inl ⟨by rw [Nat.pow_succ]; exact Nat.mul_dvd_mul_left _ (Nat.dvd_of_mod_eq_zero hi), by ring⟩
  · exact Or.inr ⟨by rw [Nat.pow_succ]; exact Nat.mul_dvd_mul_left _ (Nat.dvd_of_mod_eq_zero hi), by ring⟩

/-- The upper half of an aligned block has the same parent. -/
theorem upper_half_div (hx : 2 ^ (k + 1) ∣ x) : (x + 2 ^ k) / 2 ^ (k + 1) = x / 2 ^ (k + 1) := by
  have hpos : 0 < 2 ^ k := Nat.two_pow_pos k
  rw [div_pow_eq_iff hx, Nat.pow_succ]
  omega

/-- Every aligned point has a sibling. -/
theorem exists_sibling (hx : 2 ^ k ∣ x) : ∃ y, 2 ^ k ∣ y ∧ y ≠ x ∧ y / 2 ^ (k + 1) = x / 2 ^ (k + 1) := by
  have hpos : 0 < 2 ^ k := Nat.two_pow_pos k
  obtain ⟨i, rfl⟩ := hx
  rcases Nat.mod_two_eq_zero_or_one i with hi | hi
  · refine ⟨2 ^ k * i + 2 ^ k, ⟨i + 1, by ring⟩, by omega, upper_half_div ?_⟩
    rw [Nat.pow_succ]
    exact Nat.mul_dvd_mul_left _ (Nat.dvd_of_mod_eq_zero hi)
  · obtain ⟨d, rfl⟩ : ∃ d, i = d + 1 := ⟨i - 1, by omega⟩
    have hx : 2 ^ k * (d + 1) = 2 ^ k * d + 2 ^ k := by ring
    refine ⟨2 ^ k * d, ⟨d, rfl⟩, by omega, ?_⟩
    rw [hx]
    refine (upper_half_div ?_).symm
    rw [Nat.pow_succ]
    exact Nat.mul_dvd_mul_left _ (Nat.dvd_of_mod_eq_zero (by omega))

/-- A full block whose parent contains a point outside the set is maximal. -/
theorem Full.max_of_not_mem (h : Full F k y) (hkK : k ≤ K) (hxy : x / 2 ^ (k + 1) = y / 2 ^ (k + 1))
    (hx : ¬ F x) : Max F K k y :=
  ⟨h, hkK, fun _ hf => hx (hf x hxy)⟩

/-- When no sibling is full, adding the block does not fill its parent. -/
theorem not_full_parent_union (hp : 2 ^ k ∣ p)
    (h : ∀ q, 2 ^ k ∣ q → q ≠ p → q / 2 ^ (k + 1) = p / 2 ^ (k + 1) → ¬ Full F k q) :
    ¬ Full (fun y => F y ∨ y / 2 ^ k = p / 2 ^ k) (k + 1) p := by
  intro hf
  obtain ⟨q, hq, hqp, hpar⟩ := exists_sibling hp
  have hne : q / 2 ^ k ≠ p / 2 ^ k := fun he => hqp (eq_of_div_pow_eq hq hp he)
  have hfq := ((Full.congr hpar).mpr hf).anti (Nat.le_succ k)
  exact h q hq hqp hpar ((Full.union_iff hne hne).mp hfq)

/-- The two halves of a block are its points. -/
theorem div_pow_succ_eq_iff (hp : 2 ^ (k + 1) ∣ p) :
    y / 2 ^ (k + 1) = p / 2 ^ (k + 1) ↔ y / 2 ^ k = p / 2 ^ k ∨ y / 2 ^ k = (p + 2 ^ k) / 2 ^ k := by
  have hk : 2 ^ k ∣ p := (Nat.pow_dvd_pow 2 (Nat.le_succ k)).trans hp
  rw [div_pow_eq_iff hp, div_pow_eq_iff hk, div_pow_eq_iff (Nat.dvd_add hk (Nat.dvd_refl _)), Nat.pow_succ]
  omega

end FengOS.Lib.Dyadic
