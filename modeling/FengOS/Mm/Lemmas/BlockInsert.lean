import FengOS.Lib.Dyadic
import FengOS.Mm.Buddy
import Mathlib.Data.List.Pairwise
import Mathlib.Data.List.Nodup

/-!
# `block_insert` keeps the free lists canonical
-/

namespace FengOS.Mm

open FengOS.Lib.Dyadic

variable {F G : Nat → Prop} {b : Buddy} {page order p k : Nat}

theorem and_shift_sub_one (page i : Nat) : page &&& ((1 <<< i) - 1) = page % 2 ^ i := by
  rw [Nat.one_shiftLeft, Nat.and_two_pow_sub_one_eq_mod]

theorem checkOrder_go_le (page : Nat) : ∀ i, checkOrder.go page i ≤ i
  | 0 => by simp [checkOrder.go]
  | i + 1 => by
    have := checkOrder_go_le page i
    simp only [checkOrder.go]
    split <;> omega

theorem checkOrder_le (page : Nat) : checkOrder page ≤ 7 := checkOrder_go_le page 7

theorem le_checkOrder_go (i : Nat) (hk : k ≤ i) : k ≤ checkOrder.go page i ↔ 2 ^ k ∣ page := by
  induction i with
  | zero =>
    obtain rfl : k = 0 := by omega
    simp [checkOrder.go]
  | succ i ih =>
    simp only [checkOrder.go, and_shift_sub_one]
    split
    · rename_i h
      exact ⟨fun _ => (Nat.pow_dvd_pow 2 hk).trans (Nat.dvd_of_mod_eq_zero h), fun _ => hk⟩
    · rename_i h
      rcases Nat.lt_or_ge i k with hik | hki
      · obtain rfl : k = i + 1 := by omega
        refine ⟨fun hle => ?_, fun hd => absurd (Nat.mod_eq_zero_of_dvd hd) h⟩
        have := checkOrder_go_le page i
        omega
      · exact ih hki

theorem le_checkOrder (hk : k ≤ 7) : k ≤ checkOrder page ↔ 2 ^ k ∣ page := le_checkOrder_go 7 hk

structure Canon (F : Nat → Prop) (b : Buddy) : Prop where
  sorted : ∀ k, (b.block k).Pairwise (· < ·)
  mem : ∀ k p, p ∈ b.block k ↔ 2 ^ k ∣ p ∧ Max F 7 k p

theorem Canon.congr (h : Canon F b) (hFG : ∀ y, F y ↔ G y) : Canon G b := by
  rwa [← show F = G from funext fun y => propext (hFG y)]

theorem Canon.nodup (h : Canon F b) (k : Nat) : (b.block k).Nodup :=
  (h.sorted k).imp fun hlt => Nat.ne_of_lt hlt

theorem Canon.unique {b' : Buddy} (h : Canon F b) (h' : Canon F b') : b.block = b'.block := by
  funext k
  refine List.Perm.eq_of_pairwise (fun x y _ _ hxy hyx => absurd hxy (Nat.lt_asymm hyx)) (h.sorted k)
    (h'.sorted k) ?_
  exact (List.perm_ext_iff_of_nodup (h.nodup k) (h'.nodup k)).mpr fun p => by rw [h.mem, h'.mem]

theorem Canon.free (h : Canon F b) (hp : p ∈ b.block k) : F p := ((h.mem k p).mp hp).2.full.mem

theorem Canon.exists_mem (h : Canon F b) {y : Nat} (hk : Max F 7 k y) : ∃ p ∈ b.block k, y / 2 ^ k = p / 2 ^ k := by
  have hcell : y / 2 ^ k = y / 2 ^ k * 2 ^ k / 2 ^ k := (Nat.mul_div_cancel _ (Nat.two_pow_pos k)).symm
  exact ⟨y / 2 ^ k * 2 ^ k, (h.mem k _).mpr ⟨⟨y / 2 ^ k, Nat.mul_comm _ _⟩, (Max.congr hcell).mp hk⟩, hcell⟩

@[simp] theorem setBlock_block (b : Buddy) (k : Nat) (l : List Nat) :
    (b.setBlock k l).block = Function.update b.block k l := rfl

@[simp] theorem setBlock_memMap (b : Buddy) (k : Nat) (l : List Nat) : (b.setBlock k l).memMap = b.memMap := rfl

@[simp] theorem setBlock_activate (b : Buddy) (k : Nat) (l : List Nat) :
    (b.setBlock k l).activate = b.activate := rfl

theorem Canon.setBlock {l : List Nat} (h : Canon F b) (hl : l.Pairwise (· < ·))
    (hmem : ∀ q, q ∈ l ↔ 2 ^ k ∣ q ∧ Max G 7 k q)
    (hother : ∀ j q, j ≠ k → (2 ^ j ∣ q ∧ Max F 7 j q ↔ 2 ^ j ∣ q ∧ Max G 7 j q)) :
    Canon G (b.setBlock k l) where
  sorted j := by
    rcases eq_or_ne j k with rfl | hj
    · simpa using hl
    · simpa [Function.update_of_ne hj] using h.sorted j
  mem j q := by
    rcases eq_or_ne j k with rfl | hj
    · simpa using hmem q
    · simpa [Function.update_of_ne hj, h.mem] using hother j q hj

theorem Canon.erase (h : Canon F b) (hp : p ∈ b.block k) :
    Canon (fun y => F y ∧ y / 2 ^ k ≠ p / 2 ^ k) (b.setBlock k ((b.block k).erase p)) := by
  obtain ⟨hdvd, hmax⟩ := (h.mem k p).mp hp
  refine h.setBlock ((h.sorted k).sublist List.erase_sublist) (fun q => ?_) (fun j q hj => ?_)
  · rw [(h.nodup k).mem_erase_iff, h.mem, max_diff hmax]
    constructor
    · rintro ⟨hne, hq, hm⟩
      exact ⟨hq, hm, fun he => hne (eq_of_div_pow_eq hq hdvd he)⟩
    · rintro ⟨hq, hm, hne⟩
      exact ⟨fun he => hne (by rw [he]), hq, hm⟩
  · rw [max_diff hmax]
    constructor
    · rintro ⟨hq, hm⟩
      exact ⟨hq, hm, fun he => hj (hm.unique ((Max.congr he).mpr hmax))⟩
    · exact fun hq => ⟨hq.1, hq.2.1⟩

theorem Canon.insert {before : List Nat} (after : List Nat) (h : Canon F b) (hk : k ≤ 7) (hp : 2 ^ k ∣ page)
    (hdisj : ∀ y, y / 2 ^ k = page / 2 ^ k → ¬ F y) (hl : b.block k = before ++ after)
    (hbefore : ∀ q ∈ before, q < page) (hafter : ∀ q ∈ after, page < q)
    (hsib : k < 7 → ∀ q ∈ b.block k, q / 2 ^ (k + 1) ≠ page / 2 ^ (k + 1)) :
    Canon (fun y => F y ∨ y / 2 ^ k = page / 2 ^ k) (b.setBlock k (before ++ page :: after)) := by
  have hpar : k < 7 → ¬ Full (fun y => F y ∨ y / 2 ^ k = page / 2 ^ k) (k + 1) page := by
    refine fun hk7 => not_full_parent_union hp fun q hq _ hqp hf => ?_
    have hmax : Max F 7 k q := hf.max_of_not_mem hk hqp.symm (hdisj page rfl)
    exact hsib hk7 q ((h.mem k q).mpr ⟨hq, hmax⟩) hqp
  have hunion := fun j q => max_union (j := j) (x := q) hk hdisj hpar
  refine h.setBlock ?_ (fun q => ?_) (fun j q hj => ?_)
  · have hs := h.sorted k
    rw [hl, List.pairwise_append] at hs
    refine List.pairwise_append.mpr ⟨hs.1, List.pairwise_cons.mpr ⟨hafter, hs.2.1⟩, fun x hx y hy => ?_⟩
    rcases List.mem_cons.mp hy with rfl | hy
    · exact hbefore x hx
    · exact hs.2.2 x hx y hy
  · have hq := h.mem k q
    rw [hl, List.mem_append] at hq
    rw [hunion, List.mem_append, List.mem_cons, or_left_comm, hq]
    constructor
    · rintro (rfl | hq)
      · exact ⟨hp, Or.inl ⟨rfl, rfl⟩⟩
      · exact ⟨hq.1, Or.inr hq.2⟩
    · rintro ⟨hd, ⟨_, he⟩ | hm⟩
      · exact Or.inl (eq_of_div_pow_eq hd hp he)
      · exact Or.inr ⟨hd, hm⟩
  · rw [hunion]
    simp [hj]

theorem scanBlock_merge {page' : Nat} : ∀ {l : List Nat}, scanBlock page order l = .merge p page' →
    p ∈ l ∧ order < 7 ∧ 2 ^ (order + 1) ∣ page' ∧
      ((p = page' ∧ page = page' + 2 ^ order) ∨ (page = page' ∧ p = page' + 2 ^ order))
  | [], h => by simp [scanBlock] at h
  | q :: qs, h => by
    simp only [scanBlock, Nat.one_shiftLeft] at h
    split at h
    · rename_i hm
      obtain ⟨ho, hpage, hc⟩ := hm
      obtain ⟨rfl, rfl⟩ := Scan.merge.inj h
      simp only [maxOrder] at ho
      exact ⟨by simp, ho, (le_checkOrder (by omega)).mp hc, Or.inl ⟨rfl, hpage.symm⟩⟩
    · split at h
      · rename_i hm
        obtain ⟨ho, hpage, hc⟩ := hm
        obtain ⟨rfl, rfl⟩ := Scan.merge.inj h
        simp only [maxOrder] at ho
        exact ⟨by simp, ho, (le_checkOrder (by omega)).mp hc, Or.inr ⟨rfl, hpage.symm⟩⟩
      · split at h
        · split at h
          · rename_i hr
            obtain ⟨hmem, hrest⟩ := scanBlock_merge (hr.trans h)
            exact ⟨by simp [hmem], hrest⟩
          · cases h
        · cases h

theorem scanBlock_stop {before after : List Nat} : ∀ {l : List Nat}, l.Pairwise (· < ·) → page ∉ l →
    scanBlock page order l = .stop before after →
    l = before ++ after ∧ (∀ q ∈ before, q < page) ∧ (∀ q ∈ after, page < q)
  | [], _, _, h => by
    obtain ⟨rfl, rfl⟩ := Scan.stop.inj h
    simp
  | q :: qs, hs, hn, h => by
    obtain ⟨hq, hqs⟩ := List.pairwise_cons.mp hs
    obtain ⟨hne, hn'⟩ := not_or.mp (mt List.mem_cons.mpr hn)
    simp only [scanBlock] at h
    split at h
    · cases h
    · split at h
      · cases h
      · split at h
        · rename_i hlt
          split at h
          · cases h
          · rename_i hr
            obtain ⟨rfl, rfl⟩ := Scan.stop.inj h
            obtain ⟨rfl, hb, ha⟩ := scanBlock_stop hqs hn' hr
            refine ⟨rfl, fun r hr => ?_, ha⟩
            rcases List.mem_cons.mp hr with rfl | hr
            · exact hlt
            · exact hb r hr
        · rename_i hge
          obtain ⟨rfl, rfl⟩ := Scan.stop.inj h
          refine ⟨rfl, by simp, fun r hr => ?_⟩
          rcases List.mem_cons.mp hr with rfl | hr
          · omega
          · have := hq r hr
            omega

theorem scanBlock_stop_sibling {before after : List Nat} (ho : order < 7) (hp : 2 ^ order ∣ page) :
    ∀ {l : List Nat}, l.Pairwise (· < ·) → (∀ q ∈ l, 2 ^ order ∣ q) → page ∉ l →
    scanBlock page order l = .stop before after →
    ∀ q ∈ l, q / 2 ^ (order + 1) ≠ page / 2 ^ (order + 1)
  | [], _, _, _, _ => by simp
  | r :: rs, hs, hal, hn, h => by
    obtain ⟨hr, hrs⟩ := List.pairwise_cons.mp hs
    obtain ⟨hne, hn'⟩ := not_or.mp (mt List.mem_cons.mpr hn)
    have hpos : 0 < 2 ^ order := Nat.two_pow_pos order
    simp only [scanBlock, Nat.one_shiftLeft, maxOrder, show order < 8 - 1 from ho, true_and] at h
    intro q hq hpar
    have hqne : q ≠ page := fun he => hn (he ▸ hq)
    have hsib := sibling_cases (hal q hq) hp hqne hpar
    split at h
    · cases h
    · rename_i h₁
      split at h
      · cases h
      · rename_i h₂
        rw [le_checkOrder (by omega)] at h₁ h₂
        rcases List.mem_cons.mp hq with rfl | hqr
        · rcases hsib with ⟨hd, he⟩ | ⟨hd, he⟩
          · exact h₁ ⟨he.symm, hd⟩
          · exact h₂ ⟨he.symm, hd⟩
        · split at h
          · split at h
            · cases h
            · rename_i hrec
              exact scanBlock_stop_sibling ho hp hrs (fun q hq => hal q (by simp [hq])) hn' hrec q hqr hpar
          · rename_i hge
            have hlt := hr q hqr
            rcases hsib with ⟨_, he⟩ | ⟨_, he⟩
            · omega
            · -- `page < r < page + 2 ^ order`, although both ends and `r` are aligned
              have hbound : page ≤ r ∧ r < page + 2 ^ order := ⟨by omega, by omega⟩
              exact hne (eq_of_div_pow_eq hp (hal r (by simp)) ((div_pow_eq_iff hp).mpr hbound).symm)

theorem blockInsertLoop_frame : ∀ (n : Nat) (b : Buddy) (page order : Nat),
    (blockInsertLoop n b page order).memMap = b.memMap ∧
      (blockInsertLoop n b page order).activate = b.activate
  | 0, _, _, _ => ⟨rfl, rfl⟩
  | n + 1, b, page, order => by
    simp only [blockInsertLoop]
    split
    · obtain ⟨h₁, h₂⟩ := blockInsertLoop_frame n (b.setBlock order ((b.block order).erase _)) _ (order + 1)
      exact ⟨h₁, h₂⟩
    · exact ⟨rfl, rfl⟩

@[simp] theorem blockInsert_memMap (b : Buddy) (page order : Nat) : (blockInsert b page order).memMap = b.memMap :=
  (blockInsertLoop_frame _ b page order).1

@[simp] theorem blockInsert_activate (b : Buddy) (page order : Nat) :
    (blockInsert b page order).activate = b.activate :=
  (blockInsertLoop_frame _ b page order).2

/-- The merge loop adds the block to the set. Induction on the orders left; a merge takes the buddy out and goes on. -/
theorem blockInsertLoop_canon : ∀ (n : Nat) {F : Nat → Prop} {b : Buddy} {page order : Nat}, order + n = 8 →
    order < 8 → Canon F b → 2 ^ order ∣ page → (∀ y, y / 2 ^ order = page / 2 ^ order → ¬ F y) →
    Canon (fun y => F y ∨ y / 2 ^ order = page / 2 ^ order) (blockInsertLoop n b page order)
  | 0, _, _, _, _, hn, ho, _, _, _ => by omega
  | n + 1, F, b, page, order, hn, ho, h, hp, hdisj => by
    have hnot : page ∉ b.block order := fun hm => hdisj page rfl (h.free hm)
    simp only [blockInsertLoop]
    split
    · rename_i q page' hscan
      obtain ⟨hq, ho7, hd, hhalves⟩ := scanBlock_merge hscan
      -- membership in the parent block, by its two halves
      have hpar : ∀ y, y / 2 ^ (order + 1) = page' / 2 ^ (order + 1) ↔
          y / 2 ^ order = q / 2 ^ order ∨ y / 2 ^ order = page / 2 ^ order := by
        intro y
        rw [div_pow_succ_eq_iff hd]
        rcases hhalves with ⟨rfl, rfl⟩ | ⟨rfl, rfl⟩
        · exact Iff.rfl
        · exact or_comm
      have hcanon := blockInsertLoop_canon n (by omega) (by omega) (h.erase hq) hd (by
        intro y hy hF
        rcases (hpar y).mp hy with hyq | hyp
        · exact hF.2 hyq
        · exact hdisj y hyp hF.1)
      refine hcanon.congr fun y => ?_
      have hqF : y / 2 ^ order = q / 2 ^ order → F y := ((h.mem order q).mp hq).2.full y
      rw [hpar]
      tauto
    · rename_i before after hscan
      obtain ⟨hl, hb, ha⟩ := scanBlock_stop (h.sorted order) hnot hscan
      refine h.insert _ (by omega) hp hdisj hl hb ha fun ho7 => ?_
      exact scanBlock_stop_sibling ho7 hp (h.sorted order) (fun q hq => ((h.mem order q).mp hq).1) hnot hscan

theorem blockInsert_canon (page order : Nat) (h : Canon F b) (ho : order < 8) (hp : 2 ^ order ∣ page)
    (hdisj : ∀ y, y / 2 ^ order = page / 2 ^ order → ¬ F y) :
    Canon (fun y => F y ∨ y / 2 ^ order = page / 2 ^ order) (blockInsert b page order) :=
  blockInsertLoop_canon (maxOrder - order) (by simp only [maxOrder]; omega) ho h hp hdisj

end FengOS.Mm
