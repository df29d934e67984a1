import FengOS.Mm.Lemmas.BlockInsert
import Mathlib.Data.Nat.Bitwise

/-!
# `buddy_system_init` builds the canonical lists
-/

namespace FengOS.Mm

open FengOS.Lib.Dyadic

def Usable (memMap : Nat → Page) (nr y : Nat) : Prop := y < nr ∧ (memMap y).reserve = false

variable {F G : Nat → Prop} {b : Buddy} {memMap : Nat → Page} {nr left k : Nat}

theorem countRun_spec (b : Buddy) (nr : Nat) : ∀ (limit right : Nat), right ≤ nr →
    countRun b nr limit right ≤ limit ∧
    (∀ y, right ≤ y → y < right + countRun b nr limit right → Usable b.memMap nr y) ∧
    (countRun b nr limit right < limit → right + countRun b nr limit right = nr ∨
      (b.memMap (right + countRun b nr limit right)).reserve = true) ∧
    right + countRun b nr limit right ≤ nr
  | 0, right, h => by simp [countRun]; exact ⟨fun y h₁ h₂ => by omega, h⟩
  | limit + 1, right, h => by
    simp only [countRun]
    split
    · rename_i hc
      obtain ⟨h₁, h₂, h₃, h₄⟩ := countRun_spec b nr limit (right + 1) (by omega)
      rw [show right + (countRun b nr limit (right + 1) + 1) = right + 1 + countRun b nr limit (right + 1) by omega]
      refine ⟨by omega, fun y hl hr => ?_, fun hlt => h₃ (by omega), h₄⟩
      rcases eq_or_ne y right with rfl | hy
      · exact ⟨by omega, hc.1⟩
      · exact h₂ y (by omega) hr
    · rename_i hc
      refine ⟨by omega, fun y hl hr => by omega, fun _ => ?_, by omega⟩
      by_cases hr : right = nr
      · exact Or.inl (by omega)
      · exact Or.inr (by simpa [hr] using hc)

@[simp] theorem addTail_memMap (b : Buddy) (order left : Nat) : (b.addTail order left).memMap = b.memMap := rfl

@[simp] theorem addTail_activate (b : Buddy) (order left : Nat) : (b.addTail order left).activate = b.activate := rfl

theorem Canon.addTail (h : Canon F b) (hk : k ≤ 7) (hleft : 2 ^ k ∣ left) (hF : ∀ y, F y → y < left)
    (hsib : k < 7 → ∀ q, 2 ^ (k + 1) ∣ q → left = q + 2 ^ k → ¬ Full F k q) :
    Canon (fun y => F y ∨ y / 2 ^ k = left / 2 ^ k) (b.addTail k left) := by
  have hbefore : ∀ q ∈ b.block k, q < left := fun q hq => hF q (h.free hq)
  refine h.insert [] hk hleft (fun y hy hFy => ?_) (by simp) hbefore (by simp) fun hk7 q hq hpar => ?_
  · have := ((div_pow_eq_iff hleft).mp hy).1
    have := hF y hFy
    omega
  · obtain ⟨hqd, hqm⟩ := (h.mem k q).mp hq
    have hlt := hbefore q hq
    rcases sibling_cases hqd hleft (by omega) hpar with ⟨hd, he⟩ | ⟨_, he⟩
    · exact hsib hk7 q hd he hqm.full
    · omega

theorem carve_canon (count : Nat) : ∀ (n : Nat) {F : Nat → Prop} {b : Buddy} {left : Nat}, n ≤ 7 → Canon F b →
    2 ^ n ∣ left → (∀ y, F y → y < left) →
    Canon (fun y => F y ∨ left ≤ y ∧ y < left + count % 2 ^ n) (carve count n left b)
  | 0, F, b, left, _, h, _, _ => h.congr fun y => by
    have : count % 2 ^ 0 = 0 := by simp [Nat.mod_one]
    rw [this]
    exact ⟨Or.inl, fun h => h.elim id (by omega)⟩
  | n + 1, F, b, left, hn, h, hleft, hF => by
    have hdvd : 2 ^ n ∣ left := (Nat.pow_dvd_pow 2 (Nat.le_succ n)).trans hleft
    have hpos : 0 < 2 ^ n := Nat.two_pow_pos n
    have hmod : count % 2 ^ (n + 1) = count % 2 ^ n + 2 ^ n * (count.testBit n).toNat := by
      rw [Nat.mod_pow_succ, Nat.toNat_testBit]
    simp only [carve, Nat.one_shiftLeft, Nat.and_two_pow]
    cases hbit : count.testBit n with
    | false =>
      simp only [hbit, Bool.toNat_false, Nat.zero_mul, ne_eq, not_true_eq_false, ↓reduceIte, Nat.mul_zero,
        Nat.add_zero] at hmod ⊢
      rw [hmod]
      exact carve_canon count n (by omega) h hdvd hF
    | true =>
      simp only [hbit, Bool.toNat_true, Nat.one_mul, Nat.mul_one] at hmod ⊢
      rw [if_pos (by omega)]
      have hadd := h.addTail (by omega) hdvd hF (by
        rintro _ q hq rfl _
        exact absurd (Nat.le_of_dvd hpos ((Nat.dvd_add_right hq).mp hleft)) (by rw [Nat.pow_succ]; omega))
      have hrec := carve_canon count n (by omega) hadd
        (Nat.dvd_add hdvd (Nat.dvd_refl _)) (by
          rintro y (hy | hy)
          · have := hF y hy
            omega
          · exact ((div_pow_eq_iff hdvd).mp hy).2)
      refine hrec.congr fun y => ?_
      rw [div_pow_eq_iff hdvd, hmod]
      have hy := hF y
      constructor
      · rintro ((h | h) | h)
        · exact Or.inl h
        · exact Or.inr ⟨h.1, by omega⟩
        · exact Or.inr ⟨by omega, by omega⟩
      · rintro (h | h)
        · exact Or.inl (Or.inl h)
        · rcases Nat.lt_or_ge y (left + 2 ^ n) with hlt | hge
          · exact Or.inl (Or.inr ⟨h.1, hlt⟩)
          · exact Or.inr ⟨hge, by omega⟩

theorem carve_frame (count : Nat) : ∀ (n left : Nat) (b : Buddy), (carve count n left b).memMap = b.memMap ∧
    (carve count n left b).activate = b.activate
  | 0, _, _ => ⟨rfl, rfl⟩
  | n + 1, left, b => by
    simp only [carve]
    split
    · exact carve_frame count n _ (b.addTail n left)
    · exact carve_frame count n left b

def Edge (F : Nat → Prop) (left : Nat) : Prop :=
  ∀ k q, k < 7 → 2 ^ (k + 1) ∣ q → left = q + 2 ^ k → ¬ Full F k q

theorem edge_zero : Edge F 0 := by
  intro k q _ _ h
  have := Nat.two_pow_pos k
  omega

theorem edge_succ (h : ¬ F left) : Edge F (left + 1) := by
  intro k q _ hq hl hf
  have hpos := Nat.two_pow_pos k
  have hk : 2 ^ k ∣ q := (Nat.pow_dvd_pow 2 (Nat.le_succ k)).trans hq
  exact h (hf left ((div_pow_eq_iff hk).mpr ⟨by omega, by omega⟩))

theorem Edge.add_block (h : Edge F left) : Edge F (left + 2 ^ checkOrder left) := by
  intro k q hk hq hl hf
  set o := checkOrder left with ho
  have hod : 2 ^ o ∣ left := (le_checkOrder (checkOrder_le left)).mp (le_refl _)
  have hpos := Nat.two_pow_pos k
  -- the end is not aligned beyond `k`, so that `o < k`
  have hnd : ¬ 2 ^ (k + 1) ∣ left + 2 ^ o := by
    rw [hl]
    intro hd
    have := Nat.le_of_dvd hpos ((Nat.dvd_add_right hq).mp hd)
    rw [Nat.pow_succ] at this
    omega
  have hok : o ≤ k := by
    by_contra hlt
    exact hnd (Nat.dvd_add ((Nat.pow_dvd_pow 2 (by omega)).trans hod) (Nat.pow_dvd_pow 2 (by omega)))
  have ho7 : o < 7 := by omega
  have hodd : ¬ 2 ^ (o + 1) ∣ left := fun hd => by
    have := (le_checkOrder (by omega)).mpr hd
    omega
  obtain ⟨i, hi⟩ := hod
  have hi2 : i % 2 = 1 := by
    rcases Nat.mod_two_eq_zero_or_one i with h0 | h1
    · exfalso
      apply hodd
      rw [hi, Nat.pow_succ]
      exact Nat.mul_dvd_mul_left _ (Nat.dvd_of_mod_eq_zero h0)
    · exact h1
  obtain ⟨d, rfl⟩ : ∃ d, i = 2 * d + 1 := ⟨i / 2, by omega⟩
  have hq0 : 2 ^ (o + 1) ∣ 2 ^ o * (2 * d) := ⟨d, by ring⟩
  have hleft : left = 2 ^ o * (2 * d) + 2 ^ o := by rw [hi]; ring
  refine h o _ ho7 hq0 hleft ?_
  have hne : o ≠ k := by
    rintro rfl
    apply hnd
    rw [hi]
    exact ⟨d + 1, by ring⟩
  have hpow : 2 ^ (o + 1) ≤ 2 ^ k := Nat.pow_le_pow_right (by omega) (by omega)
  rw [Nat.pow_succ] at hpow
  have hk' : 2 ^ k ∣ q := (Nat.pow_dvd_pow 2 (Nat.le_succ k)).trans hq
  have ho' : 2 ^ o ∣ 2 ^ o * (2 * d) := ⟨2 * d, rfl⟩
  intro y hy
  have hb := (div_pow_eq_iff ho').mp hy
  exact hf y ((div_pow_eq_iff hk').mpr ⟨by omega, by omega⟩)

theorem initLoop_canon : ∀ (n : Nat) {left : Nat} {b : Buddy}, nr ≤ left + n → left ≤ nr → b.memMap = memMap →
    Canon (fun y => Usable memMap nr y ∧ y < left) b →
    (left = nr ∨ (memMap left).reserve = true ∨ Edge (Usable memMap nr) left) →
    Canon (Usable memMap nr) (initLoop nr n left left b)
  | 0, left, b, hn, hle, _, h, _ => h.congr fun y => by
    constructor
    · exact fun hy => hy.1
    · exact fun hy => ⟨hy, by have := hy.1; omega⟩
  | n + 1, left, b, hn, hle, hm, h, hedge => by
    simp only [initLoop]
    split
    · rename_i he
      exact h.congr fun y => ⟨fun hy => hy.1, fun hy => ⟨hy, by have := hy.1; omega⟩⟩
    · rename_i hne
      split
      · rename_i hres
        rw [hm] at hres
        refine initLoop_canon n (by omega) (by omega) hm (h.congr fun y => ?_) (Or.inr (Or.inr (edge_succ ?_)))
        · constructor
          · exact fun hy => ⟨hy.1, by omega⟩
          · rintro ⟨hu, hlt⟩
            refine ⟨hu, ?_⟩
            rcases eq_or_ne y left with rfl | hy
            · have := hu.2
              rw [hres] at this
              cases this
            · omega
        · rintro ⟨_, hu⟩
          rw [hres] at hu
          cases hu
      · rename_i hres
        rw [hm] at hres
        have hE : Edge (Usable memMap nr) left := by
          rcases hedge with he | he | he
          · exact absurd he hne
          · exact absurd he hres
          · exact he
        have ho := checkOrder_le left
        have hod : 2 ^ checkOrder left ∣ left := (le_checkOrder ho).mp (le_refl _)
        have hpos := Nat.two_pow_pos (checkOrder left)
        obtain ⟨hc₁, hc₂, hc₃, hc₄⟩ := countRun_spec b nr (1 <<< checkOrder left) _ hle
        set count := countRun b nr (1 <<< checkOrder left) left with hcount
        rw [hm] at hc₂ hc₃
        simp only [Nat.one_shiftLeft] at hc₁ hc₃ ⊢
        have hcpos : 0 < count := by
          by_contra h0
          have h0 : count = 0 := by omega
          rw [h0, Nat.add_zero] at hc₃
          rcases hc₃ hpos with he | he
          · exact hne he
          · exact hres he
        -- the pages below the new `right` are the old ones and the counted ones
        have hnew : ∀ y, (Usable memMap nr y ∧ y < left) ∨ (left ≤ y ∧ y < left + count) ↔
            Usable memMap nr y ∧ y < left + count := by
          intro y
          constructor
          · rintro (hy | hy)
            · exact ⟨hy.1, by omega⟩
            · exact ⟨hc₂ y hy.1 hy.2, hy.2⟩
          · rintro ⟨hu, hy⟩
            rcases Nat.lt_or_ge y left with hlt | hge
            · exact Or.inl ⟨hu, hlt⟩
            · exact Or.inr ⟨hge, hy⟩
        split
        · rename_i hfull
          refine initLoop_canon n (by omega) hc₄ hm ?_ (Or.inr (Or.inr (by rw [hfull]; exact hE.add_block)))
          refine (h.addTail ho hod (fun y hy => hy.2) fun hk q hq hl hf => ?_).congr fun y => ?_
          · exact hE _ q hk hq hl (hf.imp fun y hy => hy.1)
          · rw [div_pow_eq_iff hod, ← hnew y, hfull]
        · rename_i hpart
          have hlt : count < 2 ^ checkOrder left := by omega
          have hbit : count &&& (1 <<< checkOrder left) = 0 := by
            rw [Nat.one_shiftLeft, Nat.and_two_pow, Nat.testBit_lt_two_pow hlt]
            simp
          have hcarve : carve count (checkOrder left + 1) left b = carve count (checkOrder left) left b := by
            simp [carve, hbit]
          rw [hcarve]
          refine initLoop_canon n (by omega) hc₄ ((carve_frame _ _ _ _).1.trans hm) ?_ ?_
          · refine (carve_canon count _ ho h hod fun y hy => hy.2).congr fun y => ?_
            rw [Nat.mod_eq_of_lt hlt]
            exact hnew y
          · rcases hc₃ hlt with he | he
            · exact Or.inl he
            · exact Or.inr (Or.inl he)

theorem initLoop_frame (tail : Nat) : ∀ (n left right : Nat) (b : Buddy),
    (initLoop tail n left right b).memMap = b.memMap ∧ (initLoop tail n left right b).activate = b.activate
  | 0, _, _, _ => ⟨rfl, rfl⟩
  | n + 1, left, right, b => by
    simp only [initLoop]
    split
    · exact ⟨rfl, rfl⟩
    · split
      · exact initLoop_frame tail n _ _ b
      · split
        · exact initLoop_frame tail n _ _ (b.addTail (checkOrder left) left)
        · obtain ⟨h₁, h₂⟩ := initLoop_frame tail n (right + countRun b tail (1 <<< checkOrder left) right)
            (right + countRun b tail (1 <<< checkOrder left) right)
            (carve (countRun b tail (1 <<< checkOrder left) right) (checkOrder left + 1) left b)
          obtain ⟨h₃, h₄⟩ := carve_frame (countRun b tail (1 <<< checkOrder left) right) (checkOrder left + 1) left b
          exact ⟨h₁.trans h₃, h₂.trans h₄⟩

theorem buddySystemInit_canon (memMap : Nat → Page) (nr : Nat) :
    Canon (Usable memMap nr) (buddySystemInit memMap nr) := by
  refine initLoop_canon nr (by omega) (by omega) rfl ⟨fun _ => .nil, fun k p => ?_⟩ (Or.inr (Or.inr edge_zero))
  constructor
  · intro hp
    cases hp
  · intro hp
    exact absurd hp.2.full.mem.2 (by omega)

@[simp] theorem buddySystemInit_memMap (memMap : Nat → Page) (nr : Nat) :
    (buddySystemInit memMap nr).memMap = memMap := (initLoop_frame nr nr 0 0 _).1

@[simp] theorem buddySystemInit_activate (memMap : Nat → Page) (nr : Nat) :
    (buddySystemInit memMap nr).activate = [] := (initLoop_frame nr nr 0 0 _).2

end FengOS.Mm
