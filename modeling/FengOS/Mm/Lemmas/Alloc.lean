import FengOS.Mm.Lemmas.BlockInsert

/-!
# `__alloc_pages` and `free_pages` on canonical lists
-/

namespace FengOS.Mm

open FengOS.Lib.Dyadic

variable {F : Nat → Prop} {b : Buddy} {page order k : Nat}

theorem firstNonempty_some : ∀ {n next : Nat}, firstNonempty b n next = some k →
    next ≤ k ∧ k < next + n ∧ b.block k ≠ []
  | 0, next, h => by simp [firstNonempty] at h
  | n + 1, next, h => by
    simp only [firstNonempty] at h
    split at h
    · obtain ⟨h₁, h₂, h₃⟩ := firstNonempty_some h
      exact ⟨by omega, by omega, h₃⟩
    · rename_i hne
      obtain rfl := Option.some.inj h
      exact ⟨le_refl _, by omega, hne⟩

theorem firstNonempty_none : ∀ {n next : Nat}, firstNonempty b n next = none →
    ∀ k, next ≤ k → k < next + n → b.block k = []
  | 0, next, _, k, h₁, h₂ => by omega
  | n + 1, next, h, k, h₁, h₂ => by
    simp only [firstNonempty] at h
    split at h
    · rename_i he
      rcases eq_or_ne k next with rfl | hk
      · exact he
      · exact firstNonempty_none h k (by omega) (by omega)
    · cases h

theorem splitBlock_canon (page order : Nat) : ∀ (n : Nat) {F : Nat → Prop} {b : Buddy}, order + n < 8 → Canon F b →
    2 ^ (order + n) ∣ page → (∀ y, y / 2 ^ (order + n) = page / 2 ^ (order + n) → ¬ F y) →
    Canon (fun y => F y ∨ y / 2 ^ (order + n) = page / 2 ^ (order + n) ∧ y / 2 ^ order ≠ page / 2 ^ order)
      (splitBlock page order n b)
  | 0, F, b, _, h, _, _ => h.congr fun y => by simp
  | n + 1, F, b, hn, h, hp, hdisj => by
    have hp' : 2 ^ (order + n + 1) ∣ page := hp
    have hk : 2 ^ (order + n) ∣ page := (Nat.pow_dvd_pow 2 (Nat.le_succ _)).trans hp'
    have hsplit : ∀ y, y / 2 ^ (order + (n + 1)) = page / 2 ^ (order + (n + 1)) ↔
        y / 2 ^ (order + n) = page / 2 ^ (order + n) ∨
          y / 2 ^ (order + n) = (page + 2 ^ (order + n)) / 2 ^ (order + n) := fun y => div_pow_succ_eq_iff hp'
    have hhalves : page / 2 ^ (order + n) ≠ (page + 2 ^ (order + n)) / 2 ^ (order + n) := by
      rw [Nat.add_div_right _ (Nat.two_pow_pos _)]
      omega
    have hins := blockInsert_canon (page + 2 ^ (order + n)) (order + n) h (by omega) (Nat.dvd_add hk (Nat.dvd_refl _))
      fun y hy => hdisj y ((hsplit y).mpr (Or.inr hy))
    have hrec := splitBlock_canon page order n (by omega) hins hk (by
      rintro y hy (hF | hu)
      · exact hdisj y ((hsplit y).mpr (Or.inl hy)) hF
      · exact hhalves (hy.symm.trans hu))
    simp only [splitBlock, Nat.one_shiftLeft]
    refine hrec.congr fun y => ?_
    have hsmall : y / 2 ^ order = page / 2 ^ order → y / 2 ^ (order + n) = page / 2 ^ (order + n) :=
      div_pow_mono (by omega)
    rw [hsplit]
    constructor
    · rintro ((hF | hu) | ⟨hl, hne⟩)
      · exact Or.inl hF
      · exact Or.inr ⟨Or.inr hu, fun he => hhalves ((hsmall he).symm.trans hu)⟩
      · exact Or.inr ⟨Or.inl hl, hne⟩
    · rintro (hF | ⟨hl | hu, hne⟩)
      · exact Or.inl (Or.inl hF)
      · exact Or.inr ⟨hl, hne⟩
      · exact Or.inl (Or.inr hu)

theorem splitBlock_frame (page order : Nat) : ∀ (n : Nat) (b : Buddy), (splitBlock page order n b).memMap = b.memMap ∧
    (splitBlock page order n b).activate = b.activate
  | 0, _ => ⟨rfl, rfl⟩
  | n + 1, b => by
    obtain ⟨h₁, h₂⟩ := splitBlock_frame page order n (blockInsert b (page + (1 <<< (order + n))) (order + n))
    exact ⟨by rw [splitBlock, h₁, blockInsert_memMap], by rw [splitBlock, h₂, blockInsert_activate]⟩

theorem Canon.pushActivate (h : Canon F b) : Canon F (b.pushActivate page) := ⟨h.sorted, h.mem⟩

inductive AllocSpec (F : Nat → Prop) (b : Buddy) (order : Nat) : Option Nat × Buddy → Prop
  | some {page b'} (aligned : 2 ^ order ∣ page) (full : Full F order page)
      (canon : Canon (fun y => F y ∧ y / 2 ^ order ≠ page / 2 ^ order) b')
      (memMap : b'.memMap = b.memMap) (activate : b'.activate = page :: b.activate) :
      AllocSpec F b order (some page, b')
  | none (empty : ∀ k, order ≤ k → b.block k = []) : AllocSpec F b order (none, b)

theorem split_first {rest : List Nat} (h : Canon F b) (hle : order ≤ k) (hb : b.block k = page :: rest) :
    AllocSpec F b order (some page, (splitBlock page order (k - order) (b.setBlock k rest)).pushActivate page) := by
  have hmem : page ∈ b.block k := by simp [hb]
  obtain ⟨hdvd, hmax⟩ := (h.mem k page).mp hmem
  have hrest : rest = (b.block k).erase page := by simp [hb]
  have hk : order + (k - order) = k := by omega
  have hsplit := splitBlock_canon page order (k - order) (by have := hmax.le; omega)
    (h.erase hmem) (by rwa [hk]) (by rw [hk]; exact fun y hy hF => hF.2 hy)
  obtain ⟨hm, ha⟩ := splitBlock_frame page order (k - order) (b.setBlock k rest)
  refine .some ((Nat.pow_dvd_pow 2 hle).trans hdvd) (hmax.full.anti hle) ?_ hm (congrArg _ ha)
  rw [hrest]
  refine hsplit.pushActivate.congr fun y => ?_
  rw [hk]
  have hF : y / 2 ^ k = page / 2 ^ k → F y := hmax.full y
  have hsmall : y / 2 ^ order = page / 2 ^ order → y / 2 ^ k = page / 2 ^ k := div_pow_mono hle
  tauto

theorem Canon.block_eq_nil (h : Canon F b) (hk : 8 ≤ k) : b.block k = [] := by
  refine List.eq_nil_iff_forall_not_mem.mpr fun p hp => ?_
  have := ((h.mem k p).mp hp).2.le
  omega

theorem allocPagesRaw_spec (h : Canon F b) (ho : order < 8) : AllocSpec F b order (allocPagesRaw b order) := by
  simp only [allocPagesRaw, maxOrder, show ¬ 8 ≤ order by omega, ↓reduceIte]
  split
  · rename_i page rest hb
    have := split_first h (le_refl order) hb
    rwa [Nat.sub_self] at this
  · rename_i hb
    have hall : firstNonempty b (8 - (order + 1)) (order + 1) = none → ∀ k, order ≤ k → b.block k = [] := by
      intro hn k hk
      rcases eq_or_ne k order with rfl | hne
      · exact hb
      · rcases Nat.lt_or_ge k 8 with h8 | h8
        · exact firstNonempty_none hn k (by omega) (by omega)
        · exact h.block_eq_nil h8
    split
    · rename_i hn
      exact .none (hall hn)
    · rename_i next hn
      obtain ⟨hle, _, hne⟩ := firstNonempty_some hn
      split
      · rename_i he
        exact absurd he hne
      · rename_i page rest hb'
        exact split_first h (by omega) hb'

theorem allocPages_spec (h : Canon F b) (ho : order < 8) :
    (∃ page b', allocPages b order = (some page, b') ∧ 2 ^ order ∣ page ∧ Full F order page ∧
      Canon (fun y => F y ∧ y / 2 ^ order ≠ page / 2 ^ order) b' ∧ b'.activate = page :: b.activate ∧
      (∀ y, (b'.memMap y).reserve = (b.memMap y).reserve) ∧ (∀ y, (b'.memMap y).slab = (b.memMap y).slab)) ∨
    (allocPages b order = (none, b) ∧ ∀ k, order ≤ k → b.block k = []) := by
  have hspec := allocPagesRaw_spec h ho
  simp only [allocPages]
  cases hr : allocPagesRaw b order with
  | mk r b' =>
    rw [hr] at hspec
    cases hspec with
    | none hempty => exact Or.inr ⟨rfl, hempty⟩
    | @some page _ hal hf hc hm ha =>
      have hfields : ∀ (f : Page → Bool) (y : Nat), f { b'.memMap page with busy := true } = f (b'.memMap page) →
          f (Function.update b'.memMap page { b'.memMap page with busy := true } y) = f (b.memMap y) := by
        intro f y hf
        rcases eq_or_ne y page with rfl | hy
        · rw [Function.update_self, hf, hm]
        · rw [Function.update_of_ne hy, hm]
      refine Or.inl ⟨page, _, rfl, hal, hf, ⟨hc.sorted, hc.mem⟩, ha, fun y => hfields _ y rfl, fun y => ?_⟩
      rcases eq_or_ne y page with rfl | hy
      · simp [hm]
      · simp [Function.update_of_ne hy, hm]

theorem virtual_injective {p q : Nat} (h : virtual p = virtual q) : p = q := by
  simp only [virtual, pageSize] at h
  omega

theorem virtual_ne_zero (p : Nat) : virtual p ≠ 0 := by
  simp [virtual, kernelOffset]

theorem pageLowerAlign_virtual (p : Nat) : pageLowerAlign (virtual p) = virtual p := by
  simp only [pageLowerAlign, virtual, pageSize, kernelOffset]
  omega

theorem ne_zero_of_pageLowerAlign {addr p : Nat} (h : pageLowerAlign addr = virtual p) : addr ≠ 0 := by
  rintro rfl
  exact virtual_ne_zero p (by rw [← h]; rfl)

theorem freePages_of_mem {addr p : Nat} (hp : p ∈ b.activate) (ha : pageLowerAlign addr = virtual p) :
    freePages b addr order = blockInsert { b with activate := b.activate.erase p } p order := by
  have hfind : b.activate.find? (fun pos => virtual pos = pageLowerAlign addr) = some p := by
    cases hf : b.activate.find? (fun pos => virtual pos = pageLowerAlign addr) with
    | none => simpa [ha] using List.find?_eq_none.mp hf p hp
    | some q =>
      have hq : virtual q = pageLowerAlign addr := by simpa using List.find?_some hf
      rw [virtual_injective (hq.trans ha)]
  simp only [freePages, ne_zero_of_pageLowerAlign ha, ↓reduceIte, hfind, freePagesRaw]

theorem freePages_of_not_mem {addr : Nat} (h : ∀ p ∈ b.activate, pageLowerAlign addr ≠ virtual p) :
    freePages b addr order = b := by
  have hfind : b.activate.find? (fun pos => virtual pos = pageLowerAlign addr) = none :=
    List.find?_eq_none.mpr fun p hp => by simpa using fun he => h p hp he.symm
  simp only [freePages, hfind]
  split <;> rfl

end FengOS.Mm
