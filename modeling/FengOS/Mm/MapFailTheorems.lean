import FengOS.Mm.Lemmas.CopyCount
import FengOS.Mm.MapFail
import FengOS.Mm.PageTheorems

/-!
# What is left when pages run out
-/

namespace FengOS.Mm

open FengOS.Lib

variable {memMap : Nat → Page} {nr root : Nat} {s s' : Machine} {t : Radix Nat} {π is front : List Nat} {f g i j u : Nat}

/-! ## The levels in a row -/

def levelsOrNull (s : Machine) (table : Nat) : List Nat → Except Machine (Nat × Machine)
  | [] => .ok (table, s)
  | i :: is => (tableOrNull s table i 7).bind fun r => levelsOrNull r.2 r.1 is

theorem pageOrNull_eq_tableOrNull (s : Machine) (pt ind attr : Nat) :
    pageOrNull s pt ind attr = tableOrNull s pt ind attr := by
  simp only [pageOrNull, tableOrNull, levelOrNull, toVir_and_pageMask entry_lt]

theorem mapPageOrNull_eq_levels (pgd : Nat) (hu : u < 2 ^ 47) : mapPageOrNull s pgd u = levelsOrNull s pgd (indices u) := by
  have hend : ∀ (x : Except Machine (Nat × Machine)), x.bind (fun r => .ok (r.1, r.2)) = x := fun x => by cases x <;> rfl
  obtain ⟨h₁, h₂, h₃, h₄⟩ := mapPage_index hu
  unfold mapPageOrNull
  simp only [h₁, h₂, h₃, h₄, pageOrNull_eq_tableOrNull, indices, levelsOrNull, hend]
  rfl

/-! ## One level -/

theorem zeroedOrNull_some {result : Nat × Machine} (h : getZeroedPage s = some result) : zeroedOrNull s = result := by
  unfold getZeroedPage at h
  unfold zeroedOrNull
  generalize s.alloc.alloc 0 = r at h ⊢
  obtain ⟨page, alloc⟩ := r
  cases page with
  | none => cases h
  | some page => exact Option.some.inj h

theorem zeroedOrNull_none (h : getZeroedPage s = none) : ∃ alloc, zeroedOrNull s = (0, ⟨s.mem, alloc⟩) := by
  unfold getZeroedPage at h
  unfold zeroedOrNull
  generalize s.alloc.alloc 0 = r at h ⊢
  obtain ⟨page, alloc⟩ := r
  cases page with
  | none => exact ⟨alloc, rfl⟩
  | some page => cases h

theorem freeCount_pos {r : Nat × Machine} (hinv : s.alloc.Inv memMap nr) (h : getZeroedPage s = some r) :
    0 < s.alloc.freeCount nr := by
  obtain ⟨g, -, hav, -⟩ := getZeroedPage_ok hinv h
  refine List.length_pos_of_mem (a := g) (List.mem_filter.mpr ⟨List.mem_range.mpr hav.lt_nr, ?_⟩)
  exact decide_eq_true (hinv.freePage_iff.mpr hav)

theorem freeCount_eq_zero (hinv : s.alloc.Inv memMap nr) (h : getZeroedPage s = none) : s.alloc.freeCount nr = 0 := by
  by_contra hne
  obtain ⟨v, s', hpage, -⟩ := exists_getZeroedPage hinv (Nat.pos_of_ne_zero hne)
  rw [h] at hpage
  cases hpage

theorem tableOrNull_virtual (s : Machine) (f i : Nat) :
    tableOrNull s (virtual f) i 7 = if entry s.mem (virtual f) i = 0 then
      .ok ((zeroedOrNull s).1, { (zeroedOrNull s).2 with
        mem := (zeroedOrNull s).2.mem.store (virtual f + 8 * i) (toPhy (zeroedOrNull s).1 ||| 7) 8 })
      else .ok (toVir (entry s.mem (virtual f) i &&& pageMask), s) := if_neg (virtual_ne_zero f)

theorem Space.level_cases (hs : Space memMap nr s t) (hinv : s.alloc.Inv memMap nr) (hnr : nr ≤ maxFrame)
    (hf : t π = some f) (hd : π.length < 4) (hi : i < slots π) :
    (∃ g, t (i :: π) = some g ∧ nextTable s (virtual f) i 7 = some (virtual g, s) ∧
      tableOrNull s (virtual f) i 7 = .ok (virtual g, s)) ∨
    (∃ g s' t', t (i :: π) = none ∧ nextTable s (virtual f) i 7 = some (virtual g, s') ∧
      tableOrNull s (virtual f) i 7 = .ok (virtual g, s') ∧ t' (i :: π) = some g ∧ (∀ j, t' (j :: i :: π) = none) ∧
      Grown memMap nr (· = i :: π) s t s' t' ∧ s.alloc.freeCount nr = s'.alloc.freeCount nr + 1) ∨
    (∃ alloc, t (i :: π) = none ∧ nextTable s (virtual f) i 7 = none ∧ s.alloc.freeCount nr = 0 ∧
      tableOrNull s (virtual f) i 7 = .ok (0, ⟨s.mem.store (virtual f + 8 * i) nullEntry 8, alloc⟩)) := by
  have hentry := hs.table π f hf hd i hi
  have hlevel := tableOrNull_virtual s f i
  cases ht : t (i :: π) with
  | some g =>
    rw [ht] at hentry
    refine .inl ⟨g, rfl, hs.nextTable_eq hf hd hi ht, ?_⟩
    rw [hlevel, hentry, if_neg (pte_ne_zero g), toVir_pte (hs.bound _ g ht)]
  | none =>
    have hzero : entry s.mem (virtual f) i = 0 := hentry.trans (by rw [ht]; rfl)
    have hnext : nextTable s (virtual f) i 7 = newEntry s (virtual f) i 7 := if_pos hzero
    rw [hlevel, if_pos hzero]
    cases hpage : getZeroedPage s with
    | none =>
      have hnone : nextTable s (virtual f) i 7 = none := by rw [hnext, newEntry, hpage]; rfl
      obtain ⟨alloc, hnull⟩ := zeroedOrNull_none hpage
      refine .inr (.inr ⟨alloc, rfl, hnone, freeCount_eq_zero hinv hpage, ?_⟩)
      rw [hnull]
      rfl
    | some r =>
      obtain ⟨v, s₁⟩ := r
      have hnew : newEntry s (virtual f) i 7 =
          some (v, { s₁ with mem := s₁.mem.store (virtual f + 8 * i) (toPhy v ||| 7) 8 }) := by rw [newEntry, hpage]; rfl
      obtain ⟨g, rfl, hgrown⟩ := hs.newEntry_grown hinv hnr hf hd hi ht hnew
      refine .inr (.inl ⟨g, _, _, rfl, hnext.trans hnew, ?_, Radix.insert_self, fun j => ?_, hgrown, ?_⟩)
      · rw [zeroedOrNull_some hpage]
      · rw [Radix.insert_of_ne (by simp)]
        exact hs.ok.eq_none ht
      · obtain ⟨v', s', hpage', -, hcount⟩ := exists_getZeroedPage hinv (freeCount_pos hinv hpage)
        cases hpage.symm.trans hpage'
        exact hcount

/-! ## All levels -/

theorem Space.missingPages_of_empty (hs : Space memMap nr s t) (hf : t π = some f) (hd : π.length + is.length ≤ 4)
    (hr : InRange π is) (hempty : ∀ j, t (j :: π) = none) : missingPages s.mem (virtual f) is = is.length := by
  cases is with
  | nil => rfl
  | cons i is =>
    rw [List.length_cons] at hd
    rw [missingPages, hs.table π f hf (by omega) i hr.1, hempty i]
    rfl

theorem Space.nextLevels_none_iff (hs : Space memMap nr s t) (hinv : s.alloc.Inv memMap nr) (hnr : nr ≤ maxFrame)
    (hf : t π = some f) (hd : π.length + is.length ≤ 4) (hr : InRange π is) :
    nextLevels s (virtual f) is = none ↔ s.alloc.freeCount nr < missingPages s.mem (virtual f) is := by
  induction is generalizing s t π f with
  | nil => exact iff_of_false nofun (Nat.not_lt_zero _)
  | cons i is ih =>
    rw [List.length_cons] at hd
    have hlength : (i :: π).length + is.length ≤ 4 := by rw [List.length_cons]; omega
    have hentry := hs.table π f hf (by omega) i hr.1
    rw [nextLevels, missingPages, hentry]
    rcases hs.level_cases hinv hnr hf (by omega) hr.1 with ⟨g, hg, hnext, -⟩ |
      ⟨g, s', t', hnone, hnext, -, hg, hempty, hgrown, hcount⟩ | ⟨alloc, hnone, hnext, hcount, -⟩
    · rw [hnext, hg, if_neg (pte_ne_zero g), toVir_pte (hs.bound _ g hg), Option.bind_some]
      exact ih hs hinv hg hlength hr.2
    · rw [hnext, hnone, Option.bind_some, ih hgrown.space hgrown.inv hg hlength hr.2,
        hgrown.space.missingPages_of_empty hg hlength hr.2 hempty, hcount]
      exact (Nat.succ_lt_succ_iff).symm
    · rw [hnext, hnone, hcount]
      exact iff_of_true rfl (Nat.succ_pos _)

theorem Space.levelsOrNull_of_none (hs : Space memMap nr s t) (hinv : s.alloc.Inv memMap nr) (hnr : nr ≤ maxFrame)
    (hf : t π = some f) (hd : π.length + is.length ≤ 4) (hr : InRange π is) (h : nextLevels s (virtual f) is = none) :
    (∃ s₁, levelsOrNull s (virtual f) is = .error s₁) ∨
      ∃ s₁ t₁ g front j alloc, is = front ++ [j] ∧ Space memMap nr s₁ t₁ ∧ (∀ ρ h, t ρ = some h → t₁ ρ = some h) ∧
        t₁ (front.reverse ++ π) = some g ∧
          levelsOrNull s (virtual f) is = .ok (0, ⟨s₁.mem.store (virtual g + 8 * j) nullEntry 8, alloc⟩) := by
  induction is generalizing s t π f with
  | nil => cases h
  | cons i is ih =>
    rw [List.length_cons] at hd
    have hlength : (i :: π).length + is.length ≤ 4 := by rw [List.length_cons]; omega
    rw [nextLevels] at h
    rw [levelsOrNull]
    rcases hs.level_cases hinv hnr hf (by omega) hr.1 with ⟨g, hg, hnext, htable⟩ |
      ⟨g, s', t', -, hnext, htable, hg, -, hgrown, -⟩ | ⟨alloc, -, -, -, htable⟩
    · rw [hnext, Option.bind_some] at h
      rw [htable]
      rcases ih hs hinv hg hlength hr.2 h with herr | ⟨s₁, t₁, g₁, front, j, alloc, rfl, hs₁, hold, hg₁, hok⟩
      · exact .inl herr
      · exact .inr ⟨s₁, t₁, g₁, i :: front, j, alloc, rfl, hs₁, hold, by simpa using hg₁, hok⟩
    · rw [hnext, Option.bind_some] at h
      rw [htable]
      rcases ih hgrown.space hgrown.inv hg hlength hr.2 h with herr |
        ⟨s₁, t₁, g₁, front, j, alloc, rfl, hs₁, hold, hg₁, hok⟩
      · exact .inl herr
      · exact .inr ⟨s₁, t₁, g₁, i :: front, j, alloc, rfl, hs₁, fun ρ h hρ => hold ρ h (hgrown.old ρ h hρ),
          by simpa using hg₁, hok⟩
    · rw [htable]
      cases is with
      | nil => exact .inr ⟨s, t, f, [], i, alloc, rfl, hs, fun _ _ => id, hf, rfl⟩
      | cons i' is => exact .inl ⟨_, rfl⟩

/-! ## The entry that is left -/

theorem follow_nullEntry (m : Mem) (table i : Nat) : follow (m.store (table + 8 * i) nullEntry 8) table i = some 0 := by
  have hentry : entry (m.store (table + 8 * i) nullEntry 8) table i = nullEntry := Mem.load_store (by decide)
  rw [follow, hentry]
  decide

theorem Space.zero_mem_walkAlong (hs : Space memMap nr s t) (hf : t π = some f) (hg : t (front.reverse ++ π) = some g)
    (hd : π.length + front.length < 4) (hr : InRange π (front ++ [j])) (hj : j < prePageEntry) :
    0 ∈ walkAlong (s.mem.store (virtual g + 8 * j) nullEntry 8) (virtual f) (front ++ [j]) := by
  induction front generalizing π f with
  | nil =>
    obtain rfl := Option.some.inj (hf.symm.trans hg)
    rw [List.nil_append, walkAlong, follow_nullEntry]
    exact List.mem_cons_of_mem _ List.mem_cons_self
  | cons i front ih =>
    rw [List.length_cons] at hd
    rw [List.reverse_cons, List.append_assoc, List.singleton_append] at hg
    obtain ⟨h, hh⟩ := hs.ok.exists_of_append ⟨g, hg⟩
    have hne : f ≠ g := by
      rintro rfl
      have := congrArg List.length (hs.ok.inj _ _ f hf hg)
      simp only [List.length_append, List.length_cons] at this
      omega
    have hi : i < prePageEntry := Nat.lt_of_lt_of_le hr.1 (slots_le π)
    have hfollow : follow (s.mem.store (virtual g + 8 * j) nullEntry 8) (virtual f) i = some (virtual h) := by
      rw [follow, entry_congr (fun b hb => store_apply_of_ne hj hb hne) hi, ← follow,
        hs.follow_eq hf (by omega) hr.1, hh]
      rfl
    rw [List.cons_append, walkAlong, hfollow, Option.elim_some]
    exact List.mem_cons_of_mem _ (ih hh hg (by rw [List.length_cons]; omega) hr.2)

theorem Space.not_failsCleanly (hs : Space memMap nr s t) (hinv : s.alloc.Inv memMap nr) (hnr : nr ≤ maxFrame)
    (hroot : t [] = some root) (hu : u < 2 ^ 47) (h : mapPage s (virtual root) u = none) :
    ¬ FailsCleanly s (virtual root) u := by
  rintro ⟨s', hok, -, hback⟩
  rw [mapPage_eq_nextLevels _ hu] at h
  rw [mapPageOrNull_eq_levels _ hu] at hok
  rcases hs.levelsOrNull_of_none hinv hnr hroot (show [].length + (indices u).length ≤ 4 from Nat.le_refl 4)
    (inRange_indices hu) h with ⟨s₁, herr⟩ | ⟨s₁, t₁, g, front, j, alloc, hindices, hs₁, hold, hg, hnull⟩
  · rw [herr] at hok
    cases hok
  · rw [hnull] at hok
    cases hok
    have hr := inRange_indices hu
    have hlength : front.length + 1 = 4 := by simpa [indices] using (congrArg List.length hindices).symm
    have hj : j < prePageEntry := by
      have hmem : j ∈ indices u := hindices ▸ List.mem_append_right _ List.mem_cons_self
      exact walk_index hu j hmem
    rw [hindices] at hr
    have hzero := hs₁.zero_mem_walkAlong (hold _ _ hroot) hg (by simp only [List.length_nil]; omega) hr hj
    rw [← hindices] at hzero
    obtain ⟨f, hf, -⟩ := hback u hu 0 hzero
    exact virtual_ne_zero f hf.symm

/-- `map_page` survives the lack of pages only if none is lacking on the way to the address. -/
theorem survivesExhaustion_iff {u : Nat} (hs : Space memMap nr s t) (hinv : s.alloc.Inv memMap nr) (hnr : nr ≤ maxFrame)
    (hroot : t [] = some root) (hu : u < 2 ^ 47) :
    SurvivesExhaustion s (virtual root) u ↔ missingPages s.mem (virtual root) (indices u) ≤ s.alloc.freeCount nr := by
  have hiff : mapPage s (virtual root) u = none ↔
      s.alloc.freeCount nr < missingPages s.mem (virtual root) (indices u) := by
    rw [mapPage_eq_nextLevels _ hu]
    exact hs.nextLevels_none_iff hinv hnr hroot (Nat.le_refl 4) (inRange_indices hu)
  constructor
  · intro hsurvives
    by_contra hlt
    have hnone := hiff.mpr (Nat.lt_of_not_le hlt)
    exact hs.not_failsCleanly hinv hnr hroot hu hnone (hsurvives hnone)
  · intro hle hnone
    exact absurd (hiff.mp hnone) (Nat.not_lt.mpr hle)

theorem survivesExhaustion_eightFrames : missingPages eightFramesMachine.mem (virtual 0) (indices 0) = 4 ∧
    SurvivesExhaustion eightFramesMachine (virtual 0) 0 := by
  have hmissing : missingPages eightFramesMachine.mem (virtual 0) (indices 0) = 4 := by decide
  have hfree : eightFramesMachine.alloc.freeCount 8 = 7 := by decide
  refine ⟨hmissing, (survivesExhaustion_iff (eightFramesMachine_empty.space eightFramesMachine_reach.inv)
    eightFramesMachine_reach.inv (by decide) rfl (by decide)).mpr ?_⟩
  rw [hmissing, hfree]
  decide

def oneFrameMachine : Machine := ⟨fun _ => 0, BuddySys.init (fun _ => ⟨true, false, none⟩) 1⟩

/-- The first table is missing, and it is read through the null pointer. -/
theorem null_table_read : (∃ s, mapPageOrNull oneFrameMachine (virtual 0) 0 = .error s) ∧
    mapPage oneFrameMachine (virtual 0) 0 = none ∧ ¬ SurvivesExhaustion oneFrameMachine (virtual 0) 0 := by
  have hnone : mapPage oneFrameMachine (virtual 0) 0 = none := Option.isNone_iff_eq_none.mp (by decide)
  have hfails : (mapPageOrNull oneFrameMachine (virtual 0) 0).toBool = false := by decide
  have herr : ∃ s, mapPageOrNull oneFrameMachine (virtual 0) 0 = .error s := by
    cases h : mapPageOrNull oneFrameMachine (virtual 0) 0 with
    | error s => exact ⟨s, rfl⟩
    | ok r =>
      rw [h] at hfails
      cases hfails
  refine ⟨herr, hnone, fun hsurvives => ?_⟩
  obtain ⟨s, hs⟩ := herr
  obtain ⟨s', hok, -⟩ := hsurvives hnone
  rw [hs] at hok
  cases hok

end FengOS.Mm
