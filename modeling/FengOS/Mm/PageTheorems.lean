import FengOS.Mm.Lemmas.PageFree

/-!
# Address spaces
-/

namespace FengOS.Mm

open FengOS.Lib

variable {memMap : Nat → Page} {nr root : Nat} {s s' s'' : Machine} {t : Radix Nat} {us vs freed : List Nat} {u v a : Nat}
  {P : List Nat → Prop}

/-! ## `map_page` and `kmap` -/

theorem EmptyLower.exists_grown (hs : EmptyLower s root) (halloc : BuddySys.Reach memMap nr s.alloc) (hnr : nr < 2 ^ 32)
    (hus : ∀ u ∈ us, u < 2 ^ 47) (h : mapPages (virtual root) s us = some (vs, s')) :
    ∃ t, Grown memMap nr (fun π => π ≠ [] ∧ ∃ u ∈ us, π <:+ path u) s (emptyTree root) s' t ∧
      t [] = some root ∧ vs.length = us.length ∧ ∀ u v, (u, v) ∈ us.zip vs → ∃ g, v = virtual g ∧ t (path u) = some g := by
  have hspace := hs.space halloc.inv
  obtain ⟨t, hgrown, hall⟩ := hspace.mapPages_grown halloc.inv (Nat.le_trans (Nat.le_of_lt hnr) (by decide)) rfl hus h
  obtain ⟨hlength, hzip⟩ := List.forall₂_iff_zip.mp hall
  exact ⟨t, hgrown, hgrown.old [] root rfl, hlength.symm, fun u v huv => hzip huv⟩

theorem Space.kmap_of_page {g : Nat} (hs : Space memMap nr s t) (hroot : t [] = some root) (hu : u < 2 ^ 47)
    (hg : t (path u) = some g) (ha : a / 2 ^ 12 = u / 2 ^ 12) : kmap s.mem (virtual root) a = virtual g + a % 2 ^ 12 ∧
      translate s.mem (virtual root) a = some (virtual g + a % 2 ^ 12) ∧
      mapPage s (virtual root) a = some (virtual g, s) := by
  have ha' : a < 2 ^ 47 := by omega
  rw [← (path_eq_iff ha' hu).mpr ha] at hg
  refine ⟨hs.kmap_eq hroot ha' hg, ?_, hs.mapPage_of_mapped hroot ha' hg⟩
  rw [hs.translate_eq hroot ha', hg]
  rfl

/-- `kmap` gives the frame plus the offset, pages keep their frames and have different ones, and a further call leaves all
others. -/
theorem map_page_semantics {memMap : Nat → Page} {nr root : Nat} {s s' : Machine} {us vs : List Nat}
    (hs : EmptyLower s root) (halloc : BuddySys.Reach memMap nr s.alloc) (hnr : nr < 2 ^ 32)
    (hus : ∀ u ∈ us, u < 2 ^ 47) (h : mapPages (virtual root) s us = some (vs, s')) :
    vs.length = us.length ∧
    (∀ u v, (u, v) ∈ us.zip vs → (∃ g, v = virtual g) ∧ ∀ a, a / 2 ^ 12 = u / 2 ^ 12 →
      kmap s'.mem (virtual root) a = v + a % 2 ^ 12 ∧ translate s'.mem (virtual root) a = some (v + a % 2 ^ 12) ∧
      mapPage s' (virtual root) a = some (v, s')) ∧
    (∀ u v u' v', (u, v) ∈ us.zip vs → (u', v') ∈ us.zip vs → u / 2 ^ 12 ≠ u' / 2 ^ 12 → v ≠ v') ∧
    ∀ u < 2 ^ 47, ∀ v s'', mapPage s' (virtual root) u = some (v, s'') →
      (∀ a < 2 ^ 47, a / 2 ^ 12 ≠ u / 2 ^ 12 →
        translate s''.mem (virtual root) a = translate s'.mem (virtual root) a ∧
        (translate s'.mem (virtual root) a ≠ none → kmap s''.mem (virtual root) a = kmap s'.mem (virtual root) a)) ∧
      ∀ i, prePageEntry / 2 ≤ i → i < prePageEntry →
        entry s''.mem (virtual root) i = entry s'.mem (virtual root) i := by
  obtain ⟨t, hgrown, hroot, hlength, hzip⟩ := hs.exists_grown halloc hnr hus h
  have hspace := hgrown.space
  refine ⟨hlength, fun u v huv => ?_, fun u v u' v' huv huv' hne => ?_, fun u hu v s'' hmap => ?_⟩
  · obtain ⟨g, rfl, hg⟩ := hzip u v huv
    exact ⟨⟨g, rfl⟩, fun a ha => hspace.kmap_of_page hroot (hus u (List.of_mem_zip huv).1) hg ha⟩
  · obtain ⟨g, rfl, hg⟩ := hzip u v huv
    obtain ⟨g', rfl, hg'⟩ := hzip u' v' huv'
    intro he
    rw [← virtual_injective he] at hg'
    exact hne ((path_eq_iff (hus u (List.of_mem_zip huv).1) (hus u' (List.of_mem_zip huv').1)).mp
      (hspace.ok.inj _ _ g hg hg'))
  · obtain ⟨g, t', rfl, -, hgrown'⟩ := hspace.mapPage_grown hgrown.inv (Nat.le_trans (Nat.le_of_lt hnr) (by decide)) hroot
      hu hmap
    have hroot' := hgrown'.old [] root hroot
    refine ⟨fun a ha hne => ?_, fun i hlo hi => hgrown'.upper_eq hspace hroot hlo hi⟩
    have hother := hgrown'.other ha hu hne
    rw [hgrown'.space.translate_eq hroot' ha, hspace.translate_eq hroot ha, hother]
    refine ⟨rfl, fun hmapped => ?_⟩
    cases hg : t (path a) with
    | none =>
      rw [hg] at hmapped
      exact absurd rfl hmapped
    | some f =>
      rw [hgrown'.space.kmap_eq hroot' ha (hother.trans hg), hspace.kmap_eq hroot ha hg]

/-! ### Three pages, mapped out of order -/

def eightFramesMachine : Machine := ⟨fun _ => 0, BuddySys.init firstReserved 8⟩

theorem eightFramesMachine_reach : BuddySys.Reach firstReserved 8 eightFramesMachine.alloc := .init rfl

theorem eightFramesMachine_empty : EmptyLower eightFramesMachine 0 where
  bound := by decide
  held k p hp hin := by
    have ha := (eightFramesMachine_reach.inv.avail_iff 0).mpr ⟨k, p, hp, hin⟩
    exact absurd ha.1.2 (by decide)
  empty i _ := Mem.load_eq_zero fun _ _ _ => rfl

theorem eightFramesMachine_mapPages :
    ∃ s', mapPages (virtual 0) eightFramesMachine [0, 0x2000, 0x1000] = some ([virtual 4, virtual 5, virtual 6], s') := by
  have hexec : (mapPages (virtual 0) eightFramesMachine [0, 0x2000, 0x1000]).map Prod.fst =
      some [virtual 4, virtual 5, virtual 6] := by decide +kernel
  obtain ⟨⟨vs, s'⟩, h, rfl⟩ := Option.map_eq_some_iff.mp hexec
  exact ⟨s', h⟩

theorem map_page_semantics_threePages : ∃ s',
    mapPages (virtual 0) eightFramesMachine [0, 0x2000, 0x1000] = some ([virtual 4, virtual 5, virtual 6], s') ∧
      kmap s'.mem (virtual 0) 0x2123 = virtual 5 + 0x123 := by
  obtain ⟨s', h⟩ := eightFramesMachine_mapPages
  obtain ⟨-, hkmap, -⟩ := map_page_semantics eightFramesMachine_empty eightFramesMachine_reach (by decide) (by decide) h
  exact ⟨s', h, ((hkmap 0x2000 (virtual 5) (by decide)).2 0x2123 (by decide)).1⟩

/-! ## Ranges seen through `kmap` -/

theorem exists_call {t : Radix Nat}
    (hgrown : Grown memMap nr (fun π => π ≠ [] ∧ ∃ u ∈ us, π <:+ path u) s (emptyTree root) s' t)
    (hroot : t [] = some root) (hlength : vs.length = us.length) (hus : ∀ u ∈ us, u < 2 ^ 47) (ha : a < 2 ^ 47)
    (hmapped : translate s'.mem (virtual root) a ≠ none) : ∃ u v, (u, v) ∈ us.zip vs ∧ a / 2 ^ 12 = u / 2 ^ 12 := by
  rw [hgrown.space.translate_eq hroot ha] at hmapped
  cases hg : t (path a) with
  | none =>
    rw [hg] at hmapped
    exact absurd rfl hmapped
  | some g =>
    obtain ⟨u, hu, hpath⟩ := hgrown.mapped hg
    obtain ⟨j, hj, rfl⟩ := List.getElem_of_mem hu
    refine ⟨us[j], vs[j], ?_, (path_eq_iff ha (hus _ hu)).mp hpath⟩
    rw [List.mem_iff_getElem]
    exact ⟨j, by simpa [hlength] using hj, by simp⟩

/-- `kmap` of the first byte gives the bytes of a range exactly if the frames of neighbouring pages are neighbours. -/
theorem kmap_contiguous_iff {memMap : Nat → Page} {nr root : Nat} {s s' : Machine} {us vs : List Nat} {p n : Nat}
    (hs : EmptyLower s root) (halloc : BuddySys.Reach memMap nr s.alloc) (hnr : nr < 2 ^ 32)
    (hus : ∀ u ∈ us, u < 2 ^ 47) (h : mapPages (virtual root) s us = some (vs, s'))
    (hmapped : ∀ i < n, p + i < 2 ^ 47 ∧ translate s'.mem (virtual root) (p + i) ≠ none) :
    (∀ i < n, kmap s'.mem (virtual root) p + i = kmap s'.mem (virtual root) (p + i)) ↔
      ∀ u v u' v', (u, v) ∈ us.zip vs → (u', v') ∈ us.zip vs → p / 2 ^ 12 ≤ u / 2 ^ 12 →
        u' / 2 ^ 12 = u / 2 ^ 12 + 1 → u' / 2 ^ 12 * 2 ^ 12 < p + n → v' = v + 2 ^ 12 := by
  obtain ⟨t, hgrown, hroot, hlength, hzip⟩ := hs.exists_grown halloc hnr hus h
  have hkmap : ∀ {u v a}, (u, v) ∈ us.zip vs → a / 2 ^ 12 = u / 2 ^ 12 →
      kmap s'.mem (virtual root) a = v + a % 2 ^ 12 := by
    intro u v a huv ha
    obtain ⟨g, rfl, hg⟩ := hzip u v huv
    exact (hgrown.space.kmap_of_page hroot (hus u (List.of_mem_zip huv).1) hg ha).1
  constructor
  · intro hcont u v u' v' huv huv' hlo hnext hhi
    -- the first byte of the range in the page of `u`, and the first byte of the next page
    have hfirst := hcont (max p (u / 2 ^ 12 * 2 ^ 12) - p) (by omega)
    have hsecond := hcont (u' / 2 ^ 12 * 2 ^ 12 - p) (by omega)
    rw [hkmap huv (a := p + (max p (u / 2 ^ 12 * 2 ^ 12) - p)) (by omega)] at hfirst
    rw [hkmap huv' (a := p + (u' / 2 ^ 12 * 2 ^ 12 - p)) (by omega)] at hsecond
    omega
  · intro hadj i
    induction i with
    | zero => exact fun _ => rfl
    | succ i ih =>
      intro hi
      obtain ⟨ha, hm⟩ := hmapped i (by omega)
      obtain ⟨ha', hm'⟩ := hmapped (i + 1) hi
      obtain ⟨u, v, huv, hu⟩ := exists_call hgrown hroot hlength hus ha hm
      obtain ⟨u', v', huv', hu'⟩ := exists_call hgrown hroot hlength hus ha' hm'
      have hprev := ih (by omega)
      rw [hkmap huv hu] at hprev
      by_cases hpage : (p + (i + 1)) / 2 ^ 12 = u / 2 ^ 12
      · rw [hkmap huv hpage]
        omega
      · have hv := hadj u v u' v' huv huv' (by omega) (by omega) (by omega)
        rw [hkmap huv' hu', hv]
        omega

theorem eightFramesMachine_mapped
    (h : mapPages (virtual 0) eightFramesMachine [0, 0x2000, 0x1000] = some ([virtual 4, virtual 5, virtual 6], s'))
    (ha : a < 0x3000) : translate s'.mem (virtual 0) a ≠ none := by
  obtain ⟨t, hgrown, hroot, -, hzip⟩ :=
    eightFramesMachine_empty.exists_grown eightFramesMachine_reach (by decide) (by decide) h
  have hpage : ∃ u v, (u, v) ∈ [0, 0x2000, 0x1000].zip [virtual 4, virtual 5, virtual 6] ∧ a / 2 ^ 12 = u / 2 ^ 12 := by
    rcases Nat.lt_or_ge a 0x1000 with h₀ | h₀
    · exact ⟨0, virtual 4, by decide, by omega⟩
    · rcases Nat.lt_or_ge a 0x2000 with h₁ | h₁
      · exact ⟨0x1000, virtual 6, by decide, by omega⟩
      · exact ⟨0x2000, virtual 5, by decide, by omega⟩
  obtain ⟨u, v, huv, hu⟩ := hpage
  obtain ⟨g, -, hg⟩ := hzip u v huv
  rw [(hgrown.space.kmap_of_page hroot (by omega) hg hu).2.1]
  nofun

theorem kmap_contiguous_onePage : ∃ s',
    mapPages (virtual 0) eightFramesMachine [0, 0x2000, 0x1000] = some ([virtual 4, virtual 5, virtual 6], s') ∧
      ∀ i < 16, kmap s'.mem (virtual 0) 0x2ff0 + i = kmap s'.mem (virtual 0) (0x2ff0 + i) := by
  obtain ⟨s', h⟩ := eightFramesMachine_mapPages
  refine ⟨s', h, (kmap_contiguous_iff eightFramesMachine_empty eightFramesMachine_reach (by decide) (by decide) h
    fun i hi => ⟨by omega, eightFramesMachine_mapped h (by omega)⟩).mpr fun u v u' v' _ _ hlo hnext hhi => ?_⟩
  omega

/-- The first two pages are neighbours and their frames are not. -/
theorem kmap_not_contiguous : ∃ s',
    mapPages (virtual 0) eightFramesMachine [0, 0x2000, 0x1000] = some ([virtual 4, virtual 5, virtual 6], s') ∧
      (∀ i < 0x2000, translate s'.mem (virtual 0) (0 + i) ≠ none) ∧
      kmap s'.mem (virtual 0) 0 + 0x1000 ≠ kmap s'.mem (virtual 0) (0 + 0x1000) := by
  have hexec : (mapPages (virtual 0) eightFramesMachine [0, 0x2000, 0x1000]).map (fun r =>
      (kmap r.2.mem (virtual 0) 0, kmap r.2.mem (virtual 0) (0 + 0x1000))) = some (virtual 4, virtual 6) := by
    decide +kernel
  obtain ⟨s', h⟩ := eightFramesMachine_mapPages
  rw [h, Option.map_some, Option.some.injEq, Prod.mk.injEq] at hexec
  refine ⟨s', h, fun i hi => eightFramesMachine_mapped h (by omega), ?_⟩
  rw [hexec.1, hexec.2]
  decide

/-! ## `MSG_KMAP` -/

theorem mem_walkTables_cons {m : Mem} {shift table x : Nat} {levels : List Nat} :
    x ∈ walkTables m a (shift :: levels) table ↔ x = table ∨ x ∈ walkTables m a levels (below m a shift table) := by
  unfold walkTables
  rw [List.scanl_cons, List.dropLast_cons_of_ne_nil List.scanl_ne_nil, List.mem_cons]

theorem below_of_zero {m : Mem} {shift table : Nat} (h : entry m table (a / 2 ^ shift % 512) = 0) :
    below m a shift table = virtual 0 := by
  rw [below, h]
  decide

theorem walkPage_none {m : Mem} {levels : List Nat} {table : Nat} (h : walkPage m a levels table = none) :
    virtual 0 ∈ walkTables m a levels table ∨ walkEnd m a levels table = virtual 0 := by
  induction levels generalizing table with
  | nil => cases h
  | cons shift levels ih =>
    rw [walkPage_cons] at h
    rw [mem_walkTables_cons, walkEnd_cons]
    split at h
    case isTrue hzero =>
      rw [below_of_zero hzero]
      cases levels with
      | nil => exact Or.inr rfl
      | cons shift' levels => exact Or.inl (Or.inr (mem_walkTables_cons.mpr (Or.inl rfl)))
    case isFalse =>
      rcases ih h with hmem | hend
      · exact Or.inl (Or.inr hmem)
      · exact Or.inr hend

theorem kmapSafe_iff (m : Mem) (pgd : Nat) (ha : a < 2 ^ 47) :
    KmapSafe m pgd a (ipcKmapAddr m pgd a) ↔ a = 0 ∨ walkPage m a shifts pgd ≠ none := by
  by_cases hzero : a = 0
  · subst hzero
    have htables : ipcKmapTables m pgd 0 = [] := if_neg (not_not.mpr rfl)
    refine ⟨fun _ => Or.inl rfl, fun _ => ⟨fun h => ?_, fun _ => ?_⟩⟩
    · rw [ipcKmapAddr, if_neg (not_not.mpr rfl), kernelOffset] at h
      omega
    · rw [htables]
      exact List.not_mem_nil
  rw [ipcKmapAddr, if_pos hzero, kmap_eq_walkEnd m pgd ha]
  have htables : ipcKmapTables m pgd a = walkTables m a shifts pgd := if_pos hzero
  have hoffset : a % 2 ^ 12 < pageSize := Nat.mod_lt a (by decide)
  constructor
  · intro hsafe
    refine Or.inr fun hnone => ?_
    rcases walkPage_none hnone with hmem | hend
    · rw [← htables] at hmem
      exact hsafe.tables hnone hmem
    · obtain ⟨page, hpage, -⟩ := hsafe.mapped (by
        rw [hend, virtual]
        omega)
      rw [hnone] at hpage
      cases hpage
  · rintro (h | hsome)
    · exact absurd h hzero
    · obtain ⟨page, hpage⟩ := Option.ne_none_iff_exists'.mp hsome
      refine ⟨fun _ => ⟨page, hpage, ?_⟩, fun hnone => absurd hnone hsome⟩
      rw [walkEnd_of_walkPage hpage]
      omega

/-- The answers to a message are safe exactly if each user address in it is zero or has a page. -/
theorem ipc_kmap_safe_iff (mem : Mem) (pgd : Nat) (m : KmapMessage) :
    (∀ p ∈ m.addrs.zip (ipcKmap mem pgd m).2.addrs, p.1 < 2 ^ 47 → KmapSafe mem pgd p.1 p.2) ↔
      ∀ u ∈ m.addrs, u < 2 ^ 47 → u = 0 ∨ walkPage mem u shifts pgd ≠ none := by
  have hzip : m.addrs.zip (ipcKmap mem pgd m).2.addrs = m.addrs.map fun u => (u, ipcKmapAddr mem pgd u) := rfl
  rw [hzip, List.forall_mem_map]
  exact forall₂_congr fun u _ => forall_congr' fun hu => kmapSafe_iff mem pgd hu

/-- A process without pages gets an address in frame 0. -/
theorem ipc_kmap_frame_zero :
    walkPage (fun _ => 0) 0x1234 shifts (virtual 1) = none ∧
      ipcKmap (fun _ => 0) (virtual 1) ⟨0x1234, 0, 0⟩ = (0, ⟨virtual 0 + 0x234, 0, 0⟩) ∧
      ¬ KmapSafe (fun _ => 0) (virtual 1) 0x1234 (virtual 0 + 0x234) := by
  have hnone : walkPage (fun _ => 0) 0x1234 shifts (virtual 1) = none := by decide +kernel
  refine ⟨hnone, by decide, fun hsafe => ?_⟩
  obtain ⟨page, hpage, -⟩ := hsafe.mapped (by decide)
  rw [hnone] at hpage
  cases hpage

/-! ## `free_proc_mm` -/

theorem Grown.mem_postorder {t : Radix Nat} {f : Nat} (h : Grown memMap nr P s (emptyTree root) s' t) :
    f ∈ t.postorder slots 4 [] ↔ ∃ π, t π = some f ∧ emptyTree root π = none := by
  constructor
  · intro hf
    obtain ⟨i, ρ, hρ⟩ := Radix.exists_of_mem_postorder hf
    refine ⟨ρ ++ [i], hρ, ?_⟩
    cases ρ <;> rfl
  · rintro ⟨π, hf, hn⟩
    cases π with
    | nil => cases hn
    | cons i π =>
      refine h.space.ok.mem_postorder (ρ := i :: π) (by simpa using hf) (List.cons_ne_nil i π) ?_
      exact (h.space.ok.closed i π f hf).2.2

theorem Grown.exists_obtained {t : Radix Nat} (h : Grown memMap nr P s (emptyTree root) s' t) :
    ∃ obtained : List Nat, s'.alloc.live = obtained.map (·, 0) ++ s.alloc.live ∧ (t.postorder slots 4 []).Perm obtained ∧
      ∀ l ∈ s.alloc.live, l.1 ∉ obtained := by
  obtain ⟨obtained, hlive, hmem⟩ := h.live
  have hnodup := h.inv.nodup
  rw [hlive, List.map_append, List.map_map, List.nodup_append] at hnodup
  obtain ⟨hobtained, -, hdisjoint⟩ := hnodup
  have hid : obtained.map (Prod.fst ∘ fun f => (f, 0)) = obtained := List.map_id obtained
  rw [hid] at hobtained hdisjoint
  refine ⟨obtained, hlive, ?_, fun l hl hl' => hdisjoint _ hl' _ (List.mem_map_of_mem hl) rfl⟩
  refine (List.perm_ext_iff_of_nodup h.space.ok.nodup_postorder hobtained).mpr fun f => ?_
  rw [h.mem_postorder, hmem]

/-- `free_proc_mm` hands each frame that `map_page` has obtained to `free_page` once and no other page, zeroes the lower
half, changes nothing else, and the free lists are as before the calls. -/
theorem free_proc_mm_returns {memMap : Nat → Page} {nr root : Nat} {s s' s'' : Machine} {us vs freed : List Nat}
    (hs : EmptyLower s root) (halloc : BuddySys.Reach memMap nr s.alloc) (hnr : nr < 2 ^ 32)
    (hus : ∀ u ∈ us, u < 2 ^ 47) (h : mapPages (virtual root) s us = some (vs, s'))
    (hfree : freeProcMm s' (virtual root) = (freed, s'')) :
    (∃ obtained : List Nat, s'.alloc.live = obtained.map (·, 0) ++ s.alloc.live ∧ freed.Perm (obtained.map virtual)) ∧
    freed.Nodup ∧
    (∀ b, s''.mem b = if virtual root ≤ b ∧ b < virtual root + 8 * (prePageEntry / 2) then 0 else s'.mem b) ∧
    (∀ i < prePageEntry / 2, entry s''.mem (virtual root) i = 0) ∧
    (∀ i, prePageEntry / 2 ≤ i → i < prePageEntry → entry s''.mem (virtual root) i = entry s.mem (virtual root) i) ∧
    (∀ k, s''.alloc.buddy.block k = s.alloc.buddy.block k) ∧
    ∀ y, s''.alloc.Allocated y ↔ s.alloc.Allocated y := by
  obtain ⟨t, hgrown, hroot, -, -⟩ := hs.exists_grown halloc hnr hus h
  obtain ⟨obtained, hlive, hperm, hold⟩ := hgrown.exists_obtained
  rw [hgrown.space.freeProcMm_eq hroot] at hfree
  cases hfree
  have hnodup : (t.postorder slots 4 []).Nodup := hgrown.space.ok.nodup_postorder
  obtain ⟨hinv, hfreed⟩ := hgrown.inv.freeFrames hnodup fun f hf => by
    rw [hlive]
    exact List.mem_append_left _ (List.mem_map_of_mem (hperm.mem_iff.mp hf))
  -- what is live now was live before the calls
  have hsame : ∀ l, l ∈ (freeFrames ([], s'.alloc) (t.postorder slots 4 [])).2.live ↔ l ∈ s.alloc.live := by
    intro l
    rw [hfreed, hlive, List.mem_append, List.mem_map, hperm.mem_iff]
    constructor
    · rintro ⟨⟨f, hf, rfl⟩ | hl, hn⟩
      · exact absurd hf hn
      · exact hl
    · exact fun hl => ⟨Or.inr hl, hold l hl⟩
  have hallocated : ∀ y, (freeFrames ([], s'.alloc) (t.postorder slots 4 [])).2.Allocated y ↔ s.alloc.Allocated y := by
    intro y
    simp only [BuddySys.Allocated, hsame]
  refine ⟨⟨obtained, hlive, hperm.map virtual⟩, hnodup.map fun _ _ => virtual_injective, fun b => rfl, fun i hi => ?_,
    fun i hlo hi => ?_, fun k => congrFun (hinv.block_eq halloc.inv hallocated) k, hallocated⟩
  · refine Mem.load_eq_zero fun b hb hb' => if_pos ?_
    have hi' : i < 256 := hi
    simp only [pageSize]
    omega
  · have hlo' : 256 ≤ i := hlo
    rw [← hgrown.upper_eq (hs.space halloc.inv) rfl hlo hi]
    unfold entry
    rw [Mem.load_write_of_disjoint (by simp only [pageSize]; omega)]

theorem free_proc_mm_returns_threePages : ∃ vs s',
    mapPages (virtual 0) eightFramesMachine [0, 0x2000, 0x1000] = some (vs, s') ∧
      (freeProcMm s' (virtual 0)).1.Nodup ∧
      ∀ k, (freeProcMm s' (virtual 0)).2.alloc.buddy.block k = (buddySystemInit firstReserved 8).block k := by
  obtain ⟨s', h⟩ := eightFramesMachine_mapPages
  obtain ⟨-, hnodup, -, -, -, hblock, -⟩ := free_proc_mm_returns eightFramesMachine_empty eightFramesMachine_reach
    (by decide) (by decide) h Prod.mk.eta.symm
  exact ⟨_, s', h, hnodup, hblock⟩

end FengOS.Mm
