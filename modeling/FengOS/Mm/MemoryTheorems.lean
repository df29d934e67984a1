import FengOS.Mm.Memory
import FengOS.Mm.SlabTheorems
import Mathlib.Algebra.Order.BigOperators.Group.List
import Mathlib.Order.Interval.Finset.Nat

/-!
# What `mm_init` hands out
-/

namespace FengOS.Mm

open FengOS.Lib

variable {k : KInfo} {mem memMap : Nat → Page} {nr page : Nat} {s s' : SlabSys}

/-! ## The reserved pages -/

theorem eachPage_apply (f : Page → Page) (n i : Nat) (memMap : Nat → Page) (y : Nat) :
    eachPage f n i memMap y = if i ≤ y ∧ y < i + n then f (memMap y) else memMap y := by
  induction n generalizing i memMap with
  | zero => rw [eachPage, if_neg (by omega)]
  | succ n ih =>
    rw [eachPage, ih]
    rcases eq_or_ne y i with rfl | hne
    · rw [if_neg (by omega), if_pos (by omega), Function.update_self]
    · rw [Function.update_of_ne hne]
      congr 1
      exact propext (by omega)

theorem setupPagesFlags_reserve (memMap : Nat → Page) (first last y : Nat) :
    (setupPagesFlags memMap first last y).reserve = true ↔ (memMap y).reserve = true ∨ (first ≤ y ∧ y ≤ last) := by
  rw [setupPagesFlags, eachPage_apply]
  split <;> simp <;> omega

theorem initPages_reserve (h : page < nr) : (initPages nr mem page).reserve = true ↔ page = 0 := by
  rw [initPages, eachPage_apply, eachPage_apply, if_pos (by omega : 0 ≤ page ∧ page < 0 + nr)]
  split <;> simp <;> omega

theorem foldl_setupPagesFlags_reserve (ranges : List (Nat × Nat)) (memMap : Nat → Page) (y : Nat) :
    (ranges.foldl (fun memMap range => setupPagesFlags memMap range.1 range.2) memMap y).reserve = true ↔
      (memMap y).reserve = true ∨ ∃ range ∈ ranges, range.1 ≤ y ∧ y ≤ range.2 := by
  induction ranges generalizing memMap with
  | nil => simp
  | cons range ranges ih =>
    rw [List.foldl_cons, ih, setupPagesFlags_reserve, or_assoc]
    simp only [List.mem_cons, exists_eq_or_imp]

theorem cut_covers (h : page < nr) (range : Nat × Nat) :
    (∃ r ∈ cut nr range, r.1 ≤ page ∧ page ≤ r.2) ↔ range.1 ≤ page ∧ page ≤ range.2 := by
  unfold cut
  split
  · simp
    omega
  · simp only [Option.mem_some_iff, exists_eq_left']
    split <;> omega

theorem cut_lt {range r : Nat × Nat} (h : r ∈ cut nr range) : r.2 < nr := by
  unfold cut at h
  split at h
  · cases h
  · obtain rfl := Option.some.inj h
    dsimp only
    split <;> omega

theorem mem_reservedRanges {range : Nat × Nat} : range ∈ k.reservedRanges nr ↔
    (∃ z ∈ k.mmap, z.type ≠ memoryAvailable ∧ range ∈ cut nr z.pages) ∨ range ∈ cut nr mmioPages ∨
      range = (0, k.lastPage) := by
  simp only [KInfo.reservedRanges, List.mem_append, List.mem_filterMap, Option.mem_toList, List.mem_singleton, or_assoc]
  refine or_congr (exists_congr fun z => and_congr_right fun _ => ?_) Iff.rfl
  split <;> simp_all

theorem bootMap_reserve (mem : Nat → Page) (h : page < k.nrPages) : (k.bootMap mem page).reserve = true ↔
    (∃ z ∈ k.mmap, z.type ≠ memoryAvailable ∧ z.pages.1 ≤ page ∧ page ≤ z.pages.2) ∨
      (mmioPages.1 ≤ page ∧ page ≤ mmioPages.2) ∨ page ≤ k.lastPage := by
  rw [KInfo.bootMap, setupPagesReserved, foldl_setupPagesFlags_reserve, initPages_reserve h]
  constructor
  · rintro (rfl | ⟨range, hrange, hpage⟩)
    · exact Or.inr (Or.inr (Nat.zero_le _))
    · rcases mem_reservedRanges.mp hrange with ⟨z, hz, htype, hcut⟩ | hcut | rfl
      · exact Or.inl ⟨z, hz, htype, (cut_covers h _).mp ⟨range, hcut, hpage⟩⟩
      · exact Or.inr (Or.inl ((cut_covers h _).mp ⟨range, hcut, hpage⟩))
      · exact Or.inr (Or.inr hpage.2)
  · rintro (⟨z, hz, htype, hpage⟩ | hpage | hpage)
    · obtain ⟨range, hcut, hpage⟩ := (cut_covers h _).mpr hpage
      exact Or.inr ⟨range, mem_reservedRanges.mpr (Or.inl ⟨z, hz, htype, hcut⟩), hpage⟩
    · obtain ⟨range, hcut, hpage⟩ := (cut_covers h _).mpr hpage
      exact Or.inr ⟨range, mem_reservedRanges.mpr (Or.inr (Or.inl hcut)), hpage⟩
    · exact Or.inr ⟨_, mem_reservedRanges.mpr (Or.inr (Or.inr rfl)), Nat.zero_le _, hpage⟩

theorem usable_bootMap (mem : Nat → Page) : Usable (k.bootMap mem) k.nrPages page ↔ k.Unclaimed page := by
  constructor
  · rintro ⟨hlt, hfree⟩
    have hnot := mt (bootMap_reserve mem hlt).mpr (by simp [hfree])
    obtain ⟨hzones, hmmio, hbehind⟩ := by simpa only [not_or] using hnot
    exact ⟨hlt, not_le.mp hbehind, hmmio, fun z hz htype h => hzones ⟨z, hz, htype, h⟩⟩
  · intro h
    refine ⟨h.memory, Bool.eq_false_of_not_eq_true fun hr => ?_⟩
    rcases (bootMap_reserve mem h.memory).mp hr with ⟨z, hz, htype, hpage⟩ | hpage | hpage
    · exact h.zones z hz htype hpage
    · exact h.mmio hpage
    · exact absurd h.behind (not_lt.mpr hpage)

theorem written_lt_iff : (∀ range ∈ k.reservedRanges nr, ∀ i, range.1 ≤ i → i ≤ range.2 → i < nr) ↔ k.lastPage < nr := by
  constructor
  · intro h
    exact h _ (mem_reservedRanges.mpr (Or.inr (Or.inr rfl))) _ (Nat.zero_le _) le_rfl
  · intro h range hrange i _ hi
    rcases mem_reservedRanges.mp hrange with ⟨z, -, -, hcut⟩ | hcut | rfl
    · exact hi.trans_lt (cut_lt hcut)
    · exact hi.trans_lt (cut_lt hcut)
    · exact hi.trans_lt h

/-! ## The caches of `kmalloc` -/

theorem kmemCacheCreate_isSome {size : Nat} (h : kmemAlign size ≠ 0) (s : SlabSys) (flags : Nat) :
    ∃ r s', kmemCacheCreate s size flags = some (r, s') := by
  rw [kmemCacheCreate]
  split
  · exact ⟨_, _, rfl⟩
  · rcases s.mem.alloc 0 with ⟨_ | c, m⟩
    · exact ⟨_, _, rfl⟩
    · dsimp only
      rw [if_neg h]
      split
      · exact ⟨_, _, rfl⟩
      · split
        · exact ⟨_, _, rfl⟩
        · exact ⟨_, _, rfl⟩

theorem foldlM_kmemCacheCreate {Q : Nat → SlabSys → Prop}
    (hstep : ∀ n s size r s', Q n s → kmemCacheCreate s size 0 = some (r, s') → Q (n + 1) s') (sizes : List Nat)
    (hsizes : ∀ size ∈ sizes, kmemAlign size ≠ 0) (n : Nat) (h : Q n s) :
    ∃ s', sizes.foldlM (fun s size => (kmemCacheCreate s size 0).map Prod.snd) s = some s' ∧ Q (n + sizes.length) s' := by
  induction sizes generalizing s n with
  | nil => exact ⟨s, rfl, h⟩
  | cons size sizes ih =>
    obtain ⟨r, s', he⟩ := kmemCacheCreate_isSome (hsizes size List.mem_cons_self) s 0
    obtain ⟨s'', hrun, hQ⟩ :=
      ih (fun size hmem => hsizes size (List.mem_cons_of_mem _ hmem)) (n + 1) (hstep _ _ _ _ _ h he)
    refine ⟨s'', ?_, ?_⟩
    · rw [List.foldlM_cons, he]
      exact hrun
    · rwa [List.length_cons, ← Nat.add_assoc, Nat.add_right_comm]

def BuddySys.livePages (s : BuddySys) : Nat := (s.live.map fun l => 2 ^ l.2).sum

theorem BuddySys.livePages_alloc (s : BuddySys) (order : Nat) : (s.alloc order).2.livePages ≤ s.livePages + 2 ^ order := by
  rw [BuddySys.alloc]
  split
  · exact Nat.le_add_right _ _
  · rw [BuddySys.livePages, List.map_cons, List.sum_cons, Nat.add_comm]
    exact le_rfl

theorem BuddySys.livePages_free (s : BuddySys) (addr order : Nat) : (s.free addr order).livePages ≤ s.livePages :=
  (List.filter_sublist.map _).sum_le_sum fun _ _ => Nat.zero_le _

theorem livePages_cacheGrow {c : Nat} {r : Bool} (h : cacheGrow s c = (r, s')) :
    s'.mem.livePages ≤ s.mem.livePages + 2 ^ (s.cache c).gfporder := by
  have halloc := s.mem.livePages_alloc (s.cache c).gfporder
  rw [cacheGrow, kmemGetpages] at h
  rcases hm : s.mem.alloc (s.cache c).gfporder with ⟨_ | p, m⟩
  all_goals
    rw [hm] at h halloc
    obtain ⟨-, rfl⟩ := Prod.mk.inj h
    exact halloc

theorem livePages_kmemCacheCreate {size flags : Nat} {r : Option Nat} (h : kmemCacheCreate s size flags = some (r, s')) :
    s'.mem.livePages ≤ s.mem.livePages + 129 := by
  have halloc := s.mem.livePages_alloc 0
  rw [kmemCacheCreate] at h
  split at h
  · cases h
    omega
  · rcases hm : s.mem.alloc 0 with ⟨_ | c, m⟩ <;> rw [hm] at h halloc <;> dsimp only at h halloc
    · cases h
      exact halloc.trans (by omega)
    · split at h
      · cases h
        exact (m.livePages_free _ _).trans (by omega)
      · split at h
        · cases h
        · rename_i horder _
          generalize findOrder (kmemAlign size) maxOrder 0 = order at *
          have hslab : 2 ^ order ≤ 2 ^ 7 := Nat.pow_le_pow_right (by decide) (Nat.le_of_lt_succ (Nat.lt_of_not_le horder))
          split at h
          all_goals
            rename_i t hgrow
            have hpages := livePages_cacheGrow hgrow
            simp only [SlabSys.setCache, Function.update_self] at hpages
            cases h
          · omega
          · exact (t.mem.livePages_free _ _).trans (by omega)

/-! ## The pages handed out -/

theorem mmInit_pages (k : KInfo) (mem : Nat → Page) : ∃ s, mmInit k mem = some s ∧
    (∀ page, s.mem.FreePage page ∨ s.mem.Allocated page ↔ k.Unclaimed page) ∧ s.mem.livePages ≤ 1419 := by
  let Q (n : Nat) (s : SlabSys) : Prop :=
    s.Inv (k.bootMap mem) k.nrPages False ∧ s.Few ∧ s.mem.livePages ≤ 129 * n
  have hstep : ∀ n s size r s', Q n s → kmemCacheCreate s size 0 = some (r, s') → Q (n + 1) s' := by
    rintro n s size r s' ⟨hinv, hfew, hpages⟩ he
    obtain ⟨hinv', hfew'⟩ := hinv.of_kmemCacheCreate hfew he
    exact ⟨hinv', hfew', by have := livePages_kmemCacheCreate he; omega⟩
  have hinit : Q 0 (SlabSys.init (k.bootMap mem) k.nrPages) :=
    ⟨SlabSys.inv_init _ _ _, by simp [SlabSys.Few, SlabSys.init], le_rfl⟩
  obtain ⟨s, hs, hinv, -, hpages⟩ := foldlM_kmemCacheCreate hstep kmallocSizes (by decide) 0 hinit
  refine ⟨s, hs, fun page => ?_, hpages⟩
  rw [← usable_bootMap mem, hinv.mem.freePage_iff, hinv.mem.avail_iff]
  exact (hinv.mem.partition.cover page).symm

/-! ## The layout -/

theorem foldl_modEnd (modules : List BootModule) (start : Nat) :
    start ≤ modules.foldl (fun last m => if m.modEnd > last then m.modEnd else last) start ∧
      ∀ m ∈ modules, m.modEnd ≤ modules.foldl (fun last m => if m.modEnd > last then m.modEnd else last) start := by
  induction modules generalizing start with
  | nil => simp
  | cons m modules ih =>
    obtain ⟨hstart, hmodules⟩ := ih (if m.modEnd > start then m.modEnd else start)
    rw [List.foldl_cons]
    refine ⟨le_trans ?_ hstart, List.forall_mem_cons.mpr ⟨le_trans ?_ hstart, hmodules⟩⟩ <;> split <;> omega

theorem tablesSize_mod (memsize : Nat) : tablesSize memsize % pageSize = 0 := by
  simp only [tablesSize, ← Nat.add_mul, Nat.mul_mod_left]

theorem tablesSize_ge {memsize : Nat} (h : mmioEnd ≤ memsize) : 0x100000 ≤ tablesSize memsize := by
  have hpages : 0xfffff ≤ memsize / pageSize := (Nat.le_div_iff_mul_le (by decide)).mpr (le_trans (by decide) h)
  have hdiv : 0x100 ≤ upperDiv (memsize / pageSize) prePageEntry := by
    rw [upperDiv]
    exact le_trans ((Nat.le_div_iff_mul_le (by decide)).mpr (le_trans (by decide) hpages)) (Nat.le_add_right _ _)
  calc 0x100000 = 0x100 * pageSize := by decide
    _ ≤ upperDiv (memsize / pageSize) prePageEntry * pageSize := Nat.mul_le_mul_right _ hdiv
    _ ≤ tablesSize memsize := Nat.le_add_left _ _

theorem toPhy_toVir {address : Nat} (h : address < 2 ^ 47) : toPhy (toVir address) = address := by
  rw [toPhy, toVir, kernelOffset]
  omega

theorem toVir_add (address n : Nat) : (toVir address + n) % 2 ^ 64 = toVir (address + n) := by
  rw [toVir, toVir]
  omega

theorem pageUpperAlign_toVir {address : Nat} (h : address + pageSize ≤ 2 ^ 47) :
    ∃ upper, pageUpperAlign (toVir address) = toVir upper ∧ address ≤ upper ∧ upper < address + pageSize ∧
      upper % pageSize = 0 := by
  refine ⟨(address + 4095) / 4096 * 4096, ?_, ?_⟩
  · rw [pageUpperAlign]
    split <;> simp only [toVir, kernelOffset, pageSize] at * <;> omega
  · rw [pageSize] at *
    omega

theorem KInfo.Fits.layout (h : k.Fits) : k.loadedEnd ≤ toPhy k.globalPgdStart ∧
    toPhy k.globalPgdEnd = toPhy k.globalPgdStart + tablesSize k.pageTableSize ∧
    toPhy k.globalPgdEnd ≤ toPhy k.memMapEnd ∧ toPhy k.memMapEnd < 2 ^ 44 := by
  rw [KInfo.Fits] at h
  have htables := tablesSize_mod k.pageTableSize
  obtain ⟨first, hfirst, hle, hlt, hmod⟩ := pageUpperAlign_toVir (show k.loadedEnd + pageSize ≤ 2 ^ 47 by omega)
  have hend : k.globalPgdEnd = toVir (first + tablesSize k.pageTableSize) := by
    rw [KInfo.globalPgdEnd, setupPageTable, KInfo.globalPgdStart, hfirst, toVir_add]
  have hsmall : pageSize ≤ 2 ^ 44 := by decide
  obtain ⟨start, hstart, hle', hlt', hmod'⟩ :=
    pageUpperAlign_toVir (show first + tablesSize k.pageTableSize + pageSize ≤ 2 ^ 47 by omega)
  -- the tables end on a page boundary, so that rounding up adds nothing
  obtain rfl : start = first + tablesSize k.pageTableSize := by
    rw [pageSize] at *
    omega
  have hmap : k.memMapEnd = toVir (first + tablesSize k.pageTableSize + structPageSize * k.nrPages) := by
    rw [KInfo.memMapEnd, KInfo.memMapStart, hend, hstart, toVir_add]
  rw [hend, hmap, KInfo.globalPgdStart, hfirst, toPhy_toVir (by omega), toPhy_toVir (by omega), toPhy_toVir (by omega)]
  omega

theorem KInfo.Fits.apart (h : k.Fits) (hpage : k.Unclaimed page) {range : Nat × Nat} (hrange : range ∈ k.inUse) :
    ¬ Overlaps page range := by
  obtain ⟨hloaded, htables, hmap, hlt⟩ := h.layout
  obtain ⟨hkernel, hmodules⟩ := foldl_modEnd k.modules (toPhy k.kernelEnd)
  have hlow := tablesSize_ge (show mmioEnd ≤ k.pageTableSize by rw [KInfo.pageTableSize]; split <;> omega)
  have hbehind : toPhy k.memMapEnd < page * pageSize := by
    have := hpage.behind
    rw [KInfo.lastPage, Nat.mod_eq_of_lt (by rw [pageSize]; omega)] at this
    exact (Nat.div_lt_iff_lt_mul (by decide)).mp this
  have hend {range : Nat × Nat} (hle : range.2 ≤ toPhy k.memMapEnd) : ¬ Overlaps page range := by
    rw [Overlaps]
    omega
  simp only [KInfo.inUse, List.mem_cons, List.mem_map] at hrange
  rcases hrange with rfl | rfl | rfl | rfl | rfl | ⟨m, hm, rfl⟩
  · exact hend (by omega)
  · exact hend (hkernel.trans (by rw [← KInfo.loadedEnd]; omega))
  · exact hend hmap
  · exact hend le_rfl
  · have := hpage.mmio
    simp only [Overlaps, mmioPages, mmioStart, mmioEnd, pageSize] at *
    omega
  · exact hend ((hmodules m hm).trans (by rw [← KInfo.loadedEnd]; omega))

/-- Exactly when `mem_map` ends before the memory does, the map describes every page behind it, and the layout avoids the
unclaimed pages. -/
theorem hands_out_usable_iff (k : KInfo) : HandsOutUsable k ↔ k.Sound := by
  constructor
  · rintro ⟨husable, hwritten⟩
    obtain ⟨s, hs, hpages⟩ := husable fun _ => ⟨false, false, none⟩
    obtain ⟨s', hs', hmanaged, -⟩ := mmInit_pages k fun _ => ⟨false, false, none⟩
    obtain rfl : s = s' := Option.some.inj (hs.symm.trans hs')
    have hclaim (page : Nat) (h : k.Unclaimed page) := hpages page ((hmanaged page).mpr h)
    exact ⟨written_lt_iff.mp hwritten, fun page h => (hclaim page h).1, Or.inr fun page h => (hclaim page h).2⟩
  · intro h
    refine ⟨fun mem => ?_, written_lt_iff.mpr h.room⟩
    obtain ⟨s, hs, hmanaged, -⟩ := mmInit_pages k mem
    refine ⟨s, hs, fun page hpage => ?_⟩
    have hclaim := (hmanaged page).mp hpage
    refine ⟨h.described page hclaim, fun range hrange => ?_⟩
    rcases h.apart with hfits | hapart
    · exact hfits.apart hclaim hrange
    · exact hapart page hclaim range hrange

def gapInfo : KInfo where
  mmap := [⟨0, 0x4000000, memoryAvailable⟩, ⟨0xc000000, 0x4000000, memoryAvailable⟩]
  modules := []
  kernelStart := kernelOffset + 0x100000
  kernelEnd := kernelOffset + 0x200000

theorem BuddySys.exists_not_allocated {s : BuddySys} {n : Nat} (h : s.livePages < n) (first : Nat) :
    ∃ page, first ≤ page ∧ page < first + n ∧ ¬ s.Allocated page := by
  let pages := (s.live.flatMap fun l => List.range' l.1 (2 ^ l.2)).toFinset
  have hcard : pages.card < (Finset.Ico first (first + n)).card :=
    calc pages.card ≤ (s.live.flatMap fun l => List.range' l.1 (2 ^ l.2)).length := List.toFinset_card_le _
      _ = s.livePages := by simp only [List.length_flatMap, List.length_range', BuddySys.livePages]
      _ < (Finset.Ico first (first + n)).card := by simpa using h
  obtain ⟨page, hpage, hnot⟩ := Finset.exists_mem_notMem_of_card_lt_card hcard
  rw [Finset.mem_Ico] at hpage
  refine ⟨page, hpage.1, hpage.2, fun ⟨l, hl, hin⟩ => hnot ?_⟩
  simp only [pages, List.mem_toFinset, List.mem_flatMap, List.mem_range'_1]
  exact ⟨l, hl, hin⟩

/-- A page of the gap is on a free list after `mm_init`. -/
theorem gap_on_free_list : ∃ s, mmInit gapInfo (fun _ => ⟨false, false, none⟩) = some s ∧
    ∃ page, s.mem.FreePage page ∧ ¬ gapInfo.Available page := by
  obtain ⟨s, hs, hmanaged, hpages⟩ := mmInit_pages gapInfo fun _ => ⟨false, false, none⟩
  obtain ⟨page, hfirst, hlast, hnot⟩ :=
    BuddySys.exists_not_allocated (show s.mem.livePages < 0x8000 by omega) 0x4000
  have hmemory : gapInfo.nrPages = 0x10000 := by decide
  have hmap : gapInfo.lastPage = 3334 := by decide
  have hclaim : gapInfo.Unclaimed page := by
    refine ⟨by omega, by omega, ?_, ?_⟩
    · simp only [mmioPages, mmioStart, pageSize]
      omega
    · simp [gapInfo]
  refine ⟨s, hs, page, ((hmanaged page).mpr hclaim).resolve_right hnot, ?_⟩
  simp only [KInfo.Available, gapInfo, List.mem_cons, List.not_mem_nil, or_false, pageSize]
  rintro ⟨z, rfl | rfl, -, hz⟩ <;> dsimp only at hz <;> omega

end FengOS.Mm
