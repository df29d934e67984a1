import FengOS.Mm.Lemmas.CopyCount
import FengOS.Mm.PageTheorems

/-!
# Forked address spaces
-/

namespace FengOS.Mm

open FengOS.Lib

variable {memMap : Nat → Page} {nr root fuel : Nat} {s s₁ s' : Machine} {t : Radix Nat} {cur mm : ProcMm}
  {a i u v : Nat}

/-! ## `copy_mm` -/

theorem copyMm_eq (h : getZeroedPage s = some (v, s₁)) : copyMm fuel s cur =
    (cur.ranges.foldlM (fun s range => copyRange cur.pgd v fuel s range.1 range.2)
      { s₁ with mem := memset (memcpy s₁.mem v cur.pgd pageSize) v 0 (pageSize / 2) }).bind fun s' =>
        some (some { cur with pgd := v }, s') := by
  rw [copyMm, h]
  rfl

theorem copyMm_ok (hinv : s.alloc.Inv memMap nr) (hnr : nr ≤ maxFrame)
    (htop : ∃ f, cur.pgd = virtual f ∧ ¬ s.alloc.FreePage f)
    (hback : ∀ r ∈ cur.ranges, ∀ a, r.1 ≤ a → a < r.2 → BackedAt s cur.pgd a)
    (hranges : ∀ r ∈ cur.ranges, MappedRange s.mem cur.pgd r) (h : copyMm fuel s cur = some (some mm, s')) :
    ∃ root t, mm = { cur with pgd := virtual root } ∧
      Copied memMap nr s cur.pgd root (fun a => ∃ r ∈ cur.ranges, r.1 ≤ a ∧ a < r.2) s' t := by
  cases hzero : getZeroedPage s with
  | none =>
    rw [copyMm, hzero] at h
    cases h
  | some r =>
    obtain ⟨v, s₁⟩ := r
    rw [copyMm_eq hzero] at h
    obtain ⟨s₂, hcopy, h⟩ := Option.bind_eq_some_iff.mp h
    cases h
    obtain ⟨root, rfl, hinit⟩ := copied_init hinv hnr htop hzero
    obtain ⟨t, hcopied⟩ := hinit.ranges hinv hnr hback hranges hcopy
    exact ⟨root, t, rfl, hcopied.congr fun a _ => by rw [false_or]⟩

theorem copyMm_iff (hinv : s.alloc.Inv memMap nr) (hnr : nr ≤ maxFrame) (hback : Backed s cur.pgd)
    (hranges : ∀ r ∈ cur.ranges, MappedRange s.mem cur.pgd r) (hfuel : pageCount cur.ranges < fuel) :
    (∃ mm s', copyMm fuel s cur = some (some mm, s')) ↔ (treeNodes cur.ranges).length + 1 ≤ s.alloc.freeCount nr := by
  constructor
  · rintro ⟨mm, s', h⟩
    obtain ⟨root, t, -, hcopied⟩ := copyMm_ok hinv hnr hback.exists_top (hback.ranges hranges) hranges h
    refine hcopied.treeNodes_le hinv fun r hr a ha => ?_
    obtain ⟨i, hi, rfl⟩ := List.mem_map.mp ha
    have hle := (hranges r hr).le
    have hbound := (hranges r hr).bound
    have hlt : r.1 + i * pageSize < r.2 := by
      have hi' := List.mem_range.mp hi
      have hpos : 0 < pageSize := by decide
      have hmul := (Nat.le_div_iff_mul_le hpos).mp (Nat.succ_le_of_lt hi')
      rw [Nat.succ_mul] at hmul
      omega
    exact ⟨by omega, r, hr, by omega, hlt⟩
  · intro hfree
    cases hzero : getZeroedPage s with
    | none =>
      have hnil : (List.range nr).filter (fun y => s.alloc.FreePage y) = [] :=
        List.eq_nil_iff_forall_not_mem.mpr fun y hy => getZeroedPage_none hinv hzero y ((mem_freeList hinv).mp hy)
      rw [BuddySys.freeCount, hnil] at hfree
      cases hfree
    | some r =>
      obtain ⟨v, s₁⟩ := r
      obtain ⟨root, rfl, hinit⟩ := copied_init hinv hnr hback.exists_top hzero
      have hspent := Copied.spent_init hinv hzero (treeNodes cur.ranges) hinit
      rcases Copying.ranges hinv hnr hback ⟨hinit, hspent⟩ hranges
        (fun r hr a ha π hπ => mem_treeNodes.mpr ⟨r, hr, a, ha, hπ⟩)
        (fun r hr => Nat.lt_of_le_of_lt (le_pageCount hr) hfuel) with ⟨s', t, hcopy, -⟩ | ⟨-, hshort⟩
      · exact ⟨{ cur with pgd := virtual root }, s', by rw [copyMm_eq hzero, hcopy]; rfl⟩
      · exact absurd (hshort.lt hinv (List.nodup_dedup _)) (Nat.not_lt.mpr hfree)

theorem exists_copyMm (hinv : s.alloc.Inv memMap nr) (hnr : nr ≤ maxFrame) (hback : Backed s cur.pgd)
    (hranges : ∀ r ∈ cur.ranges, MappedRange s.mem cur.pgd r) (hfree : 4 * pageCount cur.ranges + 1 ≤ s.alloc.freeCount nr)
    (hfuel : pageCount cur.ranges < fuel) : ∃ mm s', copyMm fuel s cur = some (some mm, s') := by
  have hnodes := length_treeNodes_le cur.ranges
  exact (copyMm_iff hinv hnr hback hranges hfuel).mpr (by omega)

/-- With four free pages for each page and one more, `copy_mm` gives the child the bytes of the parent in pages of its own
and leaves the parent. -/
theorem copy_mm_isolates {memMap : Nat → Page} {nr : Nat} {s : Machine} {cur : ProcMm}
    (halloc : BuddySys.Reach memMap nr s.alloc) (hnr : nr < 2 ^ 32) (hback : Backed s cur.pgd)
    (hranges : ∀ r ∈ cur.ranges, MappedRange s.mem cur.pgd r) :
    (4 * pageCount cur.ranges + 1 ≤ s.alloc.freeCount nr → ∀ fuel, pageCount cur.ranges < fuel →
      ∃ mm s', copyMm fuel s cur = some (some mm, s')) ∧
    ∀ fuel mm s', copyMm fuel s cur = some (some mm, s') →
      mm = { cur with pgd := mm.pgd } ∧
      (∀ a < 2 ^ 47, (∃ r ∈ cur.ranges, r.1 ≤ a ∧ a < r.2) → ∃ x y, translate s.mem cur.pgd a = some x ∧
        translate s'.mem mm.pgd a = some y ∧ s'.mem y = s.mem x) ∧
      (∀ a < 2 ^ 47, (¬ ∃ r ∈ cur.ranges, r.1 ≤ a ∧ a < r.2) → translate s'.mem mm.pgd a = none) ∧
      (∀ a < 2 ^ 47, ∀ b < 2 ^ 47, ∀ frame ∈ walk s'.mem mm.pgd a, frame ∉ walk s'.mem cur.pgd b) ∧
      ∀ a < 2 ^ 47, translate s'.mem cur.pgd a = translate s.mem cur.pgd a ∧
        walk s'.mem cur.pgd a = walk s.mem cur.pgd a ∧
        ∀ frame ∈ walk s.mem cur.pgd a, ∀ b, frame ≤ b → b < frame + pageSize → s'.mem b = s.mem b := by
  have hinv := halloc.inv
  have hnr' : nr ≤ maxFrame := Nat.le_trans (Nat.le_of_lt hnr) (by decide)
  refine ⟨fun hfree fuel hfuel => exists_copyMm hinv hnr' hback hranges hfree hfuel, fun fuel mm s' h => ?_⟩
  obtain ⟨root, t, rfl, hcopied⟩ := copyMm_ok hinv hnr' hback.exists_top (hback.ranges hranges) hranges h
  have hwalk : ∀ a < 2 ^ 47, walk s'.mem cur.pgd a = walk s.mem cur.pgd a :=
    fun a ha => BackedAt.walk_eq hinv (hback a ha) hcopied.agree ha
  refine ⟨rfl, fun a ha hin => ?_, fun a ha hout => ?_, fun a ha b hb frame hframe hframe' => ?_, fun a ha => ?_⟩
  · obtain ⟨f, hf⟩ := (hcopied.pages a ha).mpr hin
    obtain ⟨r, hr, hlo, hhi⟩ := hin
    obtain ⟨x, hx⟩ := (hranges r hr).mapped a hlo hhi
    refine ⟨x, virtual f + a % 2 ^ 12, hx, ?_, hcopied.bytes a ha f x hf hx⟩
    rw [hcopied.space.translate_eq hcopied.root ha, hf, Option.map_some]
  · rw [hcopied.space.translate_eq hcopied.root ha]
    cases hf : t (path a) with
    | none => rfl
    | some f => exact absurd ((hcopied.pages a ha).mp ⟨f, hf⟩) hout
  · obtain ⟨ρ, g, hg, rfl⟩ := hcopied.space.mem_walk hcopied.root ha hframe
    rw [hwalk b hb] at hframe'
    obtain ⟨f, hgf, hf⟩ := hback b hb _ hframe'
    rw [virtual_injective hgf] at hg
    exact hf (hinv.freePage_iff.mpr (hcopied.fresh ρ f hg))
  · refine ⟨BackedAt.translate_eq hinv (hback a ha) hcopied.agree ha, hwalk a ha, fun frame hframe b hlo hhi => ?_⟩
    obtain ⟨f, rfl, hf⟩ := hback a ha frame hframe
    exact hcopied.agree f (fun hav => hf (hinv.freePage_iff.mpr hav)) b ⟨hlo, hhi⟩

/-! ## A parent made by `map_page` -/

theorem getZeroedPage_reach (h : BuddySys.Reach memMap nr s.alloc) (hzero : getZeroedPage s = some (v, s')) :
    BuddySys.Reach memMap nr s'.alloc := by
  have hok : s.alloc.ok (.alloc 0) := show 0 < maxOrder by decide
  have hstep : BuddySys.Reach memMap nr (s.alloc.alloc 0).2 := .step h hok rfl
  unfold getZeroedPage at hzero
  cases hr : s.alloc.alloc 0 with
  | mk r alloc =>
    rw [hr] at hzero hstep
    cases r with
    | none => cases hzero
    | some page =>
      cases hzero
      exact hstep

theorem nextLevels_reach {is : List Nat} (h : BuddySys.Reach memMap nr s.alloc)
    (hlevels : nextLevels s a is = some (v, s')) : BuddySys.Reach memMap nr s'.alloc := by
  induction is generalizing s a with
  | nil =>
    cases hlevels
    exact h
  | cons i is ih =>
    obtain ⟨⟨w, s₁⟩, hnext, hlevels⟩ := Option.bind_eq_some_iff.mp hlevels
    refine ih ?_ hlevels
    unfold nextTable at hnext
    split at hnext
    · obtain ⟨⟨w, s₁⟩, hzero, hnew⟩ := Option.bind_eq_some_iff.mp hnext
      have hreach : BuddySys.Reach memMap nr s₁.alloc := getZeroedPage_reach h hzero
      cases hnew
      exact hreach
    · obtain ⟨-, rfl⟩ := Prod.mk.inj (Option.some.inj hnext)
      exact h

theorem mapPage_reach (h : BuddySys.Reach memMap nr s.alloc) (hu : u < 2 ^ 47) (hmap : mapPage s a u = some (v, s')) :
    BuddySys.Reach memMap nr s'.alloc := by
  rw [mapPage_eq_nextLevels a hu] at hmap
  exact nextLevels_reach h hmap

theorem mapPages_reach {us vs : List Nat} (h : BuddySys.Reach memMap nr s.alloc) (hus : ∀ u ∈ us, u < 2 ^ 47)
    (hmaps : mapPages a s us = some (vs, s')) : BuddySys.Reach memMap nr s'.alloc := by
  induction us generalizing s vs with
  | nil =>
    cases hmaps
    exact h
  | cons u us ih =>
    rw [mapPages_cons] at hmaps
    obtain ⟨⟨v, s₁⟩, hmap, hmaps⟩ := Option.bind_eq_some_iff.mp hmaps
    obtain ⟨⟨vs', s₂⟩, hmaps', hmaps⟩ := Option.bind_eq_some_iff.mp hmaps
    cases hmaps
    obtain ⟨hu, hus'⟩ := List.forall_mem_cons.mp hus
    exact ih (mapPage_reach h hu hmap) hus' hmaps'

theorem EmptyLower.backed {us vs : List Nat} (hs : EmptyLower s root) (halloc : BuddySys.Reach memMap nr s.alloc)
    (hnr : nr < 2 ^ 32) (hus : ∀ u ∈ us, u < 2 ^ 47) (h : mapPages (virtual root) s us = some (vs, s')) :
    Backed s' (virtual root) := by
  obtain ⟨t, hgrown, hroot, -, -⟩ := hs.exists_grown halloc hnr hus h
  intro a ha frame hframe
  obtain ⟨ρ, g, hg, rfl⟩ := hgrown.space.mem_walk hroot ha hframe
  exact ⟨g, rfl, fun hfree => hgrown.space.held ρ g hg (hgrown.inv.freePage_iff.mp hfree)⟩

/-! ### A parent with one page -/

def sixteenFramesMachine : Machine := ⟨fun _ => 0, BuddySys.init firstReserved 16⟩

/-- The segment lies in the page at `0x1000`; the stack and the heap are empty. -/
def onePageMm : ProcMm := ⟨0, virtual 0, [⟨0x1000, 0x1800⟩], 0x2000, 0x2000, 0x7000, 0x7000⟩

theorem exists_onePage : ∃ s, mapPages (virtual 0) sixteenFramesMachine [0x1000] = some ([virtual 4], s) ∧
    s.alloc.freeCount 16 = 11 ∧ (∃ p, (s.alloc.alloc 1).1 = some p) ∧ BuddySys.Reach firstReserved 16 s.alloc ∧
      Backed s onePageMm.pgd ∧ ∀ r ∈ onePageMm.ranges, MappedRange s.mem onePageMm.pgd r := by
  have hreach : BuddySys.Reach firstReserved 16 sixteenFramesMachine.alloc := .init rfl
  have hempty : EmptyLower sixteenFramesMachine 0 := by
    refine ⟨by decide, fun k p hp hin => ?_, fun i _ => Mem.load_eq_zero fun _ _ _ => rfl⟩
    exact absurd ((hreach.inv.avail_iff 0).mpr ⟨k, p, hp, hin⟩).1.2 (by decide)
  have hexec : (mapPages (virtual 0) sixteenFramesMachine [0x1000]).map
      (fun r => (r.1, r.2.alloc.freeCount 16, (r.2.alloc.alloc 1).1)) = some ([virtual 4], 11, some 6) := by decide
  obtain ⟨⟨vs, s⟩, hmaps, hr⟩ := Option.map_eq_some_iff.mp hexec
  obtain ⟨rfl, hr⟩ := Prod.mk.inj hr
  obtain ⟨hcount, hblock⟩ := Prod.mk.inj hr
  obtain ⟨t, hgrown, hroot, -, hzip⟩ := hempty.exists_grown hreach (by decide) (by decide) hmaps
  obtain ⟨g, -, hg⟩ := hzip 0x1000 (virtual 4) (by decide)
  refine ⟨s, hmaps, hcount, ⟨6, hblock⟩, mapPages_reach hreach (by decide) hmaps,
    hempty.backed hreach (by decide) (by decide) hmaps, ?_⟩
  have hlist : onePageMm.ranges = [(0x1000, 0x2000), (0x7000, 0x7000), (0x2000, 0x2000)] := by decide
  have hone : ∀ u, u % pageSize = 0 → u ≤ 2 ^ 47 → MappedRange s.mem onePageMm.pgd (u, u) := by
    refine fun u hu hbound => ⟨hu, hu, Nat.le_refl u, hbound, fun a hlo hhi => ?_⟩
    exact absurd hhi (Nat.not_lt.mpr hlo)
  rw [hlist]
  simp only [List.forall_mem_cons]
  refine ⟨⟨by decide, by decide, by decide, by decide, fun a hlo hhi => ?_⟩, hone _ (by decide) (by decide),
    hone _ (by decide) (by decide), nofun⟩
  exact ⟨_, (hgrown.space.kmap_of_page hroot (by decide) hg (by simp only at hlo hhi; omega)).2.1⟩

theorem copy_mm_isolates_onePage : ∃ s vs mm s', mapPages (virtual 0) sixteenFramesMachine [0x1000] = some (vs, s) ∧
    copyMm 2 s onePageMm = some (some mm, s') ∧ translate s'.mem mm.pgd 0x1234 ≠ none ∧
    translate s'.mem mm.pgd 0x2000 = none := by
  obtain ⟨s, hmaps, hcount, -, hreach, hback, hranges⟩ := exists_onePage
  obtain ⟨hexists, hcopied⟩ := copy_mm_isolates hreach (by decide) hback hranges
  obtain ⟨mm, s', hcopy⟩ := hexists (by rw [hcount]; decide) 2 (by decide)
  obtain ⟨-, hin, hout, -⟩ := hcopied 2 mm s' hcopy
  obtain ⟨x, y, -, hy, -⟩ := hin 0x1234 (by decide) (by decide)
  exact ⟨s, _, mm, s', hmaps, hcopy, by simp [hy], hout 0x2000 (by decide) (by decide)⟩

end FengOS.Mm
