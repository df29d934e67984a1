import FengOS.Mm.Lemmas.Copy
import Mathlib.Data.List.Dedup

/-!
# How many pages a copy takes
-/

namespace FengOS.Mm

open FengOS.Lib

variable {memMap : Nat → Page} {nr root cur : Nat} {s s₀ s₁ s' : Machine} {t t' : Radix Nat} {π : List Nat}
  {f i n u v y : Nat} {P : Nat → Prop} {T : List (List Nat)} {rs : List (Nat × Nat)}

/-! ## The nodes of a copy -/

def pagesOf (range : Nat × Nat) : List Nat := (List.range ((range.2 - range.1) / pageSize)).map (range.1 + · * pageSize)

def nodesOf (u : Nat) : List (List Nat) := [(path u).drop 3, (path u).drop 2, (path u).drop 1, path u]

def treeNodes (ranges : List (Nat × Nat)) : List (List Nat) := ((ranges.flatMap pagesOf).flatMap nodesOf).dedup

theorem mem_nodesOf : π ∈ nodesOf u ↔ π ≠ [] ∧ π <:+ path u := by
  constructor
  · intro h
    simp only [nodesOf, List.mem_cons, List.not_mem_nil, or_false] at h
    rcases h with rfl | rfl | rfl | rfl
    · exact ⟨nofun, List.drop_suffix _ _⟩
    · exact ⟨nofun, List.drop_suffix _ _⟩
    · exact ⟨nofun, List.drop_suffix _ _⟩
    · exact ⟨nofun, List.suffix_rfl⟩
  · rintro ⟨hne, h⟩
    simp only [path, List.suffix_cons_iff, List.suffix_nil] at h
    rcases h with rfl | rfl | rfl | rfl | rfl
    · simp [nodesOf, path]
    · simp [nodesOf, path]
    · simp [nodesOf, path]
    · simp [nodesOf, path]
    · exact absurd rfl hne

theorem mem_treeNodes : π ∈ treeNodes rs ↔ ∃ r ∈ rs, ∃ u ∈ pagesOf r, π ∈ nodesOf u := by
  simp only [treeNodes, List.mem_dedup, List.mem_flatMap]
  constructor
  · rintro ⟨u, ⟨r, hr, hu⟩, hπ⟩
    exact ⟨r, hr, u, hu, hπ⟩
  · rintro ⟨r, hr, u, hu, hπ⟩
    exact ⟨u, ⟨r, hr, hu⟩, hπ⟩

theorem pageCount_cons (r : Nat × Nat) (rs : List (Nat × Nat)) :
    pageCount (r :: rs) = (r.2 - r.1) / pageSize + pageCount rs := by
  simp [pageCount]

theorem le_pageCount {r : Nat × Nat} (h : r ∈ rs) : (r.2 - r.1) / pageSize ≤ pageCount rs := by
  induction rs with
  | nil => cases h
  | cons r' rs ih =>
    rw [pageCount_cons]
    rcases List.mem_cons.mp h with rfl | h
    · exact Nat.le_add_right _ _
    · exact Nat.le_add_left_of_le (ih h)

theorem length_treeNodes_le (rs : List (Nat × Nat)) : (treeNodes rs).length ≤ 4 * pageCount rs := by
  have hlength : ((rs.flatMap pagesOf).flatMap nodesOf).length = 4 * pageCount rs := by
    induction rs with
    | nil => rfl
    | cons r rs ih =>
      have hone : ∀ us : List Nat, (us.flatMap nodesOf).length = 4 * us.length := by
        intro us
        simp [List.length_flatMap, nodesOf, Nat.mul_comm]
      rw [List.flatMap_cons, List.flatMap_append, List.length_append, ih, hone, pageCount_cons]
      simp only [pagesOf, List.length_map, List.length_range]
      omega
  rw [← hlength]
  exact (List.dedup_sublist _).length_le

theorem treeNodes_ne_nil (h : π ∈ treeNodes rs) : π ≠ [] := by
  obtain ⟨_, _, _, _, hπ⟩ := mem_treeNodes.mp h
  exact (mem_nodesOf.mp hπ).1

/-! ## The copy -/

structure Spent (memMap : Nat → Page) (nr : Nat) (s₀ s : Machine) (t : Radix Nat) (T : List (List Nat)) : Prop where
  ok : t.Ok slots 4
  nodes : ∀ π f, t π = some f → π = [] ∨ π ∈ T
  used : ∀ y, s₀.alloc.Avail memMap nr y → s.alloc.Avail memMap nr y ∨ ∃ π, t π = some y

theorem Spent.grown (h : Spent memMap nr s₀ s t T) (hT : ∀ π ∈ nodesOf u, π ∈ T)
    (hg : Grown memMap nr (fun π => π ≠ [] ∧ π <:+ path u) s t s' t') : Spent memMap nr s₀ s' t' T := by
  constructor
  case ok => exact hg.space.ok
  case nodes =>
    intro π f hf
    rcases hg.new π f hf with hf | ⟨hπ, -, -⟩
    · exact h.nodes π f hf
    · exact .inr (hT π (mem_nodesOf.mpr hπ))
  case used =>
    intro y hy
    by_cases hin : ∃ π, t' π = some y
    · exact .inr hin
    · rcases h.used y hy with hav | ⟨π, hπ⟩
      · exact .inl ((hg.avail y).mpr ⟨hav, fun π hπ => hin ⟨π, hπ⟩⟩)
      · exact absurd ⟨π, hg.old π y hπ⟩ hin

def Short (memMap : Nat → Page) (nr : Nat) (s₀ : Machine) (T : List (List Nat)) : Prop :=
  ∃ s t, Spent memMap nr s₀ s t T ∧ (∀ y, ¬ s.alloc.Avail memMap nr y) ∧ ∃ π ∈ T, t π = none

structure Copying (memMap : Nat → Page) (nr : Nat) (s₀ : Machine) (cur root : Nat) (P : Nat → Prop) (s : Machine)
    (t : Radix Nat) (T : List (List Nat)) : Prop where
  copied : Copied memMap nr s₀ cur root P s t
  spent : Spent memMap nr s₀ s t T

theorem Copied.spent_init (hinv : s₀.alloc.Inv memMap nr) (hzero : getZeroedPage s₀ = some (virtual root, s₁))
    (T : List (List Nat)) {m : Mem} (h : Copied memMap nr s₀ cur root P { s₁ with mem := m } (emptyTree root)) :
    Spent memMap nr s₀ { s₁ with mem := m } (emptyTree root) T := by
  obtain ⟨g, hg, -, -, -, -, havail⟩ := getZeroedPage_ok hinv hzero
  obtain rfl := virtual_injective hg
  constructor
  case ok => exact h.space.ok
  case nodes =>
    intro π f hf
    cases π with
    | nil => exact .inl rfl
    | cons i π => cases hf
  case used =>
    intro y hy
    by_cases hne : y = root
    · subst hne
      exact .inr ⟨[], rfl⟩
    · exact .inl ((havail y).mpr ⟨hy, hne⟩)

theorem pagesOf_cons (hne : u ≠ v) (hr : MappedRange s₀.mem cur (u, v)) :
    pagesOf (u, v) = u :: pagesOf (u + pageSize, v) := by
  obtain ⟨hstart, hlast, hle, -, -⟩ := hr
  have hk : (v - u) / pageSize = (v - (u + pageSize)) / pageSize + 1 := by
    simp only [pageSize] at *
    omega
  simp only [pagesOf, hk, List.range_succ_eq_map, List.map_cons, List.map_map, Nat.zero_mul, Nat.add_zero]
  refine congrArg (u :: ·) (List.map_congr_left fun i _ => ?_)
  simp only [Function.comp_apply, Nat.succ_mul]
  omega

section Copy

variable (hinv : s₀.alloc.Inv memMap nr) (hnr : nr ≤ maxFrame) (hback : Backed s₀ cur)

include hinv hnr hback

theorem Copying.copyRange (h : Copying memMap nr s₀ cur root P s t T) (hrange : MappedRange s₀.mem cur (u, v))
    (hT : ∀ a ∈ pagesOf (u, v), ∀ π ∈ nodesOf a, π ∈ T) (hn : (v - u) / pageSize < n) :
    (∃ s' t', Mm.copyRange cur (virtual root) n s u v = some s' ∧
      Copying memMap nr s₀ cur root (fun a => P a ∨ u ≤ a ∧ a < v) s' t' T) ∨
    Mm.copyRange cur (virtual root) n s u v = none ∧ Short memMap nr s₀ T := by
  induction n generalizing s t u P with
  | zero => exact absurd hn (Nat.not_lt_zero _)
  | succ n ih =>
    rcases eq_or_ne u v with rfl | hne
    · refine .inl ⟨s, t, by rw [Mm.copyRange, if_pos rfl], ?_, h.spent⟩
      exact h.copied.congr fun a _ => (or_iff_left fun ha => Nat.not_lt.mpr ha.1 ha.2).symm
    · obtain ⟨hnext, hu, htail, hpage, hunion⟩ := hrange.tail hne
      rw [pagesOf_cons hne hrange] at hT
      obtain ⟨hTu, hT'⟩ := List.forall_mem_cons.mp hT
      have hn' : (v - (u + pageSize)) / pageSize < n := by
        have hle := htail.le
        simp only [pageSize] at hn hle ⊢
        omega
      rw [copyRange_succ hne]
      cases hmap : mapPage s (virtual root) u with
      | none =>
        obtain ⟨s₁, t₁, hgrown, hempty, hnode⟩ := h.copied.space.mapPage_none h.copied.inv hnr h.copied.root hu hmap
        obtain ⟨π, hπ, hnone⟩ := hnode
        exact .inr ⟨rfl, s₁, t₁, h.spent.grown hTu hgrown, hempty, π, hTu π (mem_nodesOf.mpr hπ), hnone⟩
      | some r =>
        obtain ⟨w, s₁⟩ := r
        obtain ⟨m, t₁, hmemcpy, hgrown, hcopied⟩ := h.copied.page hinv hnr (fun a ha => hback a (by omega)) hu
          hrange.start hpage hmap
        have hspent : Spent memMap nr s₀ { s₁ with mem := m } t₁ T := by
          obtain ⟨hok, hnodes, hused⟩ := h.spent.grown hTu hgrown
          exact ⟨hok, hnodes, hused⟩
        rw [Option.bind_some, hmemcpy, Option.bind_some, hnext]
        rcases ih ⟨hcopied, hspent⟩ htail hT' hn' with ⟨s', t', hcopy, hcopying⟩ | hshort
        · refine .inl ⟨s', t', hcopy, hcopying.copied.congr fun a _ => ?_, hcopying.spent⟩
          rw [or_assoc, hunion]
        · exact .inr hshort

theorem Copying.ranges (h : Copying memMap nr s₀ cur root P s t T) (hrs : ∀ r ∈ rs, MappedRange s₀.mem cur r)
    (hT : ∀ r ∈ rs, ∀ a ∈ pagesOf r, ∀ π ∈ nodesOf a, π ∈ T) (hn : ∀ r ∈ rs, (r.2 - r.1) / pageSize < n) :
    (∃ s' t', rs.foldlM (fun s range => Mm.copyRange cur (virtual root) n s range.1 range.2) s = some s' ∧
      Copying memMap nr s₀ cur root (fun a => P a ∨ ∃ r ∈ rs, r.1 ≤ a ∧ a < r.2) s' t' T) ∨
    rs.foldlM (fun s range => Mm.copyRange cur (virtual root) n s range.1 range.2) s = none ∧ Short memMap nr s₀ T := by
  induction rs generalizing s t P with
  | nil => exact .inl ⟨s, t, rfl, h.copied.congr fun a _ => by simp, h.spent⟩
  | cons r rs ih =>
    obtain ⟨hr, hrs'⟩ := List.forall_mem_cons.mp hrs
    obtain ⟨hTr, hT'⟩ := List.forall_mem_cons.mp hT
    obtain ⟨hnr', hn'⟩ := List.forall_mem_cons.mp hn
    rw [List.foldlM_cons]
    rcases h.copyRange hinv hnr hback hr hTr hnr' with ⟨s₁, t₁, hcopy, h₁⟩ | ⟨hcopy, hshort⟩
    · rw [hcopy]
      rcases ih h₁ hrs' hT' hn' with ⟨s', t', hcopy', h'⟩ | hshort
      · exact .inl ⟨s', t', hcopy', h'.copied.congr fun a _ => by simp [or_assoc], h'.spent⟩
      · exact .inr hshort
    · rw [hcopy]
      exact .inr ⟨rfl, hshort⟩

end Copy

/-! ## Counting -/

theorem mem_freeList {alloc : BuddySys} (hinv : alloc.Inv memMap nr) :
    y ∈ (List.range nr).filter (fun y => alloc.FreePage y) ↔ alloc.Avail memMap nr y := by
  simp only [List.mem_filter, List.mem_range, decide_eq_true_eq, hinv.freePage_iff, and_iff_right_iff_imp]
  exact fun h => h.lt_nr

theorem Short.lt (h : Short memMap nr s₀ T) (hinv : s₀.alloc.Inv memMap nr) (hT : T.Nodup) :
    s₀.alloc.freeCount nr < T.length + 1 := by
  obtain ⟨s, t, hspent, hempty, ρ, hρ, hnone⟩ := h
  have hsub : (List.range nr).filter (fun y => s₀.alloc.FreePage y) ⊆ ([] :: T.erase ρ).filterMap t := by
    intro y hy
    rcases hspent.used y ((mem_freeList hinv).mp hy) with hav | ⟨π, hπ⟩
    · exact absurd hav (hempty y)
    · refine List.mem_filterMap.mpr ⟨π, ?_, hπ⟩
      rcases hspent.nodes π y hπ with rfl | hmem
      · exact List.mem_cons_self ..
      · refine List.mem_cons_of_mem _ (hT.mem_erase_iff.mpr ⟨?_, hmem⟩)
        rintro rfl
        cases hnone.symm.trans hπ
  have hle := (List.nodup_range.filter _).length_le_of_subset hsub
  have hfilter := List.length_filterMap_le t ([] :: T.erase ρ)
  rw [List.length_cons, List.length_erase_of_mem hρ] at hfilter
  have hpos := List.length_pos_of_mem hρ
  unfold BuddySys.freeCount
  omega

theorem Copied.treeNodes_le (h : Copied memMap nr s₀ cur root P s t) (hinv : s₀.alloc.Inv memMap nr)
    (hP : ∀ r ∈ rs, ∀ a ∈ pagesOf r, a < 2 ^ 47 ∧ P a) : (treeNodes rs).length + 1 ≤ s₀.alloc.freeCount nr := by
  have hnode : ∀ π ∈ [] :: treeNodes rs, ∃ f, t π = some f := by
    intro π hπ
    rcases List.mem_cons.mp hπ with rfl | hπ
    · exact ⟨root, h.root⟩
    · obtain ⟨r, hr, a, ha, hπ⟩ := mem_treeNodes.mp hπ
      obtain ⟨hlt, hPa⟩ := hP r hr a ha
      obtain ⟨f, hf⟩ := (h.pages a hlt).mpr hPa
      obtain ⟨-, ρ, hpath⟩ := mem_nodesOf.mp hπ
      exact h.space.ok.exists_of_append ⟨f, hpath ▸ hf⟩
  have hnodup : ([] :: treeNodes rs).Nodup :=
    List.nodup_cons.mpr ⟨fun hmem => treeNodes_ne_nil hmem rfl, List.nodup_dedup _⟩
  have hframes : (([] :: treeNodes rs).map fun π => (t π).getD 0).Nodup := by
    refine List.Nodup.map_on (fun π hπ ρ hρ he => ?_) hnodup
    obtain ⟨f, hf⟩ := hnode π hπ
    obtain ⟨g, hg⟩ := hnode ρ hρ
    rw [hf, hg] at he
    exact h.space.ok.inj π ρ f hf (hg.trans (congrArg some he.symm))
  have hsub : (([] :: treeNodes rs).map fun π => (t π).getD 0) ⊆
      (List.range nr).filter fun y => s₀.alloc.FreePage y := by
    intro y hy
    obtain ⟨π, hπ, rfl⟩ := List.mem_map.mp hy
    obtain ⟨f, hf⟩ := hnode π hπ
    rw [mem_freeList hinv, hf]
    exact h.fresh π f hf
  have hle := hframes.length_le_of_subset hsub
  rwa [List.length_map, List.length_cons] at hle

end FengOS.Mm
