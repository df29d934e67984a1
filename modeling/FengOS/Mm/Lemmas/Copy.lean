import FengOS.Mm.Copy
import FengOS.Mm.Lemmas.PageTable

/-!
# Copying an address space
-/

namespace FengOS.Mm

open FengOS.Lib

variable {memMap : Nat → Page} {nr root cur : Nat} {s s₀ s₁ s' : Machine} {t t' : Radix Nat} {π is : List Nat}
  {f g i n u v a b x y dst src : Nat} {m m' : Mem} {alloc : BuddySys}

/-! ## Walks -/

theorem follow_congr (hi : i < prePageEntry) (h : ∀ b, v ≤ b → b < v + pageSize → m' b = m b) :
    follow m' v i = follow m v i := by
  have hentry : entry m' v i = entry m v i := by
    have hi' : i < 512 := hi
    refine Mem.load_congr fun b hb hb' => h b (by omega) ?_
    simp only [pageSize]
    omega
  unfold follow
  rw [hentry]

theorem walkAlong_congr (his : ∀ i ∈ is, i < prePageEntry)
    (h : ∀ a ∈ walkAlong m v is, ∀ b, a ≤ b → b < a + pageSize → m' b = m b) : walkAlong m' v is = walkAlong m v is := by
  induction is generalizing v with
  | nil => rfl
  | cons i is ih =>
    obtain ⟨hi, his'⟩ := List.forall_mem_cons.mp his
    rw [walkAlong] at h
    obtain ⟨hv, htail⟩ := List.forall_mem_cons.mp h
    rw [walkAlong, walkAlong, follow_congr hi hv]
    cases hnext : follow m v i with
    | none => rw [Option.elim_none, Option.elim_none]
    | some next =>
      rw [hnext, Option.elim_some] at htail
      rw [Option.elim_some, Option.elim_some, ih his' htail]

theorem walk_index (hu : u < 2 ^ 47) : ∀ i ∈ indices u, i < prePageEntry := by
  have hentry : prePageEntry = 512 := rfl
  simp only [indices, List.forall_mem_cons, hentry]
  exact ⟨by omega, by omega, by omega, by omega, fun _ h => absurd h List.not_mem_nil⟩

theorem foldlM_follow_eq (m : Mem) (v : Nat) (is : List Nat) :
    is.foldlM (follow m) v = (walkAlong m v is)[is.length]? := by
  induction is generalizing v with
  | nil => rfl
  | cons i is ih =>
    rw [List.foldlM_cons, walkAlong, List.length_cons, List.getElem?_cons_succ]
    cases follow m v i with
    | none => rfl
    | some next => exact ih next

theorem translate_eq_walk (m : Mem) (v u : Nat) : translate m v u = ((walk m v u)[4]?).map (· + u % 2 ^ 12) := by
  rw [translate_eq_foldlM, foldlM_follow_eq]
  rfl

theorem exists_mem_walk (h : translate m v u = some x) : ∃ a ∈ walk m v u, x = a + u % 2 ^ 12 := by
  rw [translate_eq_walk] at h
  obtain ⟨a, ha, rfl⟩ := Option.map_eq_some_iff.mp h
  exact ⟨a, List.mem_of_getElem? ha, rfl⟩

theorem inFrame_mod (f u : Nat) : InFrame f (virtual f + u % 2 ^ 12) := by
  simp only [InFrame, pageSize]
  omega

theorem Space.mem_walkAlong (hs : Space memMap nr s t) (hf : t π = some f) (hd : π.length + is.length ≤ 4)
    (hr : InRange π is) (ha : a ∈ walkAlong s.mem (virtual f) is) : ∃ ρ g, t ρ = some g ∧ a = virtual g := by
  induction is generalizing π f with
  | nil => exact ⟨π, f, hf, List.mem_singleton.mp ha⟩
  | cons i is ih =>
    rw [walkAlong] at ha
    rcases List.mem_cons.mp ha with rfl | ha
    · exact ⟨π, f, hf, rfl⟩
    · rw [List.length_cons] at hd
      rw [hs.follow_eq hf (by omega) hr.1] at ha
      cases hg : t (i :: π) with
      | none =>
        rw [hg] at ha
        cases ha
      | some g =>
        rw [hg] at ha
        exact ih hg (by rw [List.length_cons]; omega) hr.2 ha

theorem Space.mem_walk (hs : Space memMap nr s t) (hroot : t [] = some root) (hu : u < 2 ^ 47)
    (ha : a ∈ walk s.mem (virtual root) u) : ∃ ρ g, t ρ = some g ∧ a = virtual g :=
  hs.mem_walkAlong hroot (by exact Nat.le_refl 4) (inRange_indices hu) ha

/-! ## `memcpy` -/

theorem memcpy_eq (h : src + n ≤ dst ∨ dst + n ≤ src) : memcpy m dst src n = m.write dst (fun i => m (src + i)) n := by
  -- the state after `j` of the bytes
  have hgo : ∀ k j, j + k = n → memcpy (m.write dst (fun i => m (src + i)) j) (dst + j) (src + j) k =
      m.write dst (fun i => m (src + i)) n := by
    intro k
    induction k with
    | zero =>
      rintro j rfl
      rfl
    | succ k ih =>
      intro j hj
      have hread : m.write dst (fun i => m (src + i)) j (src + j) = m (src + j) := Mem.write_apply (by omega)
      rw [memcpy, hread, ← Mem.write_succ]
      exact ih (j + 1) (by omega)
  have hzero : m.write dst (fun i => m (src + i)) 0 = m := by
    funext b
    exact Mem.write_apply (by omega)
  have h₀ := hgo n 0 (Nat.zero_add n)
  rwa [hzero] at h₀

theorem memcpyUser_eq {addr : Nat → Nat} (h : ∀ i < n, ∀ m' : Mem, (∀ b, b < dst ∨ dst + n ≤ b → m' b = m b) →
      translate m' cur (src + i) = some (addr i) ∧ (addr i < dst ∨ dst + n ≤ addr i)) :
    memcpyUser cur m dst src n = some (m.write dst (fun i => m (addr i)) n) := by
  have hgo : ∀ k j, j + k = n → memcpyUser cur (m.write dst (fun i => m (addr i)) j) (dst + j) (src + j) k =
      some (m.write dst (fun i => m (addr i)) n) := by
    intro k
    induction k with
    | zero =>
      rintro j rfl
      rfl
    | succ k ih =>
      intro j hj
      obtain ⟨htranslate, hout⟩ := h j (by omega) (m.write dst (fun i => m (addr i)) j) fun b hb =>
        Mem.write_apply (by omega)
      have hread : m.write dst (fun i => m (addr i)) j (addr j) = m (addr j) := Mem.write_apply (by omega)
      rw [memcpyUser, htranslate, Option.bind_eq_bind, Option.bind_some, hread, ← Mem.write_succ]
      exact ih (j + 1) (by omega)
  have hzero : m.write dst (fun i => m (addr i)) 0 = m := by
    funext b
    exact Mem.write_apply (by omega)
  have h₀ := hgo n 0 (Nat.zero_add n)
  rwa [hzero] at h₀

/-! ## The parent -/

def Agree (memMap : Nat → Page) (nr : Nat) (s₀ : Machine) (m : Mem) : Prop :=
  ∀ y, ¬ s₀.alloc.Avail memMap nr y → ∀ b, InFrame y b → m b = s₀.mem b

/-- What the processor uses for the address are frames, and not free. -/
def BackedAt (s : Machine) (pgd addr : Nat) : Prop := ∀ a ∈ walk s.mem pgd addr, ∃ f, a = virtual f ∧ ¬ s.alloc.FreePage f

section Parent

variable (hinv : s₀.alloc.Inv memMap nr) (hback : BackedAt s₀ cur u) (hm : Agree memMap nr s₀ m)

include hinv hback hm

theorem BackedAt.walk_eq (hu : u < 2 ^ 47) : walk m cur u = walk s₀.mem cur u := by
  refine walkAlong_congr (walk_index hu) fun a ha b hb hb' => ?_
  obtain ⟨f, rfl, hf⟩ := hback a ha
  exact hm f (fun hav => hf (hinv.freePage_iff.mpr hav)) b ⟨hb, hb'⟩

theorem BackedAt.translate_eq (hu : u < 2 ^ 47) : translate m cur u = translate s₀.mem cur u := by
  rw [translate_eq_walk, translate_eq_walk, hback.walk_eq hinv hm hu]

end Parent

theorem BackedAt.exists_frame (hinv : s₀.alloc.Inv memMap nr) (hback : BackedAt s₀ cur u)
    (hx : translate s₀.mem cur u = some x) : ∃ f, InFrame f x ∧ ¬ s₀.alloc.Avail memMap nr f := by
  obtain ⟨a, ha, rfl⟩ := exists_mem_walk hx
  obtain ⟨f, rfl, hf⟩ := hback a ha
  exact ⟨f, inFrame_mod f u, fun hav => hf (hinv.freePage_iff.mpr hav)⟩

/-! ## The child -/

structure Copied (memMap : Nat → Page) (nr : Nat) (s₀ : Machine) (cur root : Nat) (P : Nat → Prop) (s : Machine)
    (t : Radix Nat) : Prop where
  space : Space memMap nr s t
  inv : s.alloc.Inv memMap nr
  root : t [] = some root
  fresh : ∀ π f, t π = some f → s₀.alloc.Avail memMap nr f
  avail : ∀ y, s.alloc.Avail memMap nr y → s₀.alloc.Avail memMap nr y
  agree : Agree memMap nr s₀ s.mem
  pages : ∀ a < 2 ^ 47, (∃ f, t (path a) = some f) ↔ P a
  bytes : ∀ a < 2 ^ 47, ∀ f x, t (path a) = some f → translate s₀.mem cur a = some x →
    s.mem (virtual f + a % 2 ^ 12) = s₀.mem x

theorem Copied.congr {P Q : Nat → Prop} (h : Copied memMap nr s₀ cur root P s t) (hPQ : ∀ a < 2 ^ 47, P a ↔ Q a) :
    Copied memMap nr s₀ cur root Q s t where
  __ := h
  pages a ha := (h.pages a ha).trans (hPQ a ha)

theorem Space.write_page (hs : Space memMap nr s t) (hg : t π = some g) (hπ : 4 ≤ π.length)
    (hm : ∀ y b, InFrame y b → y ≠ g → m b = s.mem b) : Space memMap nr { s with mem := m } t where
  __ := hs
  table ρ f hf hd i hi := by
    have hne : f ≠ g := by
      rintro rfl
      rw [hs.ok.inj ρ π f hf hg] at hd
      omega
    rw [← hs.table ρ f hf hd i hi]
    exact entry_congr (fun b hb => hm f b hb hne) (Nat.lt_of_lt_of_le hi (slots_le ρ))

theorem memcpyUser_backed (hinv : s₀.alloc.Inv memMap nr)
    (hback : ∀ a, a / 2 ^ 12 = u / 2 ^ 12 → BackedAt s₀ cur a) (hm : Agree memMap nr s₀ m)
    (hg : s₀.alloc.Avail memMap nr g) (hu : u < 2 ^ 47) (halign : u % 2 ^ 12 = 0)
    (hmapped : ∀ a, a / 2 ^ 12 = u / 2 ^ 12 → ∃ x, translate s₀.mem cur a = some x) :
    memcpyUser cur m (virtual g) u pageSize =
      some (m.write (virtual g) (fun i => m ((translate s₀.mem cur (u + i)).getD 0)) pageSize) := by
  refine Mm.memcpyUser_eq fun i hi m' hm' => ?_
  have hi' : i < 2 ^ 12 := hi
  have hagree : Agree memMap nr s₀ m' := by
    intro y hy b hb
    rw [← hm y hy b hb]
    refine hm' b ?_
    by_contra hin
    have hyg : y = g := hb.eq ⟨by omega, by omega⟩
    exact hy (hyg ▸ hg)
  obtain ⟨x, hx⟩ := hmapped (u + i) (by omega)
  have hback := hback (u + i) (by omega)
  obtain ⟨f, hf, hna⟩ := hback.exists_frame hinv hx
  rw [hback.translate_eq hinv hagree (by omega), hx, Option.getD_some]
  refine ⟨rfl, ?_⟩
  by_contra hin
  have hfg : f = g := hf.eq ⟨by omega, by omega⟩
  exact hna (hfg ▸ hg)

theorem exists_memcpyUser (hinv : s₀.alloc.Inv memMap nr)
    (hback : ∀ a, a / 2 ^ 12 = u / 2 ^ 12 → BackedAt s₀ cur a) (hm : Agree memMap nr s₀ m)
    (hg : s₀.alloc.Avail memMap nr g) (hu : u < 2 ^ 47) (halign : u % 2 ^ 12 = 0)
    (hmapped : ∀ a, a / 2 ^ 12 = u / 2 ^ 12 → ∃ x, translate s₀.mem cur a = some x) :
    ∃ m', memcpyUser cur m (virtual g) u pageSize = some m' ∧ (∀ y b, InFrame y b → y ≠ g → m' b = m b) ∧
      ∀ a x, a / 2 ^ 12 = u / 2 ^ 12 → translate s₀.mem cur a = some x → m' (virtual g + a % 2 ^ 12) = s₀.mem x := by
  refine ⟨_, memcpyUser_backed hinv hback hm hg hu halign hmapped, fun y b hb hne => write_apply_of_ne hb hne, ?_⟩
  intro a x ha hx
  have hsum : u + a % 2 ^ 12 = a := by omega
  obtain ⟨y, hy, hna⟩ := (hback a ha).exists_frame hinv hx
  have hmod : a % 2 ^ 12 < pageSize := Nat.mod_lt a (by decide)
  rw [Mem.write_add hmod, hsum, hx, Option.getD_some]
  exact hm y hna x hy

theorem Copied.agree_grown {P : Nat → Prop} {Q : List Nat → Prop} (h : Copied memMap nr s₀ cur root P s t)
    (hgrown : Grown memMap nr Q s t s₁ t') : Agree memMap nr s₀ s₁.mem := by
  intro y hy b hb
  rw [← h.agree y hy b hb]
  exact hgrown.frame_eq (fun hav => hy (h.avail y hav)) (fun π hπ => absurd (h.fresh π y hπ) hy) hb

theorem Copied.fresh_grown {P : Nat → Prop} {Q : List Nat → Prop} (h : Copied memMap nr s₀ cur root P s t)
    (hgrown : Grown memMap nr Q s t s₁ t') (hf : t' π = some f) : s₀.alloc.Avail memMap nr f := by
  rcases hgrown.new π f hf with hf' | ⟨-, -, hav⟩
  · exact h.fresh π f hf'
  · exact h.avail f hav

theorem Copied.page {P : Nat → Prop} (h : Copied memMap nr s₀ cur root P s t) (hinv : s₀.alloc.Inv memMap nr)
    (hnr : nr ≤ maxFrame) (hback : ∀ a, a / 2 ^ 12 = u / 2 ^ 12 → BackedAt s₀ cur a) (hu : u < 2 ^ 47)
    (halign : u % 2 ^ 12 = 0)
    (hmapped : ∀ a, a / 2 ^ 12 = u / 2 ^ 12 → ∃ x, translate s₀.mem cur a = some x)
    (hmap : mapPage s (virtual root) u = some (v, s₁)) : ∃ m t', memcpyUser cur s₁.mem v u pageSize = some m ∧
      Grown memMap nr (fun π => π ≠ [] ∧ π <:+ path u) s t s₁ t' ∧
      Copied memMap nr s₀ cur root (fun a => P a ∨ a / 2 ^ 12 = u / 2 ^ 12) { s₁ with mem := m } t' := by
  obtain ⟨g, t', rfl, hg, hgrown⟩ := h.space.mapPage_grown h.inv hnr h.root hu hmap
  have hagree := h.agree_grown hgrown
  have hfree := h.fresh_grown hgrown hg
  obtain ⟨m, hcopy, hkeep, hbytes⟩ := exists_memcpyUser hinv hback hagree hfree hu halign hmapped
  refine ⟨m, t', hcopy, hgrown, ?_⟩
  constructor
  case space => exact hgrown.space.write_page hg (Nat.le_refl 4) hkeep
  case inv => exact hgrown.inv
  case root => exact hgrown.old [] root h.root
  case fresh => exact fun π f hf => h.fresh_grown hgrown hf
  case avail => exact fun y hy => h.avail y ((hgrown.avail y).mp hy).1
  case agree =>
    intro y hy b hb
    have hyg : y ≠ g := fun he => hy (he ▸ hfree)
    exact (hkeep y b hb hyg).trans (hagree y hy b hb)
  case pages =>
    intro a ha
    by_cases hpage : a / 2 ^ 12 = u / 2 ^ 12
    · rw [(path_eq_iff ha hu).mpr hpage]
      exact iff_of_true ⟨g, hg⟩ (Or.inr hpage)
    · rw [hgrown.other ha hu hpage, h.pages a ha]
      exact (or_iff_left hpage).symm
  case bytes =>
    intro a ha f x hf hx
    by_cases hpage : a / 2 ^ 12 = u / 2 ^ 12
    · rw [(path_eq_iff ha hu).mpr hpage, hg] at hf
      obtain rfl := Option.some.inj hf
      exact hbytes a x hpage hx
    · have hold : t (path a) = some f := (hgrown.other ha hu hpage).symm.trans hf
      have hfg : f ≠ g := by
        rintro rfl
        exact hpage ((path_eq_iff ha hu).mp (hgrown.space.ok.inj _ _ f hf hg))
      have hpath : ∀ π, t π = some f → 4 ≤ π.length := by
        intro π hπ
        rw [h.space.ok.inj π _ f hπ hold]
        exact Nat.le_refl 4
      rw [← h.bytes a ha f x hold hx, ← hgrown.frame_eq (h.space.held _ f hold) hpath (inFrame_mod f a)]
      exact hkeep f _ (inFrame_mod f a) hfg

theorem copyRange_succ (h : u ≠ v) : copyRange cur a (n + 1) s u v = (mapPage s a u).bind fun p =>
    (memcpyUser cur p.2.mem p.1 u pageSize).bind fun m =>
      copyRange cur a n { p.2 with mem := m } ((u + pageSize) % 2 ^ 64) v :=
  if_neg h

theorem MappedRange.tail (h : MappedRange m cur (u, v)) (hne : u ≠ v) :
    (u + pageSize) % 2 ^ 64 = u + pageSize ∧ u < 2 ^ 47 ∧ MappedRange m cur (u + pageSize, v) ∧
      (∀ a, a / 2 ^ 12 = u / 2 ^ 12 → ∃ x, translate m cur a = some x) ∧
      ∀ a, a / 2 ^ 12 = u / 2 ^ 12 ∨ u + pageSize ≤ a ∧ a < v ↔ u ≤ a ∧ a < v := by
  obtain ⟨hstart, hlast, hle, hbound, hmapped⟩ := h
  simp only [pageSize] at *
  refine ⟨by omega, by omega, ⟨by simp only [pageSize]; omega, hlast, by omega, hbound, ?_⟩, ?_, ?_⟩
  · exact fun a ha ha' => hmapped a (by omega) ha'
  · exact fun a ha => hmapped a (by omega) (by omega)
  · omega

theorem Copied.copyRange {P : Nat → Prop} (h : Copied memMap nr s₀ cur root P s t) (hinv : s₀.alloc.Inv memMap nr)
    (hnr : nr ≤ maxFrame) (hback : ∀ a, u ≤ a → a < v → BackedAt s₀ cur a) (hrange : MappedRange s₀.mem cur (u, v))
    (hcopy : copyRange cur (virtual root) n s u v = some s') :
    ∃ t', Copied memMap nr s₀ cur root (fun a => P a ∨ u ≤ a ∧ a < v) s' t' := by
  induction n generalizing s t u P with
  | zero => cases hcopy
  | succ n ih =>
    rcases eq_or_ne u v with rfl | hne
    · rw [Mm.copyRange, if_pos rfl] at hcopy
      obtain rfl := Option.some.inj hcopy
      exact ⟨t, h.congr fun a _ => (or_iff_left fun ha => Nat.not_lt.mpr ha.1 ha.2).symm⟩
    · obtain ⟨hnext, hu, htail, hpage, hunion⟩ := hrange.tail hne
      rw [copyRange_succ hne] at hcopy
      obtain ⟨⟨w, s₁⟩, hmap, hcopy⟩ := Option.bind_eq_some_iff.mp hcopy
      have hfirst := fun a ha => (hunion a).mp (.inl ha)
      obtain ⟨m, t', hmemcpy, -, hcopied⟩ := h.page hinv hnr (fun a ha => hback a (hfirst a ha).1 (hfirst a ha).2) hu
        hrange.start hpage hmap
      rw [hmemcpy, Option.bind_some, hnext] at hcopy
      obtain ⟨t'', hcopied'⟩ := ih hcopied (fun a ha => hback a (by omega)) htail hcopy
      refine ⟨t'', hcopied'.congr fun a _ => ?_⟩
      rw [or_assoc, hunion]

/-! ## Enough pages -/

theorem exists_getZeroedPage (hinv : s.alloc.Inv memMap nr) (h : 0 < s.alloc.freeCount nr) :
    ∃ v s', getZeroedPage s = some (v, s') ∧ s'.alloc.Inv memMap nr ∧ s.alloc.freeCount nr = s'.alloc.freeCount nr + 1 := by
  cases hzero : getZeroedPage s with
  | none =>
    exfalso
    obtain ⟨y, hy⟩ := List.exists_mem_of_length_pos h
    obtain ⟨k, -, p, hp, -⟩ := of_decide_eq_true (List.mem_filter.mp hy).2
    unfold getZeroedPage BuddySys.alloc at hzero
    rcases allocPages_spec hinv.canon (show 0 < 8 by decide) with ⟨page, b', he, -⟩ | ⟨-, hempty⟩
    · rw [he] at hzero
      cases hzero
    · rw [hempty k (Nat.zero_le k)] at hp
      cases hp
  | some r =>
    obtain ⟨v, s'⟩ := r
    obtain ⟨g, rfl, hav, hinv', -, -, havail⟩ := getZeroedPage_ok hinv hzero
    refine ⟨_, s', rfl, hinv', ?_⟩
    have hmem : g ∈ (List.range nr).filter fun y => s.alloc.FreePage y := by
      simp [hinv.freePage_iff, hav, hav.lt_nr]
    have hfilter : (List.range nr).filter (fun y => s'.alloc.FreePage y) =
        ((List.range nr).filter fun y => s.alloc.FreePage y).erase g := by
      rw [(List.nodup_range.filter _).erase_eq_filter, List.filter_filter]
      refine List.filter_congr fun y _ => ?_
      rw [Bool.eq_iff_iff]
      simp [hinv.freePage_iff, hinv'.freePage_iff, havail, and_comm]
    unfold BuddySys.freeCount
    rw [hfilter, List.length_erase_of_mem hmem, Nat.sub_add_cancel (List.length_pos_of_mem hmem)]

theorem exists_nextTable (i : Nat) (hinv : s.alloc.Inv memMap nr) (h : 0 < s.alloc.freeCount nr) :
    ∃ v s', nextTable s a i 7 = some (v, s') ∧ s'.alloc.Inv memMap nr ∧
      s.alloc.freeCount nr ≤ s'.alloc.freeCount nr + 1 := by
  unfold nextTable
  by_cases hentry : entry s.mem a i = 0
  · obtain ⟨v, s₁, hzero, hinv₁, hcount⟩ := exists_getZeroedPage hinv h
    rw [if_pos hentry, newEntry, hzero]
    exact ⟨v, _, rfl, hinv₁, Nat.le_of_eq hcount⟩
  · rw [if_neg hentry]
    exact ⟨_, s, rfl, hinv, Nat.le_succ _⟩

theorem exists_nextLevels (is : List Nat) (hinv : s.alloc.Inv memMap nr) (h : is.length ≤ s.alloc.freeCount nr) :
    ∃ v s', nextLevels s a is = some (v, s') ∧ s.alloc.freeCount nr ≤ s'.alloc.freeCount nr + is.length := by
  induction is generalizing s a with
  | nil => exact ⟨a, s, rfl, Nat.le_refl _⟩
  | cons i is ih =>
    rw [List.length_cons] at h ⊢
    obtain ⟨v₁, s₁, hnext, hinv₁, hcount⟩ := exists_nextTable i hinv (show 0 < s.alloc.freeCount nr by omega)
    obtain ⟨v, s', hrest, hcount'⟩ := ih hinv₁ (show is.length ≤ s₁.alloc.freeCount nr by omega)
    exact ⟨v, s', by rw [nextLevels, hnext]; exact hrest, by omega⟩

theorem exists_mapPage (hinv : s.alloc.Inv memMap nr) (h : 4 ≤ s.alloc.freeCount nr) (hu : u < 2 ^ 47) :
    ∃ v s', mapPage s a u = some (v, s') ∧ s.alloc.freeCount nr ≤ s'.alloc.freeCount nr + 4 := by
  rw [mapPage_eq_nextLevels a hu]
  exact exists_nextLevels (indices u) hinv h

/-! ## The top table -/

theorem Backed.exists_top (hback : Backed s₀ cur) : ∃ f, cur = virtual f ∧ ¬ s₀.alloc.FreePage f :=
  hback 0 (by decide) cur List.mem_cons_self

theorem copyTop_eq (hne : f ≠ g) : memset (memcpy m (virtual g) (virtual f) pageSize) (virtual g) 0 (pageSize / 2) =
    (m.write (virtual g) (fun i => m (virtual f + i)) pageSize).write (virtual g) (fun _ => 0) (pageSize / 2) := by
  rw [memset, if_neg (by decide), memcpy_eq]
  simp only [virtual, pageSize]
  omega

theorem copied_init (hinv : s₀.alloc.Inv memMap nr) (hnr : nr ≤ maxFrame)
    (htop : ∃ f, cur = virtual f ∧ ¬ s₀.alloc.FreePage f)
    (hzero : getZeroedPage s₀ = some (v, s₁)) : ∃ root, v = virtual root ∧ Copied memMap nr s₀ cur root (fun _ => False)
      { s₁ with mem := memset (memcpy s₁.mem v cur pageSize) v 0 (pageSize / 2) } (emptyTree root) := by
  obtain ⟨root, rfl, hav, hinv₁, -, hmem, havail⟩ := getZeroedPage_ok hinv hzero
  obtain ⟨f, rfl, hf⟩ := htop
  have hne : f ≠ root := by
    rintro rfl
    exact hf (hinv.freePage_iff.mpr hav)
  rw [copyTop_eq hne]
  refine ⟨root, rfl, ?_⟩
  constructor
  case space =>
    refine EmptyLower.space ⟨Nat.lt_of_lt_of_le hav.lt_nr hnr, fun k p hp hin => ?_, fun i hi => ?_⟩ hinv₁
    · exact ((havail root).mp ((hinv₁.avail_iff root).mpr ⟨k, p, hp, hin⟩)).2 rfl
    · have hi' : i < 256 := hi
      have hhalf : pageSize / 2 = 2048 := rfl
      refine Mem.load_eq_zero fun b hb hb' => ?_
      exact if_pos ⟨by omega, by rw [hhalf]; omega⟩
  case inv => exact hinv₁
  case root => rfl
  case fresh =>
    intro π y hy
    cases π with
    | nil => exact Option.some.inj hy ▸ hav
    | cons i π => cases hy
  case avail => exact fun y hy => ((havail y).mp hy).1
  case agree =>
    intro y hy b hb
    have hyr : y ≠ root := fun he => hy (he ▸ hav)
    have hhalf : b < virtual root ∨ virtual root + pageSize / 2 ≤ b := by
      by_contra hin
      have hle : pageSize / 2 ≤ pageSize := by decide
      exact hyr (hb.eq ⟨by omega, by omega⟩)
    dsimp only
    rw [Mem.write_apply hhalf, write_apply_of_ne hb hyr, hmem, write_apply_of_ne hb hyr]
  case pages => exact fun a _ => iff_of_false (fun ⟨_, hf⟩ => nomatch hf) id
  case bytes => exact fun a _ f x hf => nomatch hf

/-! ## All ranges -/

section Ranges

variable {P : Nat → Prop} {rs : List (Nat × Nat)} (hinv : s₀.alloc.Inv memMap nr) (hnr : nr ≤ maxFrame)

include hinv hnr

theorem Copied.ranges (h : Copied memMap nr s₀ cur root P s t)
    (hback : ∀ r ∈ rs, ∀ a, r.1 ≤ a → a < r.2 → BackedAt s₀ cur a) (hrs : ∀ r ∈ rs, MappedRange s₀.mem cur r)
    (hcopy : rs.foldlM (fun s range => Mm.copyRange cur (virtual root) n s range.1 range.2) s = some s') :
    ∃ t', Copied memMap nr s₀ cur root (fun a => P a ∨ ∃ r ∈ rs, r.1 ≤ a ∧ a < r.2) s' t' := by
  induction rs generalizing s t P with
  | nil =>
    cases hcopy
    exact ⟨t, h.congr fun a _ => by simp⟩
  | cons r rs ih =>
    obtain ⟨hr, hrs'⟩ := List.forall_mem_cons.mp hrs
    obtain ⟨hbr, hback'⟩ := List.forall_mem_cons.mp hback
    rw [List.foldlM_cons] at hcopy
    obtain ⟨s₁, hcopy₁, hcopy⟩ := Option.bind_eq_some_iff.mp hcopy
    obtain ⟨t₁, h₁⟩ := h.copyRange hinv hnr hbr hr hcopy₁
    obtain ⟨t', h'⟩ := ih h₁ hback' hrs' hcopy
    exact ⟨t', h'.congr fun a _ => by simp [or_assoc]⟩

omit hinv hnr in
theorem Backed.ranges (hback : Backed s₀ cur) (hrs : ∀ r ∈ rs, MappedRange s₀.mem cur r) :
    ∀ r ∈ rs, ∀ a, r.1 ≤ a → a < r.2 → BackedAt s₀ cur a :=
  fun r hr a _ ha => hback a (Nat.lt_of_lt_of_le ha (hrs r hr).bound)

end Ranges

end FengOS.Mm
