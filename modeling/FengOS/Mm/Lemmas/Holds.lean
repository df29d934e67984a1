import FengOS.Mm.CopyTheorems
import FengOS.Mm.Lemmas.Exec
import FengOS.Mm.MapFailTheorems

/-!
# Trees that grow, with pages that are missing
-/

namespace FengOS.Mm

open FengOS.Lib

variable {memMap : Nat → Page} {nr root : Nat} {s s' s₁ s₂ : Machine} {t t' t₁ u : Radix Nat} {mm mm' : ProcMm}
  {a b f g i n v w : Nat} {alloc alloc' alloc₁ : BuddySys} {π is : List Nat}

/-! ## What is live -/

def LiveGrown (alloc alloc' : BuddySys) : Prop := ∃ new : List Nat, alloc'.live = new.map (·, 0) ++ alloc.live

theorem LiveGrown.refl (alloc : BuddySys) : LiveGrown alloc alloc := ⟨[], rfl⟩

theorem LiveGrown.trans (h : LiveGrown alloc alloc₁) (h' : LiveGrown alloc₁ alloc') : LiveGrown alloc alloc' := by
  obtain ⟨new, hlive⟩ := h
  obtain ⟨new', hlive'⟩ := h'
  exact ⟨new' ++ new, by rw [hlive', hlive, List.map_append, List.append_assoc]⟩

theorem LiveGrown.mem (h : LiveGrown alloc alloc') {l : Nat × Nat} (hl : l ∈ alloc.live) : l ∈ alloc'.live := by
  obtain ⟨new, hlive⟩ := h
  rw [hlive]
  exact List.mem_append_right _ hl

theorem LiveGrown.mem_of_avail (h : LiveGrown alloc alloc') (hav : alloc.Avail memMap nr f)
    (hna : ¬ alloc'.Avail memMap nr f) : (f, 0) ∈ alloc'.live := by
  obtain ⟨new, hlive⟩ := h
  have hallocated : alloc'.Allocated f := by
    by_contra hnot
    exact hna ⟨hav.1, hnot⟩
  obtain ⟨l, hl, hin⟩ := hallocated
  rw [hlive] at hl ⊢
  rcases List.mem_append.mp hl with hnew | hold
  · obtain ⟨g, hg, rfl⟩ := List.mem_map.mp hnew
    rw [inBlock_zero.mp hin]
    exact List.mem_append_left _ (List.mem_map_of_mem hg)
  · exact absurd ⟨l, hold, hin⟩ hav.2

theorem getZeroedPage_live (h : getZeroedPage s = some (v, s')) : LiveGrown s.alloc s'.alloc := by
  unfold getZeroedPage BuddySys.alloc at h
  cases halloc : allocPages s.alloc.buddy 0 with
  | mk r b =>
    rw [halloc] at h
    cases r with
    | none => cases h
    | some page =>
      cases h
      exact ⟨[page], rfl⟩

theorem slot_live (h : (if entry s.mem a i = 0 then newEntry s a i 7 else some (w, s)) = some (v, s')) :
    LiveGrown s.alloc s'.alloc := by
  split at h
  · obtain ⟨⟨next, s₁⟩, hzero, hnew⟩ := Option.bind_eq_some_iff.mp h
    have hlive := getZeroedPage_live hzero
    cases hnew
    exact hlive
  · obtain ⟨-, rfl⟩ := Prod.mk.inj (Option.some.inj h)
    exact .refl _

theorem mapPage_live (h : mapPage s a f = some (v, s')) : LiveGrown s.alloc s'.alloc := by
  simp only [mapPage, Option.bind_eq_bind, Option.bind_eq_some_iff, Prod.exists] at h
  obtain ⟨_, s₁, h₁, _, s₂, h₂, _, s₃, h₃, h₄⟩ := h
  exact (((slot_live h₁).trans (slot_live h₂)).trans (slot_live h₃)).trans (slot_live h₄)

theorem loadPages_live {file : ExecFile} {vars : LoadVars} (h : loadPages file a n s vars = some s') :
    LiveGrown s.alloc s'.alloc := by
  induction n generalizing s vars with
  | zero =>
    cases h
    exact .refl _
  | succ n ih =>
    simp only [loadPages, Option.bind_eq_bind, Option.bind_eq_some_iff, Prod.exists] at h
    obtain ⟨page, s₁, hmap, _, _, -, _, _, -, h⟩ := h
    have hrest := ih h
    exact (mapPage_live hmap).trans hrest

theorem loadSegments_live {file : ExecFile} {phdrs : List Phdr} {psegs psegs' : List Seg}
    (h : loadSegments file a psegs s phdrs = some (psegs', s')) : LiveGrown s.alloc s'.alloc := by
  induction phdrs generalizing s psegs with
  | nil =>
    cases h
    exact .refl _
  | cons phdr phdrs ih =>
    rw [loadSegments] at h
    split at h
    · exact ih h
    · split at h
      · cases h
      · obtain ⟨s₁, hpages, h⟩ := Option.bind_eq_some_iff.mp h
        exact (loadPages_live hpages).trans (ih h)

theorem copyRange_live (h : copyRange a b n s v w = some s') : LiveGrown s.alloc s'.alloc := by
  induction n generalizing s v with
  | zero => cases h
  | succ n ih =>
    rw [copyRange] at h
    split at h
    · cases h
      exact .refl _
    · simp only [Option.bind_eq_bind, Option.bind_eq_some_iff, Prod.exists] at h
      obtain ⟨page, s₁, hmap, mem, -, h⟩ := h
      have hrest := ih h
      exact (mapPage_live hmap).trans hrest

theorem copyRanges_live {ranges : List (Nat × Nat)}
    (h : ranges.foldlM (fun s range => copyRange a b n s range.1 range.2) s = some s') : LiveGrown s.alloc s'.alloc := by
  induction ranges generalizing s with
  | nil =>
    cases h
    exact .refl _
  | cons range ranges ih =>
    obtain ⟨s₁, hrange, h⟩ := Option.bind_eq_some_iff.mp h
    exact (copyRange_live hrange).trans (ih h)

theorem copyMm_live {copy : Option ProcMm} (h : copyMm n s mm = some (copy, s')) : LiveGrown s.alloc s'.alloc := by
  cases hzero : getZeroedPage s with
  | none =>
    rw [copyMm, hzero] at h
    cases h
    exact .refl _
  | some r =>
    obtain ⟨v, s₁⟩ := r
    rw [copyMm_eq hzero] at h
    obtain ⟨s₂, hcopy, h⟩ := Option.bind_eq_some_iff.mp h
    have hrest := copyRanges_live hcopy
    cases h
    exact (getZeroedPage_live hzero).trans hrest

/-! ## Trees -/

structure Touched (memMap : Nat → Page) (nr : Nat) (s : Machine) (t : Radix Nat) (s' : Machine) : Prop where
  frames : ∀ y, ¬ s.alloc.Avail memMap nr y → (∀ π, t π ≠ some y) → ∀ b, InFrame y b → s'.mem b = s.mem b
  avail : ∀ y, s'.alloc.Avail memMap nr y → s.alloc.Avail memMap nr y ∨ ∃ π, t π = some y
  live : ∀ l ∈ s.alloc.live, (∀ π, t π ≠ some l.1) → l ∈ s'.alloc.live

def Live (s : Machine) (t : Radix Nat) : Prop := ∀ π f, t π = some f → (f, 0) ∈ s.alloc.live

structure Extended (memMap : Nat → Page) (nr : Nat) (s : Machine) (t : Radix Nat) (s' : Machine) (t' : Radix Nat) :
    Prop where
  holds : Holds memMap nr s' t'
  inv : s'.alloc.Inv memMap nr
  old : ∀ π f, t π = some f → t' π = some f
  new : ∀ π f, t' π = some f → t π = some f ∨ s.alloc.Avail memMap nr f
  live : Live s t → Live s' t'
  touched : Touched memMap nr s t s'

theorem Filled.extended {P : Nat → Prop} {w : Nat → Option UInt8} (h : Filled memMap nr P w s t s' t')
    (hlive : LiveGrown s.alloc s'.alloc) : Extended memMap nr s t s' t' where
  holds := h.space.holds
  inv := h.inv
  old := h.old
  new := h.new
  live hl π f hf := by
    rcases h.new π f hf with hold | hav
    · exact hlive.mem (hl π f hold)
    · exact hlive.mem_of_avail hav (h.space.held π f hf)
  touched := ⟨h.frames, fun y hy => .inl (h.avail y hy), fun l hl _ => hlive.mem hl⟩

theorem Touched.trans (h : Touched memMap nr s t s₁) (h' : Touched memMap nr s₁ t₁ s')
    (hnew : ∀ π f, t₁ π = some f → (∃ ρ, t ρ = some f) ∨ s.alloc.Avail memMap nr f)
    (hlive : ∀ l ∈ s.alloc.live, ¬ s.alloc.Avail memMap nr l.1) : Touched memMap nr s t s' where
  frames y hy hty b hb := by
    have hty₁ : ∀ π, t₁ π ≠ some y := fun π hπ => (hnew π y hπ).elim (fun ⟨ρ, hρ⟩ => hty ρ hρ) hy
    have hy₁ : ¬ s₁.alloc.Avail memMap nr y := fun hav => (h.avail y hav).elim hy fun ⟨π, hπ⟩ => hty π hπ
    rw [h'.frames y hy₁ hty₁ b hb, h.frames y hy hty b hb]
  avail y hy := by
    rcases h'.avail y hy with hav | ⟨π, hπ⟩
    · exact h.avail y hav
    · exact (hnew π y hπ).symm
  live l hl hty := by
    refine h'.live l (h.live l hl hty) fun π hπ => ?_
    rcases hnew π l.1 hπ with ⟨ρ, hρ⟩ | hav
    · exact hty ρ hρ
    · exact hlive l hl hav

theorem BuddySys.Inv.not_avail_of_live (l : Nat × Nat) (hl : l ∈ alloc.live) : ¬ alloc.Avail memMap nr l.1 :=
  fun hav => hav.2 ⟨l, hl, Nat.le_refl _, Nat.lt_add_of_pos_right (Nat.two_pow_pos _)⟩

theorem Extended.trans (h : Extended memMap nr s t s₁ t₁) (h' : Extended memMap nr s₁ t₁ s' t') :
    Extended memMap nr s t s' t' where
  holds := h'.holds
  inv := h'.inv
  old π f hf := h'.old π f (h.old π f hf)
  new π f hf := by
    rcases h'.new π f hf with hf' | hav
    · exact h.new π f hf'
    · rcases h.touched.avail f hav with hav' | ⟨ρ, hρ⟩
      · exact .inr hav'
      · exact absurd hav (h.holds.held ρ f (h.old ρ f hρ))
  live hl := h'.live (h.live hl)
  touched := h.touched.trans h'.touched (fun π f hf => (h.new π f hf).imp_left fun hf' => ⟨π, hf'⟩)
    BuddySys.Inv.not_avail_of_live

def Apart (t u : Radix Nat) : Prop := ∀ π ρ f, t π = some f → u ρ ≠ some f

theorem Apart.symm (h : Apart t u) : Apart u t := fun π ρ f hu ht => h ρ π f ht hu

theorem Touched.holds (h : Touched memMap nr s t s') (hu : Holds memMap nr s u) (hapart : Apart t u) :
    Holds memMap nr s' u where
  ok := hu.ok
  bound := hu.bound
  table π f hf hd i hi := by
    rw [entry_congr (h.frames f (hu.held π f hf) fun ρ hρ => hapart ρ π f hρ hf) (Nat.lt_of_lt_of_le hi (slots_le π))]
    exact hu.table π f hf hd i hi
  held π f hf hav := (h.avail f hav).elim (hu.held π f hf) fun ⟨ρ, hρ⟩ => hapart ρ π f hρ hf

theorem Touched.liveTree (h : Touched memMap nr s t s') (hu : Live s u) (hapart : Apart t u) : Live s' u :=
  fun π f hf => h.live (f, 0) (hu π f hf) fun ρ hρ => hapart ρ π f hρ hf

theorem Extended.refl (hs : Holds memMap nr s t) (hinv : s.alloc.Inv memMap nr) : Extended memMap nr s t s t :=
  ⟨hs, hinv, fun _ _ => id, fun _ _ => .inl, id, ⟨fun _ _ _ _ _ => rfl, fun _ => .inl, fun _ hl _ => hl⟩⟩

/-! ## One level -/

/-- A new page is entered in a table of the tree. -/
theorem Holds.newEntry (hs : Holds memMap nr s t) (hinv : s.alloc.Inv memMap nr) (hnr : nr ≤ maxFrame) (hf : t π = some f)
    (hd : π.length < 4) (hi : i < slots π) (hnone : t (i :: π) = none) (h : getZeroedPage s = some (v, s')) :
    ∃ g, v = virtual g ∧ Extended memMap nr s t
      { s' with mem := s'.mem.store (virtual f + 8 * i) (toPhy v ||| 7) 8 } (t.insert (i :: π) g) := by
  obtain ⟨g, rfl, hav, hinv', hlive, hmem, havail⟩ := getZeroedPage_ok hinv h
  have hg : g < maxFrame := Nat.lt_of_lt_of_le hav.lt_nr hnr
  have hfresh : ∀ ρ, t ρ ≠ some g := fun ρ hρ => hs.held ρ g hρ hav
  rw [hmem, toPhy_or hg]
  refine ⟨g, rfl, ⟨hs.ok.insert ⟨f, hf⟩ hi hd hfresh, Radix.forall_insert hg hs.bound, fun ρ h hh hρ j hj => ?_, ?_⟩,
    hinv', fun ρ h => Radix.insert_of_some hnone, Radix.forall_insert (.inr hav) fun ρ h => .inl, fun hl => ?_,
    fun y hy hty b hb => ?_, fun y hy => ?_, fun l hl _ => ?_⟩
  · rcases entry_insert hs.ok hf hi hnone hg hfresh hh hj rfl with he | ⟨hh, hsame, he⟩
    · exact .inl he
    · dsimp only
      rw [he, hsame]
      exact hs.table ρ h hh hρ j hj
  · simp only [havail]
    exact Radix.forall_insert (fun ha => ha.2 rfl) fun ρ h hh ha => hs.held ρ h hh ha.1
  · simp only [Live, hlive]
    exact Radix.forall_insert List.mem_cons_self fun ρ h hh => List.mem_cons_of_mem _ (hl ρ h hh)
  · have hyg : y ≠ g := fun he => hy (he ▸ hav)
    have hyf : y ≠ f := fun he => hty π (he ▸ hf)
    exact (store_apply_of_ne (Nat.lt_of_lt_of_le hi (slots_le π)) hb hyf).trans (write_apply_of_ne hb hyg)
  · exact .inl ((havail y).mp hy).1
  · rw [hlive]
    exact List.mem_cons_of_mem _ hl

/-- Only the memory has changed: frames of the tree, and no entries but those of missing pages. -/
theorem Holds.write (hs : Holds memMap nr s t) (hinv : s.alloc.Inv memMap nr) {m : Mem}
    (hframes : ∀ y, (∀ π, t π ≠ some y) → ∀ b, InFrame y b → m b = s.mem b)
    (htable : ∀ ρ h, t ρ = some h → ρ.length < 4 → ∀ j < slots ρ, entry m (virtual h) j = entry s.mem (virtual h) j ∨
      ρ.length = 3 ∧ t (j :: ρ) = none ∧ entry m (virtual h) j = nullEntry) :
    Extended memMap nr s t { s with mem := m } t := by
  refine ⟨⟨hs.ok, hs.bound, fun ρ h hh hρ j hj => ?_, hs.held⟩, hinv, fun _ _ => id, fun _ _ => .inl, id,
    fun y _ hty => hframes y hty, fun _ => .inl, fun _ hl _ => hl⟩
  rcases htable ρ h hh hρ j hj with hsame | hnull
  · dsimp only
    rw [hsame]
    exact hs.table ρ h hh hρ j hj
  · exact .inr hnull

/-- The entry of a missing page is left in a table of pages. -/
theorem Holds.write_nullEntry (hs : Holds memMap nr s t) (hinv : s.alloc.Inv memMap nr) (hf : t π = some f)
    (hd : π.length = 3) (hi : i < slots π) (hnone : t (i :: π) = none) :
    Extended memMap nr s t { s with mem := s.mem.store (virtual f + 8 * i) nullEntry 8 } t := by
  have hi' := Nat.lt_of_lt_of_le hi (slots_le π)
  refine hs.write hinv (fun y hty b hb => store_apply_of_ne hi' hb fun he => hty π (he ▸ hf)) fun ρ h hh _ j hj => ?_
  rcases eq_or_ne h f with rfl | hne
  · obtain rfl := hs.ok.inj ρ π h hh hf
    rcases eq_or_ne j i with rfl | hji
    · exact .inr ⟨hd, hnone, Mem.load_store (by decide)⟩
    · exact .inl (entry_store_of_ne hji)
  · exact .inl (entry_congr (fun b hb => store_apply_of_ne hi' hb hne) (Nat.lt_of_lt_of_le hj (slots_le ρ)))

theorem Holds.write_page (hs : Holds memMap nr s t) (hinv : s.alloc.Inv memMap nr) (value : UInt8) (hf : t π = some f)
    (hd : π.length = 4) (hb : InFrame f b) :
    Extended memMap nr s t { s with mem := Function.update s.mem b value } t := by
  have hother : ∀ y, y ≠ f → ∀ c, InFrame y c → Function.update s.mem b value c = s.mem c := by
    intro y hne c hc
    refine Function.update_of_ne ?_ _ _
    rintro rfl
    exact hne (hc.eq hb)
  refine hs.write hinv (fun y hty => hother y fun he => hty π (he ▸ hf)) fun ρ h hh hρ j hj => .inl ?_
  refine entry_congr (hother h ?_) (Nat.lt_of_lt_of_le hj (slots_le ρ))
  rintro rfl
  rw [hs.ok.inj ρ π h hh hf] at hρ
  omega

/-! ## `map_page` -/

theorem getZeroedPage_cases (hinv : s.alloc.Inv memMap nr) :
    (∃ r, getZeroedPage s = some r ∧ zeroedOrNull s = r) ∨ zeroedOrNull s = (0, s) := by
  cases h : getZeroedPage s with
  | some r => exact .inl ⟨r, rfl, zeroedOrNull_some h⟩
  | none =>
    rcases hinv.alloc_cases (show 0 < maxOrder by decide) with he | ⟨page, b', he, -⟩
    · right
      simp only [zeroedOrNull, he]
    · simp [getZeroedPage, he] at h

/-- The levels of `map_page` extend the tree down to the page, or the page is missing. -/
theorem Holds.levelsOrNull_ok (hs : Holds memMap nr s t) (hinv : s.alloc.Inv memMap nr) (hnr : nr ≤ maxFrame)
    (hf : t π = some f) (hd : π.length + is.length = 4) (hr : InRange π is)
    (h : levelsOrNull s (virtual f) is = .ok (v, s')) :
    ∃ t', Extended memMap nr s t s' t' ∧ (v ≠ 0 → ∃ g, v = virtual g ∧ t' (is.reverse ++ π) = some g) := by
  induction is generalizing s t π f with
  | nil =>
    cases h
    exact ⟨t, .refl hs hinv, fun _ => ⟨f, rfl, hf⟩⟩
  | cons i is ih =>
    rw [List.length_cons] at hd
    have hlength : (i :: π).length + is.length = 4 := by rw [List.length_cons]; omega
    have hnext : ∀ {r}, tableOrNull s (virtual f) i 7 = .ok r → levelsOrNull r.2 r.1 is = .ok (v, s') := by
      intro r hr'
      rwa [levelsOrNull, hr'] at h
    have hpath : (i :: is).reverse ++ π = is.reverse ++ i :: π := by simp
    rw [hpath]
    have hlevel := tableOrNull_virtual s f i
    -- a null pointer is returned, or read as the next table
    have hnull : ∀ {s₁}, tableOrNull s (virtual f) i 7 = .ok (0, s₁) → is = [] ∧ v = 0 ∧ s₁ = s' := by
      intro s₁ hs₁
      have hrest := hnext hs₁
      cases is with
      | nil =>
        cases hrest
        exact ⟨rfl, rfl, rfl⟩
      | cons j is => cases hrest
    cases hg : t (i :: π) with
    | some g =>
      have hentry := hs.entry_some hf (by omega) hr.1 hg
      rw [hentry, if_neg (pte_ne_zero g), toVir_pte (hs.bound _ g hg)] at hlevel
      exact ih hs hinv hg hlength hr.2 (hnext hlevel)
    | none =>
      rcases hs.table π f hf (by omega) i hr.1 with hentry | ⟨hthree, -, hentry⟩
      · rw [hentry, hg, if_pos (show pte none = 0 from rfl)] at hlevel
        rcases getZeroedPage_cases hinv with ⟨⟨w, s₁⟩, hpage, hzero⟩ | hzero
        · rw [hzero] at hlevel
          obtain ⟨g, rfl, hext⟩ := hs.newEntry hinv hnr hf (by omega) hr.1 hg hpage
          obtain ⟨t', hrest, hmapped⟩ := ih hext.holds hext.inv Radix.insert_self hlength hr.2 (hnext hlevel)
          exact ⟨t', hext.trans hrest, hmapped⟩
        · rw [hzero] at hlevel
          obtain ⟨rfl, rfl, rfl⟩ := hnull hlevel
          exact ⟨t, hs.write_nullEntry hinv hf (by simpa using hd) hr.1 hg, fun hne => absurd rfl hne⟩
      · rw [hentry, if_neg (by decide), show toVir (nullEntry &&& pageMask) = 0 by decide] at hlevel
        obtain ⟨rfl, rfl, rfl⟩ := hnull hlevel
        exact ⟨t, .refl hs hinv, fun hne => absurd rfl hne⟩

theorem Holds.mapPageOrNull_ok (hs : Holds memMap nr s t) (hinv : s.alloc.Inv memMap nr) (hnr : nr ≤ maxFrame)
    (hroot : t [] = some root) (ha : a < 2 ^ 47) (h : mapPageOrNull s (virtual root) a = .ok (v, s')) :
    ∃ t', Extended memMap nr s t s' t' ∧ (v ≠ 0 → ∃ g, v = virtual g ∧ t' (path a) = some g) := by
  rw [mapPageOrNull_eq_levels _ ha] at h
  exact hs.levelsOrNull_ok hinv hnr hroot rfl (inRange_indices ha) h

/-! ## What the processor finds -/

/-- On the way to a node of the tree there are only nodes of the tree. -/
theorem Holds.along (hs : Holds memMap nr s t) (hf : t π = some f) (hg : t (is.reverse ++ π) = some g) :
    is.foldlM (follow s.mem) (virtual f) = some (virtual g) ∧
      ∀ v ∈ walkAlong s.mem (virtual f) is, ∃ ρ h, t ρ = some h ∧ v = virtual h := by
  induction is generalizing π f with
  | nil =>
    rw [← Option.some.inj (hf.symm.trans hg)]
    exact ⟨rfl, fun v hv => ⟨π, f, hf, List.mem_singleton.mp hv⟩⟩
  | cons i is ih =>
    rw [show (i :: is).reverse ++ π = is.reverse ++ i :: π by simp] at hg
    obtain ⟨h, hh⟩ := hs.ok.exists_of_append ⟨g, hg⟩
    obtain ⟨-, hi, hd⟩ := hs.ok.closed _ _ h hh
    obtain ⟨hfold, hnodes⟩ := ih hh hg
    rw [List.foldlM_cons, walkAlong, hs.follow_some hf hd hi hh, Option.elim_some, List.forall_mem_cons]
    exact ⟨hfold, ⟨π, f, hf, rfl⟩, hnodes⟩

theorem Holds.walk_page (hs : Holds memMap nr s t) (hroot : t [] = some root) (hf : t (path a) = some f) :
    translate s.mem (virtual root) a = some (virtual f + a % 2 ^ 12) ∧
      ∀ v ∈ walk s.mem (virtual root) a, ∃ ρ h, t ρ = some h ∧ v = virtual h := by
  have hpath : t ((indices a).reverse ++ []) = some f := hf
  obtain ⟨hfold, hnodes⟩ := hs.along hroot hpath
  rw [translate_eq_foldlM, hfold]
  exact ⟨rfl, hnodes⟩

theorem Holds.follow_none (hs : Holds memMap nr s t) (hf : t π = some f) (hd : π.length < 4) (hi : i < slots π)
    (hnone : t (i :: π) = none) : follow s.mem (virtual f) i = none ∨ π.length = 3 ∧ follow s.mem (virtual f) i = some 0 := by
  rcases hs.table π f hf hd i hi with hentry | ⟨hthree, -, hentry⟩
  · rw [follow, hentry, hnone]
    exact .inl rfl
  · rw [follow, hentry]
    exact .inr ⟨hthree, by decide⟩

theorem Holds.foldlM_follow (hs : Holds memMap nr s t) (hf : t π = some f) (hd : π.length + is.length = 4)
    (hr : InRange π is) (h : is.foldlM (follow s.mem) (virtual f) = some v) :
    v = 0 ∨ ∃ g, v = virtual g ∧ t (is.reverse ++ π) = some g := by
  induction is generalizing π f with
  | nil =>
    cases h
    exact .inr ⟨f, rfl, hf⟩
  | cons i is ih =>
    rw [List.length_cons] at hd
    rw [List.foldlM_cons] at h
    rw [show (i :: is).reverse ++ π = is.reverse ++ i :: π by simp]
    cases hg : t (i :: π) with
    | some g =>
      rw [hs.follow_some hf (by omega) hr.1 hg] at h
      exact ih hg (by rw [List.length_cons]; omega) hr.2 h
    | none =>
      rcases hs.follow_none hf (by omega) hr.1 hg with hfollow | ⟨hthree, hfollow⟩
      · rw [hfollow] at h
        cases h
      · obtain rfl : is = [] := List.eq_nil_of_length_eq_zero (by omega)
        rw [hfollow] at h
        cases h
        exact .inl rfl

/-- What the processor finds in memory at an address is in the page of the tree. -/
theorem Holds.exists_page (hs : Holds memMap nr s t) (hroot : t [] = some root) (ha : a < 2 ^ 47)
    (h : translate s.mem (virtual root) a = some b) (hb : kernelOffset ≤ b) :
    ∃ f, t (path a) = some f ∧ b = virtual f + a % 2 ^ 12 := by
  rw [translate_eq_foldlM] at h
  obtain ⟨x, hx, rfl⟩ := Option.map_eq_some_iff.mp h
  rcases hs.foldlM_follow hroot rfl (inRange_indices ha) hx with rfl | ⟨g, rfl, hg⟩
  · have hmod : a % 2 ^ 12 < kernelOffset := Nat.lt_of_lt_of_le (Nat.mod_lt a (by decide)) (by decide)
    omega
  · exact ⟨g, hg, rfl⟩

end FengOS.Mm
