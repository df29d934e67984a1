import FengOS.Lib.Radix
import FengOS.Mm.BuddyTheorems
import FengOS.Mm.Page

/-!
# The tree of page tables
-/

namespace FengOS.Mm

open FengOS.Lib

variable {memMap : Nat → Page} {nr : Nat} {s s' s'' : Machine} {t t' t'' : Radix Nat} {π ρ is : List Nat}
  {f g i u v y a b : Nat} {m m' : Mem} {root : Nat} {P : List Nat → Prop} {levels : List Nat}

/-! ## Numbers -/

theorem and_pageMask {x : Nat} (h : x < 2 ^ 64) : x &&& pageMask = x / 2 ^ 12 * 2 ^ 12 := by
  have hmask : pageMask = (2 ^ 52 - 1) <<< 12 := by decide
  rw [hmask, ← Nat.shiftRight_eq_div_pow, ← Nat.shiftLeft_eq]
  apply Nat.eq_of_testBit_eq
  intro j
  simp only [Nat.testBit_and, Nat.testBit_shiftLeft, Nat.testBit_two_pow_sub_one, Nat.testBit_shiftRight]
  by_cases hj : 12 ≤ j
  · by_cases hj' : j < 64
    · simp [hj, Nat.add_sub_cancel' hj]
      omega
    · have hzero : x.testBit j = false :=
        Nat.testBit_lt_two_pow (Nat.lt_of_lt_of_le h (Nat.pow_le_pow_right Nat.two_pos (Nat.le_of_not_lt hj')))
      simp [hj, Nat.add_sub_cancel' hj, hzero]
  · simp [hj]

def maxFrame : Nat := 2 ^ 35

def pte : Option Nat → Nat
  | none => 0
  | some f => f * pageSize + 7

theorem pte_ne_zero (f : Nat) : pte (some f) ≠ 0 := Nat.succ_ne_zero _

theorem pte_lt (h : f < maxFrame) : pte (some f) < 2 ^ 64 := by
  simp only [pte, pageSize, maxFrame] at h ⊢
  omega

theorem toPhy_or (h : f < maxFrame) : toPhy (virtual f) ||| 7 = pte (some f) := by
  have hphy : toPhy (virtual f) = f <<< 12 := by
    simp only [toPhy, virtual, kernelOffset, pageSize, maxFrame, Nat.shiftLeft_eq] at h ⊢
    omega
  rw [hphy, ← Nat.shiftLeft_add_eq_or_of_lt (by decide), Nat.shiftLeft_eq]
  rfl

theorem pte_and_pageMask (h : f < maxFrame) : pte (some f) &&& pageMask = f * pageSize := by
  rw [and_pageMask (pte_lt h)]
  simp only [pte, pageSize]
  omega

theorem toVir_mul (h : f < maxFrame) : toVir (f * pageSize) = virtual f := by
  simp only [toVir, virtual, kernelOffset, pageSize, maxFrame] at h ⊢
  omega

theorem toVir_pte (h : f < maxFrame) : toVir (pte (some f) &&& pageMask) = virtual f := by
  rw [pte_and_pageMask h, toVir_mul h]

theorem toVir_and_pageMask {x : Nat} (hx : x < 2 ^ 64) : toVir x &&& pageMask = toVir (x &&& pageMask) := by
  have hlt : toVir x < 2 ^ 64 := Nat.mod_lt _ (by decide)
  rw [and_pageMask hlt, and_pageMask hx]
  simp only [toVir, kernelOffset]
  omega

/-! ## Frames -/

def InFrame (f b : Nat) : Prop := virtual f ≤ b ∧ b < virtual f + pageSize

theorem InFrame.eq (h : InFrame f b) (h' : InFrame g b) : f = g := by
  simp only [InFrame, virtual, pageSize] at h h'
  omega

theorem inFrame_entry (hi : i < prePageEntry) (hb : virtual f + 8 * i ≤ b) (hb' : b < virtual f + 8 * i + 8) :
    InFrame f b := by
  have hi' : i < 512 := hi
  simp only [InFrame, pageSize] at *
  omega

theorem entry_congr (h : ∀ b, InFrame f b → m' b = m b) (hi : i < prePageEntry) :
    entry m' (virtual f) i = entry m (virtual f) i :=
  Mem.load_congr fun _ hb hb' => h _ (inFrame_entry hi hb hb')

theorem entry_store_of_ne {value j : Nat} (h : i ≠ j) : entry (m.store (a + 8 * j) value 8) a i = entry m a i := by
  refine Mem.load_store_of_disjoint ?_
  omega

theorem write_apply_of_ne {data : Nat → UInt8} (hb : InFrame f b) (hne : f ≠ g) :
    m.write (virtual g) data pageSize b = m b := by
  refine Mem.write_apply ?_
  by_contra h
  exact hne (hb.eq ⟨by omega, by omega⟩)

theorem store_apply_of_ne {value : Nat} (hi : i < prePageEntry) (hb : InFrame f b) (hne : f ≠ g) :
    m.store (virtual g + 8 * i) value 8 b = m b := by
  refine Mem.store_apply ?_
  by_contra h
  exact hne (hb.eq (inFrame_entry hi (by omega) (by omega)))

/-! ## Fresh pages -/

theorem inBlock_zero : InBlock 0 f y ↔ y = f := by
  simp only [InBlock, Nat.pow_zero]
  omega

theorem getZeroedPage_ok (hinv : s.alloc.Inv memMap nr) (h : getZeroedPage s = some (v, s')) :
    ∃ g, v = virtual g ∧ s.alloc.Avail memMap nr g ∧ s'.alloc.Inv memMap nr ∧
      s'.alloc.live = (g, 0) :: s.alloc.live ∧ s'.mem = s.mem.write (virtual g) (fun _ => 0) pageSize ∧
      ∀ y, s'.alloc.Avail memMap nr y ↔ s.alloc.Avail memMap nr y ∧ y ≠ g := by
  unfold getZeroedPage at h
  rcases hinv.alloc_cases (show 0 < maxOrder by decide) with he | ⟨g, alloc, he, hinv', -⟩
  · rw [he] at h
    cases h
  · rw [he] at h
    cases h
    have hself : InBlock 0 g g := inBlock_zero.mpr rfl
    refine ⟨g, rfl, ⟨hinv'.usable g ⟨(g, 0), List.mem_cons_self, hself⟩, ?_⟩, hinv', rfl, rfl, fun y => ?_⟩
    · rintro ⟨l, hl, hg⟩
      exact (List.pairwise_cons.mp hinv'.disjoint).1 l hl g ⟨hself, hg⟩
    · simp only [BuddySys.Avail, BuddySys.Allocated, List.mem_cons, exists_eq_or_imp, inBlock_zero, not_or]
      tauto

theorem BuddySys.Avail.lt_nr {alloc : BuddySys} (h : alloc.Avail memMap nr y) : y < nr := h.1.1

/-! ## The tree -/

def slots : List Nat → Nat
  | [] => prePageEntry / 2
  | _ :: _ => prePageEntry

theorem slots_le (π : List Nat) : slots π ≤ prePageEntry := by
  cases π with
  | nil => exact Nat.div_le_self _ 2
  | cons i π => exact Nat.le_refl _

/-- The frames below a top table: the entries of tables name the children, and none is free. -/
structure Space (memMap : Nat → Page) (nr : Nat) (s : Machine) (t : Radix Nat) : Prop where
  ok : t.Ok slots 4
  bound : ∀ π f, t π = some f → f < maxFrame
  table : ∀ π f, t π = some f → π.length < 4 → ∀ i < slots π, entry s.mem (virtual f) i = pte (t (i :: π))
  held : ∀ π f, t π = some f → ¬ s.alloc.Avail memMap nr f

/-- The entry of a page that was missing. -/
def nullEntry : Nat := toPhy 0 ||| 7

/-- The same, but tables of pages may have entries of missing pages besides. -/
structure Holds (memMap : Nat → Page) (nr : Nat) (s : Machine) (t : Radix Nat) : Prop where
  ok : t.Ok slots 4
  bound : ∀ π f, t π = some f → f < maxFrame
  table : ∀ π f, t π = some f → π.length < 4 → ∀ i < slots π, entry s.mem (virtual f) i = pte (t (i :: π)) ∨
    π.length = 3 ∧ t (i :: π) = none ∧ entry s.mem (virtual f) i = nullEntry
  held : ∀ π f, t π = some f → ¬ s.alloc.Avail memMap nr f

theorem Space.holds (hs : Space memMap nr s t) : Holds memMap nr s t :=
  ⟨hs.ok, hs.bound, fun π f hf hd i hi => .inl (hs.table π f hf hd i hi), hs.held⟩

theorem Holds.entry_some (hs : Holds memMap nr s t) (hf : t π = some f) (hd : π.length < 4) (hi : i < slots π)
    (hg : t (i :: π) = some g) : entry s.mem (virtual f) i = pte (some g) := by
  rcases hs.table π f hf hd i hi with h | ⟨-, hnone, -⟩
  · rw [h, hg]
  · cases hnone.symm.trans hg

/-- The tree has grown by free frames at paths with `P`, and only they and entries of tables have changed. -/
structure Grown (memMap : Nat → Page) (nr : Nat) (P : List Nat → Prop) (s : Machine) (t : Radix Nat) (s' : Machine)
    (t' : Radix Nat) : Prop where
  space : Space memMap nr s' t'
  inv : s'.alloc.Inv memMap nr
  old : ∀ π f, t π = some f → t' π = some f
  new : ∀ π f, t' π = some f → t π = some f ∨ P π ∧ t π = none ∧ s.alloc.Avail memMap nr f
  avail : ∀ y, s'.alloc.Avail memMap nr y ↔ s.alloc.Avail memMap nr y ∧ ∀ π, t' π ≠ some y
  live : ∃ new : List Nat, s'.alloc.live = new.map (·, 0) ++ s.alloc.live ∧
    ∀ f, f ∈ new ↔ ∃ π, t' π = some f ∧ t π = none
  mem : ∀ b, s'.mem b = s.mem b ∨ (∃ y, s.alloc.Avail memMap nr y ∧ InFrame y b) ∨
    ∃ π f, t π = some f ∧ π.length < 4 ∧ ∃ i < slots π, virtual f + 8 * i ≤ b ∧ b < virtual f + 8 * i + 8

theorem Grown.refl (hs : Space memMap nr s t) (hinv : s.alloc.Inv memMap nr) : Grown memMap nr P s t s t where
  space := hs
  inv := hinv
  old _ _ := id
  new _ _ := Or.inl
  avail y := ⟨fun hy => ⟨hy, fun π hπ => hs.held π y hπ hy⟩, And.left⟩
  live := ⟨[], rfl, fun _ => ⟨nofun, fun ⟨_, hf, hn⟩ => nomatch hf.symm.trans hn⟩⟩
  mem _ := Or.inl rfl

theorem Grown.mono {P Q : List Nat → Prop} (h : Grown memMap nr P s t s' t') (hPQ : ∀ π, P π → Q π) :
    Grown memMap nr Q s t s' t' where
  __ := h
  new π f hf := (h.new π f hf).imp_right fun ⟨hP, hn⟩ => ⟨hPQ π hP, hn⟩

theorem Grown.eq_none (h : Grown memMap nr P s t s' t') (hn : t' π = none) : t π = none := by
  cases ht : t π with
  | none => rfl
  | some g => exact nomatch hn.symm.trans (h.old π g ht)

theorem Grown.trans (h : Grown memMap nr P s t s' t') (h' : Grown memMap nr P s' t' s'' t'') :
    Grown memMap nr P s t s'' t'' where
  space := h'.space
  inv := h'.inv
  old π f hf := h'.old π f (h.old π f hf)
  new π f hf := by
    rcases h'.new π f hf with hf' | ⟨hP, hn, ha⟩
    · exact h.new π f hf'
    · exact Or.inr ⟨hP, h.eq_none hn, ((h.avail f).mp ha).1⟩
  avail y := by
    rw [h'.avail, h.avail]
    constructor
    · rintro ⟨⟨ha, -⟩, hn⟩
      exact ⟨ha, hn⟩
    · rintro ⟨ha, hn⟩
      exact ⟨⟨ha, fun π hπ => hn π (h'.old π y hπ)⟩, hn⟩
  live := by
    obtain ⟨new, hlive, hnew⟩ := h.live
    obtain ⟨new', hlive', hnew'⟩ := h'.live
    refine ⟨new' ++ new, by simp [hlive, hlive'], fun f => ?_⟩
    rw [List.mem_append, hnew, hnew']
    constructor
    · rintro (⟨π, hf, hn⟩ | ⟨π, hf, hn⟩)
      · exact ⟨π, hf, h.eq_none hn⟩
      · exact ⟨π, h'.old π f hf, hn⟩
    · rintro ⟨π, hf, hn⟩
      cases ht : t' π with
      | none => exact Or.inl ⟨π, hf, ht⟩
      | some g =>
        obtain rfl := Option.some.inj (hf.symm.trans (h'.old π g ht))
        exact Or.inr ⟨π, ht, hn⟩
  mem b := by
    rcases h'.mem b with he | ⟨y, ha, hb⟩ | ⟨π, f, hf, hd, i, hi, hb, hb'⟩
    · rw [he]
      exact h.mem b
    · exact Or.inr (Or.inl ⟨y, ((h.avail y).mp ha).1, hb⟩)
    · rcases h.new π f hf with hf' | ⟨-, -, ha⟩
      · exact Or.inr (Or.inr ⟨π, f, hf', hd, i, hi, hb, hb'⟩)
      · exact Or.inr (Or.inl ⟨f, ha, inFrame_entry (Nat.lt_of_lt_of_le hi (slots_le π)) hb hb'⟩)

/-! ## One level -/

/-- The entries of the tables with a new one: it is empty, and one entry of its parent has changed. -/
theorem entry_insert (hok : t.Ok slots 4) (hf : t π = some f) (hi : i < slots π) (hnone : t (i :: π) = none) (hg : g < maxFrame)
    (hfresh : ∀ ρ, t ρ ≠ some g) {h j : Nat} (hh : t.insert (i :: π) g ρ = some h) (hj : j < slots ρ)
    (hm : m' = (m.write (virtual g) (fun _ => 0) pageSize).store (virtual f + 8 * i) (pte (some g)) 8) :
    entry m' (virtual h) j = pte (t.insert (i :: π) g (j :: ρ)) ∨
      t ρ = some h ∧ t.insert (i :: π) g (j :: ρ) = t (j :: ρ) ∧ entry m' (virtual h) j = entry m (virtual h) j := by
  subst hm
  have hlt : ∀ {ρ j}, j < slots ρ → j < prePageEntry := fun hj => Nat.lt_of_lt_of_le hj (slots_le _)
  have hgf : g ≠ f := fun he => hfresh π (he ▸ hf)
  rcases eq_or_ne ρ (i :: π) with rfl | hne
  · rw [Radix.insert_self] at hh
    obtain rfl := Option.some.inj hh
    rw [Radix.insert_of_ne (by simp), hok.eq_none hnone]
    refine .inl (Mem.load_eq_zero fun b hb hb' => ?_)
    have hin := inFrame_entry (hlt hj) hb hb'
    rw [store_apply_of_ne (hlt hi) hin hgf]
    exact if_pos hin
  · rw [Radix.insert_of_ne hne] at hh
    have hgh : h ≠ g := fun he => hfresh ρ (he ▸ hh)
    have hwrite : ∀ b, InFrame h b → m.write (virtual g) (fun _ => 0) pageSize b = m b :=
      fun b hb => write_apply_of_ne hb hgh
    rcases eq_or_ne ρ π with rfl | hρπ
    · obtain rfl := Option.some.inj (hh.symm.trans hf)
      rcases eq_or_ne j i with rfl | hji
      · rw [Radix.insert_self]
        exact .inl (Mem.load_store (pte_lt hg))
      · refine .inr ⟨hh, Radix.insert_of_ne (by simp [hji]), ?_⟩
        rw [entry_store_of_ne hji, entry_congr hwrite (hlt hj)]
    · have hhf : h ≠ f := fun he => hρπ (hok.inj ρ π f (he ▸ hh) hf)
      refine .inr ⟨hh, Radix.insert_of_ne (by simp [hρπ]), ?_⟩
      exact entry_congr (fun b hb => (store_apply_of_ne (hlt hi) hb hhf).trans (hwrite b hb)) (hlt hj)

theorem Space.newEntry_grown (hs : Space memMap nr s t) (hinv : s.alloc.Inv memMap nr) (hnr : nr ≤ maxFrame)
    (hf : t π = some f) (hd : π.length < 4) (hi : i < slots π) (hnone : t (i :: π) = none)
    (h : newEntry s (virtual f) i 7 = some (v, s')) :
    ∃ g, v = virtual g ∧ Grown memMap nr (· = i :: π) s t s' (t.insert (i :: π) g) := by
  obtain ⟨⟨w, s₁⟩, hzero, h⟩ := Option.bind_eq_some_iff.mp h
  cases h
  obtain ⟨g, rfl, hav, hinv₁, hlive, hmem, havail⟩ := getZeroedPage_ok hinv hzero
  have hg : g < maxFrame := Nat.lt_of_lt_of_le hav.lt_nr hnr
  have hfresh : ∀ ρ, t ρ ≠ some g := fun ρ hρ => hs.held ρ g hρ hav
  refine ⟨g, rfl, ?_⟩
  constructor
  case space =>
    constructor
    case ok => exact hs.ok.insert ⟨f, hf⟩ hi hd hfresh
    case bound => exact Radix.forall_insert hg hs.bound
    case table =>
      intro ρ h hh hρ j hj
      rw [hmem, toPhy_or hg]
      rcases entry_insert hs.ok hf hi hnone hg hfresh hh hj rfl with he | ⟨hh, hsame, he⟩
      · exact he
      · rw [he, hsame, hs.table ρ h hh hρ j hj]
    case held =>
      simp only [havail]
      exact Radix.forall_insert (fun ha => ha.2 rfl) fun ρ h hh ha => hs.held ρ h hh ha.1
  case inv => exact hinv₁
  case old => exact fun ρ h => Radix.insert_of_some hnone
  case new => exact Radix.forall_insert (Or.inr ⟨rfl, hnone, hav⟩) fun ρ h => Or.inl
  case avail =>
    intro y
    rw [havail]
    constructor
    · rintro ⟨ha, hne⟩
      refine ⟨ha, fun ρ hρ => ?_⟩
      rcases Radix.insert_eq_some hρ with ⟨-, rfl⟩ | hρ
      · exact hne rfl
      · exact hs.held ρ y hρ ha
    · rintro ⟨ha, hn⟩
      refine ⟨ha, ?_⟩
      rintro rfl
      exact hn _ Radix.insert_self
  case live =>
    refine ⟨[g], by simp [hlive], fun h => ?_⟩
    rw [List.mem_singleton]
    constructor
    · rintro rfl
      exact ⟨i :: π, Radix.insert_self, hnone⟩
    · rintro ⟨ρ, hh, hn⟩
      rcases Radix.insert_eq_some hh with ⟨-, rfl⟩ | hh
      · rfl
      · cases hn.symm.trans hh
  case mem =>
    intro b
    by_cases hslot : virtual f + 8 * i ≤ b ∧ b < virtual f + 8 * i + 8
    · exact Or.inr (Or.inr ⟨π, f, hf, hd, i, hi, hslot⟩)
    · by_cases hframe : InFrame g b
      · exact Or.inr (Or.inl ⟨g, hav, hframe⟩)
      · left
        have hout : b < virtual g ∨ virtual g + pageSize ≤ b := by
          simp only [InFrame] at hframe
          omega
        refine (Mem.store_apply (by omega)).trans ?_
        rw [hmem, Mem.write_apply hout]

theorem Space.nextTable_grown (hs : Space memMap nr s t) (hinv : s.alloc.Inv memMap nr) (hnr : nr ≤ maxFrame)
    (hf : t π = some f) (hd : π.length < 4) (hi : i < slots π) (h : nextTable s (virtual f) i 7 = some (v, s')) :
    ∃ g t', v = virtual g ∧ t' (i :: π) = some g ∧ Grown memMap nr (· = i :: π) s t s' t' := by
  unfold nextTable at h
  rw [hs.table π f hf hd i hi] at h
  cases ht : t (i :: π) with
  | none =>
    rw [ht] at h
    obtain ⟨g, rfl, hgrown⟩ := hs.newEntry_grown hinv hnr hf hd hi ht h
    exact ⟨g, _, rfl, Radix.insert_self, hgrown⟩
  | some g =>
    rw [ht, if_neg (pte_ne_zero g), toVir_pte (hs.bound _ g ht)] at h
    cases h
    exact ⟨g, t, rfl, ht, .refl hs hinv⟩

theorem Space.nextTable_eq (hs : Space memMap nr s t) (hf : t π = some f) (hd : π.length < 4) (hi : i < slots π)
    (hg : t (i :: π) = some g) : nextTable s (virtual f) i 7 = some (virtual g, s) := by
  unfold nextTable
  rw [hs.table π f hf hd i hi, hg, if_neg (pte_ne_zero g), toVir_pte (hs.bound _ g hg)]

theorem getZeroedPage_none (hinv : s.alloc.Inv memMap nr) (h : getZeroedPage s = none) (y : Nat) :
    ¬ s.alloc.Avail memMap nr y := by
  intro hy
  obtain ⟨k, p, hp, -⟩ := (hinv.avail_iff y).mp hy
  unfold getZeroedPage BuddySys.alloc at h
  rcases allocPages_spec hinv.canon (show 0 < 8 by decide) with ⟨page, b', he, -⟩ | ⟨-, hempty⟩
  · rw [he] at h
    cases h
  · rw [hempty k (Nat.zero_le k)] at hp
    cases hp

theorem Space.nextTable_none (hs : Space memMap nr s t) (hinv : s.alloc.Inv memMap nr) (hf : t π = some f)
    (hd : π.length < 4) (hi : i < slots π) (h : nextTable s (virtual f) i 7 = none) :
    t (i :: π) = none ∧ ∀ y, ¬ s.alloc.Avail memMap nr y := by
  cases ht : t (i :: π) with
  | some g =>
    rw [hs.nextTable_eq hf hd hi ht] at h
    cases h
  | none =>
    refine ⟨rfl, ?_⟩
    rw [nextTable, hs.table π f hf hd i hi, ht, if_pos (show pte none = 0 from rfl), newEntry] at h
    cases hzero : getZeroedPage s with
    | none => exact getZeroedPage_none hinv hzero
    | some r =>
      rw [hzero] at h
      cases h

/-! ## The levels in a row -/

/-- The levels of `map_page` along the indices. -/
def nextLevels (s : Machine) (table : Nat) : List Nat → Option (Nat × Machine)
  | [] => some (table, s)
  | i :: is => (nextTable s table i 7).bind fun r => nextLevels r.2 r.1 is

/-- The indices are in the tables below the node. -/
def InRange : List Nat → List Nat → Prop
  | _, [] => True
  | π, i :: is => i < slots π ∧ InRange (i :: π) is

theorem inRange_indices (hu : u < 2 ^ 47) : InRange [] (indices u) := by
  refine ⟨?_, Nat.mod_lt _ (by decide), Nat.mod_lt _ (by decide), Nat.mod_lt _ (by decide), trivial⟩
  show _ < 256
  omega

/-- All tables and the page are there or made, or pages run out on the way. -/
theorem Space.nextLevels_cases (hs : Space memMap nr s t) (hinv : s.alloc.Inv memMap nr) (hnr : nr ≤ maxFrame)
    (hf : t π = some f) (hd : π.length + is.length ≤ 4) (hr : InRange π is) :
    ∃ s' t', Grown memMap nr (fun ρ => π.length < ρ.length ∧ ρ <:+ is.reverse ++ π) s t s' t' ∧
      ((∃ g, nextLevels s (virtual f) is = some (virtual g, s') ∧ t' (is.reverse ++ π) = some g) ∨
        nextLevels s (virtual f) is = none ∧ (∀ y, ¬ s'.alloc.Avail memMap nr y) ∧
          ∃ ρ, (π.length < ρ.length ∧ ρ <:+ is.reverse ++ π) ∧ t' ρ = none) := by
  induction is generalizing s t π f with
  | nil => exact ⟨s, t, .refl hs hinv, .inl ⟨f, rfl, hf⟩⟩
  | cons i is ih =>
    rw [List.length_cons] at hd
    have hnode : π.length < (i :: π).length ∧ i :: π <:+ is.reverse ++ i :: π := ⟨by simp, List.suffix_append _ _⟩
    rw [nextLevels, show (i :: is).reverse ++ π = is.reverse ++ i :: π by simp]
    cases hnext : nextTable s (virtual f) i 7 with
    | none =>
      obtain ⟨hnone, hempty⟩ := hs.nextTable_none hinv hf (by omega) hr.1 hnext
      exact ⟨s, t, .refl hs hinv, .inr ⟨rfl, hempty, _, hnode, hnone⟩⟩
    | some r =>
      obtain ⟨v, s₁⟩ := r
      obtain ⟨g, t₁, rfl, hg, hgrown⟩ := hs.nextTable_grown hinv hnr hf (by omega) hr.1 hnext
      obtain ⟨s', t', hrest, hcases⟩ := ih hgrown.space hgrown.inv hg (by rw [List.length_cons]; omega) hr.2
      refine ⟨s', t', (hgrown.mono (by rintro _ rfl; exact hnode)).trans
        (hrest.mono fun ρ hρ => ⟨Nat.lt_of_succ_lt hρ.1, hρ.2⟩), hcases.imp_right ?_⟩
      rintro ⟨hrun, hempty, ρ, hρ, hnone⟩
      exact ⟨hrun, hempty, ρ, ⟨Nat.lt_of_succ_lt hρ.1, hρ.2⟩, hnone⟩

theorem Space.nextLevels_of_mapped (hs : Space memMap nr s t) (hf : t π = some f) (hg : t (is.reverse ++ π) = some g) :
    nextLevels s (virtual f) is = some (virtual g, s) := by
  induction is generalizing π f with
  | nil => rw [nextLevels, Option.some.inj (hf.symm.trans hg)]
  | cons i is ih =>
    rw [show (i :: is).reverse ++ π = is.reverse ++ i :: π by simp] at hg
    obtain ⟨h, hh⟩ := hs.ok.exists_of_append ⟨g, hg⟩
    obtain ⟨-, hi, hd⟩ := hs.ok.closed _ _ h hh
    rw [nextLevels, hs.nextTable_eq hf hd hi hh, Option.bind_some]
    exact ih hh hg

/-! ## `map_page` -/

def path (u : Nat) : List Nat := [u / 2 ^ 12 % 512, u / 2 ^ 21 % 512, u / 2 ^ 30 % 512, u / 2 ^ 39]

theorem path_eq_iff (hu : u < 2 ^ 47) (hv : v < 2 ^ 47) : path u = path v ↔ u / 2 ^ 12 = v / 2 ^ 12 := by
  simp only [path, List.cons.injEq, and_true]
  omega

theorem mapPage_index (hu : u < 2 ^ 47) : u &&& (2 ^ 48 - 1) = u ∧ (u &&& (2 ^ 39 - 1)) / 2 ^ 30 = u / 2 ^ 30 % 512 ∧
    (u &&& (2 ^ 39 - 1) &&& (2 ^ 30 - 1)) / 2 ^ 21 = u / 2 ^ 21 % 512 ∧
    (u &&& (2 ^ 39 - 1) &&& (2 ^ 30 - 1) &&& (2 ^ 21 - 1)) / 2 ^ 12 = u / 2 ^ 12 % 512 := by
  simp only [Nat.and_two_pow_sub_one_eq_mod]
  omega

theorem entry_lt {m : Mem} {table ind : Nat} : entry m table ind < 2 ^ 64 := Mem.load_lt

theorem lastPage_eq_nextTable (s : Machine) (pt ind attr : Nat) : lastPage s pt ind attr = nextTable s pt ind attr := by
  rw [lastPage, nextTable, toVir_and_pageMask entry_lt]

theorem mapPage_eq_nextLevels (pgd : Nat) (hu : u < 2 ^ 47) : mapPage s pgd u = nextLevels s pgd (indices u) := by
  obtain ⟨h₁, h₂, h₃, h₄⟩ := mapPage_index hu
  have hend : ∀ (x : Option (Nat × Machine)), x.bind (fun r => some (r.1, r.2)) = x := fun x => by cases x <;> rfl
  unfold mapPage
  simp only [h₁, h₂, h₃, h₄, lastPage_eq_nextTable, indices, nextLevels, hend]
  rfl

theorem Space.mapPage_grown (hs : Space memMap nr s t) (hinv : s.alloc.Inv memMap nr)
    (hnr : nr ≤ maxFrame) (hroot : t [] = some root) (hu : u < 2 ^ 47) (h : mapPage s (virtual root) u = some (v, s')) :
    ∃ g t', v = virtual g ∧ t' (path u) = some g ∧ Grown memMap nr (fun π => π ≠ [] ∧ π <:+ path u) s t s' t' := by
  rw [mapPage_eq_nextLevels _ hu] at h
  obtain ⟨s₁, t', hgrown, ⟨g, hrun, hg⟩ | ⟨hrun, -⟩⟩ :=
    hs.nextLevels_cases hinv hnr hroot (by exact Nat.le_refl 4) (inRange_indices hu)
  · cases h.symm.trans hrun
    exact ⟨g, t', rfl, hg, hgrown.mono fun ρ hρ => ⟨List.ne_nil_of_length_pos hρ.1, hρ.2⟩⟩
  · cases h.symm.trans hrun

theorem Space.mapPage_none (hs : Space memMap nr s t) (hinv : s.alloc.Inv memMap nr) (hnr : nr ≤ maxFrame)
    (hroot : t [] = some root) (hu : u < 2 ^ 47) (h : mapPage s (virtual root) u = none) :
    ∃ s' t', Grown memMap nr (fun π => π ≠ [] ∧ π <:+ path u) s t s' t' ∧ (∀ y, ¬ s'.alloc.Avail memMap nr y) ∧
      ∃ π, (π ≠ [] ∧ π <:+ path u) ∧ t' π = none := by
  rw [mapPage_eq_nextLevels _ hu] at h
  obtain ⟨s', t', hgrown, ⟨g, hrun, -⟩ | ⟨-, hempty, ρ, hρ, hnone⟩⟩ :=
    hs.nextLevels_cases hinv hnr hroot (by exact Nat.le_refl 4) (inRange_indices hu)
  · cases h.symm.trans hrun
  · exact ⟨s', t', hgrown.mono fun ρ hρ => ⟨List.ne_nil_of_length_pos hρ.1, hρ.2⟩, hempty, ρ,
      ⟨List.ne_nil_of_length_pos hρ.1, hρ.2⟩, hnone⟩

theorem Space.mapPage_of_mapped (hs : Space memMap nr s t) (hroot : t [] = some root) (hu : u < 2 ^ 47)
    (hg : t (path u) = some g) : mapPage s (virtual root) u = some (virtual g, s) := by
  rw [mapPage_eq_nextLevels _ hu]
  exact hs.nextLevels_of_mapped hroot hg

/-! ## Walks -/

theorem Holds.follow_some (hs : Holds memMap nr s t) (hf : t π = some f) (hd : π.length < 4) (hi : i < slots π)
    (hg : t (i :: π) = some g) : follow s.mem (virtual f) i = some (virtual g) := by
  have hodd : pte (some g) % 2 ≠ 0 := by
    simp only [pte, pageSize]
    omega
  rw [follow, hs.entry_some hf hd hi hg, if_neg hodd, toVir_pte (hs.bound _ g hg)]

theorem Space.follow_eq (hs : Space memMap nr s t) (hf : t π = some f) (hd : π.length < 4) (hi : i < slots π) :
    follow s.mem (virtual f) i = (t (i :: π)).map virtual := by
  cases ht : t (i :: π) with
  | none =>
    rw [follow, hs.table π f hf hd i hi, ht]
    rfl
  | some g => rw [hs.holds.follow_some hf hd hi ht, Option.map_some]

theorem translate_eq_foldlM (m : Mem) (pgd u : Nat) :
    translate m pgd u = ((indices u).foldlM (follow m) pgd).map (· + u % 2 ^ 12) := by
  simp only [translate, indices, List.foldlM_cons, List.foldlM_nil, Option.bind_eq_bind, Option.map_bind,
    Function.comp_def, Option.pure_def, Option.map_some]

theorem Space.foldlM_follow (hs : Space memMap nr s t) (hf : t π = some f) (hd : π.length + is.length ≤ 4)
    (hr : InRange π is) : is.foldlM (follow s.mem) (virtual f) = (t (is.reverse ++ π)).map virtual := by
  induction is generalizing π f with
  | nil =>
    rw [List.reverse_nil, List.nil_append, hf]
    rfl
  | cons i is ih =>
    rw [List.length_cons] at hd
    rw [List.foldlM_cons, hs.follow_eq hf (by omega) hr.1, show (i :: is).reverse ++ π = is.reverse ++ i :: π by simp]
    cases hg : t (i :: π) with
    | none =>
      rw [hs.ok.eq_none_of_append hg]
      rfl
    | some g => exact ih hg (by rw [List.length_cons]; omega) hr.2

theorem Space.translate_eq (hs : Space memMap nr s t) (hroot : t [] = some root) (hu : u < 2 ^ 47) :
    translate s.mem (virtual root) u = (t (path u)).map fun f => virtual f + u % 2 ^ 12 := by
  rw [translate_eq_foldlM, hs.foldlM_follow hroot (by exact Nat.le_refl 4) (inRange_indices hu), Option.map_map]
  rfl

theorem and_high (hu : u < 2 ^ 48) : u &&& (0xffff <<< 48) = 0 := by
  apply Nat.eq_of_testBit_eq
  intro j
  rw [Nat.testBit_and, Nat.testBit_shiftLeft, Nat.zero_testBit]
  by_cases hj : 48 ≤ j
  · rw [Nat.testBit_lt_two_pow (Nat.lt_of_lt_of_le hu (Nat.pow_le_pow_right Nat.two_pos hj)), Bool.false_and]
  · simp [hj]

theorem mul_or_mod (f u : Nat) : f * pageSize ||| u % 2 ^ 12 = f * pageSize + u % 2 ^ 12 := by
  have hshift : f * pageSize = f <<< 12 := (Nat.shiftLeft_eq f 12).symm
  rw [hshift, ← Nat.shiftLeft_add_eq_or_of_lt (Nat.mod_lt u (by decide))]

theorem toVir_or_mod {x : Nat} (hx : x < 2 ^ 64) :
    toVir ((x &&& pageMask) ||| a % 2 ^ 12) = toVir (x &&& pageMask) + a % 2 ^ 12 := by
  have hpage : x &&& pageMask = x / 2 ^ 12 * pageSize := and_pageMask hx
  rw [hpage, mul_or_mod]
  simp only [toVir, kernelOffset, pageSize]
  omega

theorem kmap_eq_walkEnd (m : Mem) (pgd : Nat) (ha : a < 2 ^ 47) : kmap m pgd a = walkEnd m a shifts pgd + a % 2 ^ 12 := by
  obtain ⟨-, h₂, h₃, h₄⟩ := mapPage_index ha
  have h₁ : a / 2 ^ 39 % 512 = a / 2 ^ 39 := Nat.mod_eq_of_lt (by omega)
  have hoffset : (a &&& (2 ^ 39 - 1) &&& (2 ^ 30 - 1) &&& (2 ^ 21 - 1)) % 2 ^ 12 = a % 2 ^ 12 := by
    simp only [Nat.and_two_pow_sub_one_eq_mod]
    omega
  unfold kmap
  rw [if_neg (not_not.mpr (and_high (Nat.lt_trans ha (by decide))))]
  simp only [h₂, h₃, h₄, hoffset]
  rw [toVir_or_mod entry_lt]
  unfold walkEnd shifts
  rw [List.foldl_cons, List.foldl_cons, List.foldl_cons, List.foldl_cons, List.foldl_nil]
  unfold below
  rw [h₁]

theorem walkEnd_cons {m : Mem} {shift table : Nat} :
    walkEnd m a (shift :: levels) table = walkEnd m a levels (below m a shift table) := by
  unfold walkEnd
  rw [List.foldl_cons]

theorem walkPage_cons {m : Mem} {shift table : Nat} : walkPage m a (shift :: levels) table =
      if entry m table (a / 2 ^ shift % 512) = 0 then none else walkPage m a levels (below m a shift table) := by
  unfold walkPage
  rw [List.foldlM_cons]
  split
  · rw [Option.bind_eq_bind, Option.bind_none]
  · rw [Option.bind_eq_bind, Option.bind_some]

theorem walkEnd_of_walkPage {m : Mem} {page : Nat} {table : Nat}
    (h : walkPage m a levels table = some page) : walkEnd m a levels table = page := by
  induction levels generalizing table with
  | nil => exact Option.some.inj h
  | cons shift levels ih =>
    rw [walkPage_cons] at h
    rw [walkEnd_cons]
    split at h
    · cases h
    · exact ih h

theorem Space.walkPage_along (hs : Space memMap nr s t) (hf : t π = some f) (hd : π.length + levels.length ≤ 4)
    (hr : InRange π (levels.map fun shift => a / 2 ^ shift % 512)) : walkPage s.mem a levels (virtual f) =
      (t ((levels.map fun shift => a / 2 ^ shift % 512).reverse ++ π)).map virtual := by
  induction levels generalizing π f with
  | nil =>
    rw [List.map_nil, List.reverse_nil, List.nil_append, hf]
    rfl
  | cons shift levels ih =>
    rw [List.length_cons] at hd
    rw [List.map_cons] at hr ⊢
    rw [walkPage_cons, below, hs.table π f hf (by omega) _ hr.1, List.reverse_cons, List.append_assoc, List.singleton_append]
    cases hg : t (a / 2 ^ shift % 512 :: π) with
    | none =>
      rw [hs.ok.eq_none_of_append hg]
      exact if_pos rfl
    | some g =>
      rw [if_neg (pte_ne_zero g), toVir_pte (hs.bound _ _ hg)]
      exact ih hg (by rw [List.length_cons]; omega) hr.2

theorem Space.walkPage_eq (hs : Space memMap nr s t) (hroot : t [] = some root) (ha : a < 2 ^ 47) :
    walkPage s.mem a shifts (virtual root) = (t (path a)).map virtual := by
  have hshifts : (shifts.map fun shift => a / 2 ^ shift % 512) = indices a := by
    simp only [shifts, indices, List.map_cons, List.map_nil, Nat.mod_eq_of_lt (show a / 2 ^ 39 < 512 by omega)]
  rw [hs.walkPage_along hroot (by exact Nat.le_refl 4) (hshifts ▸ inRange_indices ha), hshifts]
  rfl

theorem Space.kmap_eq (hs : Space memMap nr s t) (hroot : t [] = some root) (hu : u < 2 ^ 47)
    (hg : t (path u) = some g) : kmap s.mem (virtual root) u = virtual g + u % 2 ^ 12 := by
  have hpage : walkPage s.mem u shifts (virtual root) = some (virtual g) := by
    rw [hs.walkPage_eq hroot hu, hg, Option.map_some]
  rw [kmap_eq_walkEnd _ _ hu, walkEnd_of_walkPage hpage]

/-! ## Calls of `map_page` -/

def emptyTree (root : Nat) : Radix Nat
  | [] => some root
  | _ :: _ => none

theorem EmptyLower.space (h : EmptyLower s root) (hinv : s.alloc.Inv memMap nr) : Space memMap nr s (emptyTree root) := by
  have hnil : ∀ {π f}, emptyTree root π = some f → π = [] ∧ f = root := by
    intro π f hf
    cases π with
    | nil => exact ⟨rfl, (Option.some.inj hf).symm⟩
    | cons i π => cases hf
  constructor
  case ok => exact ⟨nofun, fun π ρ f hπ hρ => (hnil hπ).1.trans (hnil hρ).1.symm⟩
  case bound =>
    rintro π f hf
    obtain ⟨-, rfl⟩ := hnil hf
    exact h.bound
  case table =>
    rintro π f hf - i hi
    obtain ⟨rfl, rfl⟩ := hnil hf
    exact h.empty i hi
  case held =>
    rintro π f hf ha
    obtain ⟨-, rfl⟩ := hnil hf
    obtain ⟨k, p, hp, hin⟩ := (hinv.avail_iff f).mp ha
    exact h.held k p hp hin

theorem mapPages_cons (pgd : Nat) (us : List Nat) : mapPages pgd s (u :: us) =
    (mapPage s pgd u).bind fun p => (mapPages pgd p.2 us).bind fun q => some (p.1 :: q.1, q.2) := rfl

theorem Space.mapPages_grown {us vs : List Nat} (hs : Space memMap nr s t)
    (hinv : s.alloc.Inv memMap nr) (hnr : nr ≤ maxFrame) (hroot : t [] = some root) (hus : ∀ u ∈ us, u < 2 ^ 47)
    (h : mapPages (virtual root) s us = some (vs, s')) :
    ∃ t', Grown memMap nr (fun π => π ≠ [] ∧ ∃ u ∈ us, π <:+ path u) s t s' t' ∧
      List.Forall₂ (fun u v => ∃ g, v = virtual g ∧ t' (path u) = some g) us vs := by
  induction us generalizing s t vs with
  | nil =>
    cases h
    exact ⟨t, .refl hs hinv, .nil⟩
  | cons u us ih =>
    rw [mapPages_cons] at h
    obtain ⟨⟨v, s₁⟩, hmap, h⟩ := Option.bind_eq_some_iff.mp h
    obtain ⟨⟨vs', s₂⟩, hmaps, h⟩ := Option.bind_eq_some_iff.mp h
    cases h
    obtain ⟨hu, hus'⟩ := List.forall_mem_cons.mp hus
    obtain ⟨g, t₁, rfl, hg, hgrown⟩ := hs.mapPage_grown hinv hnr hroot hu hmap
    obtain ⟨t', hgrown', hall⟩ := ih hgrown.space hgrown.inv (hgrown.old [] root hroot) hus' hmaps
    refine ⟨t', (hgrown.mono ?_).trans (hgrown'.mono ?_), .cons ⟨g, rfl, hgrown'.old _ g hg⟩ hall⟩
    · exact fun π hπ => ⟨hπ.1, u, List.mem_cons_self, hπ.2⟩
    · exact fun π ⟨hne, w, hw, hsuffix⟩ => ⟨hne, w, List.mem_cons_of_mem u hw, hsuffix⟩

theorem Grown.mapped {us : List Nat}
    (h : Grown memMap nr (fun π => π ≠ [] ∧ ∃ u ∈ us, π <:+ path u) s (emptyTree root) s' t') (hg : t' (path a) = some g) :
    ∃ u ∈ us, path a = path u := by
  rcases h.new _ g hg with hold | ⟨⟨-, u, hu, hsuffix⟩, -⟩
  · cases hold
  · exact ⟨u, hu, hsuffix.eq_of_length rfl⟩

theorem Grown.other (h : Grown memMap nr (fun π => π ≠ [] ∧ π <:+ path u) s t s' t') (ha : a < 2 ^ 47)
    (hu : u < 2 ^ 47) (hne : a / 2 ^ 12 ≠ u / 2 ^ 12) : t' (path a) = t (path a) := by
  cases ht : t (path a) with
  | some g => exact h.old _ g ht
  | none =>
    cases ht' : t' (path a) with
    | none => rfl
    | some g =>
      rcases h.new _ g ht' with hold | ⟨⟨-, hsuffix⟩, -⟩
      · cases ht.symm.trans hold
      · exact absurd ((path_eq_iff ha hu).mp (hsuffix.eq_of_length rfl)) hne

theorem Grown.frame_eq (h : Grown memMap nr P s t s' t') (hy : ¬ s.alloc.Avail memMap nr y)
    (htable : ∀ π, t π = some y → 4 ≤ π.length) (hb : InFrame y b) : s'.mem b = s.mem b := by
  rcases h.mem b with he | ⟨z, hz, hbz⟩ | ⟨π, f, hf, hd, i, hi, hslot, hslot'⟩
  · exact he
  · exact absurd (hb.eq hbz ▸ hz) hy
  · have hfy : f = y := (inFrame_entry (Nat.lt_of_lt_of_le hi (slots_le π)) hslot hslot').eq hb
    exact absurd hd (Nat.not_lt.mpr (htable π (hfy ▸ hf)))

theorem Grown.upper_eq (h : Grown memMap nr P s t s' t')
    (hs : Space memMap nr s t) (hroot : t [] = some root) (hlo : prePageEntry / 2 ≤ i) (hi : i < prePageEntry) :
    entry s'.mem (virtual root) i = entry s.mem (virtual root) i := by
  refine Mem.load_congr fun b hb hb' => ?_
  have hroot' : InFrame root b := inFrame_entry hi hb hb'
  rcases h.mem b with he | ⟨z, hz, hbz⟩ | ⟨π, f, hf, hd, j, hj, hslot, hslot'⟩
  · exact he
  · exact absurd hz (hs.held [] z (hroot'.eq hbz ▸ hroot))
  · have hfr : f = root := (inFrame_entry (Nat.lt_of_lt_of_le hj (slots_le π)) hslot hslot').eq hroot'
    obtain rfl : π = [] := hs.ok.inj π [] root (hfr ▸ hf) hroot
    have hj' : j < prePageEntry / 2 := hj
    subst hfr
    omega

end FengOS.Mm
