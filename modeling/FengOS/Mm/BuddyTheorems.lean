import FengOS.Mm.BuddyRun
import FengOS.Mm.Lemmas.Alloc
import FengOS.Mm.Lemmas.Init

/-!
# The buddy allocator over whole runs
-/

namespace FengOS.Mm

open FengOS.Lib FengOS.Lib.Dyadic

variable {memMap : Nat → Page} {nr : Nat} {s s' : BuddySys} {addr page order : Nat}

theorem inBlock_iff {k p y : Nat} (hp : 2 ^ k ∣ p) : y / 2 ^ k = p / 2 ^ k ↔ InBlock k p y := div_pow_eq_iff hp

/-! ## The invariant -/

def BuddySys.Avail (memMap : Nat → Page) (nr : Nat) (s : BuddySys) (y : Nat) : Prop :=
  Usable memMap nr y ∧ ¬ s.Allocated y

structure BuddySys.Inv (memMap : Nat → Page) (nr : Nat) (s : BuddySys) : Prop where
  canon : Canon (s.Avail memMap nr) s.buddy
  activate : s.buddy.activate = s.live.map Prod.fst
  aligned : ∀ l ∈ s.live, l.2 < maxOrder ∧ 2 ^ l.2 ∣ l.1
  usable : ∀ y, s.Allocated y → Usable memMap nr y
  disjoint : s.live.Pairwise fun l l' => ∀ y, ¬ (InBlock l.2 l.1 y ∧ InBlock l'.2 l'.1 y)

theorem BuddySys.Inv.nodup (h : s.Inv memMap nr) : (s.live.map Prod.fst).Nodup := by
  refine List.pairwise_map.mpr (h.disjoint.imp ?_)
  intro l l' hd he
  refine hd l.1 ⟨⟨le_refl _, Nat.lt_add_of_pos_right (Nat.two_pow_pos _)⟩, ?_⟩
  rw [he]
  exact ⟨le_refl _, Nat.lt_add_of_pos_right (Nat.two_pow_pos _)⟩

theorem BuddySys.inv_init (memMap : Nat → Page) (nr : Nat) : (BuddySys.init memMap nr).Inv memMap nr where
  canon := (buddySystemInit_canon memMap nr).congr fun y => by simp [Avail, Allocated, BuddySys.init]
  activate := by simp [BuddySys.init]
  aligned := by simp [BuddySys.init]
  usable := by simp [BuddySys.init, Allocated]
  disjoint := by simp [BuddySys.init]

theorem BuddySys.Inv.alloc {order page : Nat} {b' : Buddy} (h : s.Inv memMap nr) (ho : order < maxOrder)
    (hal : 2 ^ order ∣ page) (hf : Full (s.Avail memMap nr) order page)
    (hc : Canon (fun y => s.Avail memMap nr y ∧ y / 2 ^ order ≠ page / 2 ^ order) b')
    (ha : b'.activate = page :: s.buddy.activate) : BuddySys.Inv memMap nr ⟨b', (page, order) :: s.live⟩ where
  canon := hc.congr fun y => by
    simp only [Avail, Allocated, List.mem_cons, exists_eq_or_imp, not_or, ne_eq, inBlock_iff hal]
    tauto
  activate := by simp [ha, h.activate]
  aligned := by
    rintro l (_ | hl)
    · exact ⟨ho, hal⟩
    · exact h.aligned l (by assumption)
  usable := by
    rintro y ⟨l, hl, hy⟩
    rcases List.mem_cons.mp hl with rfl | hl
    · exact (hf y ((inBlock_iff hal).mpr hy)).1
    · exact h.usable y ⟨l, hl, hy⟩
  disjoint := by
    refine List.pairwise_cons.mpr ⟨fun l hl y hy => ?_, h.disjoint⟩
    exact (hf y ((inBlock_iff hal).mpr hy.1)).2 ⟨l, hl, hy.2⟩

theorem BuddySys.Inv.mem_filter (h : s.Inv memMap nr) (hl : (page, order) ∈ s.live)
    (ha : pageLowerAlign addr = virtual page) (l : Nat × Nat) :
    l ∈ s.live.filter (fun l => virtual l.1 ≠ pageLowerAlign addr) ↔ l ∈ s.live ∧ l ≠ (page, order) := by
  simp only [List.mem_filter, ha, ne_eq, decide_not, Bool.not_eq_eq_eq_not, Bool.not_true,
    decide_eq_false_iff_not, and_congr_right_iff]
  intro hm
  constructor
  · rintro hv rfl
    exact hv rfl
  · intro hne hv
    refine hne ?_
    have hp : l.1 = page := virtual_injective hv
    exact List.inj_on_of_nodup_map h.nodup hm hl hp

theorem BuddySys.Inv.filter_fst {addr page : Nat} (h : s.Inv memMap nr) (ha : pageLowerAlign addr = virtual page) :
    (s.live.filter fun l => virtual l.1 ≠ pageLowerAlign addr).map Prod.fst = s.buddy.activate.erase page := by
  rw [h.activate, h.nodup.erase_eq_filter, List.filter_map]
  congr 1
  refine List.filter_congr fun l _ => ?_
  simp only [ha, Function.comp_apply, ne_eq, decide_not, Bool.not_eq_eq_eq_not]
  by_cases he : l.1 = page
  · simp [he]
  · have : virtual l.1 ≠ virtual page := fun hv => he (virtual_injective hv)
    simp [he, this]

theorem BuddySys.Inv.free (h : s.Inv memMap nr) (hl : (page, order) ∈ s.live) (ha : pageLowerAlign addr = virtual page) :
    (s.free addr order).Inv memMap nr := by
  have hmem := h.mem_filter hl ha
  have hp : page ∈ s.buddy.activate := by
    rw [h.activate]
    exact List.mem_map.mpr ⟨_, hl, rfl⟩
  obtain ⟨ho, hal⟩ := h.aligned _ hl
  have hblock : ∀ y, InBlock order page y → Usable memMap nr y := fun y hy => h.usable y ⟨_, hl, hy⟩
  have hins := blockInsert_canon (b := { s.buddy with activate := s.buddy.activate.erase page }) page order
    ⟨h.canon.sorted, h.canon.mem⟩ ho hal
    (fun y hy hav => hav.2 ⟨_, hl, (inBlock_iff hal).mp hy⟩)
  -- a page of another live block is not in the freed one
  have hother : ∀ y l, l ∈ s.live → l ≠ (page, order) → InBlock l.2 l.1 y → ¬ InBlock order page y := by
    intro y l hlm hne hy hy'
    have hsymm : Std.Symm fun l l' : Nat × Nat => ∀ y, ¬ (InBlock l.2 l.1 y ∧ InBlock l'.2 l'.1 y) :=
      ⟨fun _ _ hd y hy => hd y hy.symm⟩
    exact h.disjoint.forall hlm hl hne y ⟨hy, hy'⟩
  constructor
  · rw [BuddySys.free, freePages_of_mem hp ha]
    refine hins.congr fun y => ?_
    simp only [Avail, Allocated, hmem, inBlock_iff hal]
    constructor
    · rintro (⟨hu, hna⟩ | hy)
      · exact ⟨hu, fun ⟨l, hlm, hy⟩ => hna ⟨l, hlm.1, hy⟩⟩
      · exact ⟨hblock y hy, fun ⟨l, hlm, hy'⟩ => hother y l hlm.1 hlm.2 hy' hy⟩
    · rintro ⟨hu, hna⟩
      by_cases hy : InBlock order page y
      · exact Or.inr hy
      · refine Or.inl ⟨hu, fun ⟨l, hlm, hy'⟩ => hna ⟨l, ⟨hlm, ?_⟩, hy'⟩⟩
        rintro rfl
        exact hy hy'
  · rw [BuddySys.free, freePages_of_mem hp ha, blockInsert_activate, h.filter_fst ha]
  · exact fun l hlm => h.aligned l ((hmem l).mp hlm).1
  · rintro y ⟨l, hlm, hy⟩
    exact h.usable y ⟨l, ((hmem l).mp hlm).1, hy⟩
  · exact h.disjoint.sublist List.filter_sublist

theorem BuddySys.Inv.alloc_cases {order : Nat} (h : s.Inv memMap nr) (ho : order < maxOrder) :
    s.alloc order = (none, s) ∨ ∃ page b', s.alloc order = (some page, ⟨b', (page, order) :: s.live⟩) ∧
      BuddySys.Inv memMap nr ⟨b', (page, order) :: s.live⟩ ∧ ∀ y, (b'.memMap y).slab = (s.buddy.memMap y).slab := by
  simp only [BuddySys.alloc]
  rcases allocPages_spec h.canon ho with ⟨page, b', he, hal, hf, hc, ha, -, hslab⟩ | ⟨he, -⟩
  · rw [he]
    exact Or.inr ⟨page, b', rfl, h.alloc ho hal hf hc ha, hslab⟩
  · rw [he]
    exact Or.inl rfl

theorem BuddySys.Inv.step {op : BuddyOp} (h : s.Inv memMap nr) (hok : s.ok op) (hs : s.step op = some s') :
    s'.Inv memMap nr := by
  cases op with
  | alloc order =>
    obtain rfl := Option.some.inj hs
    rcases h.alloc_cases hok with he | ⟨page, b', he, hinv, -⟩
    · rwa [he]
    · rwa [he]
  | free addr order =>
    obtain ⟨page, hl, ha⟩ := hok
    obtain rfl := Option.some.inj hs
    exact h.free hl ha

theorem BuddySys.Reach.inv (h : BuddySys.Reach memMap nr s) : s.Inv memMap nr :=
  h.invariant (by rintro _ rfl; exact BuddySys.inv_init memMap nr) fun _ _ _ hi hok hs => hi.step hok hs

/-! ## The partition of memory -/

/-- The free blocks and the live blocks partition the usable pages. -/
structure BuddySys.Partition (memMap : Nat → Page) (nr : Nat) (s : BuddySys) : Prop where
  sorted : ∀ k, (s.buddy.block k).Pairwise (· < ·)
  free_aligned : ∀ k, ∀ p ∈ s.buddy.block k, k < maxOrder ∧ 2 ^ k ∣ p
  live_aligned : ∀ l ∈ s.live, l.2 < maxOrder ∧ 2 ^ l.2 ∣ l.1
  free_disjoint : ∀ k k' p p', p ∈ s.buddy.block k → p' ∈ s.buddy.block k' → (k, p) ≠ (k', p') →
    ∀ y, ¬ (InBlock k p y ∧ InBlock k' p' y)
  live_disjoint : s.live.Pairwise fun l l' => ∀ y, ¬ (InBlock l.2 l.1 y ∧ InBlock l'.2 l'.1 y)
  free_live_disjoint : ∀ k, ∀ p ∈ s.buddy.block k, ∀ l ∈ s.live, ∀ y, ¬ (InBlock k p y ∧ InBlock l.2 l.1 y)
  cover : ∀ y, y < nr ∧ (memMap y).reserve = false ↔
    (∃ k, ∃ p ∈ s.buddy.block k, InBlock k p y) ∨ ∃ l ∈ s.live, InBlock l.2 l.1 y

theorem BuddySys.Inv.avail_iff (h : s.Inv memMap nr) (y : Nat) :
    s.Avail memMap nr y ↔ ∃ k, ∃ p ∈ s.buddy.block k, InBlock k p y := by
  constructor
  · intro hy
    obtain ⟨k, hk⟩ := exists_max (K := 7) hy
    obtain ⟨p, hp, hcell⟩ := h.canon.exists_mem hk
    exact ⟨k, p, hp, (inBlock_iff ((h.canon.mem k p).mp hp).1).mp hcell⟩
  · rintro ⟨k, p, hp, hy⟩
    obtain ⟨hd, hm⟩ := (h.canon.mem k p).mp hp
    exact hm.full y ((inBlock_iff hd).mpr hy)

theorem BuddySys.Inv.partition (h : s.Inv memMap nr) : s.Partition memMap nr where
  sorted := h.canon.sorted
  free_aligned k p hp := by
    obtain ⟨hd, hm⟩ := (h.canon.mem k p).mp hp
    exact ⟨Nat.lt_succ_of_le hm.le, hd⟩
  live_aligned := h.aligned
  free_disjoint k k' p p' hp hp' hne y hy := by
    obtain ⟨hd, hm⟩ := (h.canon.mem k p).mp hp
    obtain ⟨hd', hm'⟩ := (h.canon.mem k' p').mp hp'
    obtain ⟨rfl, rfl⟩ := hm.eq_of_common hm' hd hd' ((inBlock_iff hd).mpr hy.1) ((inBlock_iff hd').mpr hy.2)
    exact hne rfl
  live_disjoint := h.disjoint
  free_live_disjoint k p hp l hl y hy := ((h.avail_iff y).mpr ⟨k, p, hp, hy.1⟩).2 ⟨l, hl, hy.2⟩
  cover y := by
    rw [← h.avail_iff]
    constructor
    · intro hu
      by_cases ha : s.Allocated y
      · exact Or.inr ha
      · exact Or.inl ⟨hu, ha⟩
    · rintro (hy | hy)
      · exact hy.1
      · exact h.usable y hy

theorem BuddySys.Inv.freePage_iff {y : Nat} (h : s.Inv memMap nr) : s.FreePage y ↔ s.Avail memMap nr y := by
  rw [h.avail_iff]
  constructor
  · rintro ⟨k, -, p, hp, hy⟩
    exact ⟨k, p, hp, hy⟩
  · rintro ⟨k, p, hp, hy⟩
    exact ⟨k, (h.partition.free_aligned k p hp).1, p, hp, hy⟩

/-- The free and the live blocks partition the pages that are not reserved; an allocation hands out a free block of the
order, and freeing what is not the start of a live block changes nothing. -/
theorem buddy_partition (h : BuddySys.Reach memMap nr s) :
    s.Partition memMap nr ∧
    (∀ order page b', order < maxOrder → allocPages s.buddy order = (some page, b') →
      2 ^ order ∣ page ∧ (∀ y, InBlock order page y → ∃ k, ∃ p ∈ s.buddy.block k, InBlock k p y) ∧
      BuddySys.Partition memMap nr ⟨b', (page, order) :: s.live⟩) ∧
    (∀ addr order, (∀ l ∈ s.live, pageLowerAlign addr ≠ virtual l.1) → freePages s.buddy addr order = s.buddy) := by
  have hinv := h.inv
  refine ⟨hinv.partition, fun order page b' ho he => ?_, fun addr order hno => ?_⟩
  · rcases allocPages_spec hinv.canon ho with ⟨page', b'', he', hal, hf, hc, ha, -, -⟩ | ⟨he', -⟩
    · rw [he] at he'
      obtain ⟨hpage, rfl⟩ := Prod.mk.inj he'
      obtain rfl := Option.some.inj hpage
      exact ⟨hal, fun y hy => (hinv.avail_iff y).mp (hf y ((inBlock_iff hal).mpr hy)),
        (hinv.alloc ho hal hf hc ha).partition⟩
    · rw [he] at he'
      cases he'
  · refine freePages_of_not_mem fun p hp => ?_
    rw [hinv.activate] at hp
    obtain ⟨l, hl, rfl⟩ := List.mem_map.mp hp
    exact hno l hl

def fourPagesAlloc : BuddySys :=
  ⟨(allocPages (buddySystemInit firstReserved 4) 0).2, [(1, 0)]⟩

theorem fourPagesAlloc_reach : BuddySys.Reach firstReserved 4 fourPagesAlloc :=
  .step (a := BuddyOp.alloc 0) (.init rfl) (show 0 < maxOrder by decide) rfl

theorem buddy_partition_fourPages : fourPagesAlloc.Partition firstReserved 4 :=
  (buddy_partition fourPagesAlloc_reach).1

/-! ## The lists depend on the allocated pages alone -/

theorem BuddySys.Inv.block_eq (h : s.Inv memMap nr) (h' : s'.Inv memMap nr)
    (hsame : ∀ y, s.Allocated y ↔ s'.Allocated y) : s.buddy.block = s'.buddy.block :=
  h.canon.unique (h'.canon.congr fun y => by simp only [Avail, hsame])

def freeAll (b : Buddy) (ls : List (Nat × Nat)) : Buddy :=
  ls.foldl (fun b l => freePages b (virtual l.1) l.2) b

theorem BuddySys.Inv.freeAll (h : s.Inv memMap nr) (ls : List (Nat × Nat)) (hperm : ls.Perm s.live) :
    BuddySys.Inv memMap nr ⟨freeAll s.buddy ls, []⟩ := by
  induction ls generalizing s with
  | nil =>
    have hnil : s.live = [] := hperm.symm.eq_nil
    obtain ⟨b, live⟩ := s
    cases hnil
    exact h
  | cons l ls ih =>
    have hl : (l.1, l.2) ∈ s.live := hperm.mem_iff.mp (by simp)
    have hfree := h.free hl (pageLowerAlign_virtual l.1)
    refine ih hfree ?_
    have hnd : s.live.Nodup := h.nodup.of_map
    refine (List.perm_ext_iff_of_nodup (hperm.nodup_iff.mpr hnd).of_cons (hnd.filter _)).mpr fun l' => ?_
    rw [h.mem_filter hl (pageLowerAlign_virtual l.1), ← hperm.mem_iff, List.mem_cons]
    have hnot : l ∉ ls := (List.nodup_cons.mp (hperm.nodup_iff.mpr hnd)).1
    constructor
    · intro hm
      refine ⟨Or.inr hm, ?_⟩
      rintro rfl
      exact hnot hm
    · rintro ⟨rfl | hm, hne⟩
      · exact absurd rfl hne
      · exact hm

/-- Runs that end with the same allocated pages end with the same free lists, no two buddies are both free, and freeing all
blocks gives the lists of `buddy_system_init`. -/
theorem free_lists_determined (h : BuddySys.Reach memMap nr s) (h' : BuddySys.Reach memMap nr s') :
    ((∀ y, s.Allocated y ↔ s'.Allocated y) → ∀ k, s.buddy.block k = s'.buddy.block k) ∧
    (∀ k p, k < maxOrder - 1 → 2 ^ (k + 1) ∣ p → ¬ (p ∈ s.buddy.block k ∧ p + 2 ^ k ∈ s.buddy.block k)) ∧
    (∀ ls : List (Nat × Nat), ls.Perm s.live →
      ∀ k, (freeAll s.buddy ls).block k = (buddySystemInit memMap nr).block k) := by
  refine ⟨fun hsame k => congrFun (h.inv.block_eq h'.inv hsame) k, fun k p hk hp hboth => ?_, fun ls hperm k => ?_⟩
  · obtain ⟨_, hm⟩ := (h.inv.canon.mem k p).mp hboth.1
    obtain ⟨_, hm'⟩ := (h.inv.canon.mem k _).mp hboth.2
    exact hm.not_full (Nat.lt_succ_self k) hk (Full.succ hp hm.full hm'.full)
  · refine congrFun ((h.inv.freeAll ls hperm).block_eq (BuddySys.inv_init memMap nr) fun y => ?_) k
    simp [BuddySys.Allocated, BuddySys.init]

theorem free_lists_determined_fourPages :
    (freeAll fourPagesAlloc.buddy [(1, 0)]).block 0 = (buddySystemInit firstReserved 4).block 0 :=
  (free_lists_determined fourPagesAlloc_reach fourPagesAlloc_reach).2.2 [(1, 0)] (List.Perm.refl _) 0

/-! ## An allocation fails only when there is no run -/

theorem BuddySys.Inv.exists_block {order p : Nat} (h : s.Inv memMap nr) (ho : order < maxOrder)
    (hf : Full (s.Avail memMap nr) order p) : ∃ k, order ≤ k ∧ s.buddy.block k ≠ [] := by
  obtain ⟨k, hle, hk⟩ := hf.exists_max (K := 7) (Nat.le_of_lt_succ ho)
  obtain ⟨q, hq, -⟩ := h.canon.exists_mem hk
  exact ⟨k, hle, List.ne_nil_of_mem hq⟩

/-- The pages of an aligned run of `2 ^ order` pages that are neither reserved nor allocated. -/
def BuddySys.FreeRun (memMap : Nat → Page) (nr : Nat) (s : BuddySys) (order p : Nat) : Prop :=
  2 ^ order ∣ p ∧ ∀ y, InBlock order p y → y < nr ∧ (memMap y).reserve = false ∧ ¬ s.Allocated y

theorem BuddySys.freeRun_iff {order p : Nat} :
    s.FreeRun memMap nr order p ↔ 2 ^ order ∣ p ∧ Full (s.Avail memMap nr) order p := by
  refine and_congr_right fun hd => forall_congr' fun y => ?_
  rw [inBlock_iff hd, Avail, Usable, and_assoc]

theorem BuddySys.Inv.exists_alloc_iff {order : Nat} (h : s.Inv memMap nr) (ho : order < maxOrder) :
    (∃ page s', s.alloc order = (some page, s')) ↔ ∃ p, s.FreeRun memMap nr order p := by
  simp only [BuddySys.freeRun_iff, BuddySys.alloc]
  rcases allocPages_spec h.canon ho with ⟨page, b', he, hal, hf, -⟩ | ⟨he, hempty⟩
  · rw [he]
    exact ⟨fun _ => ⟨page, hal, hf⟩, fun _ => ⟨page, _, rfl⟩⟩
  · rw [he]
    refine ⟨fun ⟨_, _, hsome⟩ => (nomatch (Prod.mk.inj hsome).1), fun ⟨p, _, hf⟩ => ?_⟩
    obtain ⟨k, hle, hne⟩ := h.exists_block ho hf
    exact absurd (hempty k hle) hne

/-- `__alloc_pages` returns a block exactly if there is an aligned run of free pages; otherwise nothing changes. -/
theorem alloc_iff_freeRun (h : BuddySys.Reach memMap nr s) {order : Nat} (ho : order < maxOrder) :
    ((∃ page, (allocPagesRaw s.buddy order).1 = some page) ↔ ∃ p, s.FreeRun memMap nr order p) ∧
      ((allocPagesRaw s.buddy order).1 = none → (allocPagesRaw s.buddy order).2 = s.buddy) := by
  have hinv := h.inv
  have hspec := allocPagesRaw_spec hinv.canon ho
  simp only [BuddySys.freeRun_iff]
  cases hr : allocPagesRaw s.buddy order with
  | mk r b =>
    rw [hr] at hspec
    cases hspec with
    | @some page _ hal hf _ _ _ => exact ⟨⟨fun _ => ⟨page, hal, hf⟩, fun _ => ⟨page, rfl⟩⟩, nofun⟩
    | none hempty =>
      refine ⟨⟨fun ⟨_, he⟩ => (nomatch he), fun ⟨p, _, hf⟩ => ?_⟩, fun _ => rfl⟩
      obtain ⟨k, hle, hne⟩ := hinv.exists_block ho hf
      exact absurd (hempty k hle) hne

theorem alloc_iff_freeRun_fourPages : (∃ p, fourPagesAlloc.FreeRun firstReserved 4 1 p) ∧
    ¬ ∃ p, fourPagesAlloc.FreeRun firstReserved 4 2 p := by
  obtain ⟨htwo, -⟩ := alloc_iff_freeRun fourPagesAlloc_reach (show 1 < maxOrder by decide)
  obtain ⟨hfour, -⟩ := alloc_iff_freeRun fourPagesAlloc_reach (show 2 < maxOrder by decide)
  refine ⟨htwo.mp ⟨2, by decide⟩, fun hrun => ?_⟩
  obtain ⟨page, hpage⟩ := hfour.mpr hrun
  have hnone : (allocPagesRaw fourPagesAlloc.buddy 2).1 = none := by decide
  rw [hnone] at hpage
  cases hpage

end FengOS.Mm
