import FengOS.Mm.Lemmas.SlabInv

/-!
# The operations of the slab allocator keep the invariant
-/

namespace FengOS.Mm

variable {memMap : Nat → Page} {nr : Nat} {strict : Prop} {s : SlabSys} {C : Cache} {S : Slab} {c p obj : Nat}
  {m : BuddySys} {C' : Cache} {s' : SlabSys} {cache : Nat → Cache}

theorem inc32_eq {n : Nat} (h : n < bufctlEnd) : inc32 n = n + 1 := by
  simp only [inc32, bufctlEnd] at *
  omega

theorem dec32_eq {n : Nat} (h₀ : 0 < n) (h : n < bufctlEnd) : dec32 n = n - 1 := by
  simp only [dec32, bufctlEnd] at *
  omega

theorem SlabSys.setCache_self (s : SlabSys) (c : Nat) : s.setCache c (s.cache c) = s := by
  simp [SlabSys.setCache]

theorem BuddySys.Inv.tag (h : m.Inv memMap nr) (f : Nat → Page) :
    BuddySys.Inv memMap nr { m with buddy := { m.buddy with memMap := f } } :=
  ⟨⟨h.canon.sorted, h.canon.mem⟩, h.activate, h.aligned, h.usable, h.disjoint⟩

theorem BuddySys.Inv.free_new {live : List (Nat × Nat)} {k : Nat} (h : m.Inv memMap nr) (hlive : m.live = (p, k) :: live) :
    (m.free (virtual p) k).Inv memMap nr ∧ (m.free (virtual p) k).live = live ∧
      (m.free (virtual p) k).buddy.memMap = m.buddy.memMap := by
  have hmem : (p, k) ∈ m.live := by rw [hlive]; exact List.mem_cons_self ..
  refine ⟨h.free hmem (pageLowerAlign_virtual p), ?_, ?_⟩
  · have hnd := h.nodup
    simp only [BuddySys.free, pageLowerAlign_virtual, hlive, ne_eq, List.map_cons] at hnd ⊢
    rw [List.filter_cons_of_neg (by simp)]
    refine List.filter_eq_self.mpr fun l hl => ?_
    have hne : l.1 ≠ p := ne_of_mem_of_not_mem (List.mem_map_of_mem hl) (List.nodup_cons.mp hnd).1
    simpa using fun hv => hne (virtual_injective hv)
  · have hp : p ∈ m.buddy.activate := by
      rw [h.activate]
      exact List.mem_map.mpr ⟨_, hmem, rfl⟩
    simp [BuddySys.free, freePages_of_mem hp (pageLowerAlign_virtual p)]

/-! ## What the operations write -/

def Slab.taken (S : Slab) : Slab := { S with free := S.free + 1, inuse := S.inuse + 1 }

theorem SlabOk.taken (hS : SlabOk C p S) (hlt : S.inuse < C.num) : SlabOk C p S.taken :=
  ⟨hS.sMem, hS.length, hS.endMark, hS.index, by simp [Slab.taken, hS.free], hlt⟩

def Slab.fresh (C : Cache) (p : Nat) : Slab :=
  { sMem := virtual p + headSize C.num, inuse := 0, free := 0, array := List.range C.num ++ [bufctlEnd] }

theorem SlabOk.fresh (C : Cache) (p : Nat) : SlabOk C p (Slab.fresh C p) where
  sMem := rfl
  length := by simp [Slab.fresh]
  endMark := by simp [Slab.fresh, List.getD_eq_getElem?_getD]
  index i hi := by
    have hget : (List.range C.num ++ [bufctlEnd])[i]? = some i := by
      rw [List.getElem?_append_left (by rw [List.length_range]; exact hi), List.getElem?_range hi]
    simp only [Slab.fresh, List.getD_eq_getElem?_getD, hget, Option.getD_some, hi]
  free := rfl
  le := Nat.zero_le _

def Slab.given (S : Slab) (ind : Nat) : Slab :=
  { S with free := S.free - 1, inuse := S.inuse - 1, array := S.array.set (S.free - 1) ind }

def Cache.given (C : Cache) (S : Slab) (p : Nat) : Cache :=
  if S.inuse = 1 then { C.toFree p with freeSlab := C.freeSlab + 1 } else C

theorem SlabOk.given {ind : Nat} (hS : SlabOk C p S) (hpos : 0 < S.inuse) (hind : ind < C.num) :
    SlabOk C p (S.given ind) := by
  have hle := hS.le
  obtain ⟨h₁, h₂, h₃⟩ := hS.set (j := S.free - 1) (by rw [hS.free]; omega) hind
  exact ⟨hS.sMem, h₁, h₂, h₃, by simp [Slab.given, hS.free], by simp only [Slab.given]; omega⟩

theorem Cache.Like.given (hnd : C.slabs.Nodup) (hp : p ∈ C.slabs) : (C.given S p).Like C := by
  rw [Cache.given]
  split
  · exact Cache.Like.toFree hnd hp
  · exact Cache.Like.refl C

/-! ## One slab -/

theorem slabAlloc_some (hC : (s.cache c).Geom) (hS : SlabOk (s.cache c) p (s.slab p))
    (hlt : (s.slab p).inuse < (s.cache c).num) :
    slabAlloc s c p = (some ((s.slab p).sMem + (s.cache c).size * (s.slab p).array.getD (s.slab p).inuse 0),
      (s.setSlab p (s.slab p).taken).setCache c
        (if (s.slab p).inuse + 1 = (s.cache c).num then (s.cache c).toFull p else s.cache c)) := by
  have hnum := hC.num_lt
  have hidx := hS.index _ hlt
  have huse : inc32 (s.slab p).inuse = (s.slab p).inuse + 1 := inc32_eq (by omega)
  have htaken : (s.slab p).array.getD (s.slab p).inuse 0 ≠ bufctlEnd := by omega
  have hend := hS.at_end_iff hC (i := (s.slab p).inuse + 1) (by omega)
  simp only [slabAlloc, Slab.taken, hS.free, huse, ne_eq, htaken, not_false_eq_true, if_true, hend]
  split
  · rfl
  · exact Prod.ext rfl (SlabSys.setCache_self _ c).symm

theorem slabAlloc_none (hS : SlabOk (s.cache c) p (s.slab p)) (hfull : (s.slab p).inuse = (s.cache c).num) :
    slabAlloc s c p = (none, (s.setSlab p (s.slab p)).setCache c ((s.cache c).toFull p)) := by
  have hend : (s.slab p).array.getD (s.slab p).free 0 = bufctlEnd := by rw [hS.free, hfull, hS.endMark]
  simp only [slabAlloc, hend, ne_eq, not_true_eq_false, if_false, if_true]

theorem cacheFree_of_slabOf {ind : Nat} (hC : (s.cache c).Geom) (hS : SlabOk (s.cache c) p (s.slab p))
    (hof : slabOf s c obj = some p) (hindex : slabIndex (s.cache c) (s.slab p) obj = some ind)
    (hpos : 0 < (s.slab p).inuse) : cacheFree s c obj = some ((s.setSlab p ((s.slab p).given ind)).setCache c
      (if (s.slab p).inuse = 1 then { (s.cache c).toFree p with freeSlab := inc32 (s.cache c).freeSlab }
        else s.cache c)) := by
  have hle := hS.le
  have hnum := hC.num_lt
  have hdec : dec32 (s.slab p).inuse = (s.slab p).inuse - 1 := dec32_eq hpos (by omega)
  have hne : (s.slab p).inuse ≠ 0 := by omega
  have hone : (s.slab p).inuse - 1 = 0 ↔ (s.slab p).inuse = 1 := by omega
  simp only [cacheFree, hof, Option.orElse_some, hindex, Option.getD_some, hS.free, ne_eq, hne, not_false_eq_true,
    if_true, hdec, hone, Slab.given]

namespace SlabSys.Inv

/-! ## Allocating from a slab -/

theorem slabAlloc_eq (hC : (s.cache c).Geom) (hS : SlabOk (s.cache c) p (s.slab p))
    (hlt : (s.slab p).inuse < (s.cache c).num) : ∃ obj, ObjAt (s.cache c) (s.slab p).taken obj ∧
      slabAlloc s c p = (some obj, (s.setSlab p (s.slab p).taken).setCache c
        (if (s.slab p).inuse + 1 = (s.cache c).num then (s.cache c).toFull p else s.cache c)) :=
  ⟨_, ⟨_, hS.index _ hlt, rfl⟩, slabAlloc_some hC hS hlt⟩

structure Served (memMap : Nat → Page) (nr : Nat) (strict : Prop) (s : SlabSys) (c p obj : Nat) (s' : SlabSys) :
    Prop where
  inv : SlabSys.Inv memMap nr strict { s' with objs := ⟨c, p, obj⟩ :: s.objs }
  caches : s'.caches = s.caches
  objs : s'.objs = s.objs
  freeSlab : ∀ d, (s'.cache d).freeSlab ≤ (s.cache d).freeSlab

theorem count_cons (h : s.Inv memMap nr strict) (hc : c ∈ s.caches) (hp : p ∈ (s.cache c).slabs) (q : Nat) :
    ((⟨c, p, obj⟩ : Obj) :: s.objs).countP (·.slab = q) =
      if q = p then (s.slab p).taken.inuse else s.objs.countP (·.slab = q) := by
  rcases eq_or_ne q p with rfl | hne
  · simp [Slab.taken, h.count c hc q hp]
  · simp [hne, hne.symm]

theorem served (h : s.Inv memMap nr strict) (hc : c ∈ s.caches) (hp : p ∈ (s.cache c).slabs)
    (hlike : C'.Like (s.cache c)) (hlt : (s.slab p).inuse < (s.cache c).num)
    (hcl : Classes strict C' (Function.update s.slab p (s.slab p).taken))
    (hat : ObjAt (s.cache c) (s.slab p).taken obj) (hfree : C'.freeSlab ≤ (s.cache c).freeSlab) :
    Served memMap nr strict s c p obj ((s.setSlab p (s.slab p).taken).setCache c C') where
  inv := by
    refine h.update hc hp hlike ((h.slabOk c hc p hp).taken hlt) hcl (h.count_cons hc hp) fun o ho => ?_
    rcases List.mem_cons.mp ho with rfl | ho
    · exact Or.inr ⟨rfl, rfl, hat⟩
    · exact Or.inl ho
  caches := rfl
  objs := rfl
  freeSlab d := by
    show (Function.update s.cache c C' d).freeSlab ≤ _
    rcases eq_or_ne d c with rfl | hne
    · rw [Function.update_self]
      exact hfree
    · rw [Function.update_of_ne hne]

theorem cacheAlloc_cases (h : s.Inv memMap nr strict) (hfew : s.Few) (hc : c ∈ s.caches) :
    ((s.cache c).slabsPartial = [] ∧ (s.cache c).slabsFree = [] ∧ cacheAlloc s c = (none, s)) ∨
    ∃ p obj s', cacheAlloc s c = (some (p, obj), s') ∧ Served memMap nr strict s c p obj s' := by
  have hC := h.geom c hc
  have hcls := h.classes c hc
  have hnd := h.slabs_nodup hc
  cases hpart : (s.cache c).slabsPartial with
  | cons p ps =>
    have hp : p ∈ (s.cache c).slabsPartial := by rw [hpart]; exact List.mem_cons_self ..
    have hps : p ∈ (s.cache c).slabs := Cache.mem_slabs.mpr (Or.inr (Or.inl hp))
    obtain ⟨hpos, hlt⟩ := hcls.onPartial p hp
    obtain ⟨obj, hat, heq⟩ := slabAlloc_eq hC (h.slabOk c hc p hps) hlt
    have heq' : cacheAlloc s c = (some (p, obj), (slabAlloc s c p).2) := by
      simp only [cacheAlloc, hpart, allocFrom, heq]
    refine Or.inr ⟨p, obj, _, heq', ?_⟩
    rw [heq]
    dsimp only
    split
    · rename_i hfull
      exact h.served hc hps (Cache.Like.toFull hnd hps) hlt
        (hcls.toFull hnd hp (Nat.succ_pos _) hfull) hat (le_refl _)
    · rename_i hfull
      refine h.served hc hps (Cache.Like.refl _) hlt ?_ hat (le_refl _)
      refine hcls.stay ((Cache.one_list hnd).2.2 p hp) (Nat.succ_pos _) (fun hf => ?_) fun _ => ?_
      · exact absurd hp ((Cache.one_list hnd).1 p hf)
      · show (s.slab p).inuse + 1 < _
        omega
  | nil =>
    cases hfree : (s.cache c).slabsFree with
    | nil => exact Or.inl ⟨rfl, rfl, by simp only [cacheAlloc, hpart, hfree, allocFrom]⟩
    | cons p ps =>
      have hp : p ∈ (s.cache c).slabsFree := by rw [hfree]; exact List.mem_cons_self ..
      have hps : p ∈ (s.cache c).slabs := Cache.mem_slabs.mpr (Or.inr (Or.inr hp))
      have hzero := hcls.onFree p hp
      have hnum := hC.num_ge
      have hlt : (s.slab p).inuse < (s.cache c).num := by omega
      obtain ⟨obj, hat, heq⟩ := slabAlloc_eq hC (h.slabOk c hc p hps) hlt
      rw [if_neg (by omega)] at heq
      have hdec : dec32 (s.cache c).freeSlab = (s.cache c).freeSlab - 1 := by
        have hle := hfew c hc
        have hlen := hcls.freeSlab
        rw [hfree, List.length_cons] at hlen
        exact dec32_eq (by omega) (by simp only [slabMaxFree, bufctlEnd] at *; omega)
      refine Or.inr ⟨p, obj, (s.setSlab p (s.slab p).taken).setCache c
        { (s.cache c).toPartial p with freeSlab := (s.cache c).freeSlab - 1 }, ?_, ?_⟩
      · simp only [cacheAlloc, hpart, hfree, allocFrom, heq]
        simp [SlabSys.setCache, SlabSys.setSlab, Cache.toPartial, Cache.unlink, hdec]
      · refine h.served hc hps (Cache.Like.toPartial hnd hps) hlt ?_ hat (Nat.sub_le _ _)
        refine hcls.toPartial hnd hp (Nat.succ_pos _) ?_
        show (s.slab p).inuse + 1 < _
        omega

/-! ## Growing a cache -/

theorem perm_blocks_cons {b : Nat × Nat} (hC' : (C'.blocks c).Perm
    (b :: (cache c).blocks c)) : ∀ {l : List Nat}, l.Nodup → c ∈ l →
    (b :: l.flatMap fun d => (cache d).blocks d).Perm (l.flatMap fun d => (Function.update cache c C' d).blocks d)
  | a :: l, hnd, hc => by
    obtain ⟨hna, hnd⟩ := List.nodup_cons.mp hnd
    simp only [List.flatMap_cons]
    rcases List.mem_cons.mp hc with rfl | hc
    · have hrest : (l.flatMap fun d => (Function.update cache c C' d).blocks d) =
          l.flatMap fun d => (cache d).blocks d := by
        refine List.flatMap_congr fun d hd => ?_
        rw [Function.update_of_ne (ne_of_mem_of_not_mem hd hna)]
      rw [hrest, Function.update_self]
      exact (hC'.symm.append_right _)
    · rw [Function.update_of_ne (ne_of_mem_of_not_mem hc hna).symm]
      exact List.perm_middle.symm.trans ((perm_blocks_cons hC' hnd hc).append_left _)

theorem fresh_page {k : Nat} (h : s.Inv memMap nr strict) (hm : m.Inv memMap nr)
    (hlive : m.live = (p, k) :: s.mem.live) : p ∉ s.caches ∧ ∀ d ∈ s.caches, p ∉ (s.cache d).slabs := by
  have hnd := hm.nodup
  rw [hlive, List.map_cons] at hnd
  have hnot := (List.nodup_cons.mp hnd).1
  have hblocks : ∀ d ∈ s.caches, ∀ b ∈ (s.cache d).blocks d, b.1 ≠ p := by
    rintro d hd b hb rfl
    exact hnot (List.mem_map.mpr ⟨b, h.live.mem_iff.mpr (List.mem_flatMap.mpr ⟨d, hd, hb⟩), rfl⟩)
  refine ⟨fun hp => hblocks p hp (p, 0) (List.mem_cons_self ..) rfl, fun d hd hp => ?_⟩
  exact hblocks d hd _ (List.mem_cons_of_mem _ (List.mem_map.mpr ⟨p, hp, rfl⟩)) rfl

theorem addSlab (h : s.Inv memMap nr strict) (hc : c ∈ s.caches) (hm : m.Inv memMap nr)
    (hlive : m.live = (p, (s.cache c).gfporder) :: s.mem.live)
    (htag : ∀ y, InBlock (s.cache c).gfporder p y → (m.buddy.memMap y).slab = some c)
    (hkeep : ∀ y, ¬ InBlock (s.cache c).gfporder p y → (m.buddy.memMap y).slab = (s.mem.buddy.memMap y).slab)
    (hgeom : C'.SameGeom (s.cache c)) (hfull : C'.slabsFull = (s.cache c).slabsFull)
    (hpart : C'.slabsPartial = (s.cache c).slabsPartial) (hempty : C'.slabsFree = p :: (s.cache c).slabsFree)
    (hfree : C'.freeSlab = (s.cache c).freeSlab + 1) :
    SlabSys.Inv memMap nr strict ((({ s with mem := m } : SlabSys).setSlab p (Slab.fresh (s.cache c) p)).setCache c C') := by
  obtain ⟨-, hnot⟩ := h.fresh_page hm hlive
  have hslabs : C'.slabs.Perm (p :: (s.cache c).slabs) := by
    rw [Cache.slabs, hfull, hpart, hempty]
    exact List.perm_middle
  have hcache : ∀ d, (Function.update s.cache c C' d).SameGeom (s.cache d) := by
    intro d
    rcases eq_or_ne d c with rfl | hne
    · rw [Function.update_self]
      exact hgeom
    · rw [Function.update_of_ne hne]
      exact ⟨rfl, rfl, rfl⟩
  -- a slab of the new state is the new one or an old one
  have hmem : ∀ d q, q ∈ (Function.update s.cache c C' d).slabs ↔ (d = c ∧ q = p) ∨ q ∈ (s.cache d).slabs := by
    intro d q
    rcases eq_or_ne d c with rfl | hne
    · rw [Function.update_self, hslabs.mem_iff, List.mem_cons]
      simp
    · rw [Function.update_of_ne hne]
      simp [hne]
  have hold : ∀ d ∈ s.caches, ∀ q ∈ (s.cache d).slabs, q ≠ p := fun d hd q hq => ne_of_mem_of_not_mem hq (hnot d hd)
  refine ⟨hm, ?_, fun d hd q hq y hy => ?_, fun d hd => (hcache d).geom (h.geom d hd), fun d hd q hq => ?_,
    fun d hd => ?_, fun d hd q hq => ?_, fun o ho => ?_⟩
  · rw [show (SlabSys.mem _).live = m.live from rfl, hlive]
    refine (h.live.cons _).trans (perm_blocks_cons ?_ h.caches_nodup hc)
    simp only [Cache.blocks, hgeom.gfporder]
    exact ((hslabs.map _).cons _).trans (List.Perm.swap ..)
  · rw [show (SlabSys.cache _ d).gfporder = (s.cache d).gfporder from (hcache d).gfporder] at hy
    rcases (hmem d q).mp hq with ⟨rfl, rfl⟩ | hq
    · exact htag y hy
    · refine (hkeep y fun hy' => ?_).trans (h.owner d hd q hq y hy)
      have hlq : (q, (s.cache d).gfporder) ∈ s.mem.live := h.slab_live hd hq
      have hdis := hm.disjoint
      rw [hlive] at hdis
      exact (List.pairwise_cons.mp hdis).1 _ hlq y ⟨hy', hy⟩
  · refine (hcache d).slabOk ?_
    show SlabOk (s.cache d) q (Function.update s.slab p (Slab.fresh (s.cache c) p) q)
    rcases (hmem d q).mp hq with ⟨rfl, rfl⟩ | hq
    · rw [Function.update_self]
      exact SlabOk.fresh _ _
    · rw [Function.update_of_ne (hold d hd q hq)]
      exact h.slabOk d hd q hq
  · show Classes strict (Function.update s.cache c C' d) (Function.update s.slab p (Slab.fresh (s.cache c) p))
    have hcls := (h.classes d hd).off (Slab.fresh (s.cache c) p) (hnot d hd)
    rcases eq_or_ne d c with rfl | hne
    · rw [Function.update_self]
      refine ⟨?_, ?_, fun q hq => ?_, ?_⟩
      · rw [hfull, hgeom.num]
        exact hcls.onFull
      · rw [hpart, hgeom.num]
        exact hcls.onPartial
      · rw [hempty] at hq
        rcases List.mem_cons.mp hq with rfl | hq
        · rw [Function.update_self]
          rfl
        · exact hcls.onFree q hq
      · rw [hfree, hempty, List.length_cons, hcls.freeSlab]
    · rw [Function.update_of_ne hne]
      exact hcls
  · show s.objs.countP _ = (Function.update s.slab p (Slab.fresh (s.cache c) p) q).inuse
    rcases (hmem d q).mp hq with ⟨rfl, rfl⟩ | hq
    · rw [Function.update_self]
      refine List.countP_eq_zero.mpr fun o ho => ?_
      obtain ⟨hoc, hos, -⟩ := h.objs o ho
      simpa using hold _ hoc _ hos
    · rw [Function.update_of_ne (hold d hd q hq)]
      exact h.count d hd q hq
  · obtain ⟨h₁, h₂, h₃⟩ := h.objs o ho
    refine ⟨h₁, (hmem _ _).mpr (Or.inr h₂), (hcache _).objAt ?_ h₃⟩
    show (Function.update s.slab p (Slab.fresh (s.cache c) p) o.slab).sMem = _
    rw [Function.update_of_ne (hold _ h₁ _ h₂)]

theorem cacheGrow_cases (h : s.Inv memMap nr strict) (hc : c ∈ s.caches) (hnone : (s.cache c).slabsFree = []) :
    cacheGrow s c = (false, s) ∨ ∃ s', cacheGrow s c = (true, s') ∧ s'.Inv memMap nr strict ∧
      s'.caches = s.caches ∧ s'.objs = s.objs ∧ (s'.cache c).slabsFree ≠ [] ∧
      ∀ d, (s'.cache d).freeSlab = if d = c then 1 else (s.cache d).freeSlab := by
  have hzero : (s.cache c).freeSlab = 0 := by rw [(h.classes c hc).freeSlab, hnone]; rfl
  rcases h.mem.alloc_cases (h.geom c hc).order with he | ⟨p, b', he, hmem, hslab⟩
  · exact Or.inl (by simp only [cacheGrow, kmemGetpages, he])
  · refine Or.inr ⟨(cacheGrow s c).2, by simp only [cacheGrow, kmemGetpages, he], ?_⟩
    simp only [cacheGrow, kmemGetpages, he]
    refine ⟨?_, rfl, rfl, by simp [SlabSys.setCache], fun d => ?_⟩
    · refine h.addSlab hc (hmem.tag _) rfl (fun y hy => ?_) (fun y hy => ?_) ⟨rfl, rfl, rfl⟩ rfl rfl rfl ?_
      · simp only [Nat.one_shiftLeft]
        rw [InBlock] at hy
        rw [if_pos hy]
      · simp only [Nat.one_shiftLeft]
        rw [InBlock] at hy
        rw [if_neg hy]
        exact hslab y
      · exact inc32_eq (by rw [hzero]; decide)
    · show (Function.update s.cache c _ d).freeSlab = _
      rcases eq_or_ne d c with rfl | hne
      · rw [Function.update_self, if_pos rfl]
        exact (inc32_eq (by rw [hzero]; decide)).trans (by rw [hzero])
      · rw [Function.update_of_ne hne, if_neg hne]

/-! ## `kmem_cache_alloc` -/

theorem kmemCacheAlloc_cases (h : s.Inv memMap nr strict) (hfew : s.Few) (hc : c ∈ s.caches) :
    kmemCacheAlloc s c = (none, s) ∨ ∃ p obj s', kmemCacheAlloc s c = (some (p, obj), s') ∧
      SlabSys.Inv memMap nr strict { s' with objs := ⟨c, p, obj⟩ :: s'.objs } ∧ s'.Few := by
  have hserved : ∀ {t t' : SlabSys} {p obj : Nat}, t.Few → Served memMap nr strict t c p obj t' →
      SlabSys.Inv memMap nr strict { t' with objs := ⟨c, p, obj⟩ :: t'.objs } ∧ t'.Few := by
    intro t t' p obj hfew hs
    refine ⟨by rw [hs.objs]; exact hs.inv, fun d hd => ?_⟩
    rw [hs.caches] at hd
    exact (hs.freeSlab d).trans (hfew d hd)
  rcases h.cacheAlloc_cases hfew hc with ⟨-, hfree, he⟩ | ⟨p, obj, s', he, hs⟩
  · rcases h.cacheGrow_cases hc hfree with hg | ⟨t, hg, hinv, hcaches, -, hne, hfreeSlab⟩
    · exact Or.inl (by simp only [kmemCacheAlloc, he, hg])
    · have hfew' : t.Few := by
        intro d hd
        rw [hcaches] at hd
        rw [hfreeSlab d]
        split
        · decide
        · exact hfew d hd
      -- the second `__cache_alloc` finds the new slab
      rcases hinv.cacheAlloc_cases hfew' (hcaches ▸ hc) with ⟨-, hnil, -⟩ | ⟨p, obj, s', he', hs⟩
      · exact absurd hnil hne
      · exact Or.inr ⟨p, obj, s', by simp only [kmemCacheAlloc, he, hg, he'], hserved hfew' hs⟩
  · exact Or.inr ⟨p, obj, s', by simp only [kmemCacheAlloc, he], hserved hfew hs⟩

/-! ## `kmem_cache_create` -/

theorem frame (h : s.Inv memMap nr strict) (hm : m.Inv memMap nr)
    (hlive : m.live = s.mem.live) (hslab : ∀ y, (m.buddy.memMap y).slab = (s.mem.buddy.memMap y).slab)
    (hcache : ∀ d ∈ s.caches, cache d = s.cache d) :
    SlabSys.Inv memMap nr strict { s with mem := m, cache := cache } where
  mem := hm
  live := by
    simp only [hlive]
    rw [List.flatMap_congr fun d hd => by rw [hcache d hd]]
    exact h.live
  owner d hd := by simpa only [hcache d hd, hslab] using h.owner d hd
  geom d hd := by simpa only [hcache d hd] using h.geom d hd
  slabOk d hd := by simpa only [hcache d hd] using h.slabOk d hd
  classes d hd := by simpa only [hcache d hd] using h.classes d hd
  count d hd := by simpa only [hcache d hd] using h.count d hd
  objs o ho := by
    have hobj := h.objs o ho
    simpa only [hcache _ hobj.1] using hobj

theorem newCache (h : s.Inv memMap nr strict) (hm : m.Inv memMap nr)
    (hlive : m.live = (c, 0) :: s.mem.live) (hslab : ∀ y, (m.buddy.memMap y).slab = (s.mem.buddy.memMap y).slab)
    (hgeom : C.Geom) (hslabs : C.slabs = []) (hfree : C.freeSlab = 0) :
    SlabSys.Inv memMap nr strict { s.setCache c C with mem := m, caches := c :: s.caches } := by
  have hnot := (h.fresh_page hm hlive).1
  have hold : ∀ d ∈ s.caches, Function.update s.cache c C d = s.cache d := fun d hd =>
    Function.update_of_ne (ne_of_mem_of_not_mem hd hnot) ..
  have hcls : Classes strict C s.slab := by
    obtain ⟨hfp, hfr⟩ := List.append_eq_nil_iff.mp hslabs
    obtain ⟨hfu, hpa⟩ := List.append_eq_nil_iff.mp hfp
    exact ⟨by simp [hfu], by simp [hpa], by simp [hfr], by simp [hfr, hfree]⟩
  constructor
  case mem => exact hm
  case live =>
    have hrest : (s.caches.flatMap fun d => (Function.update s.cache c C d).blocks d) =
        s.caches.flatMap fun d => (s.cache d).blocks d :=
      List.flatMap_congr fun d hd => by rw [hold d hd]
    simp only [SlabSys.setCache, hlive, List.flatMap_cons, Function.update_self, hrest]
    rw [Cache.blocks, hslabs]
    exact h.live.cons _
  case objs =>
    intro o ho
    obtain ⟨h₁, h₂⟩ := h.objs o ho
    refine ⟨List.mem_cons_of_mem _ h₁, ?_⟩
    simpa only [SlabSys.setCache, hold _ h₁] using h₂
  all_goals
    intro d hd
    rcases List.mem_cons.mp hd with rfl | hd
    · simp only [SlabSys.setCache, Function.update_self, hslabs, List.not_mem_nil, false_imp_iff, implies_true, hgeom,
        hcls]
    · simp only [SlabSys.setCache, hold d hd, hslab]
      first
      | exact h.owner d hd
      | exact h.geom d hd
      | exact h.slabOk d hd
      | exact h.classes d hd
      | exact h.count d hd

theorem growNew {r : Bool} (h : s.Inv memMap nr strict) (hfew : s.Few)
    (hm : m.Inv memMap nr) (hlive : m.live = (c, 0) :: s.mem.live)
    (hslab : ∀ y, (m.buddy.memMap y).slab = (s.mem.buddy.memMap y).slab)
    (hgeom : C.Geom) (hslabs : C.slabs = []) (hfree : C.freeSlab = 0)
    (he : cacheGrow { s.setCache c C with mem := m, caches := c :: s.caches } c = (r, s')) :
    if r then s'.Inv memMap nr strict ∧ s'.Few
    else SlabSys.Inv memMap nr strict { s' with mem := s'.mem.free (virtual c) 0, caches := s'.caches.erase c } ∧
      SlabSys.Few { s' with mem := s'.mem.free (virtual c) 0, caches := s'.caches.erase c } := by
  have hnot := (h.fresh_page hm hlive).1
  have hold : ∀ d ∈ s.caches, Function.update s.cache c C d = s.cache d := fun d hd =>
    Function.update_of_ne (ne_of_mem_of_not_mem hd hnot) ..
  have hold_few : ∀ d ∈ s.caches, (Function.update s.cache c C d).freeSlab ≤ slabMaxFree := fun d hd => by
    rw [hold d hd]
    exact hfew d hd
  have hinv := h.newCache hm hlive hslab hgeom hslabs hfree
  have hnone : C.slabsFree = [] := (List.append_eq_nil_iff.mp hslabs).2
  rcases hinv.cacheGrow_cases (List.mem_cons_self ..) (by simpa [SlabSys.setCache] using hnone) with
    hg | ⟨t, hg, hinv', hcaches, -, -, hfreeSlab⟩
  · obtain ⟨rfl, rfl⟩ := Prod.mk.inj (hg.symm.trans he)
    obtain ⟨hfinv, hflive, hfmap⟩ := hm.free_new hlive
    simp only [Bool.false_eq_true, if_false, List.erase_cons_head]
    exact ⟨h.frame hfinv hflive (fun y => by rw [hfmap]; exact hslab y) hold, hold_few⟩
  · obtain ⟨rfl, rfl⟩ := Prod.mk.inj (hg.symm.trans he)
    simp only [if_true]
    refine ⟨hinv', fun d hd => ?_⟩
    rw [hcaches] at hd
    rw [hfreeSlab d]
    split
    · decide
    · rename_i hne
      exact hold_few d ((List.mem_cons.mp hd).resolve_left hne)

theorem of_kmemCacheCreate {size flags : Nat} {r : Option Nat} (h : s.Inv memMap nr strict)
    (hfew : s.Few) (he : kmemCacheCreate s size flags = some (r, s')) : s'.Inv memMap nr strict ∧ s'.Few := by
  simp only [kmemCacheCreate] at he
  split at he
  · obtain ⟨-, rfl⟩ := Prod.mk.inj (Option.some.inj he)
    exact ⟨h, hfew⟩
  · rcases h.mem.alloc_cases (show 0 < maxOrder by decide) with ha | ⟨c, b', ha, hmem, hslab⟩
    · rw [ha] at he
      obtain ⟨-, rfl⟩ := Prod.mk.inj (Option.some.inj he)
      exact ⟨h, hfew⟩
    · rw [ha] at he
      dsimp only at he
      obtain ⟨hfinv, hflive, hfmap⟩ := hmem.free_new rfl
      split at he
      · obtain ⟨-, rfl⟩ := Prod.mk.inj (Option.some.inj he)
        exact ⟨h.frame hfinv hflive (fun y => by rw [hfmap]; exact hslab y) fun _ _ => rfl, hfew⟩
      · split at he
        · cases he
        · rename_i hord hpos
          have hgeom := Cache.Geom.create flags hpos (Nat.lt_of_not_le hord)
          generalize findOrder (kmemAlign size) maxOrder 0 = order at *
          generalize objsPerSlab (kmemAlign size) order = num at *
          split at he
          all_goals
            rename_i t hg
            obtain ⟨-, rfl⟩ := Prod.mk.inj (Option.some.inj he)
            exact h.growNew hfew hmem rfl hslab hgeom rfl rfl hg

/-! ## `kmem_cache_free` -/

theorem cacheFree_eq {o : Obj} (h : s.Inv memMap nr strict) (hfew : s.Few) (ho : o ∈ s.objs) :
    ∃ ind < (s.cache o.cache).num, cacheFree s o.cache o.addr =
      some ((s.setSlab o.slab ((s.slab o.slab).given ind)).setCache o.cache
        ((s.cache o.cache).given (s.slab o.slab) o.slab)) := by
  obtain ⟨hc, hp, hat⟩ := h.objs o ho
  obtain ⟨hof, -, hpos⟩ := h.slabOf_eq ho
  have hS := h.slabOk _ hc _ hp
  have hC := h.geom _ hc
  obtain ⟨ind, hind, hindex⟩ := slabIndex_of_objAt hC hat
  have hinc : inc32 (s.cache o.cache).freeSlab = (s.cache o.cache).freeSlab + 1 := by
    have := hfew _ hc
    exact inc32_eq (by simp only [slabMaxFree, bufctlEnd] at *; omega)
  refine ⟨ind, hind, ?_⟩
  rw [cacheFree_of_slabOf hC hS hof hindex hpos, hinc, Cache.given]

theorem count_eraseP {o : Obj} (h : s.Inv memMap nr strict) (ho : o ∈ s.objs) (q : Nat) :
    (s.objs.eraseP fun o' => o'.cache = o.cache ∧ o'.addr = o.addr).countP (·.slab = q) =
      if q = o.slab then (s.slab o.slab).inuse - 1 else s.objs.countP (·.slab = q) := by
  obtain ⟨hc, hp, -⟩ := h.objs o ho
  obtain ⟨o', l₁, l₂, -, heq, hobjs, herase⟩ := List.exists_of_eraseP ho
    (p := fun o' => decide (o'.cache = o.cache ∧ o'.addr = o.addr)) (by simp)
  have ho' : o' ∈ s.objs := by rw [hobjs]; simp
  obtain ⟨hcache, haddr⟩ := of_decide_eq_true heq
  have hslab : o'.slab = o.slab := h.slab_unique ho ho' hcache haddr
  rw [herase, ← h.count _ hc _ hp, hobjs]
  simp only [List.countP_append, List.countP_cons, hslab]
  rcases eq_or_ne q o.slab with rfl | hne
  · simp
  · simp [hne, hne.symm]

theorem of_cacheFree {o : Obj} (h : s.Inv memMap nr strict) (hfew : s.Few) (ho : o ∈ s.objs)
    (hstrict : strict → (s.slab o.slab).inuse ≠ (s.cache o.cache).num) (he : cacheFree s o.cache o.addr = some s') :
    SlabSys.Inv memMap nr strict
      { s' with objs := s'.objs.eraseP fun o' => o'.cache = o.cache ∧ o'.addr = o.addr } := by
  obtain ⟨hc, hp, hat⟩ := h.objs o ho
  obtain ⟨-, hnot, hpos⟩ := h.slabOf_eq ho
  obtain ⟨ind, hind, heq⟩ := h.cacheFree_eq hfew ho
  obtain rfl := Option.some.inj (heq.symm.trans he)
  have hS := h.slabOk _ hc _ hp
  have hcls := h.classes _ hc
  have hnd := h.slabs_nodup hc
  refine h.update hc hp (Cache.Like.given hnd hp) (hS.given hpos hind) ?_ (h.count_eraseP ho)
    fun o' ho' => Or.inl (List.mem_of_mem_eraseP ho')
  rw [Cache.given]
  split
  · rename_i hone
    exact hcls.toFree hnd hnot (by simp [Slab.given, hone])
  · rename_i hone
    refine hcls.stay hnot (by simp only [Slab.given]; omega) (fun hf hst => ?_) fun hpart => ?_
    · exact absurd ((hcls.onFull _ hf).2 hst) (hstrict hst)
    · have := (hcls.onPartial _ hpart).2
      simp only [Slab.given]
      omega

end SlabSys.Inv

end FengOS.Mm
