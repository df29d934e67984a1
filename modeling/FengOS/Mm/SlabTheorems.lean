import FengOS.Mm.Lemmas.SlabOps

/-!
# The slab allocator over whole runs

`kmem_cache_free` gives the pages of an empty slab back without unlinking it, and `__cache_free` leaves a full slab that
loses an object on `slabs_full`. Ownership and classification hold in the runs without these, and every such step breaks
them.
-/

namespace FengOS.Mm

open FengOS.Lib

variable {memMap : Nat → Page} {nr : Nat} {strict : Prop} {s s' : SlabSys} {op : KmemOp} {o : Obj}

/-! ## One step -/

theorem SlabSys.Inv.noTrim_iff (h : s.Inv memMap nr strict) (ho : o ∈ s.objs) : s.NoTrim (.free o.cache o.addr) ↔
      ((s.slab o.slab).inuse = 1 → (s.cache o.cache).freeSlab < slabMaxFree) := by
  refine ⟨fun hn => hn o ho rfl rfl, fun hn o' ho' hcache haddr => ?_⟩
  rw [h.slab_unique ho ho' hcache haddr]
  exact hn

theorem SlabSys.Inv.notFull_iff (h : s.Inv memMap nr strict) (ho : o ∈ s.objs) :
    s.NotFull (.free o.cache o.addr) ↔ (s.slab o.slab).inuse ≠ (s.cache o.cache).num := by
  refine ⟨fun hn => hn o ho rfl rfl, fun hn o' ho' hcache haddr => ?_⟩
  rw [h.slab_unique ho ho' hcache haddr]
  exact hn

theorem SlabSys.Inv.step_free (h : s.Inv memMap nr strict) (hfew : s.Few) (ho : o ∈ s.objs)
    (hs : s.step (.free o.cache o.addr) = some s') :
    ∃ t, cacheFree s o.cache o.addr = some t ∧ t.caches = s.caches ∧ (∀ q, q ≠ o.slab → t.slab q = s.slab q) ∧
      (t.slab o.slab).inuse = (s.slab o.slab).inuse - 1 ∧ (∀ d, d ≠ o.cache → t.cache d = s.cache d) ∧
      t.cache o.cache = (s.cache o.cache).given (s.slab o.slab) o.slab ∧
      s' = { trim o.cache ((t.cache o.cache).freeSlab - slabMaxFree) t with
        objs := (trim o.cache ((t.cache o.cache).freeSlab - slabMaxFree) t).objs.eraseP fun o' =>
          o'.cache = o.cache ∧ o'.addr = o.addr } := by
  obtain ⟨ind, -, heq⟩ := h.cacheFree_eq hfew ho
  simp only [SlabSys.step, kmemCacheFree, heq, Option.map_some, Option.some.injEq] at hs
  refine ⟨_, heq, rfl, fun q hq => ?_, ?_, fun d hd => ?_, ?_, hs.symm⟩
  · exact Function.update_of_ne hq ..
  · simp [SlabSys.setSlab, SlabSys.setCache, Slab.given]
  · exact Function.update_of_ne hd ..
  · exact Function.update_self ..

theorem SlabSys.Inv.step (h : s.Inv memMap nr strict) (hfew : s.Few) (hok : s.ok op) (htrim : s.NoTrim op)
    (hfull : strict → s.NotFull op) (hs : s.step op = some s') : s'.Inv memMap nr strict ∧ s'.Few := by
  cases op with
  | create size flags =>
    obtain ⟨⟨r, t⟩, he, rfl⟩ := Option.map_eq_some_iff.mp hs
    exact h.of_kmemCacheCreate hfew he
  | alloc c =>
    rw [SlabSys.step] at hs
    rcases h.kmemCacheAlloc_cases hfew hok with he | ⟨p, obj, t, he, hinv, hfew'⟩
    · rw [he] at hs
      obtain rfl := Option.some.inj hs
      exact ⟨h, hfew⟩
    · rw [he] at hs
      obtain rfl := Option.some.inj hs
      exact ⟨hinv, hfew'⟩
  | free c objp =>
    obtain ⟨o, ho, rfl, rfl⟩ := hok
    obtain ⟨t, he, hcaches, -, -, hother, hcache, rfl⟩ := h.step_free hfew ho hs
    have hle : ∀ d ∈ s.caches, (t.cache d).freeSlab ≤ slabMaxFree := by
      intro d hd
      rcases eq_or_ne d o.cache with rfl | hne
      · rw [hcache, Cache.given]
        split
        · rename_i hone
          exact (h.noTrim_iff ho).mp htrim hone
        · exact hfew _ hd
      · rw [hother d hne]
        exact hfew d hd
    rw [Nat.sub_eq_zero_of_le (hle _ (h.objs o ho).1)]
    refine ⟨h.of_cacheFree hfew ho (fun hst => (h.notFull_iff ho).mp (hfull hst)) he, fun d hd => ?_⟩
    exact hle d (hcaches ▸ hd)

theorem SlabSys.Inv.step_trim (h : s.Inv memMap nr strict) (hfew : s.Few) (ho : o ∈ s.objs)
    (htrim : ¬ s.NoTrim (.free o.cache o.addr)) (hs : s.step (.free o.cache o.addr) = some s') :
    o.cache ∈ s'.caches ∧ o.slab ∈ (s'.cache o.cache).slabs ∧ (∀ k, (o.slab, k) ∉ s'.mem.live) ∧
      (s'.cache o.cache).freeSlab ≠ (s'.cache o.cache).slabsFree.length := by
  obtain ⟨t, -, hcaches, -, -, -, hcache, rfl⟩ := h.step_free hfew ho hs
  obtain ⟨hone, hge⟩ : (s.slab o.slab).inuse = 1 ∧ slabMaxFree ≤ (s.cache o.cache).freeSlab := by
    rw [h.noTrim_iff ho] at htrim
    simpa using htrim
  obtain ⟨hc, -, -⟩ := h.objs o ho
  have hfour : (s.cache o.cache).freeSlab = 4 := le_antisymm (hfew _ hc) hge
  have hlen := (h.classes _ hc).freeSlab
  rw [Cache.given, if_pos hone, hfour] at hcache
  have hnot : o.slab ∉ (s.cache o.cache).slabsFree := (h.slabOf_eq ho).2.1
  have hlist : (t.cache o.cache).slabsFree = o.slab :: (s.cache o.cache).slabsFree := by
    rw [hcache]
    simp only [Cache.toFree, Cache.unlink, List.erase_of_not_mem hnot]
  have hfive : (t.cache o.cache).freeSlab = 5 := by rw [hcache]
  have hround : (t.cache o.cache).freeSlab - slabMaxFree = 1 := by rw [hfive]; rfl
  simp only [hround, trim, hlist, List.headD_cons, SlabSys.setCache, Function.update_self, Cache.slabs]
  refine ⟨hcaches ▸ hc, by simp, fun k hk => ?_, ?_⟩
  · simp [BuddySys.free, pageLowerAlign_virtual] at hk
  · rw [hfive, List.length_cons, ← hlen, hfour]
    decide

/-! ## Ownership of pages -/

/-- Every linked slab is a live block of its cache, none is linked twice, and live objects lie in such slabs. -/
structure SlabSys.Ownership (s : SlabSys) : Prop where
  live : ∀ c ∈ s.caches, ∀ p ∈ (s.cache c).slabs, (p, (s.cache c).gfporder) ∈ s.mem.live ∧
    ∀ y, InBlock (s.cache c).gfporder p y → (s.mem.buddy.memMap y).slab = some c
  nodup : (s.caches.flatMap fun c => (s.cache c).slabs).Nodup
  objs : ∀ o ∈ s.objs, o.cache ∈ s.caches ∧ o.slab ∈ (s.cache o.cache).slabs ∧
    InBlock (s.cache o.cache).gfporder o.slab ((o.addr - kernelOffset) / pageSize)

theorem SlabSys.Inv.ownership (h : s.Inv memMap nr strict) : s.Ownership where
  live c hc p hp := ⟨h.slab_live hc hp, h.owner c hc p hp⟩
  nodup := by
    refine h.pages_nodup.sublist ?_
    induction s.caches with
    | nil => exact List.Sublist.refl _
    | cons c cs ih => exact (List.sublist_cons_self ..).append ih
  objs o ho := by
    obtain ⟨hc, hp, hat⟩ := h.objs o ho
    obtain ⟨i, -, hi⟩ := slabIndex_of_objAt (h.geom _ hc) hat
    exact ⟨hc, hp, inBlock_of_slabIndex (h.geom _ hc) (h.slabOk _ hc _ hp).sMem (by rw [hi]; rfl)⟩

theorem SlabSys.ReachNoTrim.inv (h : SlabSys.ReachNoTrim memMap nr s) : s.Inv memMap nr False ∧ s.Few := by
  refine h.invariant (Q := fun t => t.Inv memMap nr False ∧ t.Few) (fun t ht => ?_)
    fun t a t' hi hok hs => hi.1.step hi.2 hok.1 hok.2 False.elim hs
  subst ht
  exact ⟨SlabSys.inv_init memMap nr False, by simp [SlabSys.Few, SlabSys.init]⟩

/-- The caches own the pages of their slabs until a free gives one more than `SLAB_MAX_FREE` empty slabs. -/
theorem slab_ownership (h : SlabSys.ReachNoTrim memMap nr s) :
    s.Ownership ∧ ∀ op s', s.ok op → s.step op = some s' → (s'.Ownership ↔ s.NoTrim op) := by
  obtain ⟨hinv, hfew⟩ := h.inv
  refine ⟨hinv.ownership, fun op s' hok hs => ⟨fun hown => ?_, fun htrim => ?_⟩⟩
  · by_contra htrim
    cases op with
    | create size flags => exact htrim trivial
    | alloc c => exact htrim trivial
    | free c objp =>
      obtain ⟨o, ho, rfl, rfl⟩ := hok
      obtain ⟨hc, hp, hdead, -⟩ := hinv.step_trim hfew ho htrim hs
      exact hdead _ (hown.live _ hc _ hp).1
  · exact (hinv.step hfew hok htrim False.elim hs).1.ownership

def oneCache : SlabSys := ((SlabSys.init firstReserved 8).step (.create 1024 0)).get (by decide)

def oneObject : SlabSys := (oneCache.step (.alloc 1)).get (by decide)

theorem oneObject_reach : SlabSys.ReachNotFull firstReserved 8 oneObject :=
  .step (a := KmemOp.alloc 1)
    (.step (a := KmemOp.create 1024 0) (.init rfl) ⟨trivial, trivial, trivial⟩ (Option.some_get _).symm)
    ⟨show 1 ∈ oneCache.caches by decide, trivial, trivial⟩ (Option.some_get _).symm

theorem slab_ownership_oneObject : oneObject.Ownership :=
  (slab_ownership (oneObject_reach.mono (fun _ _ hok => ⟨hok.1, hok.2.1⟩) fun _ => id)).1

/-- The objects of 1024 bytes of five slabs, in the order in which they are handed out. -/
def fiveSlabs : List Nat :=
  [8232, 9256, 10280, 12328, 13352, 14376, 16424, 17448, 18472, 20520, 21544, 22568, 24616].map (kernelOffset + ·)

def trimRun : List KmemOp :=
  .create 1024 0 :: List.replicate 13 (.alloc 1) ++ fiveSlabs.reverse.map (.free 1) ++ [.alloc 1]

/-- A slab of cache 1 at page 2 is linked, an object of it is live, and the page is no live block. -/
def DeadSlab (s : SlabSys) : Prop :=
  (1 ∈ s.caches ∧ 2 ∈ (s.cache 1).slabs ∧ (2, (s.cache 1).gfporder) ∉ s.mem.live) ∧ ∃ o ∈ s.objs, o.cache = 1 ∧ o.slab = 2

instance : DecidablePred DeadSlab := fun _ => inferInstanceAs (Decidable (_ ∧ _))

/-- The block of page 2 is given back, its slab stays linked, and the next object comes from it. -/
theorem slab_used_after_trim : ∃ s, SlabSys.Reach firstReserved 8 s ∧ DeadSlab s ∧ ¬ s.Ownership := by
  have hexec : (exec SlabSys.step SlabSys.ok (SlabSys.init firstReserved 8) trimRun).any (DeadSlab ·) = true := by
    decide +kernel
  obtain ⟨s, hr, hdead⟩ := Run.exists_of_exec (.init rfl : SlabSys.Reach firstReserved 8 _) hexec
  exact ⟨s, hr, hdead, fun hown => hdead.1.2.2 (hown.live 1 hdead.1.1 2 hdead.1.2.1).1⟩

/-! ## Classification of slabs -/

/-- The list of a slab says how many of its objects are in use, and `free_slab` counts the empty ones. -/
structure SlabSys.Classified (s : SlabSys) : Prop where
  onFull : ∀ c ∈ s.caches, ∀ p ∈ (s.cache c).slabsFull, (s.slab p).inuse = (s.cache c).num
  onPartial : ∀ c ∈ s.caches, ∀ p ∈ (s.cache c).slabsPartial, 0 < (s.slab p).inuse ∧ (s.slab p).inuse < (s.cache c).num
  onFree : ∀ c ∈ s.caches, ∀ p ∈ (s.cache c).slabsFree, (s.slab p).inuse = 0
  freeSlab : ∀ c ∈ s.caches, (s.cache c).freeSlab = (s.cache c).slabsFree.length

theorem SlabSys.Inv.classified (h : s.Inv memMap nr True) : s.Classified where
  onFull c hc p hp := ((h.classes c hc).onFull p hp).2 trivial
  onPartial c hc := (h.classes c hc).onPartial
  onFree c hc := (h.classes c hc).onFree
  freeSlab c hc := (h.classes c hc).freeSlab

theorem SlabSys.ReachNotFull.inv (h : SlabSys.ReachNotFull memMap nr s) : s.Inv memMap nr True ∧ s.Few := by
  refine h.invariant (Q := fun t => t.Inv memMap nr True ∧ t.Few) (fun t ht => ?_)
    fun t a t' hi hok hs => hi.1.step hi.2 hok.1 hok.2.1 (fun _ => hok.2.2) hs
  subst ht
  exact ⟨SlabSys.inv_init memMap nr True, by simp [SlabSys.Few, SlabSys.init]⟩

theorem SlabSys.Inv.step_full (h : s.Inv memMap nr True) (hfew : s.Few) (ho : o ∈ s.objs)
    (hfull : ¬ s.NotFull (.free o.cache o.addr)) (hs : s.step (.free o.cache o.addr) = some s') : ¬ s'.Classified := by
  obtain ⟨t, -, hcaches, -, huse, -, hcache, rfl⟩ := h.step_free hfew ho hs
  obtain ⟨hc, hp, -⟩ := h.objs o ho
  have hnum : (s.slab o.slab).inuse = (s.cache o.cache).num := by
    rw [h.notFull_iff ho] at hfull
    simpa using hfull
  have hge := (h.geom _ hc).num_ge
  rw [Cache.given, if_neg (by omega)] at hcache
  -- it is neither partly used nor empty
  have hon : o.slab ∈ (s.cache o.cache).slabsFull := by
    rcases Cache.mem_slabs.mp hp with hf | hf | hf
    · exact hf
    · have := ((h.classes _ hc).onPartial _ hf).2
      omega
    · exact absurd hf (h.slabOf_eq ho).2.1
  have hle : (t.cache o.cache).freeSlab - slabMaxFree = 0 := by
    rw [hcache]
    exact Nat.sub_eq_zero_of_le (hfew _ hc)
  rw [hle]
  intro hcls
  have hbad : (t.slab o.slab).inuse = (t.cache o.cache).num :=
    hcls.onFull o.cache (hcaches ▸ hc) o.slab (by show _ ∈ (t.cache o.cache).slabsFull; rw [hcache]; exact hon)
  rw [huse, hcache] at hbad
  omega

/-- The lists classify the slabs until an object of a full slab is freed or a slab is trimmed, and a cache grows only when no
slab has a free object. -/
theorem slab_classified (h : SlabSys.ReachNotFull memMap nr s) :
    s.Classified ∧
    (∀ c ∈ s.caches, (cacheAlloc s c).1 = none → ∀ p ∈ (s.cache c).slabs, (s.slab p).inuse = (s.cache c).num) ∧
    ∀ op s', s.ok op → s.step op = some s' → (s'.Classified ↔ s.NoTrim op ∧ s.NotFull op) := by
  obtain ⟨hinv, hfew⟩ := h.inv
  refine ⟨hinv.classified, fun c hc hnone p hp => ?_, fun op s' hok hs => ⟨fun hcls => ?_, fun hg => ?_⟩⟩
  · rcases hinv.cacheAlloc_cases hfew hc with ⟨hpart, hfree, -⟩ | ⟨q, obj, t, he, -⟩
    · rcases Cache.mem_slabs.mp hp with hf | hf | hf
      · exact hinv.classified.onFull c hc p hf
      · simp [hpart] at hf
      · simp [hfree] at hf
    · rw [he] at hnone
      cases hnone
  · cases op with
    | create size flags => exact ⟨trivial, trivial⟩
    | alloc c => exact ⟨trivial, trivial⟩
    | free c objp =>
      obtain ⟨o, ho, rfl, rfl⟩ := hok
      constructor
      · by_contra htrim
        obtain ⟨hc, -, -, hne⟩ := hinv.step_trim hfew ho htrim hs
        exact hne (hcls.freeSlab _ hc)
      · by_contra hfull
        exact hinv.step_full hfew ho hfull hs hcls
  · exact (hinv.step hfew hok hg.1 (fun _ => hg.2) hs).1.classified

theorem slab_classified_oneObject : oneObject.Classified := (slab_classified oneObject_reach).1

def unfillRun : List KmemOp :=
  [.create 1024 0, .alloc 1, .alloc 1, .alloc 1, .free 1 (kernelOffset + 8232)]

/-- The slab at page 2 is on `slabs_full` and has a free object, and the next allocation will not use it. -/
def StaleFull (s : SlabSys) : Prop :=
  1 ∈ s.caches ∧ 2 ∈ (s.cache 1).slabsFull ∧ (s.slab 2).inuse = 2 ∧ (s.cache 1).num = 3 ∧ (cacheAlloc s 1).1 = none

instance : DecidablePred StaleFull := fun _ => inferInstanceAs (Decidable (_ ∧ _))

theorem slab_full_after_free : ∃ s, SlabSys.Reach firstReserved 8 s ∧ StaleFull s ∧ ¬ s.Classified := by
  have hexec : (exec SlabSys.step SlabSys.ok (SlabSys.init firstReserved 8) unfillRun).any (StaleFull ·) = true := by
    decide +kernel
  obtain ⟨s, hr, hbad⟩ := Run.exists_of_exec (.init rfl : SlabSys.Reach firstReserved 8 _) hexec
  refine ⟨s, hr, hbad, fun hcls => ?_⟩
  obtain ⟨hc, hp, huse, hnum, -⟩ := hbad
  have := hcls.onFull 1 hc 2 hp
  omega

end FengOS.Mm
