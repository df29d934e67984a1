import FengOS.Mm.Lemmas.SlabLayout
import Mathlib.Data.List.Lattice
import Mathlib.Data.List.Perm.Basic

/-!
# The invariant of the slab allocator
-/

namespace FengOS.Mm

variable {memMap : Nat → Page} {nr : Nat} {strict : Prop} {s : SlabSys} {C C' : Cache} {S' : Slab} {c c' p q : Nat}

/-! ## The lists of one cache -/

structure Cache.SameGeom (C' C : Cache) : Prop where
  num : C'.num = C.num
  size : C'.size = C.size
  gfporder : C'.gfporder = C.gfporder

structure Cache.Like (C' C : Cache) : Prop extends C'.SameGeom C where
  slabs : C'.slabs.Perm C.slabs

theorem Cache.mem_slabs : p ∈ C.slabs ↔ p ∈ C.slabsFull ∨ p ∈ C.slabsPartial ∨ p ∈ C.slabsFree := by
  simp only [Cache.slabs, List.mem_append, or_assoc]

theorem Cache.SameGeom.geom (h : C'.SameGeom C) (hC : C.Geom) : C'.Geom where
  size_pos := h.size ▸ hC.size_pos
  order := h.gfporder ▸ hC.order
  num_ge := h.num ▸ hC.num_ge
  num_lt := h.num ▸ hC.num_lt
  fits := by rw [h.num, h.size, h.gfporder]; exact hC.fits

theorem Cache.SameGeom.slabOk {S : Slab} (h : C'.SameGeom C) (hS : SlabOk C p S) : SlabOk C' p S where
  sMem := by rw [h.num]; exact hS.sMem
  length := by rw [h.num]; exact hS.length
  endMark := by rw [h.num]; exact hS.endMark
  index := by rw [h.num]; exact hS.index
  free := hS.free
  le := by rw [h.num]; exact hS.le

theorem Cache.SameGeom.objAt {S S' : Slab} {a : Nat} (h : C'.SameGeom C) (hm : S'.sMem = S.sMem) (ho : ObjAt C S a) :
    ObjAt C' S' a := by
  simpa only [ObjAt, h.num, h.size, hm] using ho

theorem Cache.Like.refl (C : Cache) : C.Like C := ⟨⟨rfl, rfl, rfl⟩, List.Perm.refl _⟩

theorem Cache.slabs_unlink (hnd : C.slabs.Nodup) : (C.unlink p).slabs = C.slabs.erase p := by
  have hfp := (List.nodup_append.mp hnd).1
  rw [hnd.erase_eq_filter]
  simp only [Cache.slabs, Cache.unlink, List.filter_append]
  rw [(List.nodup_append.mp hfp).1.erase_eq_filter, (List.nodup_append.mp hfp).2.1.erase_eq_filter,
    (List.nodup_append.mp hnd).2.1.erase_eq_filter]

theorem Cache.perm_unlink (hnd : C.slabs.Nodup) (hp : p ∈ C.slabs) : (p :: (C.unlink p).slabs).Perm C.slabs := by
  rw [Cache.slabs_unlink hnd]
  exact (List.perm_cons_erase hp).symm

theorem Cache.Like.toFull (hnd : C.slabs.Nodup) (hp : p ∈ C.slabs) : (C.toFull p).Like C :=
  ⟨⟨rfl, rfl, rfl⟩, Cache.perm_unlink hnd hp⟩

theorem Cache.Like.toPartial {n : Nat} (hnd : C.slabs.Nodup) (hp : p ∈ C.slabs) :
    ({ C.toPartial p with freeSlab := n } : Cache).Like C := by
  refine ⟨⟨rfl, rfl, rfl⟩, List.Perm.trans ?_ (Cache.perm_unlink hnd hp)⟩
  exact List.perm_middle.append_right _

theorem Cache.Like.toFree {n : Nat} (hnd : C.slabs.Nodup) (hp : p ∈ C.slabs) :
    ({ C.toFree p with freeSlab := n } : Cache).Like C := by
  refine ⟨⟨rfl, rfl, rfl⟩, List.Perm.trans ?_ (Cache.perm_unlink hnd hp)⟩
  exact List.perm_middle

theorem Cache.one_list (hnd : C.slabs.Nodup) :
    (∀ q ∈ C.slabsFull, q ∉ C.slabsPartial) ∧ (∀ q ∈ C.slabsFull, q ∉ C.slabsFree) ∧
      ∀ q ∈ C.slabsPartial, q ∉ C.slabsFree := by
  obtain ⟨hfp, -, hdis⟩ := List.nodup_append.mp hnd
  obtain ⟨-, -, hdis'⟩ := List.nodup_append.mp hfp
  exact ⟨fun q h h' => hdis' q h q h' rfl, fun q h h' => hdis q (List.mem_append_left _ h) q h' rfl,
    fun q h h' => hdis q (List.mem_append_right _ h) q h' rfl⟩

theorem Cache.mem_unlink (p : Nat) (hnd : C.slabs.Nodup) : (∀ q, q ∈ (C.unlink p).slabsFull ↔ q ≠ p ∧ q ∈ C.slabsFull) ∧
    (∀ q, q ∈ (C.unlink p).slabsPartial ↔ q ≠ p ∧ q ∈ C.slabsPartial) ∧
    ∀ q, q ∈ (C.unlink p).slabsFree ↔ q ≠ p ∧ q ∈ C.slabsFree := by
  obtain ⟨hfp, hfree, -⟩ := List.nodup_append.mp hnd
  obtain ⟨hfull, hpart, -⟩ := List.nodup_append.mp hfp
  exact ⟨fun q => hfull.mem_erase_iff, fun q => hpart.mem_erase_iff, fun q => hfree.mem_erase_iff⟩

/-! ## The lists follow the use of the slabs -/

/-- Unused slabs are on `slabs_free`, slabs with both kinds of objects on `slabs_partial`, and those on `slabs_full` are
used. -/
structure Classes (strict : Prop) (C : Cache) (slab : Nat → Slab) : Prop where
  onFull : ∀ q ∈ C.slabsFull, 0 < (slab q).inuse ∧ (strict → (slab q).inuse = C.num)
  onPartial : ∀ q ∈ C.slabsPartial, 0 < (slab q).inuse ∧ (slab q).inuse < C.num
  onFree : ∀ q ∈ C.slabsFree, (slab q).inuse = 0
  freeSlab : C.freeSlab = C.slabsFree.length

variable {slab : Nat → Slab}

theorem Classes.unlink (p : Nat) (S' : Slab) (h : Classes strict C slab) (hnd : C.slabs.Nodup) :
    (∀ q ∈ (C.unlink p).slabsFull, 0 < (Function.update slab p S' q).inuse ∧
      (strict → (Function.update slab p S' q).inuse = C.num)) ∧
    (∀ q ∈ (C.unlink p).slabsPartial, 0 < (Function.update slab p S' q).inuse ∧
      (Function.update slab p S' q).inuse < C.num) ∧
    ∀ q ∈ (C.unlink p).slabsFree, (Function.update slab p S' q).inuse = 0 := by
  obtain ⟨hfull, hpart, hfree⟩ := Cache.mem_unlink p hnd
  refine ⟨fun q hq => ?_, fun q hq => ?_, fun q hq => ?_⟩
  · obtain ⟨hne, hq⟩ := (hfull q).mp hq
    rw [Function.update_of_ne hne]
    exact h.onFull q hq
  · obtain ⟨hne, hq⟩ := (hpart q).mp hq
    rw [Function.update_of_ne hne]
    exact h.onPartial q hq
  · obtain ⟨hne, hq⟩ := (hfree q).mp hq
    rw [Function.update_of_ne hne]
    exact h.onFree q hq

theorem Classes.toFull (h : Classes strict C slab) (hnd : C.slabs.Nodup) (hp : p ∈ C.slabsPartial)
    (hpos : 0 < S'.inuse) (hS : S'.inuse = C.num) : Classes strict (C.toFull p) (Function.update slab p S') := by
  obtain ⟨hfull, hpart, hfree⟩ := h.unlink p S' hnd
  refine ⟨List.forall_mem_cons.mpr ⟨?_, hfull⟩, hpart, hfree, ?_⟩
  · rw [Function.update_self]
    exact ⟨hpos, fun _ => hS⟩
  · have hnot : p ∉ C.slabsFree := (Cache.one_list hnd).2.2 p hp
    show C.freeSlab = (C.slabsFree.erase p).length
    rw [List.erase_of_not_mem hnot]
    exact h.freeSlab

theorem Classes.toPartial (h : Classes strict C slab) (hnd : C.slabs.Nodup) (hp : p ∈ C.slabsFree)
    (hpos : 0 < S'.inuse) (hS : S'.inuse < C.num) :
    Classes strict { C.toPartial p with freeSlab := C.freeSlab - 1 } (Function.update slab p S') := by
  obtain ⟨hfull, hpart, hfree⟩ := h.unlink p S' hnd
  refine ⟨hfull, List.forall_mem_cons.mpr ⟨?_, hpart⟩, hfree, ?_⟩
  · rw [Function.update_self]
    exact ⟨hpos, hS⟩
  · show C.freeSlab - 1 = (C.slabsFree.erase p).length
    rw [List.length_erase_of_mem hp, h.freeSlab]

theorem Classes.toFree (h : Classes strict C slab) (hnd : C.slabs.Nodup) (hp : p ∉ C.slabsFree) (hS : S'.inuse = 0) :
    Classes strict { C.toFree p with freeSlab := C.freeSlab + 1 } (Function.update slab p S') := by
  obtain ⟨hfull, hpart, hfree⟩ := h.unlink p S' hnd
  refine ⟨hfull, hpart, List.forall_mem_cons.mpr ⟨?_, hfree⟩, ?_⟩
  · rw [Function.update_self]
    exact hS
  · show C.freeSlab + 1 = (p :: C.slabsFree.erase p).length
    rw [List.erase_of_not_mem hp, List.length_cons, h.freeSlab]

theorem Classes.stay (h : Classes strict C slab) (hp : p ∉ C.slabsFree) (hpos : 0 < S'.inuse)
    (hfull : p ∈ C.slabsFull → strict → S'.inuse = C.num) (hpart : p ∈ C.slabsPartial → S'.inuse < C.num) :
    Classes strict C (Function.update slab p S') := by
  refine ⟨fun q hq => ?_, fun q hq => ?_, fun q hq => ?_, h.freeSlab⟩
  · rcases eq_or_ne q p with rfl | hne
    · rw [Function.update_self]
      exact ⟨hpos, hfull hq⟩
    · rw [Function.update_of_ne hne]
      exact h.onFull q hq
  · rcases eq_or_ne q p with rfl | hne
    · rw [Function.update_self]
      exact ⟨hpos, hpart hq⟩
    · rw [Function.update_of_ne hne]
      exact h.onPartial q hq
  · rcases eq_or_ne q p with rfl | hne
    · exact absurd hq hp
    · rw [Function.update_of_ne hne]
      exact h.onFree q hq

theorem Classes.off (S' : Slab) (h : Classes strict C slab) (hp : p ∉ C.slabs) :
    Classes strict C (Function.update slab p S') := by
  have hne : ∀ q ∈ C.slabs, q ≠ p := by
    rintro q hq rfl
    exact hp hq
  refine ⟨fun q hq => ?_, fun q hq => ?_, fun q hq => ?_, h.freeSlab⟩
  · rw [Function.update_of_ne (hne q (Cache.mem_slabs.mpr (Or.inl hq)))]
    exact h.onFull q hq
  · rw [Function.update_of_ne (hne q (Cache.mem_slabs.mpr (Or.inr (Or.inl hq))))]
    exact h.onPartial q hq
  · rw [Function.update_of_ne (hne q (Cache.mem_slabs.mpr (Or.inr (Or.inr hq))))]
    exact h.onFree q hq

/-! ## The whole allocator -/

def Cache.blocks (C : Cache) (c : Nat) : List (Nat × Nat) := (c, 0) :: C.slabs.map (·, C.gfporder)

theorem Cache.Like.blocks (h : C'.Like C) : (C'.blocks c).Perm (C.blocks c) := by
  simp only [Cache.blocks, h.gfporder]
  exact (h.slabs.map _).cons _

structure SlabSys.Inv (memMap : Nat → Page) (nr : Nat) (strict : Prop) (s : SlabSys) : Prop where
  mem : s.mem.Inv memMap nr
  live : s.mem.live.Perm (s.caches.flatMap fun c => (s.cache c).blocks c)
  owner : ∀ c ∈ s.caches, ∀ p ∈ (s.cache c).slabs, ∀ y, InBlock (s.cache c).gfporder p y →
    (s.mem.buddy.memMap y).slab = some c
  geom : ∀ c ∈ s.caches, (s.cache c).Geom
  slabOk : ∀ c ∈ s.caches, ∀ p ∈ (s.cache c).slabs, SlabOk (s.cache c) p (s.slab p)
  classes : ∀ c ∈ s.caches, Classes strict (s.cache c) s.slab
  count : ∀ c ∈ s.caches, ∀ p ∈ (s.cache c).slabs, s.objs.countP (·.slab = p) = (s.slab p).inuse
  objs : ∀ o ∈ s.objs, o.cache ∈ s.caches ∧ o.slab ∈ (s.cache o.cache).slabs ∧
    ObjAt (s.cache o.cache) (s.slab o.slab) o.addr

def SlabSys.Few (s : SlabSys) : Prop := ∀ c ∈ s.caches, (s.cache c).freeSlab ≤ slabMaxFree

theorem SlabSys.inv_init (memMap : Nat → Page) (nr : Nat) (strict : Prop) :
    (SlabSys.init memMap nr).Inv memMap nr strict where
  mem := BuddySys.inv_init memMap nr
  live := by simp [SlabSys.init, BuddySys.init]
  owner := by simp [SlabSys.init]
  geom := by simp [SlabSys.init]
  slabOk := by simp [SlabSys.init]
  classes := by simp [SlabSys.init]
  count := by simp [SlabSys.init]
  objs := by simp [SlabSys.init]

namespace SlabSys.Inv

theorem pages_nodup (h : s.Inv memMap nr strict) : (s.caches.flatMap fun c => c :: (s.cache c).slabs).Nodup := by
  have hmap := (h.live.map Prod.fst).nodup_iff.mp h.mem.nodup
  simpa [List.map_flatMap, Cache.blocks, Function.comp_def] using hmap

theorem caches_nodup (h : s.Inv memMap nr strict) : s.caches.Nodup := by
  refine (List.nodup_flatMap.mp h.pages_nodup).2.imp ?_
  rintro a _ hdis rfl
  exact hdis (List.mem_cons_self ..) (List.mem_cons_self ..)

theorem slabs_nodup (h : s.Inv memMap nr strict) (hc : c ∈ s.caches) : (s.cache c).slabs.Nodup :=
  ((List.nodup_flatMap.mp h.pages_nodup).1 c hc).of_cons

theorem cache_unique (h : s.Inv memMap nr strict) (hc : c ∈ s.caches) (hc' : c' ∈ s.caches)
    (hp : p ∈ (s.cache c).slabs) (hp' : p ∈ (s.cache c').slabs) : c = c' := by
  by_contra hne
  have hsymm : Std.Symm fun a b => List.Disjoint (a :: (s.cache a).slabs) (b :: (s.cache b).slabs) :=
    ⟨fun _ _ hd => List.Disjoint.symm hd⟩
  exact (List.nodup_flatMap.mp h.pages_nodup).2.forall hc hc' hne (List.mem_cons_of_mem _ hp)
    (List.mem_cons_of_mem _ hp')

theorem slab_live (h : s.Inv memMap nr strict) (hc : c ∈ s.caches) (hp : p ∈ (s.cache c).slabs) :
    (p, (s.cache c).gfporder) ∈ s.mem.live := by
  refine h.live.mem_iff.mpr (List.mem_flatMap.mpr ⟨c, hc, List.mem_cons_of_mem _ ?_⟩)
  exact List.mem_map.mpr ⟨p, hp, rfl⟩

theorem slab_eq_of_common {y : Nat} (h : s.Inv memMap nr strict) (hc : c ∈ s.caches) (hp : p ∈ (s.cache c).slabs)
    (hq : q ∈ (s.cache c).slabs) (hy : InBlock (s.cache c).gfporder p y) (hy' : InBlock (s.cache c).gfporder q y) :
    p = q := by
  by_contra hne
  have hsymm : Std.Symm fun l l' : Nat × Nat => ∀ y, ¬ (InBlock l.2 l.1 y ∧ InBlock l'.2 l'.1 y) :=
    ⟨fun _ _ hd y hy => hd y hy.symm⟩
  exact h.mem.disjoint.forall (h.slab_live hc hp) (h.slab_live hc hq) (fun he => hne (Prod.mk.inj he).1) y ⟨hy, hy'⟩

theorem slabOf_eq {o : Obj} (h : s.Inv memMap nr strict) (ho : o ∈ s.objs) :
    slabOf s o.cache o.addr = some o.slab ∧ o.slab ∉ (s.cache o.cache).slabsFree ∧ 0 < (s.slab o.slab).inuse := by
  obtain ⟨hc, hp, hat⟩ := h.objs o ho
  have hC := h.geom _ hc
  have hpos : 0 < (s.slab o.slab).inuse := by
    rw [← h.count _ hc _ hp]
    exact List.countP_pos_iff.mpr ⟨o, ho, by simp⟩
  have hnot : o.slab ∉ (s.cache o.cache).slabsFree := fun hf => by
    have := (h.classes _ hc).onFree _ hf
    omega
  refine ⟨?_, hnot, hpos⟩
  obtain ⟨i, -, hi⟩ := slabIndex_of_objAt hC hat
  have hin := inBlock_of_slabIndex hC (h.slabOk _ hc _ hp).sMem (by rw [hi]; rfl)
  have hmem : o.slab ∈ (s.cache o.cache).slabsFull ++ (s.cache o.cache).slabsPartial := by
    rcases Cache.mem_slabs.mp hp with hf | hf | hf
    · exact List.mem_append_left _ hf
    · exact List.mem_append_right _ hf
    · exact absurd hf hnot
  -- the first slab the search accepts has a page in common with the slab of the object
  have hsome : (slabOf s o.cache o.addr).isSome := List.find?_isSome.mpr ⟨o.slab, hmem, by rw [hi]; rfl⟩
  obtain ⟨q, hq⟩ := Option.isSome_iff_exists.mp hsome
  have hqs : q ∈ (s.cache o.cache).slabs := List.mem_append_left _ (List.mem_of_find?_eq_some hq)
  have hqi : (slabIndex (s.cache o.cache) (s.slab q) o.addr).isSome := by
    rw [slabOf] at hq
    simpa using List.find?_some hq
  have hqin := inBlock_of_slabIndex hC (h.slabOk _ hc _ hqs).sMem hqi
  rw [hq, h.slab_eq_of_common hc hp hqs hin hqin]

theorem slab_unique {o o' : Obj} (h : s.Inv memMap nr strict) (ho : o ∈ s.objs) (ho' : o' ∈ s.objs)
    (hcache : o'.cache = o.cache) (haddr : o'.addr = o.addr) : o'.slab = o.slab := by
  have heq := (h.slabOf_eq ho').1
  rw [hcache, haddr, (h.slabOf_eq ho).1] at heq
  exact (Option.some.inj heq).symm

theorem update {L' : List Obj} (h : s.Inv memMap nr strict) (hc : c ∈ s.caches) (hp : p ∈ (s.cache c).slabs)
    (hlike : C'.Like (s.cache c)) (hS : SlabOk (s.cache c) p S') (hcl : Classes strict C' (Function.update s.slab p S'))
    (hcount : ∀ q, L'.countP (·.slab = q) = if q = p then S'.inuse else s.objs.countP (·.slab = q))
    (hobjs : ∀ o ∈ L', o ∈ s.objs ∨ o.cache = c ∧ o.slab = p ∧ ObjAt (s.cache c) S' o.addr) :
    SlabSys.Inv memMap nr strict { (s.setSlab p S').setCache c C' with objs := L' } := by
  have hsMem : S'.sMem = (s.slab p).sMem := hS.sMem.trans (h.slabOk c hc p hp).sMem.symm
  -- seen from any cache, the update is one of its lists at most
  have hcache : ∀ d, (Function.update s.cache c C' d).Like (s.cache d) := by
    intro d
    rcases eq_or_ne d c with rfl | hne
    · rw [Function.update_self]
      exact hlike
    · rw [Function.update_of_ne hne]
      exact Cache.Like.refl _
  have hslab : ∀ q, (Function.update s.slab p S' q).sMem = (s.slab q).sMem := by
    intro q
    rcases eq_or_ne q p with rfl | hne
    · rw [Function.update_self, hsMem]
    · rw [Function.update_of_ne hne]
  refine ⟨h.mem, h.live.trans ?_, fun d hd q hq y hy => ?_, fun d hd => (hcache d).geom (h.geom d hd),
    fun d hd q hq => ?_, fun d hd => ?_, fun d hd q hq => ?_, fun o ho => ?_⟩
  · exact List.Perm.flatMap_left _ fun d _ => (hcache d).blocks.symm
  · rw [show ({ (s.setSlab p S').setCache c C' with objs := L' } : SlabSys).cache d = Function.update s.cache c C' d
      from rfl, (hcache d).gfporder] at hy
    exact h.owner d hd q ((hcache d).slabs.mem_iff.mp hq) y hy
  · replace hq : q ∈ (s.cache d).slabs := (hcache d).slabs.mem_iff.mp hq
    refine (hcache d).slabOk ?_
    show SlabOk (s.cache d) q (Function.update s.slab p S' q)
    rcases eq_or_ne q p with rfl | hne
    · rw [Function.update_self, h.cache_unique hd hc hq hp]
      exact hS
    · rw [Function.update_of_ne hne]
      exact h.slabOk d hd q hq
  · show Classes strict (Function.update s.cache c C' d) (Function.update s.slab p S')
    rcases eq_or_ne d c with rfl | hne
    · rw [Function.update_self]
      exact hcl
    · rw [Function.update_of_ne hne]
      exact (h.classes d hd).off S' fun hpd => hne (h.cache_unique hd hc hpd hp)
  · replace hq : q ∈ (s.cache d).slabs := (hcache d).slabs.mem_iff.mp hq
    show L'.countP _ = (Function.update s.slab p S' q).inuse
    rw [hcount]
    rcases eq_or_ne q p with rfl | hne
    · rw [if_pos rfl, Function.update_self]
    · rw [if_neg hne, Function.update_of_ne hne]
      exact h.count d hd q hq
  · rcases hobjs o ho with hold | ⟨rfl, rfl, hat⟩
    · obtain ⟨h₁, h₂, h₃⟩ := h.objs o hold
      exact ⟨h₁, (hcache _).slabs.mem_iff.mpr h₂, (hcache _).objAt (hslab _) h₃⟩
    · refine ⟨hc, (hcache _).slabs.mem_iff.mpr hp, ?_⟩
      refine (hcache _).objAt ?_ hat
      rw [show ({ (s.setSlab o.slab S').setCache o.cache C' with objs := L' } : SlabSys).slab o.slab = S' from
        Function.update_self ..]

end SlabSys.Inv

end FengOS.Mm
