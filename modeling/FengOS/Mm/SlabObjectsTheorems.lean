import FengOS.Mm.SlabObjects
import FengOS.Mm.SlabTheorems

/-!
# An object is handed out once
-/

namespace FengOS.Mm

open FengOS.Lib

variable {C C' : Cache} {S : Slab} {size c p i j a : Nat} {s s' : OneSlab} {sys sys' : SlabSys}

/-! ## The index array as a stack -/

theorem objAddr_injective (hC : C.Geom) (h : objAddr C S i = objAddr C S j) : i = j :=
  Nat.eq_of_mul_eq_mul_left hC.size_pos (Nat.add_left_cancel h)

theorem SlabOk.avail_cons (hS : SlabOk C p S) (hlt : S.inuse < C.num) :
    S.avail C = S.array.getD S.inuse 0 :: S.taken.avail C := by
  have hlen : S.inuse < (S.array.take C.num).length := by
    rw [List.length_take, hS.length]
    omega
  have hget : (S.array.take C.num).get ⟨S.inuse, hlen⟩ = S.array.getD S.inuse 0 := by
    simp [List.getD_eq_getElem?_getD, List.getElem?_eq_getElem (show S.inuse < S.array.length by rw [hS.length]; omega)]
  rw [Slab.avail, hS.free, List.drop_eq_getElem_cons hlen, ← hget, Slab.avail, Slab.taken, hS.free]
  rfl

theorem SlabOk.avail_given (hS : SlabOk C p S) (hpos : 0 < S.inuse) : (S.given i).avail C = i :: S.avail C := by
  have hle := hS.le
  have hlen : S.inuse - 1 < ((S.array.set (S.inuse - 1) i).take C.num).length := by
    rw [List.length_take, List.length_set, hS.length]
    omega
  rw [Slab.avail, Slab.given, hS.free, List.drop_eq_getElem_cons hlen, Slab.avail, hS.free]
  congr 1
  · simp
  · rw [Nat.sub_add_cancel hpos, List.take_set, List.drop_set_of_lt (by omega)]

theorem avail_fresh (C : Cache) (p : Nat) : (Slab.fresh C p).avail C = List.range C.num := by
  rw [Slab.avail, Slab.fresh, List.drop_zero, List.take_left' List.length_range]

theorem SlabOk.length_avail (hS : SlabOk C p S) : (S.avail C).length = C.num - S.inuse := by
  rw [Slab.avail, List.length_drop, List.length_take, hS.length, hS.free]
  omega

/-! ## The invariant -/

structure OneSlab.Inv (size c p : Nat) (s : OneSlab) : Prop where
  geom : (s.sys.cache c).Geom
  size : (s.sys.cache c).size = kmemAlign size
  slab : SlabOk (s.sys.cache c) p (s.sys.slab p)
  live : ∃ used, s.live = used.map (objAddr (s.sys.cache c) (s.sys.slab p)) ∧
    ((s.sys.slab p).avail (s.sys.cache c) ++ used).Perm (List.range (s.sys.cache c).num)

theorem cacheGrow_slab (h : cacheGrow sys c = (true, sys')) : (sys'.cache c).SameGeom (sys.cache c) ∧
    ∃ q, (sys'.cache c).slabsFree.head? = some q ∧ sys'.slab q = Slab.fresh (sys.cache c) q := by
  rw [cacheGrow, kmemGetpages] at h
  cases ha : sys.mem.alloc (sys.cache c).gfporder with
  | mk r m =>
    cases r with
    | none =>
      rw [ha] at h
      cases h
    | some q =>
      rw [ha] at h
      cases h
      simp only [SlabSys.setCache, SlabSys.setSlab, Function.update_self, List.head?_cons, Option.some.injEq]
      exact ⟨⟨rfl, rfl, rfl⟩, q, rfl, by rw [Function.update_self]; rfl⟩

theorem kmemCacheCreate_cache {before created : SlabSys} {flags : Nat}
    (h : kmemCacheCreate before size flags = some (some c, created)) :
    (created.cache c).Geom ∧ (created.cache c).size = kmemAlign size := by
  rw [kmemCacheCreate] at h
  split at h
  · cases h
  · cases ha : before.mem.alloc 0 with
    | mk r m =>
      cases r with
      | none =>
        rw [ha] at h
        cases h
      | some d =>
        rw [ha] at h
        dsimp only at h
        split at h
        · cases h
        · split at h
          · cases h
          · rename_i hord hpos
            have hgeom := Cache.Geom.create flags hpos (Nat.lt_of_not_le hord)
            split at h
            · rename_i t hg
              cases h
              have hsame := (cacheGrow_slab hg).1
              simp only [SlabSys.setCache, Function.update_self] at hsame
              exact ⟨hsame.geom hgeom, hsame.size⟩
            · cases h

theorem OneSlab.Init.inv (h : s.Init size c p) : s.Inv size c p := by
  obtain ⟨hlive, before, flags, created, grown, hcreate, hsame, hgrow, hp⟩ := h
  obtain ⟨hgeom, hsize⟩ := kmemCacheCreate_cache hcreate
  obtain ⟨hsame', q, hq, hslab⟩ := cacheGrow_slab hgrow
  obtain rfl : q = p := Option.some.inj (hq.symm.trans hp)
  have hnum : (s.sys.slab q).avail (s.sys.cache c) = List.range (s.sys.cache c).num := by
    rw [hslab, Slab.avail, hsame'.num]
    exact avail_fresh _ q
  constructor
  case geom => exact hsame'.geom (hsame.geom hgeom)
  case size => rw [hsame'.size, hsame.size, hsize]
  case slab =>
    rw [hslab]
    exact hsame'.slabOk (SlabOk.fresh _ q)
  case live =>
    refine ⟨[], hlive, ?_⟩
    rw [hnum, List.append_nil]

theorem OneSlab.Inv.change (h : s.Inv size c p) (hsame : (s'.sys.cache c).SameGeom (s.sys.cache c))
    (hS : SlabOk (s.sys.cache c) p (s'.sys.slab p))
    (hlive : ∃ used, s'.live = used.map (objAddr (s.sys.cache c) (s.sys.slab p)) ∧
      ((s'.sys.slab p).avail (s.sys.cache c) ++ used).Perm (List.range (s.sys.cache c).num)) : s'.Inv size c p := by
  obtain ⟨used, hmap, hperm⟩ := hlive
  have hsMem : (s'.sys.slab p).sMem = (s.sys.slab p).sMem := hS.sMem.trans h.slab.sMem.symm
  constructor
  case geom => exact hsame.geom h.geom
  case size => rw [hsame.size, h.size]
  case slab => exact hsame.slabOk hS
  case live =>
    refine ⟨used, ?_, ?_⟩
    · rw [hmap]
      refine List.map_congr_left fun i _ => ?_
      rw [objAddr, objAddr, hsMem, hsame.size]
    · rw [Slab.avail, hsame.num]
      exact hperm

theorem OneSlab.Inv.alloc (h : s.Inv size c p) :
    ((slabAlloc s.sys c p).1 = none ∧ (s.sys.slab p).inuse = (s.sys.cache c).num ∧
      (slabAlloc s.sys c p).2.slab p = s.sys.slab p ∧ ((slabAlloc s.sys c p).2.cache c).SameGeom (s.sys.cache c)) ∨
    ∃ i, (slabAlloc s.sys c p).1 = some (objAddr (s.sys.cache c) (s.sys.slab p) i) ∧
      (s.sys.slab p).avail (s.sys.cache c) = i :: (s.sys.slab p).taken.avail (s.sys.cache c) ∧
      (s.sys.slab p).inuse < (s.sys.cache c).num ∧ (slabAlloc s.sys c p).2.slab p = (s.sys.slab p).taken ∧
      ((slabAlloc s.sys c p).2.cache c).SameGeom (s.sys.cache c) := by
  rcases Nat.lt_or_eq_of_le h.slab.le with hlt | hfull
  · refine .inr ⟨_, ?_, h.slab.avail_cons hlt, hlt, ?_, ?_⟩
    · rw [slabAlloc_some h.geom h.slab hlt]
      rfl
    · rw [slabAlloc_some h.geom h.slab hlt]
      simp [SlabSys.setCache, SlabSys.setSlab]
    · rw [slabAlloc_some h.geom h.slab hlt]
      simp only [SlabSys.setCache, Function.update_self]
      split <;> exact ⟨rfl, rfl, rfl⟩
  · refine .inl ⟨?_, hfull, ?_, ?_⟩
    · rw [slabAlloc_none h.slab hfull]
    · rw [slabAlloc_none h.slab hfull]
      simp [SlabSys.setCache, SlabSys.setSlab]
    · rw [slabAlloc_none h.slab hfull]
      simp only [SlabSys.setCache, Function.update_self]
      exact ⟨rfl, rfl, rfl⟩

theorem OneSlab.Inv.step_alloc (h : s.Inv size c p) (hs : s.step c p .alloc = some s') : s'.Inv size c p := by
  cases hs
  obtain ⟨used, hmap, hperm⟩ := h.live
  rcases h.alloc with ⟨hnone, _, hslab, hsame⟩ | ⟨i, hsome, hcons, hlt, hslab, hsame⟩
  · refine h.change hsame (by rw [hslab]; exact h.slab) ⟨used, ?_, ?_⟩
    · rw [hnone]
      exact hmap
    · rw [hslab]
      exact hperm
  · refine h.change hsame (by rw [hslab]; exact h.slab.taken hlt) ⟨i :: used, ?_, ?_⟩
    · rw [hsome, List.map_cons, ← hmap]
      rfl
    · rw [hcons] at hperm
      rw [hslab]
      exact List.perm_middle.trans hperm

theorem OneSlab.Inv.step_free (h : s.Inv size c p) (hmem : a ∈ s.live) (hof : slabOf s.sys c a = some p)
    (hs : s.step c p (.free a) = some s') : s'.Inv size c p := by
  obtain ⟨used, hmap, hperm⟩ := h.live
  rw [hmap] at hmem
  obtain ⟨i, hi, rfl⟩ := List.mem_map.mp hmem
  have hnum : i < (s.sys.cache c).num := by
    rw [← List.mem_range, ← hperm.mem_iff]
    exact List.mem_append_right _ hi
  -- the objects in use are as many as `inuse` says
  have hpos : 0 < (s.sys.slab p).inuse := by
    have hlen := hperm.length_eq
    rw [List.length_append, h.slab.length_avail, List.length_range] at hlen
    have hused := List.length_pos_of_mem hi
    have hle := h.slab.le
    omega
  have hfree := cacheFree_of_slabOf h.geom h.slab hof (slabIndex_add h.geom hnum) hpos
  rw [OneSlab.step, hfree] at hs
  cases hs
  refine h.change ?_ ?_ ⟨used.erase i, ?_, ?_⟩
  · simp only [SlabSys.setCache, Function.update_self]
    split <;> exact ⟨rfl, rfl, rfl⟩
  · simp only [SlabSys.setCache, SlabSys.setSlab, Function.update_self]
    exact h.slab.given hpos hnum
  · rw [hmap]
    exact (List.map_erase (fun _ _ he => objAddr_injective h.geom he) ..).symm
  · simp only [SlabSys.setCache, SlabSys.setSlab, Function.update_self]
    rw [h.slab.avail_given hpos]
    have hback : ((s.sys.slab p).avail (s.sys.cache c) ++ i :: used.erase i).Perm (List.range (s.sys.cache c).num) :=
      ((List.perm_cons_erase hi).symm.append_left _).trans hperm
    exact List.perm_middle.symm.trans hback

theorem OneSlab.Reach.inv (h : s.Reach size c p) : s.Inv size c p := by
  apply Run.invariant _ _ h
  · exact fun s hs => hs.inv
  · intro s op s' hinv hok hs
    cases op with
    | alloc => exact hinv.step_alloc hs
    | free objp => exact hinv.step_free hok.1 hok.2 hs
    | other t =>
      cases hs
      obtain ⟨hslab, hsame⟩ := hok
      refine hinv.change hsame (by rw [hslab]; exact hinv.slab) ?_
      rw [hslab]
      exact hinv.live

/-! ## The results -/

theorem OneSlab.Inv.stack (h : s.Inv size c p) : SlabStack (s.sys.cache c) (s.sys.slab p) s.live := by
  obtain ⟨used, hmap, hperm⟩ := h.live
  have hnodup : ((s.sys.slab p).avail (s.sys.cache c) ++ used).Nodup := hperm.nodup_iff.mpr List.nodup_range
  obtain ⟨havail, hused, hdisjoint⟩ := List.nodup_append.mp hnodup
  have hinj : Function.Injective (objAddr (s.sys.cache c) (s.sys.slab p)) := fun _ _ he => objAddr_injective h.geom he
  have hlt : ∀ i ∈ (s.sys.slab p).avail (s.sys.cache c) ++ used, i < (s.sys.cache c).num := fun i hi =>
    List.mem_range.mp (hperm.mem_iff.mp hi)
  constructor
  case objs =>
    rw [hmap]
    refine ⟨hused.map hinj, fun a ha => ?_⟩
    obtain ⟨i, hi, rfl⟩ := List.mem_map.mp ha
    exact ⟨i, hlt i (List.mem_append_right _ hi), rfl⟩
  case num => exact h.geom.num_ge
  case inuse => exact h.slab.free.symm
  case le =>
    rw [h.slab.free]
    exact h.slab.le
  case length => exact h.slab.length
  case nodup => exact havail
  case mem =>
    intro i
    rw [hmap, List.mem_map_of_injective hinj]
    constructor
    · exact fun hi => ⟨hlt i (List.mem_append_left _ hi), fun hu => hdisjoint i hi i hu rfl⟩
    · rintro ⟨hi, hnot⟩
      have hmem := hperm.mem_iff.mpr (List.mem_range.mpr hi)
      exact (List.mem_append.mp hmem).resolve_right hnot
  case endMark => exact h.slab.endMark

theorem OneSlab.Inv.layout (h : s.Inv size c p) : SlabLayout (s.sys.cache c) p (s.sys.slab p) := by
  have hpos := h.geom.size_pos
  have hsMem := h.slab.sMem
  have hend : ∀ i < (s.sys.cache c).num,
      objAddr (s.sys.cache c) (s.sys.slab p) i + (s.sys.cache c).size ≤ virtual p + 2 ^ (s.sys.cache c).gfporder * pageSize := by
    intro i hi
    have hfits := h.geom.fits
    have hmul : (s.sys.cache c).size * (i + 1) ≤ (s.sys.cache c).num * (s.sys.cache c).size := by
      rw [Nat.mul_comm]
      exact Nat.mul_le_mul_right _ hi
    rw [objAddr, hsMem]
    rw [Nat.mul_add, Nat.mul_one] at hmul
    omega
  constructor
  case aligned =>
    intro i _
    rw [objAddr, hsMem, h.size, kmemAlign_eq, headSize, kmemAlign_eq, virtual, kernelOffset, pageSize]
    refine Nat.dvd_add ?_ (Dvd.dvd.mul_right (Nat.dvd_mul_left 8 _) _)
    omega
  case disjoint =>
    rintro i _ j _ a ⟨hi, hi'⟩ ⟨hj, hj'⟩
    rw [objAddr] at hi hi' hj hj'
    refine Nat.le_antisymm (Nat.le_of_lt_succ ?_) (Nat.le_of_lt_succ ?_)
    · exact Nat.lt_of_mul_lt_mul_left (a := (s.sys.cache c).size) (by rw [Nat.mul_succ]; omega)
    · exact Nat.lt_of_mul_lt_mul_left (a := (s.sys.cache c).size) (by rw [Nat.mul_succ]; omega)
  case behind =>
    rintro i _ a ⟨hi, _⟩
    rw [objAddr, hsMem, headSize, kmemAlign_eq] at hi
    omega
  case inside => exact fun i hi a ha => Nat.lt_of_lt_of_le ha.2 (hend i hi)

/-- The index array is a stack of the objects that are not live, they lie apart in the slab, and `____cache_alloc` hands out
one of them. -/
theorem slab_objects (h : s.Reach size c p) :
    SlabStack (s.sys.cache c) (s.sys.slab p) s.live ∧ SlabLayout (s.sys.cache c) p (s.sys.slab p) ∧
    size ≤ (s.sys.cache c).size ∧
    ((slabAlloc s.sys c p).1 = none → ∀ i < (s.sys.cache c).num, objAddr (s.sys.cache c) (s.sys.slab p) i ∈ s.live) ∧
    ∀ obj, (slabAlloc s.sys c p).1 = some obj →
      obj ∉ s.live ∧ ∃ i < (s.sys.cache c).num, obj = objAddr (s.sys.cache c) (s.sys.slab p) i := by
  have hinv := h.inv
  have hstack := hinv.stack
  refine ⟨hstack, hinv.layout, ?_, fun hnone i hi => ?_, fun obj hobj => ?_⟩
  · rw [hinv.size, kmemAlign_eq]
    omega
  · rcases hinv.alloc with ⟨_, hfull, _, _⟩ | ⟨j, hsome, _⟩
    · by_contra hnot
      have hmem := (hstack.mem i).mpr ⟨hi, hnot⟩
      have hlen := hinv.slab.length_avail
      rw [hfull, Nat.sub_self] at hlen
      rw [List.eq_nil_of_length_eq_zero hlen] at hmem
      cases hmem
    · rw [hsome] at hnone
      cases hnone
  · rcases hinv.alloc with ⟨hnone, _, _, _⟩ | ⟨j, hsome, hcons, _⟩
    · rw [hnone] at hobj
      cases hobj
    · rw [hsome] at hobj
      cases hobj
      obtain ⟨hj, hnot⟩ := (hstack.mem j).mp (by rw [hcons]; exact List.mem_cons_self ..)
      exact ⟨hnot, j, hj, rfl⟩

def grownSlab : OneSlab := ⟨(cacheGrow oneCache 1).2, []⟩

theorem grownSlab_init : grownSlab.Init 1024 1 3 := by
  refine ⟨rfl, SlabSys.init firstReserved 8, 0, oneCache, oneCache, ?_, ⟨rfl, rfl, rfl⟩, ?_, by decide⟩
  · have hone : (kmemCacheCreate (SlabSys.init firstReserved 8) 1024 0).map Prod.fst = some (some 1) := by decide
    obtain ⟨r, hr, hfst⟩ := Option.map_eq_some_iff.mp hone
    have hsys : oneCache = r.2 := by simp [oneCache, SlabSys.step, hr]
    rw [hr, hsys, ← hfst]
  · exact Prod.ext (by decide) rfl

def heldSlab : OneSlab :=
  ⟨(slabAlloc grownSlab.sys 1 3).2.setCache 1 (((slabAlloc grownSlab.sys 1 3).2.cache 1).toPartial 3),
    (slabAlloc grownSlab.sys 1 3).1.toList ++ []⟩

theorem heldSlab_reach : heldSlab.Reach 1024 1 3 := by
  let s : OneSlab := ⟨(slabAlloc grownSlab.sys 1 3).2, heldSlab.live⟩
  have halloc : s.Reach 1024 1 3 := .step (a := OneSlabOp.alloc) (.init grownSlab_init) trivial rfl
  have hok : s.ok 1 3 (.other heldSlab.sys) := by
    refine ⟨rfl, ?_⟩
    simp only [heldSlab, SlabSys.setCache, Function.update_self]
    exact ⟨rfl, rfl, rfl⟩
  exact halloc.step hok rfl

theorem slab_objects_freed : ∃ s : OneSlab, s.Reach 1024 1 3 ∧ heldSlab.live = [kernelOffset + 12328] ∧ s.live = [] ∧
    SlabStack (s.sys.cache 1) (s.sys.slab 3) s.live := by
  have hlive : heldSlab.live = [kernelOffset + 12328] := by decide
  have hok : heldSlab.ok 1 3 (.free (kernelOffset + 12328)) := ⟨by rw [hlive]; simp, by decide⟩
  have hsome : (cacheFree heldSlab.sys 1 (kernelOffset + 12328)).isSome := by decide
  obtain ⟨t, ht⟩ := Option.isSome_iff_exists.mp hsome
  have hreach : OneSlab.Reach 1024 1 3 ⟨t, []⟩ := by
    refine heldSlab_reach.step hok ?_
    rw [OneSlab.step, ht, hlive]
    simp
  exact ⟨⟨t, []⟩, hreach, hlive, rfl, (slab_objects hreach).1⟩

end FengOS.Mm
