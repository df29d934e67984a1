import FengOS.Mm.Lemmas.SlabOps

/-!
# The objects of one slab

One slab is followed through a run of the whole allocator, in which anything else may happen to other slabs and to the lists.
-/

namespace FengOS.Mm

open FengOS.Lib

/-- The allocator, and the objects of the slab that are live. -/
structure OneSlab where
  sys : SlabSys
  live : List Nat

inductive OneSlabOp
  | alloc
  | free (objp : Nat)
  | other (sys : SlabSys)

def OneSlab.step (c p : Nat) (s : OneSlab) : OneSlabOp → Option OneSlab
  | .alloc => some ⟨(slabAlloc s.sys c p).2, (slabAlloc s.sys c p).1.toList ++ s.live⟩
  | .free objp => (cacheFree s.sys c objp).map fun t => ⟨t, s.live.erase objp⟩
  | .other t => some ⟨t, s.live⟩

/-- Live objects are freed and their slab is found; what else happens leaves the slab and the cache alone. -/
def OneSlab.ok (c p : Nat) (s : OneSlab) : OneSlabOp → Prop
  | .alloc => True
  | .free objp => objp ∈ s.live ∧ slabOf s.sys c objp = some p
  | .other t => t.slab p = s.sys.slab p ∧ (t.cache c).SameGeom (s.sys.cache c)

/-- `cache_grow` has built the slab, for a cache of `kmem_cache_create` with objects of the size. -/
def OneSlab.Init (size c p : Nat) (s : OneSlab) : Prop :=
  s.live = [] ∧ ∃ before flags created grown, kmemCacheCreate before size flags = some (some c, created) ∧
    (SlabSys.cache grown c).SameGeom (created.cache c) ∧ cacheGrow grown c = (true, s.sys) ∧
    (s.sys.cache c).slabsFree.head? = some p

abbrev OneSlab.Reach (size c p : Nat) : OneSlab → Prop := Run (OneSlab.step c p) (OneSlab.ok c p) (OneSlab.Init size c p)

def objAddr (C : Cache) (S : Slab) (i : Nat) : Nat := S.sMem + C.size * i

/-- `array[free..num-1]`. -/
def Slab.avail (C : Cache) (S : Slab) : List Nat := (S.array.take C.num).drop S.free

def InObj (C : Cache) (S : Slab) (i a : Nat) : Prop := objAddr C S i ≤ a ∧ a < objAddr C S i + C.size

/-- The objects are aligned, apart from each other, `struct slab` and the index array, and in the slab. -/
structure SlabLayout (C : Cache) (p : Nat) (S : Slab) : Prop where
  aligned : ∀ i < C.num, 8 ∣ objAddr C S i
  disjoint : ∀ i < C.num, ∀ j < C.num, ∀ a, InObj C S i a → InObj C S j a → i = j
  behind : ∀ i < C.num, ∀ a, InObj C S i a → virtual p + slabHeadSize + (C.num + 1) * 2 ≤ a
  inside : ∀ i < C.num, ∀ a, InObj C S i a → a < virtual p + 2 ^ C.gfporder * pageSize

/-- The live objects are different objects of the slab, and the index array is a stack of the others. -/
structure SlabStack (C : Cache) (S : Slab) (live : List Nat) : Prop where
  objs : live.Nodup ∧ ∀ a ∈ live, ∃ i < C.num, a = objAddr C S i
  num : 3 ≤ C.num
  inuse : S.inuse = S.free
  le : S.free ≤ C.num
  length : S.array.length = C.num + 1
  nodup : (S.avail C).Nodup
  mem : ∀ i, i ∈ S.avail C ↔ i < C.num ∧ objAddr C S i ∉ live
  endMark : S.array.getD C.num 0 = bufctlEnd

end FengOS.Mm
