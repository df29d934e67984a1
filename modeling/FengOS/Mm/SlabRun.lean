import FengOS.Mm.Slab

/-!
# Runs of the slab allocator

Any number of caches share one buddy allocator. A run creates caches, allocates objects from them and frees live
objects.
-/

namespace FengOS.Mm

open FengOS.Lib

inductive KmemOp
  | create (size flags : Nat)
  | alloc (cachep : Nat)
  | free (cachep objp : Nat)
  deriving DecidableEq, Repr

def SlabSys.step (s : SlabSys) : KmemOp → Option SlabSys
  | .create size flags => (kmemCacheCreate s size flags).map Prod.snd
  | .alloc c =>
    match kmemCacheAlloc s c with
    | (none, s) => some s
    | (some (p, obj), s) => some { s with objs := ⟨c, p, obj⟩ :: s.objs }
  | .free c objp =>
    (kmemCacheFree s c objp).map fun s => { s with objs := s.objs.eraseP fun o => o.cache = c ∧ o.addr = objp }

def SlabSys.ok (s : SlabSys) : KmemOp → Prop
  | .create _ _ => True
  | .alloc c => c ∈ s.caches
  | .free c objp => ∃ o ∈ s.objs, o.cache = c ∧ o.addr = objp

instance SlabSys.decidableOk (s : SlabSys) : ∀ op, Decidable (s.ok op)
  | .create _ _ => .isTrue trivial
  | .alloc c => inferInstanceAs (Decidable (c ∈ s.caches))
  | .free c objp => inferInstanceAs (Decidable (∃ o ∈ s.objs, o.cache = c ∧ o.addr = objp))

def SlabSys.init (memMap : Nat → Page) (nr : Nat) : SlabSys :=
  ⟨BuddySys.init memMap nr, fun _ => default, fun _ => default, [], []⟩

/-- The object is not the last of its slab, or the cache has fewer than `SLAB_MAX_FREE` empty slabs. -/
def SlabSys.NoTrim (s : SlabSys) : KmemOp → Prop
  | .free c objp =>
    ∀ o ∈ s.objs, o.cache = c → o.addr = objp → (s.slab o.slab).inuse = 1 → (s.cache c).freeSlab < slabMaxFree
  | _ => True

/-- The object freed is not one of a full slab. -/
def SlabSys.NotFull (s : SlabSys) : KmemOp → Prop
  | .free c objp => ∀ o ∈ s.objs, o.cache = c → o.addr = objp → (s.slab o.slab).inuse ≠ (s.cache c).num
  | _ => True

abbrev SlabSys.Reach (memMap : Nat → Page) (nr : Nat) : SlabSys → Prop :=
  Run SlabSys.step SlabSys.ok (· = SlabSys.init memMap nr)

/-- The states of the runs in which no free lets the cache have more than `SLAB_MAX_FREE` empty slabs. -/
abbrev SlabSys.ReachNoTrim (memMap : Nat → Page) (nr : Nat) : SlabSys → Prop :=
  Run SlabSys.step (fun s op => s.ok op ∧ s.NoTrim op) (· = SlabSys.init memMap nr)

/-- The states of the runs in which, moreover, no object of a full slab is freed. -/
abbrev SlabSys.ReachNotFull (memMap : Nat → Page) (nr : Nat) : SlabSys → Prop :=
  Run SlabSys.step (fun s op => s.ok op ∧ s.NoTrim op ∧ s.NotFull op) (· = SlabSys.init memMap nr)

def Cache.slabs (C : Cache) : List Nat := C.slabsFull ++ C.slabsPartial ++ C.slabsFree

end FengOS.Mm
