import FengOS.Mm.BuddyRun

/-!
# The slab allocator (`mm/slab.c`)

A cache is the page with its `struct kmem_cache`, a slab the first page of its block, with its `struct slab` and the index
array; an object is its address.

The counters are `unsigned int`; sizes stay below `2 ^ 32` because `kmem_cache_create` refuses objects of `2 ^ 17` bytes.
-/

namespace FengOS.Mm

def slabMinNum : Nat := 4

def slabMaxFree : Nat := 4

def bufctlEnd : Nat := 0xffff

/-- `sizeof(void *)`. -/
def ptrSize : Nat := 8

/-- `sizeof(struct slab)`. -/
def slabHeadSize : Nat := 32

def inc32 (n : Nat) : Nat := (n + 1) % 2 ^ 32

def dec32 (n : Nat) : Nat := (n + (2 ^ 32 - 1)) % 2 ^ 32

/-- `struct slab` with the index array behind it. -/
structure Slab where
  sMem : Nat
  inuse : Nat
  free : Nat
  array : List Nat
  deriving DecidableEq, Repr, Inhabited

/-- `struct kmem_cache`. -/
structure Cache where
  flags : Nat
  totalSlab : Nat
  freeSlab : Nat
  num : Nat
  size : Nat
  gfporder : Nat
  slabsPartial : List Nat
  slabsFull : List Nat
  slabsFree : List Nat
  deriving DecidableEq, Repr, Inhabited

/-- An object handed out and not yet freed: its cache, the slab it came from and its address. -/
structure Obj where
  cache : Nat
  slab : Nat
  addr : Nat
  deriving DecidableEq, Repr

/-- The memory of the allocator; `caches` and `objs` record what has been returned, and the code does not read them. -/
structure SlabSys where
  mem : BuddySys
  cache : Nat → Cache
  slab : Nat → Slab
  caches : List Nat
  objs : List Obj

def SlabSys.setCache (s : SlabSys) (c : Nat) (C : Cache) : SlabSys :=
  { s with cache := Function.update s.cache c C }

def SlabSys.setSlab (s : SlabSys) (p : Nat) (S : Slab) : SlabSys :=
  { s with slab := Function.update s.slab p S }

/-! ## Layout -/

def kmemAlign (size : Nat) : Nat := size / ptrSize * ptrSize + if size % ptrSize ≠ 0 then ptrSize else 0

def headSize (n : Nat) : Nat := kmemAlign (slabHeadSize + (n + 1) * 2)

def findOrder (size : Nat) : Nat → Nat → Nat
  | 0, i => i
  | n + 1, i => if pageSize * (1 <<< i) < size * slabMinNum then findOrder size n (i + 1) else i

def objsPerSlab (size order : Nat) : Nat :=
  let tnum := (1 <<< order) * pageSize / size
  ((1 <<< order) * pageSize - headSize tnum) / size

/-! ## The lists -/

/-- `list_del(&slabp->list)`. -/
def Cache.unlink (C : Cache) (p : Nat) : Cache :=
  { C with slabsPartial := C.slabsPartial.erase p, slabsFull := C.slabsFull.erase p, slabsFree := C.slabsFree.erase p }

def Cache.toFull (C : Cache) (p : Nat) : Cache :=
  let C := C.unlink p
  { C with slabsFull := p :: C.slabsFull }

def Cache.toPartial (C : Cache) (p : Nat) : Cache :=
  let C := C.unlink p
  { C with slabsPartial := p :: C.slabsPartial }

def Cache.toFree (C : Cache) (p : Nat) : Cache :=
  let C := C.unlink p
  { C with slabsFree := p :: C.slabsFree }

/-! ## Growing a cache -/

def kmemGetpages (s : SlabSys) (c : Nat) : Option Nat × SlabSys :=
  match s.mem.alloc (s.cache c).gfporder with
  | (none, m) => (none, { s with mem := m })
  | (some page, m) =>
    let memMap := fun i =>
      if page ≤ i ∧ i < page + (1 <<< (s.cache c).gfporder) then { m.buddy.memMap i with slab := some c }
      else m.buddy.memMap i
    (some page, { s with mem := { m with buddy := { m.buddy with memMap := memMap } } })

/-- `cache_grow`; `false` stands for the return value -1. -/
def cacheGrow (s : SlabSys) (c : Nat) : Bool × SlabSys :=
  match kmemGetpages s c with
  | (none, s) => (false, s)
  | (some p, s) =>
    let C := s.cache c
    let S : Slab :=
      { sMem := virtual p + headSize C.num, inuse := 0, free := 0, array := List.range C.num ++ [bufctlEnd] }
    let C' :=
      { C with totalSlab := inc32 C.totalSlab, freeSlab := inc32 C.freeSlab, slabsFree := p :: C.slabsFree }
    (true, (s.setSlab p S).setCache c C')

/-- `kmem_cache_create`. The outer option is `none` where the source divides by zero. -/
def kmemCacheCreate (s : SlabSys) (size flags : Nat) : Option (Option Nat × SlabSys) :=
  if pageSize * (1 <<< (maxOrder - 3)) ≤ size then some (none, s)
  else
    match s.mem.alloc 0 with
    | (none, m) => some (none, { s with mem := m })
    | (some c, m) =>
      let size := kmemAlign size
      let order := findOrder size maxOrder 0
      if maxOrder ≤ order then some (none, { s with mem := m.free (virtual c) 0 })
      else if size = 0 then none
      else
        let C : Cache :=
          { flags, totalSlab := 0, freeSlab := 0, num := objsPerSlab size order, size, gfporder := order,
            slabsPartial := [], slabsFull := [], slabsFree := [] }
        match cacheGrow { s.setCache c C with mem := m, caches := c :: s.caches } c with
        | (true, s) => some (some c, s)
        | (false, s) => some (none, { s with mem := s.mem.free (virtual c) 0, caches := s.caches.erase c })

/-! ## Allocation -/

/-- `____cache_alloc`: an object of the slab, `none` for NULL. -/
def slabAlloc (s : SlabSys) (c p : Nat) : Option Nat × SlabSys :=
  let C := s.cache c
  let S := s.slab p
  let taken := S.array.getD S.free 0 ≠ bufctlEnd
  let ret := if taken then some (S.sMem + C.size * S.array.getD S.free 0) else none
  let S := if taken then { S with free := inc32 S.free, inuse := inc32 S.inuse } else S
  let s := s.setSlab p S
  (ret, if S.array.getD S.free 0 = bufctlEnd then s.setCache c (C.toFull p) else s)

def allocFrom (c : Nat) : List Nat → SlabSys → Option (Nat × Nat) × SlabSys
  | [], s => (none, s)
  | p :: ps, s =>
    match slabAlloc s c p with
    | (some obj, s) => (some (p, obj), s)
    | (none, s) => allocFrom c ps s

def cacheAlloc (s : SlabSys) (c : Nat) : Option (Nat × Nat) × SlabSys :=
  match allocFrom c (s.cache c).slabsPartial s with
  | (some r, s) => (some r, s)
  | (none, s) =>
    match allocFrom c (s.cache c).slabsFree s with
    | (none, s) => (none, s)
    | (some (p, obj), s) =>
      let C := (s.cache c).toPartial p
      (some (p, obj), s.setCache c { C with freeSlab := dec32 C.freeSlab })

def kmemCacheAlloc (s : SlabSys) (c : Nat) : Option (Nat × Nat) × SlabSys :=
  match cacheAlloc s c with
  | (some r, s) => (some r, s)
  | (none, s) =>
    match cacheGrow s c with
    | (true, s) => cacheAlloc s c
    | (false, s) => (none, s)

/-! ## Freeing -/

def slabIndex (C : Cache) (S : Slab) (objp : Nat) : Option Nat :=
  if objp < S.sMem then none
  else if S.sMem + (C.num - 1) * C.size < objp then none
  else some ((objp - S.sMem) / C.size)

/-- The two search loops of `__cache_free`: the slab that holds the object. -/
def slabOf (s : SlabSys) (c objp : Nat) : Option Nat :=
  ((s.cache c).slabsFull ++ (s.cache c).slabsPartial).find? fun p => (slabIndex (s.cache c) (s.slab p) objp).isSome

/-- `__cache_free`. Without a slab of the object the last one is used, with index -1, or a null pointer, here `none`. -/
def cacheFree (s : SlabSys) (c objp : Nat) : Option SlabSys :=
  let C := s.cache c
  let found := (slabOf s c objp).orElse fun _ => (C.slabsFull ++ C.slabsPartial).getLast?
  match found with
  | none => none
  | some p =>
    let S := s.slab p
    let ind := (slabIndex C S objp).getD bufctlEnd
    let S :=
      if S.free ≠ 0 then { S with free := dec32 S.free, inuse := dec32 S.inuse, array := S.array.set (S.free - 1) ind }
      else S
    let C := if S.inuse = 0 then { C.toFree p with freeSlab := inc32 C.freeSlab } else C
    some ((s.setSlab p S).setCache c C)

/-- The trimming loop. The slab given back stays linked; of an empty list `list_first_entry` is the page of the cache. -/
def trim (c : Nat) : Nat → SlabSys → SlabSys
  | 0, s => s
  | n + 1, s =>
    let C := s.cache c
    let p := C.slabsFree.headD c
    trim c n ({ s with mem := s.mem.free (virtual p) C.gfporder }.setCache c { C with freeSlab := dec32 C.freeSlab })

def kmemCacheFree (s : SlabSys) (c objp : Nat) : Option SlabSys :=
  (cacheFree s c objp).map fun s => trim c ((s.cache c).freeSlab - slabMaxFree) s

end FengOS.Mm
