import Mathlib.Logic.Function.Basic
import Mathlib.Algebra.Group.Int.Units

/-!
# The buddy allocator (`mm/buddy.c`)

A page is its index in `mem_map`; the lists are lists of such indices. The spin lock is left out: it is taken and released
inside each function.
-/

namespace FengOS.Mm

/-- `MAX_ORDER` of `gfp.h`: blocks have `2 ^ 0` to `2 ^ (MAX_ORDER - 1)` pages. -/
def maxOrder : Nat := 8

def pageSize : Nat := 0x1000

def kernelOffset : Nat := 0xffff800000000000

def pageLowerAlign (addr : Nat) : Nat := addr / pageSize * pageSize

/-- The fields of `struct page` that the allocators use; `slab` is the page of the cache that owns the page. -/
structure Page where
  reserve : Bool
  busy : Bool
  slab : Option Nat
  deriving DecidableEq, Repr

/-- `page->virtual`, set by `init_pages`. -/
def virtual (page : Nat) : Nat := kernelOffset + page * pageSize

/-- `mem_map` and `struct buddy_struct`. -/
structure Buddy where
  memMap : Nat → Page
  block : Nat → List Nat
  activate : List Nat

def Buddy.setBlock (b : Buddy) (k : Nat) (l : List Nat) : Buddy := { b with block := Function.update b.block k l }

/-- `check_order`: the largest order below `MAX_ORDER` that the page index is aligned to. -/
def checkOrder (page : Nat) : Nat := go (maxOrder - 1)
where
  go : Nat → Nat
    | 0 => 0
    | i + 1 => if page &&& ((1 <<< (i + 1)) - 1) = 0 then i + 1 else go i

/-- A scan of `block_insert` ends at a buddy `p`, which gives the block at `page`, or between `before` and `after`. -/
inductive Scan
  | merge (p page : Nat)
  | stop (before after : List Nat)
  deriving DecidableEq, Repr

/-- The inner loop of `block_insert` over `block[order]`. -/
def scanBlock (page order : Nat) : List Nat → Scan
  | [] => .stop [] []
  | p :: ps =>
    if order < maxOrder - 1 ∧ p + (1 <<< order) = page ∧ order + 1 ≤ checkOrder p then .merge p p
    else if order < maxOrder - 1 ∧ page + (1 <<< order) = p ∧ order + 1 ≤ checkOrder page then .merge p page
    else if p < page then
      match scanBlock page order ps with
      | .merge q page' => .merge q page'
      | .stop before after => .stop (p :: before) after
    else .stop [] (p :: ps)

/-- The outer loop of `block_insert`, which goes on while a scan merges; the first argument counts the orders left. -/
def blockInsertLoop : Nat → Buddy → Nat → Nat → Buddy
  | 0, b, _, _ => b
  | n + 1, b, page, order =>
    match scanBlock page order (b.block order) with
    | .merge p page' => blockInsertLoop n (b.setBlock order ((b.block order).erase p)) page' (order + 1)
    | .stop before after => b.setBlock order (before ++ page :: after)

/-- `block_insert`. From `MAX_ORDER` on the cursor is uninitialised; no caller passes such an order. -/
def blockInsert (b : Buddy) (page order : Nat) : Buddy := blockInsertLoop (maxOrder - order) b page order

/-- The search of `__alloc_pages`: the first non-empty of so many lists from `next` on. -/
def firstNonempty (b : Buddy) : Nat → Nat → Option Nat
  | 0, _ => none
  | n + 1, next => if b.block next = [] then firstNonempty b n (next + 1) else some next

/-- The splitting loop of `__alloc_pages`: from order `order + n` down to `order`, the upper half goes back. -/
def splitBlock (page order : Nat) : Nat → Buddy → Buddy
  | 0, b => b
  | n + 1, b => splitBlock page order n (blockInsert b (page + (1 <<< (order + n))) (order + n))

/-- `list_add(&page->list, &buddy.activate)`. -/
def Buddy.pushActivate (b : Buddy) (page : Nat) : Buddy := { b with activate := page :: b.activate }

/-- `__alloc_pages`. -/
def allocPagesRaw (b : Buddy) (order : Nat) : Option Nat × Buddy :=
  if maxOrder ≤ order then (none, b)
  else
    match b.block order with
    | page :: rest => (some page, (b.setBlock order rest).pushActivate page)
    | [] =>
      match firstNonempty b (maxOrder - (order + 1)) (order + 1) with
      | none => (none, b)
      | some next =>
        match b.block next with
        | [] => (none, b)
        | page :: rest =>
          (some page, (splitBlock page order (next - order) (b.setBlock next rest)).pushActivate page)

/-- `alloc_pages`. Every case of the switch on `gfp_mask` does the same, so the mask is left out. -/
def allocPages (b : Buddy) (order : Nat) : Option Nat × Buddy :=
  match allocPagesRaw b order with
  | (none, b') => (none, b')
  | (some page, b') =>
    (some page, { b' with memMap := Function.update b'.memMap page { b'.memMap page with busy := true } })

/-- `__get_free_pages`: the address of the block, 0 when there is none. -/
def getFreePages (b : Buddy) (order : Nat) : Nat × Buddy :=
  match allocPages b order with
  | (none, b') => (0, b')
  | (some page, b') => (virtual page, b')

/-- `__free_pages`. -/
def freePagesRaw (b : Buddy) (page order : Nat) : Buddy := blockInsert b page order

def freePages (b : Buddy) (addr order : Nat) : Buddy :=
  if addr = 0 then b
  else
    match b.activate.find? (fun pos => virtual pos = pageLowerAlign addr) with
    | none => b
    | some pos => freePagesRaw { b with activate := b.activate.erase pos } pos order

/-! ## `buddy_system_init` -/

/-- How many of the next `limit` pages from `right` on are not reserved and before `tail`. -/
def countRun (b : Buddy) (tail : Nat) : Nat → Nat → Nat
  | 0, _ => 0
  | limit + 1, right =>
    if (b.memMap right).reserve = false ∧ right ≠ tail then countRun b tail limit (right + 1) + 1 else 0

/-- `list_add_tail(&left->list, &buddy.block[order])`. -/
def Buddy.addTail (b : Buddy) (order left : Nat) : Buddy := b.setBlock order (b.block order ++ [left])

/-- The loop that cuts `count` pages from `left` on into blocks, for the orders below `n` from the top down. -/
def carve (count : Nat) : Nat → Nat → Buddy → Buddy
  | 0, _, b => b
  | order + 1, left, b =>
    if count &&& (1 <<< order) ≠ 0 then carve count order (left + (1 <<< order)) (b.addTail order left)
    else carve count order left b

/-- The outer loop of `buddy_system_init`, which moves `right` towards `tail` within so many rounds. -/
def initLoop (tail : Nat) : Nat → Nat → Nat → Buddy → Buddy
  | 0, _, _, b => b
  | n + 1, left, right, b =>
    if right = tail then b
    else if (b.memMap right).reserve then initLoop tail n (right + 1) (right + 1) b
    else
      let order := checkOrder left
      let count := countRun b tail (1 <<< order) right
      let b' := if count = 1 <<< order then b.addTail order left else carve count (order + 1) left b
      initLoop tail n (right + count) (right + count) b'

def buddySystemInit (memMap : Nat → Page) (nrPages : Nat) : Buddy :=
  initLoop nrPages nrPages 0 0 ⟨memMap, fun _ => [], []⟩

end FengOS.Mm
