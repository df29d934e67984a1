import FengOS.Libc.MallocTheorems
import FengOS.Libc.Sbrk

/-!
# `malloc` for every size and every answer of the kernel
-/

namespace FengOS.Libc.Brk

open FengOS.Lib

variable {accepts : Nat → Bool} {h h' : Heap} {node : MNode} {a p ptr size : Nat} {used lost : List MNode} {spare : List Nat}
  {r : Option Nat × Heap}

/-! ## A call that fails -/

theorem takeNode_some {as : List Nat} (hcons : h.mFreeNode = a :: as) :
    takeNode h = (some a, { h with mFreeNode := as }) := by
  simp only [takeNode, Libc.takeNode, hcons, Option.elim_some]

theorem nodesAt_eq (p : Nat) : ∃ as : List Nat, nodesAt p = p :: as ∧ as ≠ [] := by
  refine ⟨(List.range 1023).map fun i => p + (i + 1) * sizeofNode, ?_, by simp⟩
  rw [nodesAt, nodeIncSize, List.range_succ_eq_map, List.map_cons, List.map_map]
  simp only [Nat.zero_mul, Nat.add_zero]
  rfl

/-- What `alloc_node` does: it takes the first node, or the first node of a new region, or there is none. -/
inductive NodeTaken (accepts : Nat → Bool) (h : Heap) : Option Nat × Heap → Prop
  | first (a : Nat) (as : List Nat) : h.mFreeNode = a :: as → NodeTaken accepts h (some a, { h with mFreeNode := as })
  | grown (as : List Nat) : h.mFreeNode = [] → NodesAt accepts h.brk → as ≠ [] → NodeTaken accepts h
      (some (sbrk accepts h.brk nodesSize).1, { h with
        mFreeNode := as
        brk := (sbrk accepts h.brk nodesSize).2
        nodeRegions := h.nodeRegions ++ [(sbrk accepts h.brk nodesSize).1] })
  | missing : h.mFreeNode = [] → ¬ NodesAt accepts h.brk →
      NodeTaken accepts h (none, { h with brk := (sbrk accepts h.brk nodesSize).2 })

theorem allocNode_taken (accepts : Nat → Bool) (h : Heap) : NodeTaken accepts h (allocNode accepts h) := by
  unfold allocNode
  by_cases hnil : h.mFreeNode = []
  · rw [if_pos hnil]
    dsimp only
    by_cases hzero : (sbrk accepts h.brk nodesSize).1 = 0
    · rw [if_pos hzero]
      exact .missing hnil (not_not.mpr hzero)
    · rw [if_neg hzero]
      obtain ⟨as, hcons, hne⟩ := nodesAt_eq (sbrk accepts h.brk nodesSize).1
      simp only [takeNode, Libc.takeNode, hcons, Option.elim_some]
      exact .grown as hnil hzero hne
  · obtain ⟨a, as, hcons⟩ := List.exists_cons_of_ne_nil hnil
    rw [if_neg hnil, takeNode_some hcons]
    exact .first a as hcons

theorem NodeTaken.same (ht : NodeTaken accepts h r) :
    r.2.mFree = h.mFree ∧ r.2.mBusy = h.mBusy ∧ r.2.regions = h.regions := by
  cases ht <;> exact ⟨rfl, rfl, rfl⟩

theorem NodeTaken.none_iff (ht : NodeTaken accepts h r) : r.1 = none ↔ h.mFreeNode = [] ∧ ¬ NodesAt accepts h.brk := by
  cases ht with
  | first a as hcons => exact ⟨nofun, fun hn => by rw [hn.1] at hcons; cases hcons⟩
  | grown as hnil hne hrest => exact ⟨nofun, fun hn => absurd hne hn.2⟩
  | missing hnil hne => exact ⟨fun _ => ⟨hnil, hne⟩, fun _ => rfl⟩

theorem finish_clean_iff {h₁ : Heap} (hne : ¬ (h₁.mFree = h.mFree ∧ h₁.mBusy = h.mBusy ∧ h₁.regions = h.regions)) :
    (finish accepts h₁ node size).Clean h ↔ (size < node.size → h₁.mFreeNode = [] → NodesAt accepts h₁.brk) := by
  unfold finish
  by_cases hgt : node.size > size
  · rw [if_pos hgt]
    have ht := allocNode_taken accepts h₁
    have hnone := ht.none_iff
    have hsame := ht.same
    generalize allocNode accepts h₁ = taken at hnone hsame ⊢
    obtain ⟨r, h₂⟩ := taken
    cases r with
    | none =>
      obtain ⟨hnil, hfails⟩ := hnone.mp rfl
      obtain ⟨hfree, hbusy, hregions⟩ := hsame
      refine ⟨fun hclean => absurd ?_ hne, fun hmet => absurd (hmet hgt hnil) hfails⟩
      obtain ⟨hfree', hbusy', hregions'⟩ := hclean
      exact ⟨hfree.symm.trans hfree', hbusy.symm.trans hbusy', hregions.symm.trans hregions'⟩
    | some addr =>
      refine ⟨fun _ _ hnil => ?_, fun _ => trivial⟩
      by_contra hfails
      cases hnone.mpr ⟨hnil, hfails⟩
  · rw [if_neg hgt]
    exact ⟨fun _ hlt => absurd hlt hgt, fun _ => trivial⟩

theorem newSize_bounds (hlt : size < 2 ^ 64) : 0 < newSize size ∧ newSize size < 2 ^ 64 ∧ (size < newSize size ↔ size < eachBrk) := by
  unfold newSize eachBrk
  split <;> omega

theorem sbrk_moves (accepts : Nat → Bool) (brk : Nat) (hpos : 0 < size) (hlt : size < 2 ^ 64) (hne : (sbrk accepts brk size).1 ≠ 0) :
    (sbrk accepts brk size).2 ≠ brk := by
  unfold sbrk at hne ⊢
  split at hne
  next heq => omega
  next hmoved =>
    split at hne
    next haccepts =>
      rw [if_neg hmoved, if_pos haccepts]
      exact hmoved
    next => exact absurd rfl hne

theorem extend_clean_iff (hlt : size < 2 ^ 64) {h₁ : Heap} (halloc : allocNode accepts h = (some a, h₁)) :
    (extend accepts h size).Clean h ↔
      ((sbrk accepts h₁.brk (newSize size)).1 = 0 → (sbrk accepts h₁.brk (newSize size)).2 = h₁.brk) ∧
      ((sbrk accepts h₁.brk (newSize size)).1 ≠ 0 → size < eachBrk → h₁.mFreeNode = [] →
        NodesAt accepts (sbrk accepts h₁.brk (newSize size)).2) := by
  obtain ⟨hpos, hsize, hcut⟩ := newSize_bounds hlt
  obtain ⟨hfree, hbusy, hregions⟩ := (halloc ▸ allocNode_taken accepts h).same
  have happend : ∀ r : Nat × Nat, h₁.regions ++ [r] ≠ h.regions := by
    intro r heq
    have hlength := congrArg List.length heq
    rw [hregions, List.length_append, List.length_singleton] at hlength
    omega
  unfold extend sbrkData
  simp only [halloc]
  have hmoves := sbrk_moves accepts h₁.brk hpos hsize
  generalize sbrk accepts h₁.brk (newSize size) = moved at hmoves ⊢
  obtain ⟨ptr, brk⟩ := moved
  dsimp only at hmoves ⊢
  by_cases hzero : ptr = 0
  · rw [if_pos hzero]
    refine Iff.trans ?_ (and_iff_left fun hne => absurd hzero hne).symm
    by_cases hbrk : brk = h₁.brk
    · rw [if_pos hbrk]
      exact ⟨fun _ _ => hbrk, fun _ => ⟨hfree, hbusy, hregions⟩⟩
    · rw [if_neg hbrk]
      exact ⟨fun hclean => absurd hclean.2.2 (happend _), fun hmet => absurd (hmet hzero) hbrk⟩
  · rw [if_neg hzero, if_neg (hmoves hzero), finish_clean_iff fun hsame => happend _ hsame.2.2, hcut]
    exact ⟨fun hmet => ⟨fun h => absurd h hzero, fun _ => hmet⟩, fun hmet => hmet.2 hzero⟩

/-- When `sbrk` fails, `malloc` returns `NULL` and leaves the blocks exactly if it was not for nodes. -/
theorem malloc_fails_clean_iff (accepts : Nat → Bool) (h : Heap) (size : Nat) :
    (malloc accepts h size).Clean h ↔ NodesMet accepts h size := by
  have hlt : roundSize size < 2 ^ 64 := by
    unfold roundSize
    omega
  unfold malloc NodesMet
  split
  next node hfound =>
    refine finish_clean_iff fun hsame => ?_
    have hmem := List.mem_of_find?_eq_some hfound
    have hlength := congrArg List.length hsame.1
    have hpos := List.length_pos_of_mem hmem
    rw [List.length_erase_of_mem hmem] at hlength
    omega
  next =>
    have ht := allocNode_taken accepts h
    cases halloc : allocNode accepts h with
    | mk r h₁ =>
      rw [halloc] at ht
      unfold dataBrk
      cases ht with
      | missing hnil hfails =>
        refine ⟨fun hclean => ?_, fun hmet => absurd (hmet.1 hnil) hfails⟩
        unfold extend at hclean
        rw [halloc] at hclean
        exact absurd hclean not_false
      | first a as hcons =>
        have hne : h.mFreeNode ≠ [] := by
          rw [hcons]
          exact List.cons_ne_nil a as
        have hone : h.mFreeNode.length = 1 ↔ as = [] := by
          rw [hcons, List.length_cons, Nat.add_eq_right, List.length_eq_zero_iff]
        rw [extend_clean_iff hlt halloc, if_neg hne, hone]
        exact (and_iff_right fun hnil => absurd hnil hne).symm
      | grown as hnil hmet hrest =>
        have hone : h.mFreeNode.length ≠ 1 := by
          rw [hnil]
          exact Nat.zero_ne_one
        rw [extend_clean_iff hlt halloc, if_pos hnil]
        dsimp only
        refine Iff.trans ?_ (and_iff_right fun _ => hmet).symm
        exact and_congr_right fun _ => ⟨fun _ _ _ h => absurd h hone, fun _ _ _ h => absurd h hrest⟩

def lastNode : Heap where
  mFreeNode := []
  mFree := [⟨0x700000000000, 0x700000008000, eachBrk⟩]
  mBusy := []
  brk := 0x70000000a000
  regions := [(0x700000008000, eachBrk)]
  nodeRegions := [0x700000000000]

/-- The block is lost if there is no node for the rest of it, and a missing node is used if no block is large enough. -/
theorem malloc_loses_block : malloc (fun _ => false) lastNode 8 = .failed { lastNode with mFree := [] } ∧
    malloc (fun _ => false) lastNode 0x4000 = .fault ∧ ¬ (malloc (fun _ => false) lastNode 8).Clean lastNode := by
  have hfailed : malloc (fun _ => false) lastNode 8 = .failed { lastNode with mFree := [] } := by decide
  refine ⟨hfailed, by decide, fun hclean => ?_⟩
  rw [hfailed] at hclean
  cases hclean.1

/-! ## Break that does not go round -/

theorem sbrk_eq {brk : Nat} (hpos : 0 < size) (hlt : brk + size < 2 ^ 64) :
    sbrk accepts brk size = if accepts (brk + size) then (brk, brk + size) else (0, brk) := by
  unfold sbrk
  rw [Nat.mod_eq_of_lt hlt, if_neg (by omega)]

theorem nodesSize_pos : 0 < nodesSize := by decide

theorem allocNode_spec (accepts : Nat → Bool) (hpos : 0 < h.brk) (hroom : h.brk + nodesSize < 2 ^ 64) :
    allocNode accepts h = (none, h) ∨ ∃ a h', allocNode accepts h = (some a, h') ∧ Libc.allocNode h = some (a, h') := by
  unfold allocNode Libc.allocNode
  by_cases hnil : h.mFreeNode = []
  · rw [if_pos hnil, if_pos hnil, sbrk_eq nodesSize_pos hroom]
    by_cases haccepts : accepts (h.brk + nodesSize) = true
    · obtain ⟨as, hcons, -⟩ := nodesAt_eq h.brk
      have hgrow : growNodes h = some { h with
          mFreeNode := nodesAt h.brk
          brk := h.brk + nodesSize
          nodeRegions := h.nodeRegions ++ [h.brk] } := by
        rw [growNodes, show nodeIncSize * sizeofNode = nodesSize from rfl, if_pos hroom, hnil, List.nil_append]
      rw [if_pos haccepts, hgrow, Option.bind_some]
      dsimp only
      rw [if_neg (Nat.ne_of_gt hpos)]
      simp only [takeNode, Libc.takeNode, hcons, Option.elim_some]
      exact Or.inr ⟨_, _, rfl, rfl⟩
    · rw [if_neg haccepts]
      exact Or.inl (if_pos rfl)
  · obtain ⟨a, as, hcons⟩ := List.exists_cons_of_ne_nil hnil
    rw [if_neg hnil, if_neg hnil, takeNode_some hcons]
    simp only [Libc.takeNode, hcons]
    exact Or.inr ⟨_, _, rfl, rfl⟩

theorem sbrkData_spec (accepts : Nat → Bool) (hpos : 0 < h.brk) (hsize : 0 < size) (hroom : h.brk + size < 2 ^ 64) :
    sbrkData accepts h size = (0, h) ∨
      ∃ ptr h', sbrkData accepts h size = (ptr, h') ∧ ptr ≠ 0 ∧ Libc.sbrkData h size = some (ptr, h') := by
  unfold sbrkData Libc.sbrkData
  rw [sbrk_eq hsize hroom, if_pos hroom]
  by_cases haccepts : accepts (h.brk + size) = true
  · rw [if_pos haccepts]
    dsimp only
    rw [if_neg (by omega)]
    exact Or.inr ⟨_, _, rfl, Nat.ne_of_gt hpos, rfl⟩
  · rw [if_neg haccepts]
    dsimp only
    rw [if_pos rfl]
    exact Or.inl rfl

theorem finish_spec (accepts : Nat → Bool) (node : MNode) (size : Nat) (hpos : 0 < h.brk) (hroom : h.brk + nodesSize < 2 ^ 64) :
    finish accepts h node size = .failed h ∨ ∃ node' h', cutNode h node size = some (node', h') ∧
      finish accepts h node size = .got node'.ptr { h' with mBusy := h'.mBusy ++ [node'] } := by
  unfold finish cutNode
  by_cases hgt : node.size > size
  · rw [if_pos hgt, if_pos hgt]
    rcases allocNode_spec accepts hpos hroom with hnone | ⟨a, h', hsome, halloc⟩
    · rw [hnone]
      exact Or.inl rfl
    · rw [hsome, halloc]
      exact Or.inr ⟨_, _, rfl, rfl⟩
  · rw [if_neg hgt, if_neg hgt]
    exact Or.inr ⟨_, _, rfl, rfl⟩

theorem takeNode_brk (ht : Libc.takeNode h = some (a, h')) : h'.brk = h.brk := by
  unfold Libc.takeNode at ht
  split at ht
  · cases ht
  · cases ht
    rfl

theorem allocNode_brk (ha : Libc.allocNode h = some (a, h')) : h.brk ≤ h'.brk ∧ h'.brk ≤ h.brk + nodesSize := by
  unfold Libc.allocNode at ha
  split at ha
  · obtain ⟨h₁, hgrow, htake⟩ := Option.bind_eq_some_iff.mp ha
    have hbrk : h₁.brk = h.brk + nodesSize := by
      unfold growNodes at hgrow
      split at hgrow
      · cases hgrow
        rfl
      · cases hgrow
    rw [takeNode_brk htake, hbrk]
    omega
  · rw [takeNode_brk ha]
    omega

/-- The missing node is used; the call fails with a node or a block taken; or it is a `malloc` for which `sbrk` succeeds. -/
theorem malloc_spec (accepts : Nat → Bool) (hpos : 0 < h.brk) (hok : SizeOk h size) : malloc accepts h size = .fault ∨
    (∃ h', malloc accepts h size = .failed h' ∧
      ((∃ a, Libc.allocNode h = some (a, h')) ∨ ∃ node, findNode h (roundSize size) = some (node, h'))) ∨
    ∃ p h', malloc accepts h size = .got p h' ∧ Libc.malloc h size = some (p, h') := by
  obtain ⟨-, -, hroom⟩ := hok
  have hsize : 0 < newSize (roundSize size) := by
    unfold newSize eachBrk
    split <;> omega
  -- from the block on
  have hrest : ∀ {node h₁}, findNode h (roundSize size) = some (node, h₁) → h.brk ≤ h₁.brk →
      h₁.brk + nodesSize < 2 ^ 64 → malloc accepts h size = finish accepts h₁ node (roundSize size) →
      (∃ h', malloc accepts h size = .failed h' ∧
        ((∃ a, Libc.allocNode h = some (a, h')) ∨ ∃ node, findNode h (roundSize size) = some (node, h'))) ∨
      ∃ p h', malloc accepts h size = .got p h' ∧ Libc.malloc h size = some (p, h') := by
    intro node h₁ hfind hle hlt heq
    rcases finish_spec accepts node (roundSize size) (Nat.lt_of_lt_of_le hpos hle) hlt with hfailed | ⟨node', h₂, hcut, hgot⟩
    · exact Or.inl ⟨h₁, heq.trans hfailed, Or.inr ⟨node, hfind⟩⟩
    · refine Or.inr ⟨_, _, heq.trans hgot, ?_⟩
      simp [Libc.malloc, hfind, hcut]
  cases hfound : h.mFree.find? fun pos => pos.size ≥ roundSize size with
  | some node =>
    have hfind : findNode h (roundSize size) = some (node, { h with mFree := h.mFree.erase node }) := by
      unfold findNode
      rw [hfound]
    refine Or.inr (hrest hfind (Nat.le_refl _) (by dsimp only; omega) ?_)
    unfold malloc
    rw [hfound]
  | none =>
    have hmalloc : malloc accepts h size = extend accepts h (roundSize size) := by
      unfold malloc
      rw [hfound]
    unfold extend at hmalloc
    rcases allocNode_spec accepts hpos (by omega) with hnone | ⟨a, h₁, hsome, halloc⟩
    · rw [hnone] at hmalloc
      exact Or.inl hmalloc
    · obtain ⟨hle, hle'⟩ := allocNode_brk halloc
      rw [hsome] at hmalloc
      dsimp only at hmalloc
      rcases sbrkData_spec accepts (Nat.lt_of_lt_of_le hpos hle) hsize (by omega) with hzero | ⟨ptr, h₂, hptr, hne, hdata⟩
      · rw [hzero] at hmalloc
        exact Or.inr (Or.inl ⟨h₁, hmalloc.trans (if_pos rfl), Or.inl ⟨a, halloc⟩⟩)
      · rw [hptr] at hmalloc
        dsimp only at hmalloc
        rw [if_neg hne] at hmalloc
        have hbrk : h₂.brk = h₁.brk + newSize (roundSize size) := by
          unfold Libc.sbrkData at hdata
          split at hdata
          · cases hdata
            rfl
          · cases hdata
        have hfind : findNode h (roundSize size) = some (⟨a, ptr, newSize (roundSize size)⟩, h₂) := by
          unfold newSize at hdata ⊢
          unfold findNode
          rw [hfound]
          simp [halloc, hdata]
        exact Or.inr (hrest hfind (by omega) (by omega) hmalloc)

/-! ## Runs -/

/-- The invariant of `malloc` and `free`, with the blocks and the nodes that failed calls have lost. -/
def Live (h : Heap) : Prop := ∃ lost spare, h.Inv (h.mBusy ++ lost) spare

theorem Live.malloc (hl : Live h) (hok : SizeOk h size) (hm : malloc accepts h size = .got p h') :
    Live h' ∧ Granted h size p h' := by
  obtain ⟨lost, spare, hi⟩ := hl
  obtain ⟨p', h'', heq, hmalloc⟩ : ∃ p' h'', Brk.malloc accepts h size = .got p' h'' ∧
      Libc.malloc h size = some (p', h'') := by
    rcases malloc_spec accepts hi.brk.1 hok with hfault | ⟨h'', hfailed, -⟩ | hgot
    · rw [hfault] at hm
      cases hm
    · rw [hfailed] at hm
      cases hm
    · exact hgot
  obtain ⟨rfl, rfl⟩ : p' = p ∧ h'' = h' := by simpa using heq.symm.trans hm
  obtain ⟨hi', n, hbusy, rfl, hsize⟩ := hi.malloc hok.1 hok.2.1 hmalloc
  obtain ⟨-, hfresh⟩ := hi'.fresh hbusy
  refine ⟨⟨lost, spare, hi'⟩, ⟨n, hbusy, rfl, hsize⟩, hfresh, ?_⟩
  have hn : n ∉ h.mBusy := fun hmem => hfresh (List.mem_map_of_mem hmem)
  rw [hi'.free_live (by simp [hbusy]), hbusy, List.erase_append_right _ hn, List.erase_cons_head, List.append_nil]

theorem Live.step {op : Op} (hl : Live h) (hok : op.ok h) (hstep : step h op = some h') : Live h' := by
  cases op with
  | free ptr =>
    obtain ⟨lost, spare, hi⟩ := hl
    cases hstep
    exact ⟨lost, spare, hi.free ptr⟩
  | malloc accepts size =>
    rw [Brk.step] at hstep
    cases hm : Brk.malloc accepts h size with
    | fault =>
      rw [hm] at hstep
      cases hstep
    | got p h₁ =>
      rw [hm] at hstep
      cases hstep
      exact (hl.malloc hok hm).1
    | failed h₁ =>
      rw [hm] at hstep
      cases hstep
      obtain ⟨lost, spare, hi⟩ := hl
      rcases malloc_spec accepts hi.brk.1 hok with hfault | ⟨h₂, hfailed, hcause⟩ | ⟨p, h₂, hgot, -⟩
      · rw [hm] at hfault
        cases hfault
      · obtain rfl : h' = h₂ := by simpa using hm.symm.trans hfailed
        rcases hcause with ⟨a, halloc⟩ | ⟨node, hfind⟩
        · obtain ⟨hi', -, hbusy⟩ := hi.allocNode halloc
          rw [← hbusy] at hi'
          exact ⟨lost, a :: spare, hi'⟩
        · obtain ⟨hi', -, hbusy⟩ := hi.findNode (by unfold roundSize; omega) hfind
          rw [← hbusy] at hi'
          exact ⟨node :: lost, spare, hi'.perm List.perm_middle.symm⟩
      · rw [hm] at hgot
        cases hgot

theorem Reach.live (hr : Reach h) : Live h := by
  refine Run.invariant (fun h hm => ⟨[], [], ?_⟩) (fun h op h' hl hok hstep => hl.step hok hstep) hr
  rw [List.append_nil]
  exact inv_empty.initHeap rfl rfl hm

/-- With sizes that do not round to 0 or take the break round, whatever the kernel answers: live pointers differ, `free`
releases their blocks, and `malloc` hands out enough under a new pointer. -/
theorem malloc_grants (hr : Reach h) : (h.mBusy.map MNode.ptr).Nodup ∧
    (∀ n ∈ h.mBusy, (free h n.ptr).mBusy = h.mBusy.erase n) ∧
    ∀ accepts size, SizeOk h size → ∀ p h', malloc accepts h size = .got p h' → Granted h size p h' := by
  have hl := hr.live
  obtain ⟨lost, spare, hi⟩ := hl
  refine ⟨?_, fun n hn => hi.free_live hn, fun accepts size hok p h' hm => (hr.live.malloc hok hm).2⟩
  refine List.Nodup.map_on (fun m hm n hn heq => hi.eq_of_ptr hm hn heq) ?_
  have hdisjoint := (List.pairwise_append.mp hi.disjoint).1
  refine hdisjoint.imp_of_mem fun {m n} hm hn hd heq => ?_
  have hpos := (hi.fine m (List.mem_append_right _ (List.mem_append_left _ hm))).size
  subst heq
  exact hd m.ptr ⟨⟨Nat.le_refl _, by omega⟩, ⟨Nat.le_refl _, by omega⟩⟩

def Outcome.ptr? : Outcome → Option Nat
  | .got ptr _ => some ptr
  | _ => none

theorem Outcome.exists_of_ptr {out : Outcome} (hp : out.ptr? = some p) : ∃ h, out = .got p h := by
  cases out with
  | got q h =>
    cases hp
    exact ⟨h, rfl⟩
  | fault => cases hp
  | failed h => cases hp

/-- Of two blocks the first is freed and given out again, without a call of `sbrk`. -/
theorem malloc_grants_again : ∃ h h', Reach h ∧ h.mBusy.map MNode.ptr = [0x700000008068] ∧
    malloc (fun _ => false) h 50 = .got 0x700000008000 h' ∧ Granted h 50 0x700000008000 h' := by
  have hrun : (mallocInit.any fun h => (exec step Op.ok h
      [.malloc (fun _ => true) 100, .malloc (fun _ => true) 200, .free 0x700000008000]).any
      fun h => decide (h.mBusy.map MNode.ptr = [0x700000008068] ∧ SizeOk h 50 ∧
        (malloc (fun _ => false) h 50).ptr? = some 0x700000008000)) = true := by
    decide +kernel
  obtain ⟨h₀, hinit, hexec⟩ := (Option.any_eq_true ..).mp hrun
  obtain ⟨h, hreach, hlive, hok, hptr⟩ := Run.exists_of_exec (show Reach h₀ from .init hinit) hexec
  obtain ⟨h', hm⟩ := Outcome.exists_of_ptr hptr
  exact ⟨h, h', hreach, hlive, hm, (malloc_grants hreach).2.2 _ _ hok _ _ hm⟩

def Outcome.heap : Outcome → Heap
  | .got _ h => h
  | .failed h => h
  | .fault => ⟨[], [], [], 0, [], []⟩

def Outcome.busy (out : Outcome) : List MNode := out.heap.mBusy

/-- The size `2 ^ 64 - 1` is rounded to 0 and gets a block without bytes. After `malloc(0)` the next block has the same
pointer. -/
theorem malloc_extreme_sizes : ∃ h h', mallocInit = some h ∧
    malloc (fun _ => true) h (2 ^ 64 - 1) = .got 0x700000008000 h' ∧ ¬ Granted h (2 ^ 64 - 1) 0x700000008000 h' ∧
    ∃ h₁ h₂, malloc (fun _ => true) h 0 = .got 0x700000008000 h₁ ∧ malloc (fun _ => true) h₁ 8 = .got 0x700000008000 h₂ ∧
      ¬ Granted h₁ 8 0x700000008000 h₂ := by
  have hrun : (mallocInit.map fun h => ((malloc (fun _ => true) h (2 ^ 64 - 1)).ptr?,
      (malloc (fun _ => true) h (2 ^ 64 - 1)).busy.map MNode.size)) = some (some 0x700000008000, [0]) := by decide +kernel
  have hnext : (mallocInit.map fun h => (malloc (fun _ => true) h 0).ptr?) = some (some 0x700000008000) ∧
      (mallocInit.map fun h => (malloc (fun _ => true) h 0).busy.map MNode.ptr) = some [0x700000008000] ∧
      (mallocInit.map fun h => (malloc (fun _ => true) (malloc (fun _ => true) h 0).heap 8).ptr?) =
        some (some 0x700000008000) := by decide +kernel
  obtain ⟨h, hinit, hrun⟩ := Option.map_eq_some_iff.mp hrun
  obtain ⟨hptr, hsizes⟩ := Prod.mk.inj hrun
  simp only [hinit, Option.map_some, Option.some.injEq] at hnext
  obtain ⟨hptr₁, hlive, hptr₂⟩ := hnext
  obtain ⟨h', hm⟩ := Outcome.exists_of_ptr hptr
  obtain ⟨h₁, hm₁⟩ := Outcome.exists_of_ptr hptr₁
  rw [hm₁] at hlive hptr₂
  obtain ⟨h₂, hm₂⟩ := Outcome.exists_of_ptr hptr₂
  refine ⟨h, h', hinit, hm, fun hgranted => ?_, h₁, h₂, hm₁, hm₂, fun hgranted => hgranted.fresh ?_⟩
  · obtain ⟨n, hn, -, hsize⟩ := hgranted.block
    rw [hm, Outcome.busy, Outcome.heap, hn, List.map_append, List.map_singleton] at hsizes
    have hlast := congrArg List.getLast? hsizes
    simp only [List.getLast?_concat, List.getLast?_singleton, Option.some.injEq] at hlast
    omega
  · rw [show h₁.mBusy.map MNode.ptr = _ from hlive]
    exact List.mem_singleton_self _

end FengOS.Libc.Brk
