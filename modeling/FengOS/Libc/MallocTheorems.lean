import FengOS.Libc.Lemmas.Malloc

/-!
# The heap of a user process
-/

namespace FengOS.Libc

open FengOS.Lib

variable {h h' : Heap} {used lost : List MNode} {spare : List Nat} {node node' : MNode} {a p size : Nat}

/-! ## `malloc` -/

theorem roundSize_spec (hpos : 0 < size) (hlt : size + 7 < 2 ^ 64) :
    size ≤ roundSize size ∧ roundSize size % 8 = 0 ∧ roundSize size < size + 8 := by
  simp only [roundSize]
  omega

theorem regionSize_eq (size : Nat) : (if size > eachBrk then size else eachBrk) = max size eachBrk := by
  split <;> omega

theorem Heap.Inv.findNode (hi : h.Inv used spare) (halign : size % 8 = 0) (hf : findNode h size = some (node, h')) :
    h'.Inv (node :: used) spare ∧ size ≤ node.size ∧ h'.mBusy = h.mBusy := by
  unfold Libc.findNode at hf
  split at hf
  next found hfound =>
    cases hf
    refine ⟨hi.unlink (List.mem_of_find?_eq_some hfound), ?_, rfl⟩
    simpa using List.find?_some hfound
  next =>
    obtain ⟨⟨addr, h₁⟩, halloc, hf⟩ := Option.bind_eq_some_iff.mp hf
    obtain ⟨⟨ptr, h₂⟩, hsbrk, hf⟩ := Option.bind_eq_some_iff.mp hf
    cases hf
    obtain ⟨hi₁, -, hbusy⟩ := hi.allocNode halloc
    dsimp only
    rw [regionSize_eq] at hsbrk ⊢
    have hmin : eachBrk = 8192 := rfl
    obtain ⟨hi₂, -, hbusy'⟩ := hi₁.sbrkData (by omega) (by omega) hsbrk
    exact ⟨hi₂, Nat.le_max_left _ _, hbusy'.trans hbusy⟩

theorem Heap.Inv.cutNode (hi : h.Inv (node :: used) spare) (hpos : 0 < size) (halign : size % 8 = 0)
    (hle : size ≤ node.size) (hc : cutNode h node size = some (node', h')) :
    h'.Inv (node' :: used) spare ∧ node'.ptr = node.ptr ∧ node'.size = size ∧ h'.mBusy = h.mBusy := by
  unfold Libc.cutNode at hc
  split at hc
  next hgt =>
    obtain ⟨⟨addr, h₁⟩, halloc, hc⟩ := Option.bind_eq_some_iff.mp hc
    cases hc
    obtain ⟨hi₁, -, hbusy⟩ := hi.allocNode halloc
    have hbound := (hi.fine node (by simp)).bound
    have hptr : (node.ptr + size) % 2 ^ 64 = node.ptr + size := Nat.mod_eq_of_lt (by omega)
    obtain ⟨hi₂, hbusy'⟩ := (hi₁.cut hpos halign hgt).mergeFree
    dsimp only
    rw [hptr]
    exact ⟨hi₂, rfl, rfl, hbusy'.trans hbusy⟩
  next hgt =>
    cases hc
    exact ⟨hi, rfl, by omega, rfl⟩

theorem Heap.Inv.malloc (hi : h.Inv (h.mBusy ++ lost) spare) (hpos : 0 < size) (hlt : size + 7 < 2 ^ 64)
    (hm : malloc h size = some (p, h')) :
    h'.Inv (h'.mBusy ++ lost) spare ∧ ∃ n : MNode, h'.mBusy = h.mBusy ++ [n] ∧ n.ptr = p ∧ size ≤ n.size := by
  obtain ⟨hle, halign, -⟩ := roundSize_spec hpos hlt
  obtain ⟨⟨node, h₁⟩, hfind, hm⟩ := Option.bind_eq_some_iff.mp hm
  obtain ⟨⟨node', h₂⟩, hcut, hm⟩ := Option.bind_eq_some_iff.mp hm
  cases hm
  obtain ⟨hi₁, hsize, hbusy⟩ := hi.findNode halign hfind
  obtain ⟨hi₂, -, hsize', hbusy'⟩ := hi₁.cutNode (by omega) halign hsize hcut
  dsimp only
  rw [hbusy', hbusy]
  refine ⟨?_, node', rfl, rfl, by omega⟩
  have hperm : (node' :: (h.mBusy ++ lost)).Perm (h.mBusy ++ [node'] ++ lost) := by
    rw [List.append_assoc]
    exact List.perm_middle.symm
  have hi₃ := hi₂.perm hperm
  exact { hi₃ with }

/-! ### Room for another region -/

theorem exists_takeNode (hne : h.mFreeNode ≠ []) : ∃ a h', takeNode h = some (a, h') ∧ h'.brk = h.brk := by
  obtain ⟨a, as, hcons⟩ := List.exists_cons_of_ne_nil hne
  exact ⟨a, { h with mFreeNode := as }, by simp only [takeNode, hcons], rfl⟩

theorem exists_allocNode (hroom : h.brk + nodeIncSize * sizeofNode < 2 ^ 64) :
    ∃ a h', allocNode h = some (a, h') ∧ h'.brk ≤ h.brk + nodeIncSize * sizeofNode := by
  unfold allocNode
  split
  next hnil =>
    have hne : h.mFreeNode ++ nodesAt h.brk ≠ [] := by simp [nodesAt, nodeIncSize]
    rw [growNodes, if_pos hroom, Option.bind_some]
    obtain ⟨a, h', htake, hbrk⟩ := exists_takeNode (h := { h with
      mFreeNode := h.mFreeNode ++ nodesAt h.brk
      brk := h.brk + nodeIncSize * sizeofNode
      nodeRegions := h.nodeRegions ++ [h.brk] }) hne
    exact ⟨a, h', htake, Nat.le_of_eq hbrk⟩
  next hne =>
    obtain ⟨a, h', htake, hbrk⟩ := exists_takeNode hne
    exact ⟨a, h', htake, hbrk ▸ Nat.le_add_right _ _⟩

theorem exists_malloc (hroom : h.brk + 2 * (nodeIncSize * sizeofNode) + max (roundSize size) eachBrk < 2 ^ 64) :
    ∃ p h', malloc h size = some (p, h') := by
  have hfind : ∃ node h₁, findNode h (roundSize size) = some (node, h₁) ∧
      h₁.brk + nodeIncSize * sizeofNode < 2 ^ 64 := by
    unfold findNode
    split
    next found hfound => exact ⟨found, _, rfl, by dsimp only; omega⟩
    next =>
      obtain ⟨a, h₁, halloc, hbrk⟩ := exists_allocNode (h := h) (by omega)
      rw [halloc, Option.bind_eq_bind, Option.bind_some]
      dsimp only
      rw [regionSize_eq, sbrkData, if_pos (by omega)]
      exact ⟨_, _, rfl, by dsimp only; omega⟩
  obtain ⟨node, h₁, hfind, hbrk⟩ := hfind
  have hcut : ∃ node' h₂, cutNode h₁ node (roundSize size) = some (node', h₂) := by
    unfold cutNode
    split
    · obtain ⟨a, h₂, halloc, -⟩ := exists_allocNode hbrk
      rw [halloc]
      exact ⟨_, _, rfl⟩
    · exact ⟨_, _, rfl⟩
  obtain ⟨node', h₂, hcut⟩ := hcut
  exact ⟨node'.ptr, { h₂ with mBusy := h₂.mBusy ++ [node'] }, by simp [malloc, hfind, hcut]⟩

/-! ## `free` -/

theorem Heap.Inv.free (hi : h.Inv (h.mBusy ++ lost) spare) (p : Nat) : (free h p).Inv ((free h p).mBusy ++ lost) spare := by
  unfold Libc.free
  split
  · exact hi
  · split
    next => exact hi
    next node hfound =>
      have hperm := (List.perm_cons_erase (List.mem_of_find?_eq_some hfound)).append_right lost
      have hi₁ := hi.perm hperm
      have hi₂ : Heap.Inv { h with mBusy := h.mBusy.erase node } (node :: (h.mBusy.erase node ++ lost)) spare := { hi₁ with }
      obtain ⟨hi₃, hbusy⟩ := hi₂.mergeFree
      rw [hbusy]
      exact hi₃

theorem free_of_not_live (hp : p ∉ h.mBusy.map MNode.ptr) : free h p = h := by
  have hnone : h.mBusy.find? (fun pos => pos.ptr = p) = none := by
    simpa using hp
  simp [free, hnone]

theorem Heap.Inv.eq_of_ptr (hi : h.Inv (h.mBusy ++ lost) spare) {m n : MNode} (hm : m ∈ h.mBusy) (hn : n ∈ h.mBusy)
    (heq : m.ptr = n.ptr) : m = n := by
  by_contra hne
  have hfine : ∀ n ∈ h.mBusy, n.Fine := fun n hn => hi.fine n (List.mem_append_right _ (List.mem_append_left _ hn))
  have hdisjoint := (List.pairwise_append.mp hi.disjoint).1.forall hm hn hne
  have hpos := (hfine m hm).size
  have hpos' := (hfine n hn).size
  exact hdisjoint n.ptr ⟨⟨by omega, by omega⟩, ⟨by omega, by omega⟩⟩

theorem Heap.Inv.free_live (hi : h.Inv (h.mBusy ++ lost) spare) (hn : node ∈ h.mBusy) :
    (Libc.free h node.ptr).mBusy = h.mBusy.erase node := by
  have hptr : node.ptr ≠ 0 := Nat.ne_of_gt (hi.fine node (List.mem_append_right _ (List.mem_append_left _ hn))).ptr
  have hfind : h.mBusy.find? (fun pos => pos.ptr = node.ptr) = some node := by
    cases hfound : h.mBusy.find? fun pos => pos.ptr = node.ptr with
    | none => exact absurd (List.find?_eq_none.mp hfound node hn) (by simp)
    | some other =>
      rw [hi.eq_of_ptr (List.mem_of_find?_eq_some hfound) hn (by simpa using List.find?_some hfound)]
  simp [Libc.free, hptr, hfind, Libc.mergeFree]

theorem Heap.Inv.fresh (hi : h'.Inv (h'.mBusy ++ lost) spare) (hbusy : h'.mBusy = h.mBusy ++ [node]) :
    (∀ m ∈ h.mBusy, node.Disjoint m) ∧ node.ptr ∉ h.mBusy.map MNode.ptr := by
  have hdisjoint := (List.pairwise_append.mp hi.disjoint).1
  rw [hbusy] at hdisjoint
  have hn : ∀ m ∈ h.mBusy, node.Disjoint m :=
    fun m hm => ((List.pairwise_append.mp hdisjoint).2.2 m hm node List.mem_cons_self).symm
  have hfine : ∀ n ∈ h.mBusy ++ [node], n.Fine :=
    fun n hn => hi.fine n (List.mem_append_right _ (List.mem_append_left _ (hbusy ▸ hn)))
  refine ⟨hn, fun hlive => ?_⟩
  obtain ⟨m, hm, heq⟩ := List.mem_map.mp hlive
  have hpos := (hfine m (List.mem_append_left _ hm)).size
  have hpos' := (hfine node (List.mem_append_right _ List.mem_cons_self)).size
  exact hn m hm node.ptr ⟨⟨Nat.le_refl _, by omega⟩, ⟨by omega, by omega⟩⟩

/-! ## Runs -/

theorem Heap.Inv.initHeap (hi : h.Inv [] []) (hfree : h.mFree = []) (hbusy : h.mBusy = [])
    (hm : initHeap h = some h') : h'.Inv h'.mBusy [] := by
  simp only [Libc.initHeap, Option.bind_eq_bind, Option.bind_eq_some_iff, Prod.exists] at hm
  obtain ⟨h₁, hgrow, addr, h₂, halloc, ptr, h₃, hsbrk, hm⟩ := hm
  obtain ⟨hi₁, hfree₁, hbusy₁⟩ := hi.grow hgrow
  obtain ⟨hi₂, hfree₂, hbusy₂⟩ := hi₁.allocNode halloc
  obtain ⟨hi₃, hfree₃, hbusy₃⟩ := hi₂.sbrkData (by decide) (by decide) hsbrk
  have hnil : h₃.mFree = [] := by rw [hfree₃, hfree₂, hfree₁, hfree]
  have hnone : h₃.mBusy = [] := by rw [hbusy₃, hbusy₂, hbusy₁, hbusy]
  have hmerge : h' = Libc.mergeFree h₃ ⟨addr, ptr, eachBrk⟩ := by
    cases hm
    simp [Libc.mergeFree, hnil, mergeLoop]
  rw [hmerge, hi₃.mergeFree.2, hnone]
  exact hi₃.mergeFree.1

theorem inv_empty : Heap.Inv ⟨[], [], [], 0x700000000000, [], []⟩ [] [] := by
  constructor <;> simp [Gaps, Heap.Data]

theorem Heap.Reach.inv (hr : h.Reach) : h.Inv (h.mBusy ++ []) [] := by
  refine Run.invariant (Q := fun h : Heap => h.Inv (h.mBusy ++ []) []) (fun h hm => ?_) (fun h op h' hi hok hstep => ?_) hr
  · rw [List.append_nil]
    exact inv_empty.initHeap rfl rfl hm
  · cases op with
    | malloc size =>
      obtain ⟨⟨p, h₁⟩, hm, rfl⟩ := Option.map_eq_some_iff.mp hstep
      have hlt := hok.2
      exact (hi.malloc hok.1 (by omega) hm).1
    | free p =>
      cases hstep
      exact hi.free p

theorem Heap.Inv.ok (hi : h.Inv h.mBusy []) : h.Ok := by
  constructor
  case sorted => exact hi.gaps.imp fun hlt => by omega
  case apart =>
    have : Std.Symm fun m n : MNode => m.ptr + m.size ≠ n.ptr ∧ n.ptr + n.size ≠ m.ptr := ⟨fun _ _ h => h.symm⟩
    have hpair : h.mFree.Pairwise fun m n => m.ptr + m.size ≠ n.ptr ∧ n.ptr + n.size ≠ m.ptr :=
      hi.gaps.imp fun hlt => by omega
    exact fun m hm n hn hne => (hpair.forall hm hn hne).1
  case disjoint => exact List.pairwise_append.mpr ⟨hi.free_disjoint, hi.disjoint, hi.split⟩
  case cover => exact hi.cover
  case nodes => simpa using hi.nodes
  case once => exact hi.nodup

/-- The heap stays well-formed; `malloc` gives a new block while `sbrk` succeeds, and `free` ends the life of a live one and
ignores other pointers. -/
theorem heap_well_formed (hr : h.Reach) : h.Ok ∧
    (∀ size, 0 < size → size < 2 ^ 62 →
      (h.brk + 2 * (nodeIncSize * sizeofNode) + max (roundSize size) eachBrk < 2 ^ 64 → ∃ p h', malloc h size = some (p, h')) ∧
      ∀ p h', malloc h size = some (p, h') → p % 8 = 0 ∧ p ∉ h.mBusy.map MNode.ptr ∧
        ∃ n : MNode, h'.mBusy = h.mBusy ++ [n] ∧ n.ptr = p ∧ size ≤ n.size ∧ ∀ m ∈ h.mBusy, n.Disjoint m) ∧
    (∀ n ∈ h.mBusy, (free h n.ptr).mBusy = h.mBusy.erase n) ∧
    ∀ p, p ∉ h.mBusy.map MNode.ptr → free h p = h := by
  have hi := hr.inv
  have hok : h.Inv h.mBusy [] := by rwa [List.append_nil] at hi
  refine ⟨hok.ok, fun size hpos hlt => ⟨exists_malloc, fun p h' hm => ?_⟩, fun n => hi.free_live, fun p => free_of_not_live⟩
  obtain ⟨hi', n, hbusy, rfl, hsize⟩ := hi.malloc hpos (by omega) hm
  obtain ⟨hdisjoint, hfresh⟩ := hi'.fresh hbusy
  have hfine := hi'.fine n (by simp [hbusy])
  exact ⟨hfine.align, hfresh, n, hbusy, rfl, hsize, hdisjoint⟩

/-- Of two blocks the first is freed and given out again. -/
theorem heap_well_formed_again : ∃ h h', h.Reach ∧ h.mBusy.map MNode.ptr = [0x700000008068] ∧
    malloc h 50 = some (0x700000008000, h') ∧ h.Ok ∧
    ∃ n : MNode, h'.mBusy = h.mBusy ++ [n] ∧ n.ptr = 0x700000008000 ∧ 50 ≤ n.size ∧ ∀ m ∈ h.mBusy, n.Disjoint m := by
  have hrun : (mallocInit.any fun h => (exec Heap.step HeapOp.ok h [.malloc 100, .malloc 200, .free 0x700000008000]).any
      fun h => decide (h.mBusy.map MNode.ptr = [0x700000008068] ∧ (malloc h 50).map Prod.fst = some 0x700000008000)) = true := by
    decide +kernel
  obtain ⟨h₀, hinit, hexec⟩ := (Option.any_eq_true ..).mp hrun
  obtain ⟨h, hreach, hlive, hptr⟩ := Run.exists_of_exec (show h₀.Reach from .init hinit) hexec
  obtain ⟨⟨p, h'⟩, hm, rfl⟩ := Option.map_eq_some_iff.mp hptr
  obtain ⟨hok, hmalloc, -⟩ := heap_well_formed hreach
  exact ⟨h, h', hreach, hlive, hm, hok, ((hmalloc 50 (by decide) (by decide)).2 _ h' hm).2.2⟩

end FengOS.Libc
