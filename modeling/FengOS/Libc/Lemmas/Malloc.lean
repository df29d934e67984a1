import FengOS.Libc.Malloc
import Mathlib.Data.List.Nodup
import Mathlib.Tactic

/-!
# What `malloc` and `free` keep
-/

namespace FengOS.Libc

open FengOS.Lib

variable {h h' : Heap} {l used used' : List MNode} {node entry : MNode} {spare nodes : List Nat} {a p size x : Nat}

/-! ## `merge_free` -/

structure MNode.Fine (n : MNode) : Prop where
  ptr : 0 < n.ptr
  size : 0 < n.size
  bound : n.ptr + n.size < 2 ^ 64
  align : n.ptr % 8 = 0
  sizeAlign : n.size % 8 = 0

theorem MNode.Fine.stop (h : node.Fine) : node.stop = node.ptr + node.size := Nat.mod_eq_of_lt h.bound

def Gaps (l : List MNode) : Prop := l.Pairwise fun m n => m.ptr + m.size < n.ptr

theorem MNode.disjoint_iff {m n : MNode} (hm : m.Fine) (hn : n.Fine) :
    m.Disjoint n ↔ m.ptr + m.size ≤ n.ptr ∨ n.ptr + n.size ≤ m.ptr := by
  have hpos := hm.size
  have hpos' := hn.size
  simp only [MNode.Disjoint, MNode.Has]
  constructor
  · intro h
    have hleft := h m.ptr
    have hright := h n.ptr
    omega
  · intro h x
    omega

/-- `merge_free`: what the list covers has grown by the block, and the nodes not used any more are on `nodes`. -/
structure Merged (l : List MNode) (node : MNode) (nodes : List Nat) (r : List MNode × List Nat) : Prop where
  fine : ∀ e ∈ r.1, e.Fine
  gaps : Gaps r.1
  above : ∀ m, m < node.ptr → (∀ e ∈ l, m < e.ptr) → ∀ e ∈ r.1, m < e.ptr
  has : ∀ x, (∃ e ∈ r.1, e.Has x) ↔ node.Has x ∨ ∃ e ∈ l, e.Has x
  addrs : (r.1.map MNode.addr ++ r.2).Perm (node.addr :: (l.map MNode.addr ++ nodes))

theorem Merged.absorb {new : MNode} {r : List MNode × List Nat} (h : Merged l new (entry.addr :: nodes) r)
    (haddr : new.addr = node.addr) (hptr : min node.ptr entry.ptr ≤ new.ptr)
    (hhas : ∀ x, new.Has x ↔ node.Has x ∨ entry.Has x) : Merged (entry :: l) node nodes r where
  fine := h.fine
  gaps := h.gaps
  above m hm hl := by
    obtain ⟨hentry, hl⟩ := List.forall_mem_cons.mp hl
    exact h.above m (by omega) hl
  has x := by simp [h.has, hhas, or_assoc]
  addrs := by
    have hperm := h.addrs
    rw [haddr] at hperm
    exact hperm.trans (List.Perm.cons _ List.perm_middle)

theorem mergeLoop_spec (hl : ∀ e ∈ l, e.Fine) (hg : Gaps l) (hn : node.Fine) (hd : ∀ e ∈ l, node.Disjoint e) :
    Merged l node nodes (mergeLoop l node nodes) := by
  induction l generalizing node nodes with
  | nil => constructor <;> simp_all [mergeLoop, Gaps]
  | cons entry l ih =>
    obtain ⟨hentry, hl⟩ := List.forall_mem_cons.mp hl
    obtain ⟨hafter, hg⟩ := List.pairwise_cons.mp hg
    obtain ⟨hd₁, hd⟩ := List.forall_mem_cons.mp hd
    have hapart := (MNode.disjoint_iff hn hentry).mp hd₁
    have hrest : ∀ e ∈ l, node.ptr + node.size ≤ e.ptr ∨ e.ptr + e.size ≤ node.ptr :=
      fun e he => (MNode.disjoint_iff hn (hl e he)).mp (hd e he)
    obtain ⟨hptr, hsize, hbound, halign, hsalign⟩ := id hn
    obtain ⟨hptr', hsize', hbound', halign', hsalign'⟩ := id hentry
    have hsum : (node.size + entry.size) % 2 ^ 64 = node.size + entry.size := Nat.mod_eq_of_lt (by omega)
    simp only [mergeLoop, hentry.stop, hn.stop, hsum]
    split
    next hleft =>
      have hnew : MNode.Fine { node with ptr := entry.ptr, size := node.size + entry.size } :=
        ⟨hptr', by simp; omega, by simp; omega, halign', by simp; omega⟩
      refine (ih hl hg hnew fun e he => ?_).absorb rfl (Nat.min_le_right _ _) fun x => ?_
      · have hfirst := hafter e he
        have hother := hrest e he
        have hpos := (hl e he).size
        exact (MNode.disjoint_iff hnew (hl e he)).mpr (Or.inl (by simp; omega))
      · simp only [MNode.Has]
        omega
    next hleft =>
      split
      next hright =>
        have hnew : MNode.Fine { node with size := node.size + entry.size } :=
          ⟨hptr, by simp; omega, by simp; omega, halign, by simp; omega⟩
        refine (ih hl hg hnew fun e he => ?_).absorb rfl (Nat.min_le_left _ _) fun x => ?_
        · have hfirst := hafter e he
          exact (MNode.disjoint_iff hnew (hl e he)).mpr (Or.inl (by simp; omega))
        · simp only [MNode.Has]
          omega
      next hright =>
        split
        next hgt =>
          -- the place of the block is before this entry
          constructor
          case fine => simpa using ⟨hn, hentry, hl⟩
          case gaps =>
            refine List.pairwise_cons.mpr ⟨fun e he => ?_, List.pairwise_cons.mpr ⟨hafter, hg⟩⟩
            rcases List.mem_cons.mp he with rfl | he
            · omega
            · have hfirst := hafter e he
              omega
          case above => simp_all
          case has => simp
          case addrs => simp
        next hgt =>
          have hmerged : Merged l node nodes (mergeLoop l node nodes) := ih hl hg hn hd
          constructor
          case fine => simpa using ⟨hentry, hmerged.fine⟩
          case gaps => exact List.pairwise_cons.mpr ⟨hmerged.above _ (by omega) hafter, hmerged.gaps⟩
          case above =>
            intro m hm hall
            obtain ⟨hm', hall⟩ := List.forall_mem_cons.mp hall
            simpa using ⟨hm', hmerged.above m hm hall⟩
          case has => simp [hmerged.has, or_left_comm]
          case addrs => simpa using (hmerged.addrs.cons _).trans (.swap _ _ _)

/-! ## The invariant -/

def Heap.Data (h : Heap) (x : Nat) : Prop := ∃ r ∈ h.regions, r.1 ≤ x ∧ x < r.1 + r.2

structure Heap.Inv (h : Heap) (used : List MNode) (spare : List Nat) : Prop where
  fine : ∀ n ∈ h.mFree ++ used, n.Fine
  gaps : Gaps h.mFree
  split : ∀ m ∈ h.mFree, ∀ n ∈ used, m.Disjoint n
  disjoint : used.Pairwise MNode.Disjoint
  cover : ∀ x, h.Data x ↔ ∃ n ∈ h.mFree ++ used, n.Has x
  nodes : (h.mFree.map MNode.addr ++ used.map MNode.addr ++ (spare ++ h.mFreeNode)).Perm (h.nodeRegions.flatMap nodesAt)
  below : ∀ r ∈ h.regions, r.1 + r.2 ≤ h.brk
  nodesBelow : ∀ r ∈ h.nodeRegions, r + nodeIncSize * sizeofNode ≤ h.brk
  increasing : h.nodeRegions.Pairwise fun r r' => r + nodeIncSize * sizeofNode ≤ r'
  brk : 0 < h.brk ∧ h.brk < 2 ^ 64 ∧ h.brk % 8 = 0

theorem MNode.Disjoint.symm {m n : MNode} (h : m.Disjoint n) : n.Disjoint m := fun x hx => h x hx.symm

instance : Std.Symm MNode.Disjoint := ⟨fun _ _ h => h.symm⟩

theorem Heap.Inv.perm (hi : h.Inv used spare) (hp : used.Perm used') : h.Inv used' spare where
  fine n hn := hi.fine n (by simpa [hp.mem_iff] using hn)
  gaps := hi.gaps
  split m hm n hn := hi.split m hm n (hp.mem_iff.mpr hn)
  disjoint := hp.pairwise hi.disjoint fun h => h.symm
  cover x := by simp [hi.cover, hp.mem_iff]
  nodes := (((hp.map _).append_left _).append_right _).symm.trans hi.nodes
  below := hi.below
  nodesBelow := hi.nodesBelow
  increasing := hi.increasing
  brk := hi.brk

theorem mem_nodesAt : a ∈ nodesAt p → p ≤ a ∧ a < p + nodeIncSize * sizeofNode := by
  simp only [nodesAt, List.mem_map, List.mem_range]
  rintro ⟨i, hi, rfl⟩
  exact ⟨Nat.le_add_right _ _, Nat.add_lt_add_left (Nat.mul_lt_mul_of_pos_right hi (by decide)) p⟩

theorem nodup_nodesAt : (nodesAt p).Nodup := by
  refine List.nodup_range.map fun i j hij => ?_
  simp only [sizeofNode] at hij
  omega

theorem Heap.Inv.nodup (hi : h.Inv used spare) : (h.nodeRegions.flatMap nodesAt).Nodup := by
  refine List.nodup_flatMap.mpr ⟨fun r _ => nodup_nodesAt, hi.increasing.imp fun hr a ha ha' => ?_⟩
  have hlo := mem_nodesAt ha
  have hhi := mem_nodesAt ha'
  omega

/-! ### The parts of a call -/

theorem Heap.Inv.grow (hi : h.Inv used spare) (hg : growNodes h = some h') :
    h'.Inv used spare ∧ h'.mFree = h.mFree ∧ h'.mBusy = h.mBusy := by
  unfold growNodes at hg
  split at hg
  next hbrk =>
    cases hg
    refine ⟨{ hi with nodes := ?_, below := ?_, nodesBelow := ?_, increasing := ?_, brk := ?_ }, rfl, rfl⟩
    · simpa [List.append_assoc] using hi.nodes.append_right (nodesAt h.brk)
    · exact fun r hr => Nat.le_trans (hi.below r hr) (Nat.le_add_right _ _)
    · simp only [List.forall_mem_append, List.forall_mem_singleton]
      exact ⟨fun r hr => Nat.le_trans (hi.nodesBelow r hr) (Nat.le_add_right _ _), Nat.le_refl _⟩
    · simpa [List.pairwise_append] using ⟨hi.increasing, hi.nodesBelow⟩
    · have hb := hi.brk
      simp only [nodeIncSize, sizeofNode] at hbrk ⊢
      omega
  next => cases hg

theorem Heap.Inv.take (hi : h.Inv used spare) (ht : takeNode h = some (a, h')) :
    h'.Inv used (a :: spare) ∧ h'.mFree = h.mFree ∧ h'.mBusy = h.mBusy := by
  unfold takeNode at ht
  cases hnodes : h.mFreeNode with
  | nil => simp [hnodes] at ht
  | cons b bs =>
    rw [hnodes] at ht
    cases ht
    refine ⟨{ hi with nodes := ?_ }, rfl, rfl⟩
    have hp := hi.nodes
    rw [hnodes] at hp
    exact (List.Perm.append_left _ List.perm_middle.symm).trans hp

theorem Heap.Inv.allocNode (hi : h.Inv used spare) (ha : allocNode h = some (a, h')) :
    h'.Inv used (a :: spare) ∧ h'.mFree = h.mFree ∧ h'.mBusy = h.mBusy := by
  unfold Libc.allocNode at ha
  split at ha
  · obtain ⟨h₁, hg, ht⟩ := Option.bind_eq_some_iff.mp ha
    obtain ⟨hi₁, hfree, hbusy⟩ := hi.grow hg
    obtain ⟨hi₂, hfree', hbusy'⟩ := hi₁.take ht
    exact ⟨hi₂, hfree'.trans hfree, hbusy'.trans hbusy⟩
  · exact hi.take ha

theorem Heap.Inv.sbrkData (hi : h.Inv used (a :: spare)) (hsize : 0 < size) (halign : size % 8 = 0)
    (hs : sbrkData h size = some (p, h')) :
    h'.Inv (⟨a, p, size⟩ :: used) spare ∧ h'.mFree = h.mFree ∧ h'.mBusy = h.mBusy := by
  unfold Libc.sbrkData at hs
  split at hs
  next hbrk =>
    cases hs
    have hb := hi.brk
    -- every other block is in a region below the new one
    have hold : ∀ n ∈ h.mFree ++ used, n.Disjoint ⟨a, h.brk, size⟩ := by
      intro n hn x ⟨hx, hx'⟩
      obtain ⟨r, hr, -, hlt⟩ := (hi.cover x).mpr ⟨n, hn, hx⟩
      have hbelow := hi.below r hr
      simp only [MNode.Has] at hx'
      omega
    simp only [List.forall_mem_append] at hold
    refine ⟨?_, rfl, rfl⟩
    constructor
    case fine =>
      have hfine := hi.fine
      simp only [List.forall_mem_append, List.forall_mem_cons] at hfine ⊢
      exact ⟨hfine.1, ⟨hb.1, hsize, hbrk, hb.2.2, halign⟩, hfine.2⟩
    case gaps => exact hi.gaps
    case split =>
      intro m hm
      simp only [List.forall_mem_cons]
      exact ⟨hold.1 m hm, hi.split m hm⟩
    case disjoint => exact List.pairwise_cons.mpr ⟨fun n hn => (hold.2 n hn).symm, hi.disjoint⟩
    case cover =>
      intro x
      have hcover := hi.cover x
      simp only [Heap.Data, MNode.Has, List.mem_append, List.mem_cons, List.not_mem_nil, or_false, or_and_right, exists_or,
        exists_eq_left] at hcover ⊢
      rw [hcover]
      exact or_assoc.trans (or_congr_right or_comm)
    case nodes =>
      refine List.Perm.trans ?_ hi.nodes
      simp only [List.map_cons, List.append_assoc, List.cons_append]
      exact List.Perm.append_left _ List.perm_middle.symm
    case below =>
      simp only [List.forall_mem_append, List.forall_mem_singleton]
      exact ⟨fun r hr => Nat.le_trans (hi.below r hr) (Nat.le_add_right _ _), Nat.le_refl _⟩
    case nodesBelow => exact fun r hr => Nat.le_trans (hi.nodesBelow r hr) (Nat.le_add_right _ _)
    case increasing => exact hi.increasing
    case brk =>
      dsimp only
      omega
  next => cases hs

theorem Heap.Inv.mergeFree (hi : h.Inv (node :: used) spare) :
    (mergeFree h node).Inv used spare ∧ (mergeFree h node).mBusy = h.mBusy := by
  have hfine := hi.fine
  simp only [List.forall_mem_append, List.forall_mem_cons] at hfine
  obtain ⟨hfree, hnode, hused⟩ := hfine
  obtain ⟨hfirst, hdisjoint⟩ := List.pairwise_cons.mp hi.disjoint
  have hmerged : Merged h.mFree node h.mFreeNode (mergeLoop h.mFree node h.mFreeNode) :=
    mergeLoop_spec hfree hi.gaps hnode fun e he => (hi.split e he node List.mem_cons_self).symm
  refine ⟨?_, rfl⟩
  constructor
  case fine =>
    simp only [List.forall_mem_append]
    exact ⟨hmerged.fine, hused⟩
  case gaps => exact hmerged.gaps
  case split =>
    intro m hm n hn x ⟨hx, hx'⟩
    rcases (hmerged.has x).mp ⟨m, hm, hx⟩ with hx | ⟨e, he, hx⟩
    · exact hfirst n hn x ⟨hx, hx'⟩
    · exact hi.split e he n (List.mem_cons_of_mem _ hn) x ⟨hx, hx'⟩
  case disjoint => exact hdisjoint
  case cover =>
    intro x
    have hcover := hi.cover x
    have hhas := hmerged.has x
    simp only [List.mem_append, List.mem_cons, or_and_right, exists_or, exists_eq_left, Libc.mergeFree, Heap.Data] at hcover ⊢
    rw [hcover, hhas]
    exact or_left_comm.trans or_assoc.symm
  case nodes =>
    refine List.Perm.trans (List.perm_iff_count.mpr fun c => ?_) hi.nodes
    have hcount := hmerged.addrs.count_eq c
    simp only [Libc.mergeFree, List.count_append, List.count_cons, List.map_cons] at hcount ⊢
    omega
  case below => exact hi.below
  case nodesBelow => exact hi.nodesBelow
  case increasing => exact hi.increasing
  case brk => exact hi.brk

theorem Heap.Inv.free_disjoint (hi : h.Inv used spare) : h.mFree.Pairwise MNode.Disjoint := by
  have hfine : ∀ n ∈ h.mFree, n.Fine := fun n hn => hi.fine n (List.mem_append_left _ hn)
  refine hi.gaps.imp_of_mem fun {m n} hm hn hlt => ?_
  exact (MNode.disjoint_iff (hfine m hm) (hfine n hn)).mpr (Or.inl (Nat.le_of_lt hlt))

theorem Heap.Inv.unlink (hi : h.Inv used spare) (hn : node ∈ h.mFree) :
    Heap.Inv { h with mFree := h.mFree.erase node } (node :: used) spare := by
  have hperm : h.mFree.Perm (node :: h.mFree.erase node) := List.perm_cons_erase hn
  have hsub : ∀ m ∈ h.mFree.erase node, m ∈ h.mFree := fun m hm => List.mem_of_mem_erase hm
  have hfine := hi.fine
  simp only [List.forall_mem_append] at hfine
  obtain ⟨hnode, -⟩ := List.pairwise_cons.mp (hperm.pairwise hi.free_disjoint fun h => h.symm)
  refine { hi with fine := ?_, gaps := ?_, split := ?_, disjoint := ?_, cover := ?_, nodes := ?_ }
  · simp only [List.forall_mem_append, List.forall_mem_cons]
    exact ⟨fun m hm => hfine.1 m (hsub m hm), hfine.1 node hn, hfine.2⟩
  · exact hi.gaps.sublist List.erase_sublist
  · intro m hm
    simp only [List.forall_mem_cons]
    exact ⟨(hnode m hm).symm, hi.split m (hsub m hm)⟩
  · exact List.pairwise_cons.mpr ⟨hi.split node hn, hi.disjoint⟩
  · intro x
    have hcover := hi.cover x
    simp only [List.mem_append, hperm.mem_iff] at hcover
    simp only [Heap.Data, List.mem_append, List.mem_cons, or_and_right, exists_or, exists_eq_left] at hcover ⊢
    rw [hcover]
    exact or_assoc.trans or_left_comm
  · refine List.Perm.trans (List.perm_iff_count.mpr fun c => ?_) hi.nodes
    have hcount := (hperm.map MNode.addr).count_eq c
    simp only [List.count_append, List.count_cons, List.map_cons] at hcount ⊢
    omega

theorem Heap.Inv.cut (hi : h.Inv (node :: used) (a :: spare)) (hsize : 0 < size) (halign : size % 8 = 0)
    (hlt : size < node.size) :
    h.Inv (⟨a, node.ptr + size, node.size - size⟩ :: { node with size := size } :: used) spare := by
  have hfine := hi.fine
  simp only [List.forall_mem_append, List.forall_mem_cons] at hfine
  obtain ⟨hfree, hnode, hused⟩ := hfine
  obtain ⟨hfirst, hdisjoint⟩ := List.pairwise_cons.mp hi.disjoint
  obtain ⟨hptr, hpos, hbound, hnalign, hsalign⟩ := hnode
  have hsplit : ∀ x, node.Has x ↔ MNode.Has ⟨a, node.ptr + size, node.size - size⟩ x ∨ MNode.Has { node with size := size } x := by
    intro x
    simp only [MNode.Has]
    omega
  have hof : ∀ n : MNode, node.Disjoint n →
      MNode.Disjoint ⟨a, node.ptr + size, node.size - size⟩ n ∧ MNode.Disjoint { node with size := size } n := by
    intro n hn
    exact ⟨fun x hx => hn x ⟨(hsplit x).mpr (Or.inl hx.1), hx.2⟩, fun x hx => hn x ⟨(hsplit x).mpr (Or.inr hx.1), hx.2⟩⟩
  refine { hi with fine := ?_, split := ?_, disjoint := ?_, cover := ?_, nodes := ?_ }
  · simp only [List.forall_mem_append, List.forall_mem_cons]
    exact ⟨hfree, ⟨by simp; omega, by simp; omega, by simp; omega, by simp; omega, by simp; omega⟩,
      ⟨hptr, hsize, by simp; omega, hnalign, halign⟩, hused⟩
  · intro m hm
    have hm' := hi.split m hm
    simp only [List.forall_mem_cons] at hm' ⊢
    exact ⟨(hof m hm'.1.symm).1.symm, (hof m hm'.1.symm).2.symm, hm'.2⟩
  · simp only [List.pairwise_cons, List.forall_mem_cons]
    refine ⟨⟨fun x hx => ?_, fun n hn => (hof n (hfirst n hn)).1⟩, fun n hn => (hof n (hfirst n hn)).2, hdisjoint⟩
    simp only [MNode.Has] at hx
    omega
  · intro x
    have hcover := hi.cover x
    simp only [Heap.Data, List.mem_append, List.mem_cons, or_and_right, exists_or, exists_eq_left, hsplit x, or_assoc]
      at hcover ⊢
    exact hcover
  · refine List.Perm.trans (List.perm_iff_count.mpr fun c => ?_) hi.nodes
    simp only [List.count_append, List.count_cons, List.map_cons, List.cons_append]
    omega

end FengOS.Libc
