import FengOS.Lib.Run
import Mathlib.Data.List.Nodup

/-!
# Doubly linked lists (`kernel/list.h`, `libc/sys/list.h`)

A node is its address. The lists of the other modules stand for such rings.
-/

namespace FengOS.Core

open FengOS.Lib Function

structure Links where
  next : Nat → Nat
  prev : Nat → Nat

def listHeadInit (m : Links) (head : Nat) : Links := ⟨update m.next head head, update m.prev head head⟩

def listIsNull (m : Links) (head : Nat) : Bool := m.next head = head || m.prev head = head

/-- `__list_add`. -/
def listAddBetween (m : Links) (new prev next : Nat) : Links :=
  ⟨update (update m.next new next) prev new, update (update m.prev new prev) next new⟩

def listAdd (m : Links) (new head : Nat) : Links := listAddBetween m new head (m.next head)

def listAddTail (m : Links) (new head : Nat) : Links := listAddBetween m new (m.prev head) head

/-- `__list_del`. -/
def listDelBetween (m : Links) (prev next : Nat) : Links :=
  ⟨update m.next prev next, update m.prev next prev⟩

def listDel (m : Links) (entry : Nat) : Links :=
  let m := if m.prev entry ≠ 0 ∧ m.next entry ≠ 0 then listDelBetween m (m.prev entry) (m.next entry) else m
  ⟨update m.next entry 0, update m.prev entry 0⟩

/-- The nodes that `list_for_each` comes to, if it ends within the rounds. -/
def listForEach (m : Links) (head : Nat) : Nat → Nat → Option (List Nat)
  | 0, _ => none
  | rounds + 1, pos => if pos = head then some [] else (listForEach m head rounds (m.next pos)).map (pos :: ·)

/-- `list_for_each_prev`. -/
def listForEachPrev (m : Links) (head rounds pos : Nat) : Option (List Nat) := listForEach ⟨m.prev, m.next⟩ head rounds pos

/-! ## The lists -/

inductive ListOp where
  | init (head : Nat)
  | add (new head : Nat)
  | addTail (new head : Nat)
  | del (entry head : Nat)

def Links.step (m : Links) : ListOp → Links
  | .init head => listHeadInit m head
  | .add new head => listAdd m new head
  | .addTail new head => listAddTail m new head
  | .del entry _ => listDel m entry

/-- The lists by their heads. -/
abbrev Lists := Nat → Option (List Nat)

def Lists.Has (L : Lists) (x : Nat) : Prop := ∃ head l, L head = some l ∧ x ∈ head :: l

def Lists.step (L : Lists) : ListOp → Option Lists
  | .init head => some (update L head (some []))
  | .add new head => (L head).map fun l => update L head (some (new :: l))
  | .addTail new head => (L head).map fun l => update L head (some (l ++ [new]))
  | .del entry head => (L head).map fun l => update L head (some (l.erase entry))

/-- A node that is added is in no list, and one that is deleted is in the list. -/
def Lists.ok (L : Lists) : ListOp → Prop
  | .init new | .add new _ | .addTail new _ => new ≠ 0 ∧ ¬ L.Has new
  | .del entry head => ∃ l, L head = some l ∧ entry ∈ l

variable {s : Links × Lists} {m m' : Links} {L L' : Lists} {op : ListOp} {a b p x new entry head rounds : Nat}
  {l l' xs ys : List Nat}

def Linked (m : Links) : Nat → List Nat → Nat → Prop
  | a, [], b => m.next a = b ∧ m.prev b = a
  | a, x :: xs, b => (m.next a = x ∧ m.prev x = a) ∧ Linked m x xs b

theorem linked_append : Linked m a (xs ++ x :: ys) b ↔ Linked m a xs x ∧ Linked m x ys b := by
  induction xs generalizing a with
  | nil => rfl
  | cons y xs ih => simp [Linked, ih, and_assoc]

theorem linked_rotate : Linked m a (xs ++ x :: ys) a ↔ Linked m x (ys ++ a :: xs) x := by
  rw [linked_append, linked_append, and_comm]

theorem Linked.congr (h : Linked m a xs b) (hnext : ∀ y ∈ a :: xs, m'.next y = m.next y)
    (hprev : ∀ y ∈ xs ++ [b], m'.prev y = m.prev y) : Linked m' a xs b := by
  induction xs generalizing a with
  | nil => simpa [Linked, hnext a (by simp), hprev b (by simp)] using h
  | cons x xs ih =>
    exact ⟨by simpa [hnext a (by simp), hprev x (by simp)] using h.1,
      ih h.2 (fun y hy => hnext y (.tail _ hy)) fun y hy => hprev y (.tail _ hy)⟩

theorem Linked.add (h : Linked m p l p) (hnodup : (new :: p :: l).Nodup) :
    Linked (listAddBetween m new p (m.next p)) p (new :: l) p := by
  cases l with
  | nil =>
    obtain ⟨hnext, -⟩ := h
    have hne : new ≠ p := by simpa using hnodup
    simp [Linked, listAddBetween, hnext, hne]
  | cons x xs =>
    obtain ⟨⟨hnext, -⟩, h⟩ := h
    simp only [List.nodup_cons, List.mem_cons, not_or] at hnodup
    refine ⟨?_, ?_, h.congr (fun y hy => ?_) fun y hy => ?_⟩ <;>
      simp only [listAddBetween, update_apply, hnext] <;> grind

theorem Linked.del (h : Linked m p (entry :: l) p) (hnodup : (0 :: p :: entry :: l).Nodup) :
    Linked (listDel m entry) p l p := by
  simp only [List.nodup_cons, List.mem_cons, not_or] at hnodup
  cases l with
  | nil =>
    obtain ⟨⟨-, hprev⟩, hnext, -⟩ := h
    have hne : p ≠ 0 ∧ p ≠ entry := ⟨Ne.symm hnodup.1.1, hnodup.2.1.1⟩
    simp [Linked, listDel, listDelBetween, hprev, hnext, hne]
  | cons x xs =>
    obtain ⟨⟨-, hprev⟩, ⟨hnext, -⟩, h⟩ := h
    have hvalid : m.prev entry ≠ 0 ∧ m.next entry ≠ 0 := by grind
    rw [listDel, if_pos hvalid]
    refine ⟨?_, h.congr (fun y hy => ?_) fun y hy => ?_⟩ <;>
      simp only [listDelBetween, update_apply, hprev, hnext] <;> grind

theorem Linked.forEach (h : Linked m a xs b) (hb : b ∉ xs) (hr : xs.length < rounds) :
    listForEach m b rounds (m.next a) = some xs := by
  induction xs generalizing a rounds with
  | nil =>
    obtain ⟨rounds, rfl⟩ := Nat.exists_eq_succ_of_ne_zero (Nat.ne_zero_of_lt hr)
    simp [listForEach, h.1]
  | cons x xs ih =>
    obtain ⟨rounds, rfl⟩ := Nat.exists_eq_succ_of_ne_zero (Nat.ne_zero_of_lt hr)
    simp only [List.mem_cons, not_or] at hb
    rw [h.1.1, listForEach, if_neg (Ne.symm hb.1), ih h.2 hb.2 (Nat.lt_of_succ_lt_succ hr), Option.map_some]

theorem Linked.addTail (h : Linked m head l head) (hnodup : (new :: head :: l).Nodup) :
    Linked (listAddTail m new head) head (l ++ [new]) head := by
  obtain rfl | ⟨l, p, rfl⟩ := List.eq_nil_or_concat' l
  · have hadd := h.add hnodup
    rw [h.1] at hadd
    rwa [listAddTail, h.2]
  · rw [linked_rotate] at h
    have hadd := h.add (by grind : (new :: _).Nodup)
    rw [h.1.1] at hadd
    rw [listAddTail, h.1.2, List.append_assoc]
    exact linked_rotate.mpr hadd

theorem Linked.erase (h : Linked m head (xs ++ entry :: ys) head) (hnodup : (0 :: head :: (xs ++ entry :: ys)).Nodup) :
    Linked (listDel m entry) head (xs ++ ys) head := by
  obtain rfl | ⟨xs, p, rfl⟩ := List.eq_nil_or_concat' xs
  · exact h.del hnodup
  · rw [List.append_assoc, List.singleton_append] at h hnodup ⊢
    rw [linked_rotate, List.cons_append] at h
    exact linked_rotate.mpr (h.del (by grind))

theorem Linked.reverse (h : Linked m a xs b) : Linked ⟨m.prev, m.next⟩ b xs.reverse a := by
  induction xs generalizing a with
  | nil => exact h.symm
  | cons x xs ih =>
    rw [List.reverse_cons, linked_append]
    exact ⟨ih h.2, h.1.symm⟩

theorem Linked.next_mem (h : Linked m a xs b) : m.next a ∈ xs ++ [b] := by
  cases xs with
  | nil => simp [h.1]
  | cons x xs => simp [h.1.1]

/-- The pointers of a ring stay in it. -/
theorem Linked.mem (h : Linked m head l head) (hx : x ∈ head :: l) : m.next x ∈ head :: l ∧ m.prev x ∈ head :: l := by
  cases hx with
  | head =>
    have hnext := h.next_mem
    have hprev := h.reverse.next_mem
    grind
  | tail _ hx =>
    obtain ⟨xs, ys, rfl⟩ := List.append_of_mem hx
    rw [linked_rotate] at h
    have hnext := h.next_mem
    have hprev := h.reverse.next_mem
    grind

/-! ## Every list at once -/

/-- The pointers of the lists' nodes are the lists, and no node is in two of them. -/
structure Represents (m : Links) (L : Lists) : Prop where
  linked : ∀ head l, L head = some l → Linked m head l head
  nodup : ∀ head l, L head = some l → (0 :: head :: l).Nodup
  apart : ∀ a b l l' x, L a = some l → L b = some l' → x ∈ a :: l → x ∈ b :: l' → a = b

/-- An operation that writes only nodes of one list, or of none, leaves the others as they are. -/
theorem Represents.put (h : Represents m L) (nodes : List Nat)
    (hnodes : ∀ x ∈ nodes, ∀ b k, L b = some k → x ∈ b :: k → b = head)
    (hframe : ∀ x, x ∉ nodes → m'.next x = m.next x ∧ m'.prev x = m.prev x)
    (hsub : ∀ x ∈ head :: l', x ∈ nodes) (hlinked : Linked m' head l' head) (hnodup : (0 :: head :: l').Nodup) :
    Represents m' (update L head (some l')) := by
  refine ⟨fun b k hb => ?_, fun b k hb => ?_, fun a b k k' x ha hb hxa hxb => ?_⟩
  · by_cases hbh : b = head
    · grind [update_apply]
    · rw [update_of_ne hbh] at hb
      have hout : ∀ y ∈ b :: k, y ∉ nodes := fun y hy hn => hbh (hnodes y hn b k hb hy)
      exact (h.linked b k hb).congr (fun y hy => (hframe y (hout y hy)).1) fun y hy => (hframe y (hout y (by grind))).2
  · have := h.nodup b k
    grind [update_apply]
  · have := h.apart a b k k' x
    grind [update_apply]

theorem Represents.add (h : Represents m L) (hl : L head = some l) (hnew : new ≠ 0 ∧ ¬ L.Has new) (ha : a ∈ head :: l)
    (hb : b ∈ head :: l) (hperm : l'.Perm (new :: l))
    (hlinked : (new :: head :: l).Nodup → Linked (listAddBetween m new a b) head l' head) :
    Represents (listAddBetween m new a b) (update L head (some l')) := by
  have hfresh : new ∉ head :: l := fun hn => hnew.2 ⟨head, l, hl, hn⟩
  have hnodup := h.nodup head l hl
  refine h.put (new :: head :: l) ?_ (fun x hx => ?_) ?_ (hlinked (List.nodup_cons.mpr ⟨hfresh, hnodup.of_cons⟩))
    (((hperm.cons head).cons 0).nodup_iff.mpr (by grind))
  · have := h.apart head
    grind [Lists.Has]
  · have hx : x ≠ new ∧ x ≠ a ∧ x ≠ b := by grind
    simp [listAddBetween, hx]
  · have := @hperm.mem_iff
    grind

theorem Represents.step (h : Represents m L) (hok : L.ok op) (hs : L.step op = some L') : Represents (m.step op) L' := by
  cases op with
  | init head =>
    obtain rfl := Option.some.inj hs
    refine h.put [head] (by grind [Lists.ok, Lists.Has]) (fun x hx => ?_) (by simp)
      (by simp [Linked, Links.step, listHeadInit]) (by simpa [eq_comm] using hok.1)
    have hx : x ≠ head := by simpa using hx
    simp [Links.step, listHeadInit, hx]
  | add new head =>
    obtain ⟨l, hl, rfl⟩ := Option.map_eq_some_iff.mp hs
    have hring := h.linked head l hl
    exact h.add hl hok List.mem_cons_self (hring.mem List.mem_cons_self).1 (.refl _) hring.add
  | addTail new head =>
    obtain ⟨l, hl, rfl⟩ := Option.map_eq_some_iff.mp hs
    have hring := h.linked head l hl
    exact h.add hl hok (hring.mem List.mem_cons_self).2 List.mem_cons_self List.perm_append_comm hring.addTail
  | del entry head =>
    obtain ⟨l, hl, rfl⟩ := Option.map_eq_some_iff.mp hs
    obtain ⟨l', hl', hmem⟩ := hok
    obtain rfl := Option.some.inj (hl.symm.trans hl')
    obtain ⟨xs, ys, rfl⟩ := List.append_of_mem hmem
    have hring := h.linked head _ hl
    have hnodup := h.nodup head _ hl
    have hin := hring.mem (List.mem_cons_of_mem _ hmem)
    have herase : (xs ++ entry :: ys).erase entry = xs ++ ys := by grind
    rw [herase]
    refine h.put (head :: (xs ++ entry :: ys)) ?_ ?_ (by grind) (hring.erase hnodup) (by grind)
    · have := h.apart head
      grind
    · intro x hx
      have hx' : x ≠ entry ∧ x ≠ m.prev entry ∧ x ≠ m.next entry := by grind
      simp only [Links.step, listDel]
      split <;> simp [listDelBetween, hx']

def listStep (s : Links × Lists) (op : ListOp) : Option (Links × Lists) := (s.2.step op).map fun L => (s.1.step op, L)

abbrev ListRun : Links × Lists → Prop := Run listStep (fun s op => s.2.ok op) (fun s => s.2 = fun _ => none)

theorem Linked.next_eq_iff (h : Linked m head l head) (hl : head ∉ l) : m.next head = head ↔ l = [] := by
  cases l with
  | nil => simp [h.1]
  | cons x l =>
    have hx := h.1.1
    grind

/-- Whatever is done to any lists, the traversals of one see its elements in order, and `list_is_null` whether there are any. -/
theorem list_traversals (h : ListRun s) (hl : s.2 head = some l) (hr : l.length < rounds) :
    listForEach s.1 head rounds (s.1.next head) = some l ∧
      listForEachPrev s.1 head rounds (s.1.prev head) = some l.reverse ∧ (listIsNull s.1 head ↔ l = []) := by
  have hrep : Represents s.1 s.2 := by
    refine h.invariant (Q := fun s => Represents s.1 s.2) (fun s hs => ?_) fun s op s' hrep hok hs => ?_
    · exact ⟨by simp [hs], by simp [hs], by simp [hs]⟩
    · obtain ⟨L, hL, rfl⟩ := Option.map_eq_some_iff.mp hs
      exact hrep.step hok hL
  have hring := hrep.linked head l hl
  have hout : head ∉ l := (hrep.nodup head l hl).of_cons.notMem
  have hout' : head ∉ l.reverse := by simpa using hout
  refine ⟨hring.forEach hout hr, hring.reverse.forEach hout' (by simpa using hr), ?_⟩
  have hprev := hring.reverse.next_eq_iff hout'
  simp [listIsNull, hring.next_eq_iff hout, show s.1.prev head = head ↔ l = [] by simpa using hprev]

theorem list_traversals_added : ∃ s, ListRun s ∧ s.2 1 = some [2] ∧ listForEach s.1 1 2 (s.1.next 1) = some [2] := by
  have hrun : ListRun (⟨id, id⟩, fun _ => none) := .init rfl
  have hinit := hrun.step (a := ListOp.init 1) ⟨by decide, by simp [Lists.Has]⟩ rfl
  have hadd := hinit.step (a := ListOp.add 2 1) ⟨by decide, by simp [Lists.Has, update_apply]⟩ rfl
  exact ⟨_, hadd, rfl, (list_traversals hadd rfl (by decide)).1⟩

end FengOS.Core
