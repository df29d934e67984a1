import Mathlib.Algebra.BigOperators.Group.Finset.Basic
import Mathlib.Algebra.BigOperators.Intervals
import Mathlib.Algebra.Ring.Int.Defs
import Mathlib.Tactic.Common

/-!
# Hash tables with chaining

An entry hangs in the chain that its key selects. Appending, replacing and erasing an entry act on the partial map from
keys to entries.
-/

namespace FengOS.Lib.Chain

/-- The chains of a table. -/
abbrev Table (α : Type) : Type := Nat → List α

section
variable {α : Type} (key : α → Nat) (size : Nat)

/-- The first entry with a key. -/
def find (t : Table α) (k : Nat) : Option α := (t (k % size)).find? fun a => key a = k

def append (t : Table α) (a : α) : Table α := Function.update t (key a % size) (t (key a % size) ++ [a])

/-- Replaces the first entry of a chain that has the key of `a`. -/
def replaceFirst (a : α) : List α → List α
  | [] => []
  | b :: bs => if key b = key a then a :: bs else b :: replaceFirst a bs

def replace (t : Table α) (a : α) : Table α :=
  Function.update t (key a % size) (replaceFirst key a (t (key a % size)))

def erase (t : Table α) (k : Nat) : Table α :=
  Function.update t (k % size) ((t (k % size)).eraseP fun a => key a = k)

/-- Every entry is in its chain and no key occurs twice. -/
structure Ok (t : Table α) : Prop where
  home : ∀ b, ∀ a ∈ t b, key a % size = b
  unique : ∀ b, (t b).Pairwise fun x y => key x ≠ key y

/-- The sum of the weights of all entries. -/
def total (t : Table α) (w : α → Int) : Int := ∑ b ∈ Finset.range size, ((t b).map w).sum

end

variable {α : Type} {key : α → Nat} {size : Nat} {t : Table α} {a b : α} {k j : Nat} {w w' : α → Int}

/-! ## Finding an entry -/

theorem find_key (h : find key size t k = some a) : key a = k := by
  simpa using List.find?_some h

theorem find_mem (h : find key size t k = some a) : a ∈ t (k % size) := List.mem_of_find?_eq_some h

theorem find_update_of_ne {l : List α} (h : j % size ≠ k % size) :
    find key size (Function.update t (k % size) l) j = find key size t j := by
  rw [find, Function.update_of_ne h]
  rfl

theorem find_append : find key size (append key size t a) k =
    (find key size t k).or (if key a = k then some a else none) := by
  rcases eq_or_ne (k % size) (key a % size) with h | h
  · simp only [find, append, h, Function.update_self, List.find?_append, List.find?_singleton, decide_eq_true_eq]
  · have hne : key a ≠ k := fun he => h (he ▸ rfl)
    rw [append, find_update_of_ne h, if_neg hne, Option.or_none]

theorem find?_replaceFirst {l : List α} (h : l.find? (fun x => key x = key a) = some b) :
    (replaceFirst key a l).find? (fun x => key x = k) = if k = key a then some a else l.find? fun x => key x = k := by
  induction l with
  | nil => simp at h
  | cons x l ih =>
    rw [replaceFirst]
    split
    · rename_i hx
      by_cases hk : k = key a
      · simp [hk]
      · simp [hk, hx, Ne.symm hk]
    · rename_i hx
      have h' := ih (by simpa [hx] using h)
      by_cases hxk : key x = k
      · have hk : k ≠ key a := hxk ▸ hx
        simp [hxk, hk]
      · simp [hxk, h']

theorem find_replace (h : find key size t (key a) = some b) :
    find key size (replace key size t a) k = if k = key a then some a else find key size t k := by
  rcases eq_or_ne (k % size) (key a % size) with hk | hk
  · rw [find, replace, hk, Function.update_self, find?_replaceFirst h, find, hk]
  · have hne : k ≠ key a := fun he => hk (he ▸ rfl)
    rw [replace, find_update_of_ne hk, if_neg hne]

theorem find?_eraseP {l : List α} (hl : l.Pairwise fun x y => key x ≠ key y) :
    (l.eraseP fun x => key x = k).find? (fun x => key x = j) = if j = k then none else l.find? fun x => key x = j := by
  induction l with
  | nil => simp
  | cons x l ih =>
    obtain ⟨hx, hl⟩ := List.pairwise_cons.mp hl
    by_cases hk : key x = k
    · rw [List.eraseP_cons_of_pos (by simpa using hk)]
      by_cases hj : j = k
      · simp only [hj, if_true, List.find?_eq_none, decide_eq_true_eq]
        exact fun y hy hyk => hx y hy (hk.trans hyk.symm)
      · rw [if_neg hj, List.find?_cons_of_neg (by simpa [hk] using Ne.symm hj)]
    · rw [List.eraseP_cons_of_neg (by simpa using hk)]
      by_cases hj : key x = j
      · have hjk : j ≠ k := hj ▸ hk
        simp [hj, hjk]
      · simp [hj, ih hl]

theorem find_erase (ht : Ok key size t) :
    find key size (erase key size t k) j = if j = k then none else find key size t j := by
  rcases eq_or_ne (j % size) (k % size) with hj | hj
  · rw [find, erase, hj, Function.update_self, find?_eraseP (ht.unique _), find, hj]
  · have hne : j ≠ k := fun he => hj (he ▸ rfl)
    rw [erase, find_update_of_ne hj, if_neg hne]

/-! ## Well-formed tables -/

theorem find?_of_mem {κ : Type} [DecidableEq κ] {key : α → κ} {l : List α} (hl : l.Pairwise fun x y => key x ≠ key y)
    (h : a ∈ l) : l.find? (fun x => key x = key a) = some a := by
  induction l with
  | nil => cases h
  | cons x l ih =>
    obtain ⟨hx, hl⟩ := List.pairwise_cons.mp hl
    rcases List.mem_cons.mp h with rfl | h
    · simp
    · simp [hx a h, ih hl h]

theorem Ok.find_of_mem (ht : Ok key size t) (h : a ∈ t k) : find key size t (key a) = some a := by
  rw [find, ht.home k a h]
  exact find?_of_mem (ht.unique k) h

/-- No key occurs twice in the whole table. -/
theorem Ok.nodup (ht : Ok key size t) : (((List.range size).flatMap t).map key).Nodup := by
  rw [List.map_flatMap, List.nodup_flatMap]
  refine ⟨fun b _ => List.pairwise_map.mpr (ht.unique b), List.nodup_range.imp fun {b c} hbc => ?_⟩
  intro k hb hc
  obtain ⟨x, hx, rfl⟩ := List.mem_map.mp hb
  obtain ⟨y, hy, hyx⟩ := List.mem_map.mp hc
  exact hbc ((ht.home b x hx).symm.trans (hyx ▸ ht.home c y hy))

theorem Ok.nil : Ok key size fun _ => [] := ⟨by simp, by simp⟩

/-- Changing one chain. -/
theorem Ok.update (ht : Ok key size t) {l : List α} (hhome : ∀ x ∈ l, key x % size = k)
    (hl : l.Pairwise fun x y => key x ≠ key y) : Ok key size (Function.update t k l) := by
  constructor
  case home =>
    intro c x hx
    rcases eq_or_ne c k with rfl | hc
    · exact hhome x (by simpa using hx)
    · exact ht.home c x (by rwa [Function.update_of_ne hc] at hx)
  case unique =>
    intro c
    rcases eq_or_ne c k with rfl | hc
    · simpa using hl
    · simpa [Function.update_of_ne hc] using ht.unique c

theorem Ok.append (ht : Ok key size t) (h : find key size t (key a) = none) : Ok key size (append key size t a) := by
  refine ht.update (fun x hx => ?_) (List.pairwise_append.mpr ⟨ht.unique _, List.pairwise_singleton _ _, ?_⟩)
  · rcases List.mem_append.mp hx with hx | hx
    · exact ht.home _ x hx
    · rw [List.mem_singleton.mp hx]
  · intro x hx y hy
    rw [List.mem_singleton.mp hy]
    simpa using List.find?_eq_none.mp h x hx

theorem map_replaceFirst {l : List α} : (replaceFirst key a l).map key = l.map key := by
  induction l with
  | nil => rfl
  | cons x l ih =>
    rw [replaceFirst]
    split
    · rename_i hx
      simp [hx]
    · simp [ih]

theorem Ok.replace (ht : Ok key size t) : Ok key size (replace key size t a) := by
  refine ht.update (fun x hx => ?_) ?_
  · have hx' : key x ∈ (t (key a % size)).map key := by
      rw [← map_replaceFirst]
      exact List.mem_map_of_mem hx
    obtain ⟨y, hy, hyx⟩ := List.mem_map.mp hx'
    rw [← hyx]
    exact ht.home _ y hy
  · have hp := List.pairwise_map.mpr (ht.unique (key a % size))
    rw [← map_replaceFirst] at hp
    exact List.pairwise_map.mp hp

theorem Ok.erase (ht : Ok key size t) : Ok key size (erase key size t k) :=
  ht.update (fun x hx => ht.home _ x (List.mem_of_mem_eraseP hx)) ((ht.unique _).sublist List.eraseP_sublist)

/-! ## Weights -/

/-- The weight of the entry with a key. -/
def weight (key : α → Nat) (size : Nat) (t : Table α) (w : α → Int) (k : Nat) : Int :=
  ((find key size t k).map w).getD 0

/-- The sum over the entries is a sum over their keys. -/
theorem Ok.total_eq (ht : Ok key size t) (hs : 0 < size) {K : Finset Nat} (hK : ∀ k a, find key size t k = some a → k ∈ K) :
    total size t w = ∑ k ∈ K, weight key size t w k := by
  have hlist : total size t w = (((List.range size).flatMap t).map w).sum := by
    rw [List.map_flatMap, List.flatMap, List.sum_flatten, List.map_map]
    rfl
  have hkeys : ((List.range size).flatMap t).map w =
      (((List.range size).flatMap t).map key).map (weight key size t w) := by
    rw [List.map_map]
    refine List.map_congr_left fun a ha => ?_
    obtain ⟨b, -, hab⟩ := List.mem_flatMap.mp ha
    rw [Function.comp, weight, ht.find_of_mem hab]
    rfl
  rw [hlist, hkeys, ← List.sum_toFinset _ ht.nodup]
  refine Finset.sum_subset (fun k hk => ?_) fun k _ hk => ?_
  · obtain ⟨a, ha, rfl⟩ := List.mem_map.mp (List.mem_toFinset.mp hk)
    obtain ⟨b, -, hab⟩ := List.mem_flatMap.mp ha
    exact hK _ a (ht.find_of_mem hab)
  · cases hf : find key size t k with
    | none => rw [weight, hf, Option.map_none, Option.getD_none]
    | some a =>
      refine absurd (List.mem_toFinset.mpr (List.mem_map.mpr ⟨a, ?_, find_key hf⟩)) hk
      exact List.mem_flatMap.mpr ⟨k % size, List.mem_range.mpr (Nat.mod_lt _ hs), find_mem hf⟩

theorem Ok.total_eq_zero (ht : Ok key size t) (h : ∀ k a, find key size t k = some a → w a = 0) : total size t w = 0 := by
  refine Finset.sum_eq_zero fun b _ => List.sum_eq_zero fun x hx => ?_
  obtain ⟨a, ha, rfl⟩ := List.mem_map.mp hx
  exact h _ a (ht.find_of_mem ha)

theorem exists_keys (t : Table α) (hs : 0 < size) : ∃ K : Finset Nat, ∀ k a, find key size t k = some a → k ∈ K :=
  ⟨(((List.range size).flatMap t).map key).toFinset, fun k _ hf => List.mem_toFinset.mpr (List.mem_map.mpr ⟨_,
    List.mem_flatMap.mpr ⟨k % size, List.mem_range.mpr (Nat.mod_lt _ hs), find_mem hf⟩, find_key hf⟩)⟩

/-- The sum after a change of the entry with one key. -/
theorem total_change {t' : Table α} (hs : 0 < size) (ht : Ok key size t) (ht' : Ok key size t') (k : Nat)
    (h : ∀ j ≠ k, (find key size t' j).map w' = (find key size t j).map w) :
    total size t' w' = total size t w - weight key size t w k + weight key size t' w' k := by
  obtain ⟨K, hK⟩ := exists_keys t hs
  obtain ⟨K', hK'⟩ := exists_keys t' hs
  -- both sums go over the keys of both tables and the key that changes
  have hsub : ∀ j a, find key size t j = some a → j ∈ insert k (K ∪ K') := fun j a hj =>
    Finset.mem_insert_of_mem (Finset.mem_union_left _ (hK j a hj))
  have hsub' : ∀ j a, find key size t' j = some a → j ∈ insert k (K ∪ K') := fun j a hj =>
    Finset.mem_insert_of_mem (Finset.mem_union_right _ (hK' j a hj))
  have hk := Finset.mem_insert_self k (K ∪ K')
  have hrest : ∑ j ∈ (insert k (K ∪ K')).erase k, weight key size t' w' j =
      ∑ j ∈ (insert k (K ∪ K')).erase k, weight key size t w j :=
    Finset.sum_congr rfl fun j hj => by rw [weight, weight, h j (Finset.ne_of_mem_erase hj)]
  rw [ht.total_eq hs hsub, ht'.total_eq hs hsub', ← Finset.add_sum_erase _ _ hk, ← Finset.add_sum_erase _ _ hk, hrest]
  omega

end FengOS.Lib.Chain
