import Mathlib.Data.List.Nodup
import Mathlib.Logic.Function.Basic

/-!
# Radix trees

A tree whose nodes carry names. A node is given by its path from the root, the last index first, so that `i :: π` is
child `i` of the node `π`.
-/

namespace FengOS.Lib

/-- The name of the node at each path. -/
abbrev Radix (ν : Type) := List Nat → Option ν

namespace Radix

variable {ν : Type} {width : List Nat → Nat} {depth d i : Nat} {π ρ : List Nat} {t : Radix ν} {v : ν}

/-- A node has a parent, below the given depth and width, and a name of its own. -/
structure Ok (width : List Nat → Nat) (depth : Nat) (t : Radix ν) : Prop where
  closed : ∀ i π v, t (i :: π) = some v → (∃ u, t π = some u) ∧ i < width π ∧ π.length < depth
  inj : ∀ π ρ v, t π = some v → t ρ = some v → π = ρ

theorem Ok.eq_none (h : t.Ok width depth) (hn : t π = none) : t (i :: π) = none := by
  cases ht : t (i :: π) with
  | none => rfl
  | some v =>
    obtain ⟨⟨u, hu⟩, -⟩ := h.closed i π v ht
    cases hn.symm.trans hu

def insert (t : Radix ν) (π : List Nat) (v : ν) : Radix ν := Function.update t π (some v)

@[simp] theorem insert_self : t.insert π v π = some v := Function.update_self ..

@[simp] theorem insert_of_ne (h : ρ ≠ π) : t.insert π v ρ = t ρ := Function.update_of_ne h ..

theorem insert_eq_some {w : ν} (h : t.insert π v ρ = some w) : ρ = π ∧ w = v ∨ t ρ = some w := by
  rcases eq_or_ne ρ π with rfl | hne
  · rw [insert_self] at h
    exact .inl ⟨rfl, (Option.some.inj h).symm⟩
  · rw [insert_of_ne hne] at h
    exact .inr h

theorem forall_insert {P : List Nat → ν → Prop} (hnew : P π v) (hold : ∀ ρ w, t ρ = some w → P ρ w) (ρ : List Nat) (w : ν)
    (h : t.insert π v ρ = some w) : P ρ w := by
  rcases insert_eq_some h with ⟨rfl, rfl⟩ | h
  · exact hnew
  · exact hold ρ w h

theorem insert_of_some {w : ν} (hnone : t π = none) (h : t ρ = some w) : t.insert π v ρ = some w := by
  rw [insert_of_ne]
  · exact h
  · rintro rfl
    cases hnone.symm.trans h

theorem exists_insert (h : ∃ u, t ρ = some u) : ∃ u, t.insert π v ρ = some u := by
  rcases eq_or_ne ρ π with rfl | hne
  · exact ⟨v, insert_self⟩
  · simpa [hne] using h

theorem Ok.insert (h : t.Ok width depth) (hparent : ∃ u, t π = some u) (hi : i < width π) (hdepth : π.length < depth)
    (hfresh : ∀ ρ, t ρ ≠ some v) : (t.insert (i :: π) v).Ok width depth where
  closed j ρ w hw := by
    rcases eq_or_ne (j :: ρ) (i :: π) with he | hne
    · obtain ⟨rfl, rfl⟩ := List.cons.inj he
      exact ⟨exists_insert hparent, hi, hdepth⟩
    · rw [insert_of_ne hne] at hw
      obtain ⟨hu, hj, hd⟩ := h.closed j ρ w hw
      exact ⟨exists_insert hu, hj, hd⟩
  inj ρ σ w hρ hσ := by
    by_cases h₁ : ρ = i :: π <;> by_cases h₂ : σ = i :: π
    · exact h₁.trans h₂.symm
    · rw [h₁, insert_self] at hρ
      rw [insert_of_ne h₂] at hσ
      exact absurd (hσ.trans hρ.symm) (hfresh σ)
    · rw [insert_of_ne h₁] at hρ
      rw [h₂, insert_self] at hσ
      exact absurd (hρ.trans hσ.symm) (hfresh ρ)
    · rw [insert_of_ne h₁] at hρ
      rw [insert_of_ne h₂] at hσ
      exact h.inj ρ σ w hρ hσ

/-! ## Walking the tree -/

/-- The names of the nodes at most `d` levels below `π`, children before their parent. -/
def postorder (width : List Nat → Nat) (t : Radix ν) : Nat → List Nat → List ν
  | 0, _ => []
  | d + 1, π => (List.range (width π)).flatMap fun i =>
    match t (i :: π) with
    | none => []
    | some v => postorder width t d (i :: π) ++ [v]

def branch (width : List Nat → Nat) (t : Radix ν) (d : Nat) (π : List Nat) (i : Nat) : List ν :=
  match t (i :: π) with
  | none => []
  | some v => postorder width t d (i :: π) ++ [v]

theorem postorder_succ : postorder width t (d + 1) π = (List.range (width π)).flatMap (branch width t d π) := rfl

theorem mem_branch : v ∈ branch width t d π i ↔ ∃ u, t (i :: π) = some u ∧ (v ∈ postorder width t d (i :: π) ∨ v = u) := by
  unfold branch
  cases t (i :: π) with
  | none => simp
  | some u => simp

/-- What is walked lies below the start. -/
theorem exists_of_mem_postorder (h : v ∈ postorder width t d π) : ∃ i ρ, t (ρ ++ i :: π) = some v := by
  induction d generalizing π with
  | zero => cases h
  | succ d ih =>
    rw [postorder_succ, List.mem_flatMap] at h
    obtain ⟨i, -, hv⟩ := h
    obtain ⟨u, hu, hv | rfl⟩ := mem_branch.mp hv
    · obtain ⟨j, ρ, hρ⟩ := ih hv
      exact ⟨i, ρ ++ [j], by simpa using hρ⟩
    · exact ⟨i, [], hu⟩

theorem exists_of_mem_branch (h : v ∈ branch width t d π i) : ∃ ρ, t (ρ ++ i :: π) = some v := by
  obtain ⟨u, hu, hv | rfl⟩ := mem_branch.mp h
  · obtain ⟨j, ρ, hρ⟩ := exists_of_mem_postorder hv
    exact ⟨ρ ++ [j], by simpa using hρ⟩
  · exact ⟨[], hu⟩

theorem Ok.exists_of_append (h : t.Ok width depth) (hv : ∃ v, t (ρ ++ π) = some v) : ∃ u, t π = some u := by
  induction ρ with
  | nil => exact hv
  | cons i ρ ih =>
    obtain ⟨v, hv⟩ := hv
    exact ih (h.closed i (ρ ++ π) v hv).1

theorem Ok.eq_none_of_append (h : t.Ok width depth) (hn : t π = none) : t (ρ ++ π) = none := by
  rw [Option.eq_none_iff_forall_not_mem]
  intro v hv
  obtain ⟨u, hu⟩ := h.exists_of_append ⟨v, hv⟩
  cases hn.symm.trans hu

/-- Everything below the start is walked, if the walk goes deep enough. -/
theorem Ok.mem_postorder (h : t.Ok width depth) (hv : t (ρ ++ π) = some v) (hne : ρ ≠ []) (hd : ρ.length ≤ d) :
    v ∈ postorder width t d π := by
  induction d generalizing ρ π with
  | zero => exact absurd (List.length_eq_zero_iff.mp (Nat.le_zero.mp hd)) hne
  | succ d ih =>
    -- the index of the first step, at the end of the path
    obtain ⟨σ, i, rfl⟩ : ∃ σ i, ρ = σ ++ [i] := ⟨ρ.dropLast, ρ.getLast hne, (List.dropLast_append_getLast hne).symm⟩
    rw [List.append_assoc, List.singleton_append] at hv
    obtain ⟨u, hu⟩ := h.exists_of_append ⟨v, hv⟩
    rw [postorder_succ, List.mem_flatMap]
    refine ⟨i, List.mem_range.mpr (h.closed i π u hu).2.1, mem_branch.mpr ⟨u, hu, ?_⟩⟩
    rcases eq_or_ne σ [] with rfl | hσ
    · exact Or.inr (Option.some.inj (hv.symm.trans hu))
    · refine Or.inl (ih hv hσ ?_)
      simpa using hd

/-- No node is walked twice: two paths to one name are the same path. -/
theorem Ok.nodup_postorder (h : t.Ok width depth) : (postorder width t d π).Nodup := by
  induction d generalizing π with
  | zero => exact List.nodup_nil
  | succ d ih =>
    rw [postorder_succ, List.nodup_flatMap]
    constructor
    · intro i _
      unfold branch
      split
      · exact List.nodup_nil
      · rename_i v hv
        refine List.nodup_append.mpr ⟨ih, List.nodup_singleton v, ?_⟩
        rintro u hu w hw rfl
        obtain rfl := List.mem_singleton.mp hw
        obtain ⟨j, ρ, hρ⟩ := exists_of_mem_postorder hu
        have hlength := congrArg List.length (h.inj _ _ _ hρ hv)
        simp only [List.length_append, List.length_cons] at hlength
        omega
    · refine List.nodup_range.imp fun {i j} hij v hi hj => ?_
      obtain ⟨ρ, hρ⟩ := exists_of_mem_branch hi
      obtain ⟨σ, hσ⟩ := exists_of_mem_branch hj
      obtain ⟨-, he⟩ := List.append_inj' (h.inj _ _ _ hρ hσ) rfl
      exact hij (List.cons.inj he).1

end Radix

end FengOS.Lib
