import Mathlib.Data.List.Basic
import Mathlib.Data.Nat.ModEq
import Mathlib.Logic.Function.Basic

/-!
# Ring buffers

The elements that a ring of `n` slots holds from `head` on.
-/

namespace FengOS.Lib.Ring

variable {α : Type} {buf : Nat → α} {n head k : Nat} {c : α}

def held (buf : Nat → α) (n head k : Nat) : List α := (List.range k).map fun i => buf ((head + i) % n)

/-- The first element, and what comes after it. -/
theorem held_succ (h : head < n) : held buf n head (k + 1) = buf head :: held buf n ((head + 1) % n) k := by
  simp only [held, List.range_succ_eq_map, List.map_cons, List.map_map, Nat.add_zero, Nat.mod_eq_of_lt h]
  refine congrArg (buf head :: ·) (List.map_congr_left fun i _ => ?_)
  simp only [Function.comp_apply, Nat.mod_add_mod]
  exact congrArg (fun j => buf (j % n)) (by omega)

/-- A slot behind the last element. -/
theorem held_push (h : k < n) : held (Function.update buf ((head + k) % n) c) n head (k + 1) = held buf n head k ++ [c] := by
  simp only [held, List.range_succ, List.map_append, List.map_cons, List.map_nil, Function.update_self]
  refine congrArg (· ++ [c]) (List.map_congr_left fun i hi => Function.update_of_ne (fun heq => ?_) _ _)
  have hi := List.mem_range.mp hi
  have hmod : i ≡ k [MOD n] := Nat.ModEq.add_left_cancel' head heq
  have := hmod.eq_of_lt_of_lt (by omega) h
  omega

/-- A ring with fewer elements than slots is empty iff its ends meet. -/
theorem head_eq_tail_iff (hh : head < n) (hk : k < n) : head = (head + k) % n ↔ k = 0 := by
  constructor
  · intro h
    by_contra hne
    rcases Nat.lt_or_ge (head + k) n with hlt | hge
    · rw [Nat.mod_eq_of_lt hlt] at h
      omega
    · rw [Nat.mod_eq_sub_mod hge, Nat.mod_eq_of_lt (by omega)] at h
      omega
  · rintro rfl
    rw [Nat.add_zero, Nat.mod_eq_of_lt hh]

end FengOS.Lib.Ring
