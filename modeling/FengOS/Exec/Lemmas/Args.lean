import FengOS.Exec.Args
import Mathlib.Tactic

/-!
# Lemmas on the packers of arguments
-/

namespace FengOS.Exec

open FengOS.Lib
open FengOS.Mm (pageSize)

variable {mem mem' : Mem} {a p q src dst n i : Nat} {s : List UInt8} {as : List Nat} {x : Nat × List UInt8}
  {xs ys zs : List (Nat × List UInt8)} {v v' : ArgVars} {down : Bool}

theorem toSize_natCast {k : Nat} (h : k < 2 ^ 64) : toSize k = k := by
  unfold toSize
  omega

theorem Canonical.mono (h : Canonical a n) {b k : Nat} (hlo : a ≤ b) (hhi : b + k ≤ a + n) : Canonical b k := by
  unfold Canonical at *
  omega

theorem Canonical.le (h : Canonical a n) : n ≤ 2 ^ 47 := by
  unfold Canonical at h
  omega

theorem Area.Apart.mono {x y x' y' : Area} (h : x.Apart y) (hx : x.1 ≤ x'.1) (hx' : x'.1 + x'.2 ≤ x.1 + x.2)
    (hy : y.1 ≤ y'.1) (hy' : y'.1 + y'.2 ≤ y.1 + y.2) : x'.Apart y' := by
  unfold Area.Apart at *
  omega

theorem loadPtr_eq (h : Canonical a 8) : loadPtr mem a = some (mem.load a 8) := if_pos h

theorem storePtr_eq (h : Canonical a 8) : storePtr mem a n = some (mem.store a n 8) := if_pos h

theorem CStr.strlenLoop (h : CStr mem a s) (rounds : Nat) (hi : i ≤ s.length) (hr : s.length < i + rounds) :
    strlenLoop mem rounds (a + i) i = some s.length := by
  induction rounds generalizing i with
  | zero => omega
  | succ rounds ih =>
    rw [Exec.strlenLoop, if_pos (h.inside.mono (by omega) (by omega))]
    rcases Nat.lt_or_eq_of_le hi with hlt | rfl
    · rw [if_neg, Nat.add_assoc, ih hlt (by omega)]
      rw [h.byte i hlt]
      exact h.nonzero _ (List.getElem_mem hlt)
    · rw [if_pos h.stop]

theorem CStr.strlen (h : CStr mem a s) : strlen mem a = some (toSize (toInt (s.length : Int))) := by
  have hle := h.inside.le
  have hloop := h.strlenLoop (i := 0) (2 ^ 64) (Nat.zero_le _) (by omega)
  rw [Exec.strlen, ← Nat.add_zero a, hloop, Option.map_some]

theorem Pointers.countLoop (rounds : Nat) (h : Pointers mem (p + 8 * i) as) (hr : as.length < rounds) :
    countLoop mem p rounds i = some (i + as.length) := by
  induction as generalizing i rounds with
  | nil =>
    obtain ⟨rounds, rfl⟩ := Nat.exists_eq_add_of_lt hr
    simp [Exec.countLoop, loadPtr_eq h.1, h.2]
  | cons b as ih =>
    obtain ⟨hcanon, hload, hne, htail⟩ := h
    cases rounds with
    | zero => omega
    | succ rounds =>
      have hrest := ih (i := i + 1) rounds htail (Nat.lt_of_succ_lt_succ hr)
      simp only [Exec.countLoop, loadPtr_eq hcanon, hload, Option.bind_eq_bind, Option.bind_some, ne_eq, hne,
        not_false_eq_true, if_true, hrest, List.length_cons, Option.some.injEq]
      omega

theorem ArgVec.count (h : ArgVec mem p xs) (hlt : xs.length < 2 ^ 31) : count mem p = some xs.length := by
  rcases h with ⟨rfl, rfl⟩ | ⟨hne, hvec⟩
  · rfl
  · have hloop := Pointers.countLoop (i := 0) (2 ^ 31) hvec.pointers (by simpa using hlt)
    rw [Exec.count, if_neg hne, hloop]
    simp

theorem CStr.congr (h : CStr mem a s) (heq : ∀ b, a ≤ b → b < a + (s.length + 1) → mem' b = mem b) : CStr mem' a s where
  nonzero := h.nonzero
  byte i hi := by rw [heq _ (by omega) (by omega), h.byte i hi]
  stop := by rw [heq _ (by omega) (by omega), h.stop]
  inside := h.inside

theorem Pointers.congr (h : Pointers mem p as) (heq : ∀ b, p ≤ b → b < p + 8 * (as.length + 1) → mem' b = mem b) :
    Pointers mem' p as := by
  induction as generalizing p with
  | nil => exact ⟨h.1, (Mem.load_congr fun b hlo hhi => heq b hlo (by simpa using hhi)).trans h.2⟩
  | cons b as ih =>
    obtain ⟨hcanon, hload, hne, htail⟩ := h
    simp only [List.length_cons] at heq
    exact ⟨hcanon, (Mem.load_congr fun b hlo hhi => heq b hlo (by omega)).trans hload, hne,
      ih htail fun b hlo hhi => heq b (by omega) (by omega)⟩

theorem Vec.congr (h : Vec mem p xs)
    (heq : ∀ area ∈ vecAreas p xs, ∀ b, area.1 ≤ b → b < area.1 + area.2 → mem' b = mem b) : Vec mem' p xs where
  pointers := h.pointers.congr (by simpa using heq _ List.mem_cons_self)
  strings x hx := (h.strings x hx).congr
    (heq (x.1, x.2.length + 1) (List.mem_cons_of_mem _ (List.mem_map_of_mem hx)))

theorem ArgVec.vec (h : ArgVec mem p xs) (hne : xs ≠ []) : p ≠ 0 ∧ Vec mem p xs := h.resolve_left fun hnil => hne hnil.2

end FengOS.Exec
