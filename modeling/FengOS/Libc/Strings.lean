import FengOS.Lib.Mem
import Mathlib.Data.Nat.Find
import Mathlib.Order.Bounds.Basic

/-!
# `strncmp` and `strstr` (`include/libc/string.h`, `include/kernel/string.h`), `isspace` (`libc/ctype.c`)
-/

namespace FengOS.Libc

open FengOS.Lib

def isspace (c : UInt8) : Bool := c ∈ [0x20, 0x9, 0xa, 0xb, 0xc, 0xd]

/-- The loop of `strncmp` with `left` rounds to go: the result, `retval` being uninitialised, and how many bytes are read. -/
def strncmpFrom (str1 str2 : Mem) : Nat → Nat → Int → Int × Nat
  | i, 0, retval => (retval, i)
  | i, left + 1, _ =>
    let retval := (str1 i).toInt8.toInt - (str2 i).toInt8.toInt
    if retval ≠ 0 then (retval, i + 1) else strncmpFrom str1 str2 (i + 1) left retval

def strncmp (junk : Int) (str1 str2 : Mem) (n : Nat) : Int × Nat := strncmpFrom str1 str2 0 n junk

/-- The first `n` characters agree, up to and including the first NUL. -/
def Agree (s t : Mem) (n : Nat) : Prop := ∀ j < n, (∀ i < j, s i ≠ 0) → s j = t j

structure StrncmpRight (s t : Mem) (n : Nat) : Prop where
  zero : ∀ junk, (strncmp junk s t n).1 = 0 ↔ Agree s t n
  sign : ∀ junk, ∀ j < n, (∀ i < j, s i = t i ∧ s i ≠ 0) → s j ≠ t j →
    (strncmp junk s t n).1.sign = ((s j).toInt8.toInt - (t j).toInt8.toInt).sign
  reads : ∀ junk, ∀ i < (strncmp junk s t n).2, ∀ j < i, s j = t j ∧ s j ≠ 0

/-- The strings do not end together before the last character that may be compared. -/
def NoCommonEnd (s t : Mem) (n : Nat) : Prop := 0 < n ∧ ∀ j, j + 1 < n → (∀ i ≤ j, s i = t i) → s j ≠ 0

structure CStr where
  bytes : Mem
  len : Nat
  nul : bytes len = 0
  ne_zero : ∀ i < len, bytes i ≠ 0
  /-- The string lies in the address space. -/
  len_lt : len < 2 ^ 48

/-- The loop counts the characters, and the count is kept in an `int`. -/
def strlen (s : CStr) : Int := (s.len + 2 ^ 31) % 2 ^ 32 - 2 ^ 31

/-- The loop of `strstr` from the `p`th character on, with `left` characters to go. -/
def strstrFrom (junk : Int) (s t : CStr) (n : Nat) : Nat → Nat → Option Nat
  | _, 0 => none
  | p, left + 1 =>
    if s.bytes p = t.bytes 0 ∧ (strncmp junk (fun i => s.bytes (p + i)) t.bytes n).1 = 0 then some p
    else strstrFrom junk s t n (p + 1) left

def strstr (junk : Int) (str1 str2 : CStr) : Option Nat :=
  let len2 := strlen str2
  if len2 = 0 then some 0 else strstrFrom junk str1 str2 (len2 % 2 ^ 64).toNat 0 str1.len

def Occurs (s t : CStr) (p : Nat) : Prop := p + t.len ≤ s.len ∧ ∀ i < t.len, s.bytes (p + i) = t.bytes i

def StrstrRight (s t : CStr) : Prop :=
  ∀ junk, (∀ p, strstr junk s t = some p → IsLeast {p | Occurs s t p} p) ∧ (strstr junk s t = none ↔ ∀ p, ¬ Occurs s t p)

variable {s t : Mem} {i j n left : Nat} {junk : Int}

/-! ## `strncmp` -/

theorem strncmpFrom_of_eq (h : ∀ k, i ≤ k → k < i + left → s k = t k) :
    strncmpFrom s t i left junk = (if left = 0 then junk else 0, i + left) := by
  induction left generalizing i junk with
  | zero => simp [strncmpFrom]
  | succ left ih =>
    simp only [strncmpFrom, h i le_rfl (by omega), Int.sub_self, ne_eq, not_true_eq_false, if_false]
    rw [ih fun k hk hlt => h k (by omega) (by omega)]
    simp
    omega

theorem strncmpFrom_of_ne (hij : i ≤ j) (hj : j < i + left) (h : ∀ k, i ≤ k → k < j → s k = t k) (hne : s j ≠ t j) :
    strncmpFrom s t i left junk = ((s j).toInt8.toInt - (t j).toInt8.toInt, j + 1) := by
  induction left generalizing i junk with
  | zero => omega
  | succ left ih =>
    rcases eq_or_lt_of_le hij with rfl | hlt
    · simp [strncmpFrom, toInt8_toInt_inj, hne]
    · simp only [strncmpFrom, h i le_rfl hlt, Int.sub_self, ne_eq, not_true_eq_false, if_false]
      exact ih hlt (by omega) fun k hk hk' => h k (by omega) hk'

/-- Either all characters agree or one is the first that differs. -/
theorem strncmp_cases (junk : Int) (s t : Mem) (n : Nat) :
    (∀ k < n, s k = t k) ∧ strncmp junk s t n = (if n = 0 then junk else 0, n) ∨
    ∃ j < n, (∀ k < j, s k = t k) ∧ s j ≠ t j ∧ strncmp junk s t n = ((s j).toInt8.toInt - (t j).toInt8.toInt, j + 1) := by
  by_cases h : ∃ j, j < n ∧ s j ≠ t j
  · obtain ⟨hj, hne⟩ := Nat.find_spec h
    have hmin : ∀ k < Nat.find h, s k = t k := by
      intro k hk
      have hk' := Nat.find_min h hk
      by_contra hne
      exact hk' ⟨by omega, hne⟩
    exact .inr ⟨_, hj, hmin, hne, strncmpFrom_of_ne (Nat.zero_le _) (by omega) (fun k _ hk => hmin k hk) hne⟩
  · push Not at h
    exact .inl ⟨h, by simpa [strncmp] using strncmpFrom_of_eq (i := 0) fun k _ hk => h k (by omega)⟩

theorem strncmp_eq_zero_iff (hn : 0 < n) : (strncmp junk s t n).1 = 0 ↔ ∀ k < n, s k = t k := by
  obtain ⟨heq, hr⟩ | ⟨j, hj, -, hne, hr⟩ := strncmp_cases junk s t n
  · exact iff_of_true (by simp [hr, hn.ne']) heq
  · rw [hr]
    exact iff_of_false (by simpa [toInt8_toInt_inj] using hne) fun h => hne (h j hj)

theorem strncmpRight_iff : StrncmpRight s t n ↔ NoCommonEnd s t n := by
  constructor
  · intro h
    have hn : 0 < n := by
      by_contra hn
      obtain rfl : n = 0 := by omega
      simpa [strncmp, strncmpFrom, Agree] using h.zero 1
    refine ⟨hn, fun j hj heq => ?_⟩
    obtain ⟨-, hr⟩ | ⟨k, hk, -, hne, hr⟩ := strncmp_cases 0 s t n
    · exact (h.reads 0 (j + 1) (by rw [hr]; exact hj) j (by omega)).2
    · have hjk : j < k := by
        by_contra hjk
        exact hne (heq k (by omega))
      exact (h.reads 0 (j + 1) (by rw [hr]; show j + 1 < k + 1; omega) j (by omega)).2
  · rintro ⟨hn, hend⟩
    have hread : ∀ k < n, (∀ i < k, s i = t i) → ∀ i < k, s i = t i ∧ s i ≠ 0 := fun k hk heq i hi =>
      ⟨heq i hi, hend i (by omega) fun l hl => heq l (by omega)⟩
    refine ⟨fun junk => ?_, fun junk j hj heq hne => ?_, fun junk i hi => ?_⟩
    · rw [strncmp_eq_zero_iff hn]
      refine ⟨fun h j hj _ => h j hj, fun h k => ?_⟩
      induction k using Nat.strong_induction_on with
      | _ k ih => exact fun hk => h k hk fun i hi => (hread k hk (fun l hl => ih l hl (by omega)) i hi).2
    · obtain ⟨hall, -⟩ | ⟨k, hk, hmin, hne', hr⟩ := strncmp_cases junk s t n
      · exact absurd (hall j hj) hne
      · obtain rfl : k = j := by
          rcases lt_trichotomy k j with hlt | heq' | hlt
          · exact absurd (heq k hlt).1 hne'
          · exact heq'
          · exact absurd (hmin j hlt) hne
        rw [hr]
    · obtain ⟨hall, hr⟩ | ⟨k, hk, hmin, -, hr⟩ := strncmp_cases junk s t n
      · rw [hr] at hi
        exact hread i hi fun l hl => hall l (lt_trans hl hi)
      · rw [hr] at hi
        exact hread i (by simp at hi; omega) fun l hl => hmin l (by simp at hi; omega)

/-! ## `strstr` -/

variable {str1 str2 : CStr} {p q : Nat}

def Matches (junk : Int) (s t : CStr) (n p : Nat) : Prop :=
  s.bytes p = t.bytes 0 ∧ (strncmp junk (fun i => s.bytes (p + i)) t.bytes n).1 = 0

theorem strstrFrom_none (h : strstrFrom junk str1 str2 n p left = none) (hq : p ≤ q) (hlt : q < p + left) :
    ¬ Matches junk str1 str2 n q := by
  induction left generalizing p with
  | zero => omega
  | succ left ih =>
    simp only [strstrFrom] at h
    split at h
    · cases h
    · rename_i hne
      rcases eq_or_lt_of_le hq with rfl | hq
      · exact hne
      · exact ih h hq (by omega)

theorem strstrFrom_some (h : strstrFrom junk str1 str2 n p left = some q) :
    p ≤ q ∧ q < p + left ∧ Matches junk str1 str2 n q ∧ ∀ k, p ≤ k → k < q → ¬ Matches junk str1 str2 n k := by
  induction left generalizing p with
  | zero => cases h
  | succ left ih =>
    simp only [strstrFrom] at h
    split at h
    · rename_i hmatch
      obtain rfl := Option.some.inj h
      exact ⟨le_rfl, by omega, hmatch, fun k _ _ => by omega⟩
    · rename_i hne
      obtain ⟨hle, hlt, hmatch, hmin⟩ := ih h
      refine ⟨by omega, by omega, hmatch, fun k hk hkq => ?_⟩
      rcases eq_or_lt_of_le hk with rfl | hk
      · exact hne
      · exact hmin k hk hkq

theorem matches_iff (hn : 0 < n) : Matches junk str1 str2 n p ↔ ∀ k < n, str1.bytes (p + k) = str2.bytes k := by
  rw [Matches, strncmp_eq_zero_iff hn]
  exact and_iff_right_of_imp fun h => h 0 hn

theorem occurs_iff_matches (hlen : 0 < str2.len) (hp : p < str1.len) :
    Occurs str1 str2 p ↔ Matches junk str1 str2 str2.len p := by
  rw [matches_iff hlen]
  refine ⟨fun h => h.2, fun h => ⟨?_, h⟩⟩
  by_contra hlong
  have hend := h (str1.len - p) (by omega)
  rw [show p + (str1.len - p) = str1.len by omega, str1.nul] at hend
  exact str2.ne_zero _ (by omega) hend.symm

theorem strlen_of_lt (h : str2.len < 2 ^ 31) : strlen str2 = str2.len := by
  unfold strlen
  omega

theorem strstrRight_of_lt (h : str2.len < 2 ^ 31) : StrstrRight str1 str2 := by
  intro junk
  simp only [strstr, strlen_of_lt h]
  rcases Nat.eq_zero_or_pos str2.len with hzero | hlen
  · have hoccurs : Occurs str1 str2 0 := ⟨by omega, fun i hi => by omega⟩
    simp only [hzero, Int.natCast_zero, if_true, Option.some.injEq, reduceCtorEq, false_iff, not_forall,
      not_not]
    exact ⟨by rintro _ rfl; exact ⟨hoccurs, fun _ _ => Nat.zero_le _⟩, 0, hoccurs⟩
  · simp only [show (str2.len : Int) ≠ 0 by omega, if_false, show ((str2.len : Int) % 2 ^ 64).toNat = str2.len by omega]
    have hlt : ∀ q, Occurs str1 str2 q → q < str1.len := fun q hq => by
      have := hq.1
      omega
    constructor
    · intro p hp
      obtain ⟨-, hp, hmatch, hmin⟩ := strstrFrom_some hp
      refine ⟨(occurs_iff_matches hlen (by omega)).mpr hmatch, fun q hq => ?_⟩
      by_contra hqp
      exact hmin q (Nat.zero_le _) (by omega) ((occurs_iff_matches hlen (hlt q hq)).mp hq)
    · constructor
      · intro hnone q hq
        exact strstrFrom_none hnone (Nat.zero_le _) (by simpa using hlt q hq) ((occurs_iff_matches hlen (hlt q hq)).mp hq)
      · intro hnone
        cases hr : strstrFrom junk str1 str2 str2.len 0 str1.len with
        | none => rfl
        | some q =>
          obtain ⟨-, hq, hmatch, -⟩ := strstrFrom_some hr
          exact absurd ((occurs_iff_matches hlen (by omega)).mpr hmatch) (hnone q)

def CStr.take (t : CStr) (n : Nat) (hn : n ≤ t.len) : CStr where
  bytes i := if i < n then t.bytes i else 0
  len := n
  nul := by simp
  ne_zero i hi := by simpa [hi] using t.ne_zero i (by omega)
  len_lt := lt_of_le_of_lt hn t.len_lt

def CStr.other (t : CStr) : CStr where
  bytes i := if i < t.len then t.bytes i else if i = t.len then 0 else t.bytes i + 1
  len := t.len
  nul := by simp
  ne_zero i hi := by simpa [hi] using t.ne_zero i hi
  len_lt := t.len_lt

/-- A longer length is cut: a part is taken for the string, or bytes behind it are compared. -/
theorem exists_not_strstrRight (h : 2 ^ 31 ≤ str2.len) : ∃ s, ¬ StrstrRight s str2 := by
  have hlen := str2.len_lt
  obtain ⟨b, hb⟩ : ∃ b, strlen str2 = b := ⟨_, rfl⟩
  have hrange : -2 ^ 31 ≤ b ∧ b < 2 ^ 31 := by
    unfold strlen at hb
    omega
  rcases lt_trichotomy b 0 with hneg | rfl | hpos
  · refine ⟨str2.other, fun hright => ?_⟩
    have hoccurs : Occurs str2.other str2 0 := ⟨by simp [CStr.other], fun i hi => by simp [CStr.other, hi]⟩
    have hsome : strstr 0 str2.other str2 ≠ none := fun hnone => (hright 0).2.mp hnone 0 hoccurs
    obtain ⟨q, hq⟩ := Option.ne_none_iff_exists'.mp hsome
    simp only [strstr, hb, hneg.ne, if_false] at hq
    obtain ⟨-, hqlt, hmatch, -⟩ := strstrFrom_some hq
    rw [matches_iff (by omega)] at hmatch
    rcases Nat.eq_zero_or_pos q with rfl | hqpos
    · simpa [CStr.other] using hmatch (str2.len + 1) (by omega)
    · have hend := hmatch (str2.len - q) (by omega)
      have hlt : q < str2.len := by simpa [CStr.other] using hqlt
      rw [show q + (str2.len - q) = str2.len by omega] at hend
      exact str2.ne_zero (str2.len - q) (by omega) (by simpa [CStr.other] using hend.symm)
  · refine ⟨str2.take 0 (Nat.zero_le _), fun hright => ?_⟩
    have hfits := ((hright 0).1 0 (by simp [strstr, hb])).1.1
    simp [CStr.take] at hfits
    omega
  · obtain ⟨l, rfl⟩ : ∃ l : Nat, b = l + 1 := ⟨(b - 1).toNat, by omega⟩
    have hle : l + 1 ≤ str2.len := by omega
    refine ⟨str2.take (l + 1) hle, fun hright => ?_⟩
    have hmatch : Matches 0 (str2.take (l + 1) hle) str2 (l + 1) 0 :=
      (matches_iff (Nat.succ_pos l)).mpr fun k hk => by simp only [CStr.take, Nat.zero_add, if_pos hk]
    have hfound : strstr 0 (str2.take (l + 1) hle) str2 = some 0 := by
      simp only [strstr, hb, hpos.ne', if_false, show ((l + 1 : Int) % 2 ^ 64).toNat = l + 1 by omega]
      exact if_pos hmatch
    have hfits := ((hright 0).1 0 hfound).1.1
    simp only [CStr.take] at hfits
    omega

/-- `strncmp` is right iff something is to be compared and the strings do not end together before; `strstr` up to `int`
lengths. -/
theorem strings_right_iff (s t : Mem) (n : Nat) (str : CStr) :
    (StrncmpRight s t n ↔ NoCommonEnd s t n) ∧ ((∀ str1, StrstrRight str1 str) ↔ str.len < 2 ^ 31) := by
  refine ⟨strncmpRight_iff, fun h => ?_, fun h str1 => strstrRight_of_lt h⟩
  by_contra hlong
  obtain ⟨str1, hwrong⟩ := exists_not_strstrRight (not_lt.mp hlong)
  exact hwrong (h str1)

/-- Nothing is compared, and two empty strings with another byte behind the NUL. -/
theorem strncmp_wrong : (strncmp 1 (fun _ => 0) (fun _ => 0) 0).1 = 1 ∧
    strncmp 0 (fun i => if i = 1 then 97 else 0) (fun i => if i = 1 then 98 else 0) 2 = (-1, 2) ∧
    Agree (fun i => if i = 1 then 97 else 0) (fun i => if i = 1 then 98 else 0) 2 ∧
    ¬ StrncmpRight (fun _ => 0) (fun _ => 0) 0 := by
  refine ⟨by decide, by decide, fun j hj hnul => ?_, fun h => absurd (strncmpRight_iff.mp h).1 (by decide)⟩
  obtain rfl | rfl : j = 0 ∨ j = 1 := by omega
  · rfl
  · exact absurd rfl (hnul 0 (by decide))

end FengOS.Libc
