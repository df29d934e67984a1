import Mathlib.Logic.Function.Basic
import Mathlib.Algebra.Group.Int.Units

/-!
# Byte-addressed memory and integers of C

A memory is a function from addresses to bytes. Numbers are stored with their lowest byte first.
-/

namespace FengOS.Lib

/-- The value of an `int` of 32 bits that a number is stored in. -/
def toInt (x : Int) : Int := (x + 2 ^ 31) % 2 ^ 32 - 2 ^ 31

theorem toInt_eq {k : Int} (hlo : -2 ^ 31 ≤ k) (hhi : k < 2 ^ 31) : toInt k = k := by
  unfold toInt
  omega

/-- A quotient that is rounded up. -/
def upperDiv (dividend divisor : Nat) : Nat := dividend / divisor + if dividend % divisor > 0 then 1 else 0

abbrev Mem := Nat → UInt8

namespace Mem

variable {m m' : Mem} {a b n k l v : Nat} {data data' : Nat → UInt8}

/-- The number in the `n` bytes from `a` on. -/
def load (m : Mem) (a : Nat) : Nat → Nat
  | 0 => 0
  | n + 1 => (m a).toNat + 256 * load m (a + 1) n

/-- Stores a number into the `n` bytes from `a` on. -/
def store (m : Mem) (a v : Nat) : Nat → Mem
  | 0 => m
  | n + 1 => Function.update (store m (a + 1) (v / 256) n) a (UInt8.ofNat v)

/-- Replaces the `n` bytes from `a` on. -/
def write (m : Mem) (a : Nat) (data : Nat → UInt8) (n : Nat) : Mem :=
  fun b => if a ≤ b ∧ b < a + n then data (b - a) else m b

theorem load_congr (h : ∀ b, a ≤ b → b < a + n → m' b = m b) : load m' a n = load m a n := by
  induction n generalizing a with
  | zero => rfl
  | succ n ih =>
    have htail : load m' (a + 1) n = load m (a + 1) n := ih fun b hb hlt => h b (by omega) (by omega)
    rw [load, load, htail, h a (Nat.le_refl a) (by omega)]

theorem load_lt : load m a n < 256 ^ n := by
  induction n generalizing a with
  | zero => exact Nat.one_pos
  | succ n ih =>
    have hbyte := (m a).toNat_lt
    have htail := ih (a := a + 1)
    rw [load, Nat.pow_succ]
    omega

theorem load_eq_zero (h : ∀ b, a ≤ b → b < a + n → m b = 0) : load m a n = 0 := by
  induction n generalizing a with
  | zero => rfl
  | succ n ih =>
    have htail : load m (a + 1) n = 0 := ih fun b hb hlt => h b (by omega) (by omega)
    rw [load, htail, h a (Nat.le_refl a) (by omega)]
    rfl

/-! ## Stores -/

theorem store_apply (h : b < a ∨ a + n ≤ b) : store m a v n b = m b := by
  induction n generalizing a v with
  | zero => rfl
  | succ n ih => rw [store, Function.update_of_ne (by omega), ih (by omega)]

theorem load_store (h : v < 256 ^ n) : load (store m a v n) a n = v := by
  induction n generalizing a v with
  | zero =>
    rw [Nat.pow_zero] at h
    rw [load]
    omega
  | succ n ih =>
    rw [Nat.pow_succ] at h
    have htail : load (store m a v (n + 1)) (a + 1) n = load (store m (a + 1) (v / 256) n) (a + 1) n :=
      load_congr fun b hb _ => Function.update_of_ne (by omega) ..
    have hbyte : (store m a v (n + 1) a).toNat = v % 256 := by
      rw [store, Function.update_self]
      exact UInt8.toNat_ofNat'
    rw [load, htail, hbyte, ih (by omega)]
    omega

theorem load_store_of_disjoint (h : b + k ≤ a ∨ a + n ≤ b) : load (store m a v n) b k = load m b k :=
  load_congr fun _ _ _ => store_apply (by omega)

/-! ## Ranges of bytes -/

theorem write_apply (h : b < a ∨ a + n ≤ b) : write m a data n b = m b := if_neg (by omega)

theorem write_add (h : k < n) : write m a data n (a + k) = data k := by
  rw [write, if_pos (by omega), Nat.add_sub_cancel_left]

theorem load_write_of_disjoint (h : b + k ≤ a ∨ a + n ≤ b) : load (write m a data n) b k = load m b k :=
  load_congr fun _ _ _ => write_apply (by omega)

/-- Writing one byte after another. -/
theorem write_succ : write m a data (n + 1) = Function.update (write m a data n) (a + n) (data n) := by
  funext b
  rcases eq_or_ne b (a + n) with rfl | hne
  · rw [Function.update_self, write_add (Nat.lt_succ_self n)]
  · rw [Function.update_of_ne hne, write, write]
    congr 1
    exact propext (by omega)

theorem write_zero : write m a data 0 = m := funext fun _ => write_apply (by omega)

theorem write_one : write m a data 1 = Function.update m a (data 0) := by rw [write_succ, write_zero, Nat.add_zero]

theorem write_congr (h : ∀ x < n, data x = data' x) : write m a data n = write m a data' n := by
  funext b
  by_cases hin : a ≤ b ∧ b < a + n
  · rw [write, write, if_pos hin, if_pos hin, h _ (by omega)]
  · rw [write, write, if_neg hin, if_neg hin]

/-- Writing a range in two parts. -/
theorem write_append : write (write m a data n) (a + n) (fun i => data (n + i)) k = write m a data (n + k) := by
  funext b
  unfold write
  by_cases hsecond : a + n ≤ b ∧ b < a + n + k
  · rw [if_pos hsecond, if_pos (by omega)]
    exact congrArg data (by omega)
  · rw [if_neg hsecond]
    congr 1
    exact propext (by omega)

/-- Writing back a range after a part of it has been changed. -/
theorem write_window (h : k + n ≤ l) : write m a (write (fun i => m (a + i)) k data n) l = write m (a + k) data n := by
  funext b
  unfold write
  by_cases hin : a + k ≤ b ∧ b < a + k + n
  · rw [if_pos (by omega), if_pos (by omega), if_pos hin, Nat.sub_add_eq]
  · rw [if_neg hin]
    by_cases hrange : a ≤ b ∧ b < a + l
    · rw [if_pos hrange, if_neg (by omega)]
      exact congrArg m (Nat.add_sub_cancel' hrange.1)
    · rw [if_neg hrange]

end Mem

/-- Different blocks of one size are apart. -/
theorem block_disjoint (bs : Nat) {b b' : Nat} (hne : b ≠ b') : b * bs + bs ≤ b' * bs ∨ b' * bs + bs ≤ b * bs := by
  rcases Nat.lt_or_gt_of_ne hne with hlt | hlt
  · left
    rw [← Nat.succ_mul]
    exact Nat.mul_le_mul_right bs hlt
  · right
    rw [← Nat.succ_mul]
    exact Nat.mul_le_mul_right bs hlt

theorem toInt8_toInt_inj {a b : UInt8} : a.toInt8.toInt - b.toInt8.toInt = 0 ↔ a = b := by
  constructor
  · intro h
    have h' : a.toInt8 = b.toInt8 := Int8.toInt_inj.mp (by omega)
    exact congrArg Int8.toUInt8 h'
  · rintro rfl
    exact Int.sub_self _

end FengOS.Lib
