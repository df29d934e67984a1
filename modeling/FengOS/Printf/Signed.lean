import FengOS.Libc.Strings
import FengOS.Printf.UnsignedTheorems

/-!
# Signed numbers in formatted output

What the C standard says about the conversions `d` and `i`. The code takes an `int` as an `unsigned int`, and puts the padding
in front of the sign.
-/

namespace FengOS.Printf

open FengOS.Libc

variable {stop size num base width n : Nat} {c : UInt8} {t t' fmt : List UInt8} {o : Out} {type : Flags} {args : List Arg}
  {q : Qualifier} {flags : List Flag} {Q : UInt8 → Prop}

inductive SConv where
  | d
  | i
  deriving DecidableEq, Repr

def SConv.char : SConv → UInt8
  | .d => 0x64
  | .i => 0x69

def signedFormat (flags : List Flag) (width : Nat) (q : Qualifier) (conv : SConv) : List UInt8 :=
  0x25 :: (flags.map Flag.char ++ (widthChars width ++ (q.chars ++ [conv.char])))

def Qualifier.signed (q : Qualifier) (n : Nat) : Int :=
  if n % 2 ^ q.bits < 2 ^ (q.bits - 1) then (n % 2 ^ q.bits : Nat) else (n % 2 ^ q.bits : Nat) - 2 ^ q.bits

def signChars (v : Int) : List UInt8 := if v < 0 then [0x2d] else []

def absChars (v : Int) : List UInt8 := (digitsOf 10 v.natAbs).map (digitChar false)

/-- The text that the standard asks for: zeros go between the sign and the digits. -/
def signedText (flags : List Flag) (width : Nat) (v : Int) : List UInt8 :=
  let pad := width - (signChars v ++ absChars v).length
  if Flag.minus ∈ flags then signChars v ++ absChars v ++ List.replicate pad 0x20
  else if Flag.zero ∈ flags then signChars v ++ (List.replicate pad 0x30 ++ absChars v)
  else List.replicate pad 0x20 ++ (signChars v ++ absChars v)

/-- A negative value has another type than `int`, and no zeros in front of it. -/
def SignKept (flags : List Flag) (width : Nat) (q : Qualifier) (v : Int) : Prop :=
  v < 0 → q ≠ .none ∧ (Flag.zero ∈ flags → Flag.minus ∈ flags ∨ width ≤ (absChars v).length + 1)

/-! ## The bytes that are stored -/

def Out.All (Q : UInt8 → Prop) (o : Out) : Prop := ∀ x ∈ o.stores, Q x.2

theorem Out.All.put (h : o.All Q) (hc : Q c) : (o.put c).All Q := List.forall_mem_cons.mpr ⟨hc, h⟩

theorem Out.All.store (h : o.All Q) (hc : Q c) : (o.store c).All Q := List.forall_mem_cons.mpr ⟨hc, h⟩

theorem Out.All.padLoop (h : o.All Q) (hc : Q c) (n : Nat) : (padLoop stop c n o).2.All Q := by
  induction n generalizing o with
  | zero => exact h
  | succ n ih =>
    rw [Printf.padLoop]
    split
    · exact ih (h.put hc)
    · exact h

theorem Out.All.digitsLoop {cs : List UInt8} (h : o.All Q) (hcs : ∀ c ∈ cs, Q c) (size : Nat) :
    (digitsLoop stop cs size o).2.All Q := by
  induction cs generalizing o size with
  | nil => exact h
  | cons c cs ih =>
    obtain ⟨hc, hcs⟩ := List.forall_mem_cons.mp hcs
    rw [Printf.digitsLoop]
    split
    · exact ih (h.put hc) hcs _
    · exact h

theorem Out.All.number (h : o.All Q) (hpad : Q (padChar type)) (htmp : ∀ c ∈ numberTmp type num base, Q c) (hzero : Q 0) :
    (number stop o num base size type).All Q := by
  rw [Printf.number]
  split
  · exact h
  · have hcs : ∀ c ∈ (numberTmp type num base).reverse, Q c := fun c hc => htmp c (List.mem_reverse.mp hc)
    dsimp only
    split
    · exact ((h.digitsLoop hcs _).padLoop hpad _).store hzero
    · exact (((h.padLoop hpad _).digitsLoop hcs _).padLoop hpad _).store hzero

theorem Out.All.byte {i : Nat} (h : o.All Q) (hbyte : o.byte i = some c) : Q c := by
  obtain ⟨l₁, l₂, hstores, -⟩ := List.lookup_eq_some_iff.mp hbyte
  exact h (i, c) (by simp [hstores])

/-! ## Texts -/

theorem Emits.unique (h : Emits size fmt args t) (h' : Emits size fmt args t') : t = t' := by
  obtain ⟨o, ho, -, hbyte⟩ := h
  obtain ⟨o', ho', -, hbyte'⟩ := h'
  obtain rfl := Option.some.inj (ho.symm.trans ho')
  exact List.append_cancel_right (List.ext_getElem? fun i => (hbyte i).symm.trans (hbyte' i))

theorem digitChar_ne_minus : ∀ d < 10, digitChar false d ≠ 0x2d := by decide

theorem vsnprintf_signed (size : Nat) (flags : List Flag) (width : Nat) (q : Qualifier) (conv : SConv) (n : Nat)
    (args : List Arg) : vsnprintf size (signedFormat flags width q conv) (.num n :: args) = if width + 0x30 < 2 ^ 31 then
        some ((number size ⟨0, []⟩ (q.value n) 10 width (intFlags (flagsOf flags) true false)).store 0) else none :=
  vsnprintf_integer flags width q (by cases conv <;> decide) (by cases conv <;> decide) size n args

theorem signed_nonneg (h : 0 ≤ q.signed n) : q.value n < 2 ^ 63 ∧ (q.signed n).natAbs = q.value n := by
  cases q <;>
    simp only [Qualifier.signed, Qualifier.bits, Qualifier.value, reduceCtorEq, if_true, if_false, Nat.reduceSub] at h ⊢ <;>
    split_ifs at h ⊢ <;> omega

theorem signed_neg (h : q.signed n < 0) (hq : q ≠ .none) :
    2 ^ 63 ≤ q.value n ∧ (q.signed n).natAbs = 2 ^ 64 - q.value n := by
  cases q with
  | none => exact absurd rfl hq
  | long | longLong =>
    simp only [Qualifier.signed, Qualifier.bits, Qualifier.value, reduceCtorEq, if_false, Nat.reduceSub] at h ⊢
    split_ifs at h ⊢ <;> omega

theorem reverse_digits (flags : List Flag) (m : Nat) :
    (if m = 0 then [0x30] else (Nat.digits 10 m).map (digit (intFlags (flagsOf flags) true false))).reverse =
      (digitsOf 10 m).map (digitChar false) := by
  rw [digitsOf]
  split_ifs
  · rfl
  · rw [List.map_reverse]
    exact congrArg _ (List.map_congr_left fun d _ => digit_eq_digitChar _ d)

/-- A value whose sign the code sees comes out with its sign and its digits. -/
theorem numberTmp_signed (hseen : 0 ≤ q.signed n ∨ q ≠ .none) :
    (numberTmp (intFlags (flagsOf flags) true false) (q.value n) 10).reverse =
      signChars (q.signed n) ++ absChars (q.signed n) := by
  unfold numberTmp absChars signChars
  by_cases hneg : q.signed n < 0
  · obtain ⟨hvalue, habs⟩ := signed_neg hneg (hseen.resolve_left (by omega))
    rw [habs, if_pos hneg, ← reverse_digits flags]
    simp [intFlags, flagsOf, show 9223372036854775808 ≤ q.value n from hvalue]
  · obtain ⟨hvalue, habs⟩ := signed_nonneg (Int.not_lt.mp hneg)
    rw [habs, if_neg hneg, ← reverse_digits flags]
    simp [intFlags, flagsOf, show ¬ 9223372036854775808 ≤ q.value n from Nat.not_le.mpr hvalue]

theorem length_signedText (flags : List Flag) (width : Nat) (v : Int) :
    (signedText flags width v).length = max width (signChars v ++ absChars v).length := by
  unfold signedText
  split_ifs <;> simp only [List.length_append, List.length_replicate] <;> omega

/-- The padding is where the standard wants it, unless zeros come to stand in front of a sign. -/
theorem numText_signed (hseen : 0 ≤ q.signed n ∨ q ≠ .none) :
    (numText (q.value n) 10 width (intFlags (flagsOf flags) true false)).length =
        (signedText flags width (q.signed n)).length ∧
      (numText (q.value n) 10 width (intFlags (flagsOf flags) true false) = signedText flags width (q.signed n) ↔
        SignKept flags width q (q.signed n)) := by
  have htmp := @numberTmp_signed n q flags hseen
  have hlength := congrArg List.length htmp
  rw [List.length_reverse] at hlength
  rw [length_signedText, numText, htmp, hlength]
  unfold signedText SignKept
  generalize hv : q.signed n = v at *
  by_cases hminus : Flag.minus ∈ flags
  · simp only [hminus, intFlags, flagsOf, padChar, decide_true, if_true, true_or, implies_true, and_true, true_iff]
    exact ⟨by simp only [List.length_append, List.length_replicate]; omega, fun hneg => hseen.resolve_left (by omega)⟩
  · refine ⟨?_, ?_⟩
    · simp only [hminus, intFlags, flagsOf, decide_false, Bool.false_eq_true, if_false, List.length_append,
        List.length_replicate]
      omega
    · by_cases hzero : Flag.zero ∈ flags
      · by_cases hneg : v < 0
        · simp only [hminus, hzero, hneg, signChars, intFlags, flagsOf, padChar, decide_true, decide_false,
            Bool.false_eq_true, if_false, if_true, false_or, forall_const, List.singleton_append, List.length_cons]
          cases hpad : width - ((absChars v).length + 1) with
          | zero => simp [hseen.resolve_left (by omega), Nat.sub_eq_zero_iff_le.mp hpad]
          | succ pad =>
            refine iff_of_false (by simp [List.replicate_succ]) fun h => ?_
            omega
        · simp [hminus, hzero, hneg, signChars, intFlags, flagsOf, padChar]
      · simp only [hminus, hzero, intFlags, flagsOf, padChar, decide_false, Bool.false_eq_true, if_false, false_imp_iff,
          and_true, true_iff]
        exact fun hneg => hseen.resolve_left (by omega)

/-- An `int` comes out without a sign. -/
theorem not_emits_int (conv : SConv) (hneg : Qualifier.none.signed n < 0) :
    ¬ Emits size (signedFormat flags width .none conv) (.num n :: args) (signedText flags width (Qualifier.none.signed n)) := by
  rintro ⟨o, ho, -, hbyte⟩
  rw [vsnprintf_signed] at ho
  split at ho
  · obtain rfl := Option.some.inj ho
    have hmem : 0x2d ∈ signedText flags width (Qualifier.none.signed n) := by
      unfold signedText signChars
      split_ifs <;> simp
    obtain ⟨i, hi⟩ := List.mem_iff_getElem?.mp (List.mem_append_left [0] hmem)
    have hlt : Qualifier.none.value n < 2 ^ 32 := Nat.mod_lt _ (by decide)
    have hnone : Out.All (· ≠ 0x2d) ⟨0, []⟩ := List.forall_mem_nil _
    refine Out.All.byte (.store (hnone.number ?_ ?_ (by decide)) (by decide)) ((hbyte i).trans hi) rfl
    · unfold padChar
      split_ifs <;> decide
    · intro c hc
      rw [numberTmp, decide_eq_false (show ¬ 2 ^ 63 ≤ Qualifier.none.value n by omega)] at hc
      simp only [intFlags, flagsOf, Bool.and_false, Bool.false_eq_true, if_false, List.append_nil] at hc
      split_ifs at hc
      · exact List.mem_singleton.mp hc ▸ by decide
      · obtain ⟨d, hd, rfl⟩ := List.mem_map.mp hc
        rw [digit_eq_digitChar]
        exact digitChar_ne_minus d (Nat.digits_lt_base (by decide) hd)
  · cases ho

/-! ## Every signed directive -/

/-- The standard's text comes out exactly if the width is below 2^31 - 48 and the sign is kept. -/
theorem signed_formatted_iff (flags : List Flag) (width : Nat) (q : Qualifier) (conv : SConv) (n : Nat) (args : List Arg)
    (hroom : (signedText flags width (q.signed n)).length < size) :
    Emits size (signedFormat flags width q conv) (.num n :: args) (signedText flags width (q.signed n)) ↔
      width + 0x30 < 2 ^ 31 ∧ SignKept flags width q (q.signed n) := by
  by_cases hwidth : width + 0x30 < 2 ^ 31
  · rw [and_iff_right hwidth]
    by_cases hseen : 0 ≤ q.signed n ∨ q ≠ .none
    · obtain ⟨hlength, heq⟩ := @numText_signed width n q flags hseen
      have hemits := emits_number (by decide) ((vsnprintf_signed size flags width q conv n args).trans (if_pos hwidth))
        (hlength ▸ hroom)
      rw [← heq]
      exact ⟨fun h => hemits.unique h, fun h => h ▸ hemits⟩
    · obtain ⟨hneg, hq⟩ := not_or.mp hseen
      obtain rfl := not_not.mp hq
      have hneg : Qualifier.none.signed n < 0 := Int.not_le.mp hneg
      exact iff_of_false (not_emits_int conv hneg) fun hkept => (hkept hneg).1 rfl
  · refine iff_of_false ?_ fun h => hwidth h.1
    rintro ⟨o, ho, -⟩
    rw [vsnprintf_signed, if_neg hwidth] at ho
    cases ho

theorem signed_formatted_left : signedText [.minus] 5 (Qualifier.long.signed (2 ^ 64 - 7)) = [0x2d, 0x37, 0x20, 0x20, 0x20] ∧
    Emits 6 (signedFormat [.minus] 5 .long .d) [.num (2 ^ 64 - 7)]
      (signedText [.minus] 5 (Qualifier.long.signed (2 ^ 64 - 7))) := by
  have htext : signedText [.minus] 5 (Qualifier.long.signed (2 ^ 64 - 7)) = [0x2d, 0x37, 0x20, 0x20, 0x20] := by
    simp [signedText, signChars, absChars, Qualifier.signed, Qualifier.bits, digitsOf, digitChar]
  refine ⟨htext, (signed_formatted_iff [.minus] 5 .long .d _ [] (by rw [htext]; decide)).mpr ⟨by decide, fun _ => ?_⟩⟩
  simp

/-- `%d` of -1, whose sign is lost, and `%05ld` of -5, with the zeros in front of the sign. -/
theorem signs_misplaced : ¬ Emits 20 (signedFormat [] 0 .none .d) [.num (2 ^ 32 - 1)] (signedText [] 0 (-1)) ∧
    Emits 20 (signedFormat [.zero] 5 .long .d) [.num (2 ^ 64 - 5)] [0x30, 0x30, 0x30, 0x2d, 0x35] := by
  refine ⟨not_emits_int (n := 2 ^ 32 - 1) .d (by decide), ?_⟩
  have htext : numText (Qualifier.long.value (2 ^ 64 - 5)) 10 5 (intFlags (flagsOf [.zero]) true false) =
      [0x30, 0x30, 0x30, 0x2d, 0x35] := by
    simp [numText, numberTmp, Qualifier.value, intFlags, flagsOf, padChar, digit]
  rw [← htext]
  exact emits_number (by decide) ((vsnprintf_signed ..).trans (if_pos (by decide))) (by rw [htext]; decide)

/-! ## Reading it back (`atoi` in `kernel/stdlib.h` and `libc/stdlib.h`) -/

/-- There is no result if an operation on `int` overflows. -/
def atoiLoop (n : Nat) : List UInt8 → Option Nat
  | [] => some n
  | c :: ptr =>
    if c = 0x2e then some n
    else if ¬ (0x30 ≤ c ∧ c ≤ 0x39) then some 0
    else if n * 10 + c.toNat < 2 ^ 31 then atoiLoop (n * 10 + c.toNat - 0x30) ptr else none

def atoi (nptr : List UInt8) : Option Int :=
  let ptr := nptr.dropWhile isspace
  if ptr.head? = some 0x2d then (atoiLoop 0 ptr.tail).map (-Nat.cast ·) else (atoiLoop 0 ptr).map Nat.cast

theorem atoiLoop_eq (h : ∀ c ∈ t, 0x30 ≤ c ∧ c ≤ 0x39) : atoiLoop n t = (widthLoop n t).map Prod.fst := by
  induction t generalizing n with
  | nil => rfl
  | cons c t ih =>
    obtain ⟨hc, ht⟩ := List.forall_mem_cons.mp h
    have hdot : c ≠ 0x2e := by
      rintro rfl
      exact absurd hc.1 (by decide)
    rw [atoiLoop, widthLoop, if_neg hdot, if_neg (not_not.mpr hc), if_pos hc, ih ht]
    split <;> rfl

/-- `atoi` reads back a number of at most `2 ^ 31 - 49` in absolute value, and overflows for others. -/
theorem atoi_signedText (width : Nat) (v : Int) :
    atoi (signedText [] width v) = if v.natAbs + 0x30 < 2 ^ 31 then some v else none := by
  have hchars : absChars v = (digitsOf 10 v.natAbs).map fun d => .ofNat (0x30 + d) :=
    List.map_congr_left fun d hd => by rw [digitChar, if_pos (digitsOf_lt (by decide) hd)]
  have hdigit : ∀ c ∈ absChars v, 0x30 ≤ c ∧ c ≤ 0x39 := by
    rw [hchars, List.forall_mem_map]
    exact fun d hd => isDigit_char (digitsOf_lt (by decide) hd)
  have hloop : atoiLoop 0 (absChars v) = if v.natAbs + 0x30 < 2 ^ 31 then some v.natAbs else none := by
    have hwidth := widthLoop_digits [] (digitsOf 10 v.natAbs) 0 (fun d hd => digitsOf_lt (by decide) hd) (by simp)
    rw [List.append_nil, ← hchars, foldDigits_digitsOf] at hwidth
    simp only [atoiLoop_eq hdigit, hwidth, digitsOf_ne_nil, false_or]
    split <;> rfl
  simp only [atoi, signedText, List.not_mem_nil, if_false]
  rw [List.dropWhile_append_of_pos (by simp [isspace]), signChars]
  by_cases hneg : v < 0
  · have hminus : ([0x2d] ++ absChars v).dropWhile isspace = 0x2d :: absChars v := rfl
    rw [if_pos hneg, hminus, List.head?_cons, if_pos rfl, List.tail_cons, hloop]
    split <;> simp [abs_of_neg hneg]
  · obtain ⟨c, cs, hcs⟩ := List.exists_cons_of_ne_nil (mt List.map_eq_nil_iff.mp (digitsOf_ne_nil 10 v.natAbs))
    have hc := hdigit c (by rw [absChars, hcs]; exact List.mem_cons_self)
    have hfirst : isspace c = false ∧ c ≠ 0x2d := by
      simp only [isspace, List.mem_cons, List.not_mem_nil, UInt8.le_iff_toNat_le, ne_eq, ← UInt8.toNat_inj,
        decide_eq_false_iff_not] at hc ⊢
      simp at hc ⊢
      omega
    have hhead : (absChars v).dropWhile isspace = absChars v ∧ (absChars v).head? ≠ some 0x2d := by
      simp [absChars, hcs, hfirst]
    rw [if_neg hneg, List.nil_append, hhead.1, if_neg hhead.2, hloop]
    split <;> simp [abs_of_nonneg (not_lt.mp hneg)]

end FengOS.Printf
