import FengOS.Printf.Unsigned
import Mathlib.Data.Nat.Digits.Lemmas
import Mathlib.Tactic.SplitIfs

/-!
# Unsigned numbers come out as the standard says
-/

namespace FengOS.Printf

variable {stop size num base width : Nat} {c : UInt8} {t cs rest : List UInt8} {o : Out} {type : Flags} {ds : List Nat}

/-! ## Output with room -/

def Out.puts (o : Out) (t : List UInt8) : Out := t.foldl Out.put o

theorem puts_append (o : Out) (s t : List UInt8) : o.puts (s ++ t) = (o.puts s).puts t := List.foldl_append

theorem puts_str (o : Out) (t : List UInt8) : (o.puts t).str = o.str + t.length := by
  induction t generalizing o with
  | nil => rfl
  | cons c t ih =>
    rw [Out.puts, List.foldl_cons, ← Out.puts, ih, List.length_cons]
    simp only [Out.put]
    omega

theorem store_byte (o : Out) (c : UInt8) (i : Nat) : (o.store c).byte i = if i = o.str then some c else o.byte i := by
  simp only [Out.byte, Out.store, List.lookup_cons]
  by_cases hi : i = o.str
  · simp [hi]
  · simp [hi, beq_false_of_ne hi]

theorem getElem?_append_singleton (t : List UInt8) (c : UInt8) (i : Nat) :
    (t ++ [c])[i]? = if i = t.length then some c else t[i]? := by
  rcases Nat.lt_trichotomy i t.length with hlt | rfl | hgt
  · rw [List.getElem?_append_left hlt, if_neg (Nat.ne_of_lt hlt)]
  · rw [List.getElem?_concat_length, if_pos rfl]
  · rw [if_neg (Nat.ne_of_gt hgt), List.getElem?_eq_none (by simpa using hgt), List.getElem?_eq_none hgt.le]

theorem puts_byte (t : List UInt8) (i : Nat) : ((⟨0, []⟩ : Out).puts t).byte i = t[i]? := by
  induction t using List.reverseRecOn with
  | nil => rfl
  | append_singleton t c ih =>
    have hput : ((⟨0, []⟩ : Out).puts t |>.put c).byte i = ((⟨0, []⟩ : Out).puts t |>.store c).byte i := rfl
    rw [puts_append, getElem?_append_singleton, ← ih]
    refine hput.trans ((store_byte _ c i).trans ?_)
    rw [puts_str, Nat.zero_add]

theorem padLoop_of_room {n : Nat} (h : o.str + n ≤ stop) : padLoop stop c n o = (0, o.puts (List.replicate n c)) := by
  induction n generalizing o with
  | zero => rfl
  | succ n ih =>
    have hstr : (o.put c).str = o.str + 1 := rfl
    rw [padLoop, if_pos (by omega), ih (by omega)]
    rfl

theorem digitsLoop_of_room (h : o.str + cs.length ≤ stop) (hsize : cs.length ≤ size) :
    digitsLoop stop cs size o = (size - cs.length, o.puts cs) := by
  induction cs generalizing o size with
  | nil => rfl
  | cons c cs ih =>
    rw [List.length_cons] at h hsize
    have hstr : (o.put c).str = o.str + 1 := rfl
    rw [digitsLoop, if_pos (by omega), ih (by omega) (by omega), List.length_cons]
    congr 1
    omega

theorem number_of_room (hbase : 2 ≤ base ∧ base ≤ 36) (h : o.str + (numText num base size type).length ≤ stop) :
    number stop o num base size type = (o.puts (numText num base size type)).store 0 := by
  have hpad : ∀ k : Nat, (if size < k then k else size) - k = size - k := by
    intro k
    split <;> omega
  rw [number, if_neg (by omega)]
  unfold numText at h ⊢
  simp only [hpad]
  generalize numberTmp type num base = tmp at h ⊢
  have hlen : tmp.reverse.length = tmp.length := List.length_reverse
  by_cases hleft : type.left = true
  · simp only [hleft, if_true, List.length_append, List.length_replicate, hlen] at h ⊢
    rw [digitsLoop_of_room (by omega) (by omega), padLoop_of_room (by rw [puts_str]; omega), hlen, Nat.add_sub_cancel_left,
      puts_append]
  · simp only [hleft, Bool.false_eq_true, if_false, List.length_append, List.length_replicate, hlen] at h ⊢
    have hfront : padLoop stop (padChar type) (size - tmp.length) o = _ := padLoop_of_room (by omega)
    rw [hfront, digitsLoop_of_room (by rw [puts_str, List.length_replicate]; omega) (by omega), hlen, Nat.add_zero,
      Nat.sub_self, puts_append]
    rfl

/-! ## The directive is taken apart -/

def flagsOf (flags : List Flag) : Flags := { left := Flag.minus ∈ flags, zeropad := Flag.zero ∈ flags }

theorem flagsLoop_append (f : Flags) (flags : List Flag) (h : ∀ c ∈ rest.head?, c ≠ 0x2d ∧ c ≠ 0x30) :
    flagsLoop f (flags.map Flag.char ++ rest) =
      ({ f with left := f.left || (flagsOf flags).left, zeropad := f.zeropad || (flagsOf flags).zeropad }, rest) := by
  induction flags generalizing f with
  | nil =>
    cases rest with
    | nil => simp [flagsLoop, flagsOf]
    | cons c rest =>
      obtain ⟨h₁, h₂⟩ := h c rfl
      simp [flagsLoop, h₁, h₂, flagsOf]
  | cons flag flags ih =>
    cases flag with
    | minus =>
      rw [List.map_cons, List.cons_append, flagsLoop, if_pos (by decide), ih]
      simp [flagsOf]
    | zero =>
      rw [List.map_cons, List.cons_append, flagsLoop, if_neg (by decide), if_pos (by decide), ih]
      simp [flagsOf]

def foldDigits (base acc : Nat) (ds : List Nat) : Nat := ds.foldl (fun n d => n * base + d) acc

theorem foldDigits_cons (base acc d : Nat) (ds : List Nat) :
    foldDigits base acc (d :: ds) = foldDigits base (acc * base + d) ds := rfl

theorem le_foldDigits (hbase : 0 < base) (acc : Nat) (ds : List Nat) : acc ≤ foldDigits base acc ds := by
  induction ds generalizing acc with
  | nil => exact Nat.le_refl _
  | cons d ds ih =>
    have hmul : acc ≤ acc * base := Nat.le_mul_of_pos_right acc hbase
    exact Nat.le_trans (by omega) (ih (acc * base + d))

theorem foldDigits_digits (base n : Nat) : foldDigits base 0 (Nat.digits base n).reverse = n := by
  conv_rhs => rw [← Nat.ofDigits_digits base n]
  rw [Nat.ofDigits_eq_foldr, foldDigits, List.foldl_reverse]
  congr 1
  funext d m
  simp only [Nat.cast_id]
  rw [Nat.mul_comm, Nat.add_comm]

theorem ofNat_toNat_of_lt {n : Nat} (h : n < 256) : (UInt8.ofNat n).toNat = n := by
  rw [UInt8.toNat_ofNat']
  exact Nat.mod_eq_of_lt h

theorem isDigit_char {d : Nat} (h : d < 10) : 0x30 ≤ UInt8.ofNat (0x30 + d) ∧ UInt8.ofNat (0x30 + d) ≤ 0x39 := by
  have hchar := ofNat_toNat_of_lt (show 0x30 + d < 256 by omega)
  constructor
  · exact UInt8.le_iff_toNat_le.mpr (by rw [hchar]; exact Nat.le_add_right _ _)
  · exact UInt8.le_iff_toNat_le.mpr (by rw [hchar]; show 0x30 + d ≤ 0x39; omega)

theorem widthLoop_digits (rest : List UInt8) (ds : List Nat) (acc : Nat) (hds : ∀ d ∈ ds, d < 10)
    (hrest : ∀ c ∈ rest.head?, ¬ (0x30 ≤ c ∧ c ≤ 0x39)) : widthLoop acc (ds.map (fun d => UInt8.ofNat (0x30 + d)) ++ rest) =
      if ds = [] ∨ foldDigits 10 acc ds + 0x30 < 2 ^ 31 then some (foldDigits 10 acc ds, rest) else none := by
  induction ds generalizing acc with
  | nil =>
    rw [if_pos (.inl rfl)]
    cases rest with
    | nil => rfl
    | cons c rest => exact if_neg (hrest c rfl)
  | cons d ds ih =>
    obtain ⟨hd, hds⟩ := List.forall_mem_cons.mp hds
    have hchar := ofNat_toNat_of_lt (show 0x30 + d < 256 by omega)
    have hstep : acc * 10 + (UInt8.ofNat (0x30 + d)).toNat - 0x30 = acc * 10 + d := by omega
    have hle : acc * 10 + d ≤ foldDigits 10 (acc * 10 + d) ds := le_foldDigits (by decide) _ _
    rw [List.map_cons, List.cons_append, widthLoop, if_pos (isDigit_char hd), hstep, ih _ hds, hchar, foldDigits_cons]
    simp only [reduceCtorEq, false_or]
    split_ifs with h₁ h₂ h₃ h₄ h₅
    · rfl
    · rcases h₂ with rfl | h₂
      · exact absurd (show acc * 10 + d + 0x30 < 2 ^ 31 by omega) h₃
      · exact absurd h₂ h₃
    · exact absurd (.inr h₄) h₂
    · rfl
    · omega
    · rfl

theorem widthChars_zero : widthChars 0 = [] := rfl

theorem widthChars_head (h : ∀ c ∈ rest.head?, c ≠ 0x2d ∧ c ≠ 0x30) (width : Nat) :
    ∀ c ∈ (widthChars width ++ rest).head?, c ≠ 0x2d ∧ c ≠ 0x30 := by
  rcases Nat.eq_zero_or_pos width with rfl | hpos
  · rwa [widthChars_zero, List.nil_append]
  · have hne : Nat.digits 10 width ≠ [] := Nat.digits_ne_nil_iff_ne_zero.mpr (by omega)
    have hlast : (Nat.digits 10 width).getLast hne ≠ 0 := Nat.getLast_digit_ne_zero 10 (by omega)
    have hlt : (Nat.digits 10 width).getLast hne < 10 := Nat.digits_lt_base (by decide) (List.getLast_mem hne)
    intro c hc
    rw [widthChars, List.head?_append, List.head?_map, List.head?_reverse, List.getLast?_eq_some_getLast hne] at hc
    have hfirst : UInt8.ofNat (0x30 + (Nat.digits 10 width).getLast hne) = c := Option.some.inj hc
    have hchar := ofNat_toNat_of_lt (show 0x30 + (Nat.digits 10 width).getLast hne < 256 by omega)
    rw [hfirst] at hchar
    constructor <;> rintro rfl
    · have : (0x2d : UInt8).toNat = 0x2d := rfl
      omega
    · have : (0x30 : UInt8).toNat = 0x30 := rfl
      omega

section Integer

variable {sign large : Bool} (flags : List Flag) (width : Nat) (q : Qualifier) (hconv : parseConv c = .integer base sign large)
  (hplain : c ≠ 0x6c ∧ c ≠ 0x2d ∧ ¬ (0x30 ≤ c ∧ c ≤ 0x39))

include hconv hplain

theorem parseDirective_integer : parseDirective (flags.map Flag.char ++ (widthChars width ++ (q.chars ++ [c]))) =
    if width + 0x30 < 2 ^ 31 then some (⟨flagsOf flags, width, q, .integer base sign large⟩, []) else none := by
  obtain ⟨hl, hminus, hdigit⟩ := hplain
  have hhead : ∀ c' ∈ (q.chars ++ [c]).head?, (c' ≠ 0x2d ∧ c' ≠ 0x30) ∧ ¬ (0x30 ≤ c' ∧ c' ≤ 0x39) := by
    cases q with
    | none =>
      have hzero : c ≠ 0x30 := by
        rintro rfl
        exact hdigit (by decide)
      simp [Qualifier.chars, hminus, hzero] at hdigit ⊢
      exact hdigit
    | long => simp [Qualifier.chars]
    | longLong => simp [Qualifier.chars]
  have hqual : parseQualifier (q.chars ++ [c]) = (q, [c]) := by
    cases q <;> simp [parseQualifier, Qualifier.chars, hl]
  have hwidth := widthLoop_digits (q.chars ++ [c]) (Nat.digits 10 width).reverse 0
    (fun d hd => Nat.digits_lt_base (by decide) (List.mem_reverse.mp hd)) fun c hc => (hhead c hc).2
  have hcond : ((Nat.digits 10 width).reverse = [] ∨ width + 0x30 < 2 ^ 31) ↔ width + 0x30 < 2 ^ 31 := by
    refine or_iff_right_of_imp fun hnil => ?_
    have := Nat.digits_eq_nil_iff_eq_zero.mp (List.reverse_eq_nil_iff.mp hnil)
    omega
  rw [← widthChars, foldDigits_digits] at hwidth
  simp only [hcond] at hwidth
  rw [parseDirective, flagsLoop_append _ _ (widthChars_head (fun c hc => (hhead c hc).1) width)]
  dsimp only
  rw [hwidth]
  split_ifs
  · simp [hqual, hconv, flagsOf]
  · rfl

theorem vsnprintf_integer (size n : Nat) (args : List Arg) :
    vsnprintf size (0x25 :: (flags.map Flag.char ++ (widthChars width ++ (q.chars ++ [c])))) (.num n :: args) =
      if width + 0x30 < 2 ^ 31 then
        some ((number size ⟨0, []⟩ (q.value n) base width (intFlags (flagsOf flags) sign large)).store 0) else none := by
  rw [vsnprintf, vsnprintfLoop, if_neg (by decide), parseDirective_integer flags width q hconv hplain]
  split_ifs with h
  · simp [Directive.piece, takeNum, Piece.put, vsnprintfLoop]
  · rfl

end Integer

theorem vsnprintf_unsigned (size : Nat) (flags : List Flag) (width : Nat) (q : Qualifier) (conv : UConv) (n : Nat)
    (args : List Arg) : vsnprintf size (unsignedFormat flags width q conv) (.num n :: args) = if width + 0x30 < 2 ^ 31 then
        some ((number size ⟨0, []⟩ (q.value n) conv.base width (intFlags (flagsOf flags) false (conv = .upper))).store 0)
      else none :=
  vsnprintf_integer flags width q (by cases conv <;> decide) (by cases conv <;> decide) size n args

/-- A number that is put out with room for it. -/
theorem emits_number {fmt : List UInt8} {args : List Arg} (hbase : 2 ≤ base ∧ base ≤ 36)
    (h : vsnprintf size fmt args = some ((number size ⟨0, []⟩ num base width type).store 0))
    (hroom : (numText num base width type).length < size) : Emits size fmt args (numText num base width type) := by
  have hnumber := @number_of_room size width num base ⟨0, []⟩ type hbase (by show 0 + _ ≤ size; omega)
  rw [hnumber] at h
  have hstr : (((⟨0, []⟩ : Out).puts (numText num base width type)).store 0).str = (numText num base width type).length :=
    (puts_str _ _).trans (Nat.zero_add _)
  refine ⟨_, h, hstr, fun i => ?_⟩
  rw [store_byte, store_byte, puts_byte, getElem?_append_singleton, hstr]
  split_ifs with h₁ h₂
  · rfl
  · exact absurd (h₂.trans hstr) h₁
  · rfl

/-! ## The text -/

theorem digit_eq_digitChar (type : Flags) (d : Nat) : digit type d = digitChar type.large d := by
  unfold digit digitChar
  split_ifs
  · rfl
  · congr 1
    omega
  · congr 1
    omega

theorem numText_unsigned (flags : List Flag) (width : Nat) (q : Qualifier) (conv : UConv) (n : Nat) :
    numText (q.value n) conv.base width (intFlags (flagsOf flags) false (conv = .upper)) =
      unsignedText flags width q conv n := by
  have hvalue : q.value n = n % 2 ^ q.bits := by cases q <;> rfl
  have htmp : (numberTmp (intFlags (flagsOf flags) false (conv = .upper)) (q.value n) conv.base).reverse =
      (digitsOf conv.base (n % 2 ^ q.bits)).map (digitChar (conv = .upper)) := by
    rw [hvalue]
    simp only [numberTmp, intFlags, flagsOf, Bool.false_and, Bool.false_eq_true, if_false, List.append_nil, digitsOf]
    split_ifs
    · rfl
    · rw [← List.map_reverse]
      exact List.map_congr_left fun d _ => digit_eq_digitChar _ d
  unfold numText unsignedText
  rw [← htmp]
  by_cases hminus : Flag.minus ∈ flags <;> by_cases hzero : Flag.zero ∈ flags <;>
    simp [hminus, hzero, intFlags, flagsOf, padChar]

theorem conv_base_range (conv : UConv) : 2 ≤ conv.base ∧ conv.base ≤ 16 := by
  cases conv <;> decide

/-! ## Reading back -/

theorem digitValue_digitChar : ∀ upper : Bool, ∀ d < 16, digitValue (digitChar upper d) = some d := by decide

theorem readDigits_digits {k : Nat} (upper : Bool) (acc : Nat) (hbase : base ≤ 16) (hds : ∀ d ∈ ds, d < base) :
    readDigits base acc (ds.map (digitChar upper) ++ List.replicate k 0x20) =
      (foldDigits base acc ds, List.replicate k 0x20) := by
  induction ds generalizing acc with
  | nil =>
    cases k with
    | zero => rfl
    | succ k => rfl
  | cons d ds ih =>
    obtain ⟨hd, hds⟩ := List.forall_mem_cons.mp hds
    simp only [List.map_cons, List.cons_append, readDigits, digitValue_digitChar upper d (by omega), if_pos hd]
    rw [ih _ hds, foldDigits_cons]

theorem dropWhile_blanks (n : Nat) (h : ∀ c ∈ t.head?, c ≠ 0x20) :
    (List.replicate n 0x20 ++ t).dropWhile (· = 0x20) = t := by
  induction n with
  | zero =>
    cases t with
    | nil => rfl
    | cons c t => simp [h c rfl]
  | succ n ih => simpa [List.replicate_succ] using ih

theorem readNumber_digits {j k : Nat} (upper : Bool) (hbase : base ≤ 16) (hne : ds ≠ []) (hds : ∀ d ∈ ds, d < base) :
    readNumber base (List.replicate j 0x20 ++ (ds.map (digitChar upper) ++ List.replicate k 0x20)) =
      some (foldDigits base 0 ds) := by
  obtain ⟨d, ds', rfl⟩ := List.exists_cons_of_ne_nil hne
  have hd : d < 16 := by
    have := hds d List.mem_cons_self
    omega
  have hhead : digitChar upper d ≠ 0x20 := by
    intro heq
    have hvalue := digitValue_digitChar upper d hd
    rw [heq] at hvalue
    cases hvalue
  rw [readNumber, dropWhile_blanks j (by simpa using hhead), readDigits_digits upper 0 hbase hds]
  simp

theorem foldDigits_replicate_zero (n : Nat) (ds : List Nat) :
    foldDigits base 0 (List.replicate n 0 ++ ds) = foldDigits base 0 ds := by
  induction n with
  | zero => rfl
  | succ n ih =>
    rw [List.replicate_succ, List.cons_append, foldDigits_cons, Nat.zero_mul]
    exact ih

theorem digitsOf_ne_nil (base n : Nat) : digitsOf base n ≠ [] := by
  unfold digitsOf
  split_ifs with h
  · exact List.cons_ne_nil _ _
  · exact fun hnil => h (Nat.digits_eq_nil_iff_eq_zero.mp (List.reverse_eq_nil_iff.mp hnil))

theorem digitsOf_lt {n d : Nat} (hbase : 2 ≤ base) (hd : d ∈ digitsOf base n) : d < base := by
  unfold digitsOf at hd
  split_ifs at hd
  · rw [List.mem_singleton.mp hd]
    omega
  · exact Nat.digits_lt_base hbase (List.mem_reverse.mp hd)

theorem foldDigits_digitsOf (base n : Nat) : foldDigits base 0 (digitsOf base n) = n := by
  unfold digitsOf
  split_ifs with h
  · rw [h, foldDigits_cons, Nat.zero_mul]
    rfl
  · exact foldDigits_digits base n

theorem readNumber_unsignedText (flags : List Flag) (width : Nat) (q : Qualifier) (conv : UConv) (n : Nat) :
    readNumber conv.base (unsignedText flags width q conv n) = some (n % 2 ^ q.bits) := by
  obtain ⟨hlow, hhigh⟩ := conv_base_range conv
  have hne := digitsOf_ne_nil conv.base (n % 2 ^ q.bits)
  have hds : ∀ d ∈ digitsOf conv.base (n % 2 ^ q.bits), d < conv.base := fun d hd => digitsOf_lt hlow hd
  unfold unsignedText
  dsimp only
  generalize hpad : width - ((digitsOf conv.base (n % 2 ^ q.bits)).map (digitChar (conv = .upper))).length = pad
  split_ifs with hminus hzero
  · have hread := readNumber_digits (j := 0) (k := pad) (conv = .upper) hhigh hne hds
    rw [foldDigits_digitsOf] at hread
    exact hread
  · -- the zeros are digits as well
    have hne₀ : List.replicate pad 0 ++ digitsOf conv.base (n % 2 ^ q.bits) ≠ [] :=
      List.append_ne_nil_of_right_ne_nil _ hne
    have hread := readNumber_digits (j := 0) (k := 0) (conv = .upper) hhigh hne₀
      (fun d hd => (List.mem_append.mp hd).elim (fun h => (List.eq_of_mem_replicate h) ▸ by omega) (hds d))
    rw [foldDigits_replicate_zero, foldDigits_digitsOf, List.map_append, List.map_replicate] at hread
    simpa [digitChar] using hread
  · have hread := readNumber_digits (j := pad) (k := 0) (conv = .upper) hhigh hne hds
    rw [foldDigits_digitsOf, List.replicate_zero, List.append_nil] at hread
    exact hread

/-! ## Every unsigned directive -/

theorem emits_unsigned_iff {size : Nat} (flags : List Flag) (width : Nat) (q : Qualifier) (conv : UConv) (n : Nat)
    (args : List Arg) (hroom : (unsignedText flags width q conv n).length < size) :
    Emits size (unsignedFormat flags width q conv) (.num n :: args) (unsignedText flags width q conv n) ↔
      width + 0x30 < 2 ^ 31 := by
  by_cases hwidth : width + 0x30 < 2 ^ 31
  · have hbase := conv_base_range conv
    rw [← numText_unsigned] at hroom ⊢
    exact iff_of_true (emits_number ⟨hbase.1, by omega⟩ ((vsnprintf_unsigned ..).trans (if_pos hwidth)) hroom) hwidth
  · refine iff_of_false ?_ hwidth
    rintro ⟨o, ho, -⟩
    rw [vsnprintf_unsigned, if_neg hwidth] at ho
    cases ho

/-- The standard's text comes out and reads back as the value exactly if the width is below 2^31 - 48. -/
theorem unsigned_formatted_iff {size : Nat} (flags : List Flag) (width : Nat) (q : Qualifier) (conv : UConv) (n : Nat)
    (args : List Arg) (hroom : (unsignedText flags width q conv n).length < size) :
    (Emits size (unsignedFormat flags width q conv) (.num n :: args) (unsignedText flags width q conv n) ∧
      readNumber conv.base (unsignedText flags width q conv n) = some (n % 2 ^ q.bits)) ↔ width + 0x30 < 2 ^ 31 := by
  rw [and_iff_left (readNumber_unsignedText flags width q conv n)]
  exact emits_unsigned_iff flags width q conv n args hroom

theorem unsigned_formatted_zeros :
    unsignedText [.zero] 5 .none .upper 255 = [0x30, 0x30, 0x30, 0x46, 0x46] ∧
      Emits 6 (unsignedFormat [.zero] 5 .none .upper) [.num 255] (unsignedText [.zero] 5 .none .upper 255) := by
  have htext : unsignedText [.zero] 5 .none .upper 255 = [0x30, 0x30, 0x30, 0x46, 0x46] := by
    simp [unsignedText, digitsOf, digitChar, UConv.base, Qualifier.bits]
  exact ⟨htext, ((unsigned_formatted_iff [.zero] 5 .none .upper 255 [] (by rw [htext]; decide)).mpr (by decide)).1⟩

/-- `%2147483647u` has no defined output. -/
theorem widest_overflows :
    vsnprintf (2 ^ 31) (unsignedFormat [] 2147483647 .none .decimal) [.num 1] = none ∧
      ¬ Emits (2 ^ 31) (unsignedFormat [] 2147483647 .none .decimal) [.num 1]
        (unsignedText [] 2147483647 .none .decimal 1) := by
  have hnone : vsnprintf (2 ^ 31) (unsignedFormat [] 2147483647 .none .decimal) [.num 1] = none := by
    rw [vsnprintf_unsigned, if_neg (by decide)]
  refine ⟨hnone, ?_⟩
  rintro ⟨o, ho, -⟩
  rw [hnone] at ho
  cases ho

end FengOS.Printf
