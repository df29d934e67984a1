import FengOS.Printf.Vsnprintf
import Mathlib.Data.Nat.Digits.Lemmas

/-!
# Bounds of formatted output

Padding and digits stop at the end of the buffer, but literal bytes and the 0 are stored wherever `str` points. So the buffer
is respected exactly if the whole text fits.
-/

namespace FengOS.Printf

variable {stop n size num base width : Nat} {c : UInt8} {x y cs s fmt t : List UInt8} {o o' o₁ o₂ : Out} {type : Flags}
  {left : Bool} {d : Directive} {args args' : List Arg} {piece : Piece}

/-! ## Output of a text -/

/-- A step that puts out `x` puts out all of it if there is room, or comes to the end. -/
structure Emit (stop : Nat) (x : List UInt8) (o o' : Out) : Prop where
  mono : o.str ≤ o'.str
  fits : o.str + x.length < stop → o'.str = o.str + x.length ∧ ∀ y ∈ o'.stores, y ∈ o.stores ∨ y.1 < stop
  full : stop ≤ o.str + x.length → stop ≤ o'.str

theorem Emit.refl : Emit stop [] o o := ⟨Nat.le_refl _, fun _ => ⟨rfl, fun _ hy => .inl hy⟩, fun h => h⟩

theorem Emit.trans (h₁ : Emit stop x o o₁) (h₂ : Emit stop y o₁ o₂) : Emit stop (x ++ y) o o₂ := by
  have hm₁ := h₁.mono
  have hm₂ := h₂.mono
  refine ⟨by omega, fun h => ?_, fun h => ?_⟩
  · rw [List.length_append] at h ⊢
    obtain ⟨hs₁, hw₁⟩ := h₁.fits (by omega)
    obtain ⟨hs₂, hw₂⟩ := h₂.fits (by omega)
    refine ⟨by omega, fun z hz => ?_⟩
    rcases hw₂ z hz with hz | hz
    · exact hw₁ z hz
    · exact .inr hz
  · rw [List.length_append] at h
    rcases Nat.lt_or_ge (o.str + x.length) stop with hlt | hge
    · have hs := (h₁.fits hlt).1
      exact h₂.full (by omega)
    · have := h₁.full hge
      omega

theorem Emit.append_of_le (h : Emit stop x o o₁) (hstop : stop ≤ o₁.str) (hle : o₁.str ≤ o₂.str) : Emit stop (x ++ y) o o₂ := by
  have hm := h.mono
  have hlen : stop ≤ o.str + x.length := by
    by_contra hlt
    have hs := (h.fits (by omega)).1
    omega
  refine ⟨by omega, fun hlt => ?_, fun _ => by omega⟩
  rw [List.length_append] at hlt
  omega

theorem emit_put : Emit stop [c] o (o.put c) := by
  refine ⟨Nat.le_succ _, fun h => ⟨rfl, fun y hy => ?_⟩, fun h => h⟩
  rcases List.mem_cons.mp hy with rfl | hy
  · exact .inr (Nat.lt_of_succ_lt h)
  · exact .inl hy

theorem emit_putIf : Emit stop [c] o (o.putIf stop c) := by
  rw [Out.putIf]
  split
  · exact emit_put
  · exact ⟨Nat.le_succ _, fun _ => ⟨rfl, fun _ hy => .inl hy⟩, fun h => h⟩

theorem emit_store : Emit stop [] o (o.store c) := by
  refine ⟨Nat.le_refl _, fun h => ⟨rfl, fun y hy => ?_⟩, fun h => h⟩
  rcases List.mem_cons.mp hy with rfl | hy
  · exact .inr h
  · exact .inl hy

/-! ## The loops -/

theorem emit_padLoop (stop : Nat) (c : UInt8) (n : Nat) (o : Out) : Emit stop (List.replicate n c) o (padLoop stop c n o).2 ∧
    ((padLoop stop c n o).1 = 0 ∨ stop ≤ (padLoop stop c n o).2.str) := by
  induction n generalizing o with
  | zero => exact ⟨.refl, .inl rfl⟩
  | succ n ih =>
    rw [padLoop]
    split
    · obtain ⟨he, hr⟩ := ih (o.put c)
      exact ⟨emit_put.trans he, hr⟩
    · have hstop : stop ≤ o.str := by omega
      exact ⟨Emit.refl.append_of_le hstop (Nat.le_refl _), .inr hstop⟩

theorem emit_digitsLoop (stop : Nat) (o : Out) (h : cs.length ≤ size) : Emit stop cs o (digitsLoop stop cs size o).2 ∧
    ((digitsLoop stop cs size o).1 = size - cs.length ∨ stop ≤ (digitsLoop stop cs size o).2.str) := by
  induction cs generalizing size o with
  | nil => exact ⟨.refl, .inl rfl⟩
  | cons c cs ih =>
    rw [List.length_cons] at h
    rw [digitsLoop]
    split
    · obtain ⟨he, hr⟩ := ih (o.put c) (show cs.length ≤ size - 1 by omega)
      refine ⟨emit_put.trans he, hr.imp_left fun hr => ?_⟩
      rw [hr, List.length_cons]
      omega
    · have hstop : stop ≤ o.str := by omega
      exact ⟨Emit.refl.append_of_le hstop (Nat.le_refl _), .inr hstop⟩

theorem emit_strLoop (stop : Nat) (s : List UInt8) (o : Out) : Emit stop s o (strLoop stop s o) := by
  induction s generalizing o with
  | nil => exact .refl
  | cons c s ih => exact emit_putIf.trans (ih _)

/-! ## Numbers and strings -/

theorem emit_digits (stop : Nat) (c : UInt8) (o : Out) (h : cs.length ≤ size) :
    Emit stop (cs ++ List.replicate (size - cs.length) c) o
      (padLoop stop c (digitsLoop stop cs size o).1 (digitsLoop stop cs size o).2).2 := by
  obtain ⟨hd, hrest⟩ := emit_digitsLoop stop o h
  rcases hrest with hrest | hstop
  · rw [hrest]
    exact hd.trans (emit_padLoop ..).1
  · exact hd.append_of_le hstop (emit_padLoop ..).1.mono

theorem emit_number (hbase : 2 ≤ base ∧ base ≤ 36) :
    Emit stop (numText num base size type) o (number stop o num base size type) := by
  rw [number, if_neg (by omega), numText]
  have hpad : ∀ k : Nat, (if size < k then k else size) - k = size - k := by
    intro k
    split <;> omega
  simp only [hpad]
  generalize numberTmp type num base = tmp
  have hlen : tmp.reverse.length = tmp.length := List.length_reverse
  by_cases hleft : type.left = true
  · simp only [hleft, if_true]
    have he := emit_digits stop (padChar type) o (show tmp.reverse.length ≤ tmp.length + (size - tmp.length) by omega)
    rw [hlen, Nat.add_sub_cancel_left] at he
    simpa using he.trans (emit_store (c := 0))
  · simp only [hleft, Bool.false_eq_true, if_false]
    obtain ⟨hp, hrest⟩ := emit_padLoop stop (padChar type) (size - tmp.length) o
    generalize padLoop stop (padChar type) (size - tmp.length) o = r at hp hrest ⊢
    have he := emit_digits stop (padChar type) r.2 (show tmp.reverse.length ≤ tmp.length + r.1 by omega)
    rcases hrest with hrest | hstop
    · rw [hrest, hlen, Nat.add_zero, Nat.sub_self, List.replicate_zero, List.append_nil] at he
      rw [hrest]
      simpa using (hp.trans he).trans (emit_store (c := 0))
    · exact hp.append_of_le hstop he.mono

theorem length_digits_le {b k m : Nat} (hb : 2 ≤ b) (hbase : b ≤ base) (hk : k < b ^ m) : (Nat.digits base k).length ≤ m := by
  rw [Nat.digits_length_le_iff (by omega)]
  exact hk.trans_le (Nat.pow_le_pow_left hbase m)

theorem length_numberTmp_le (hbase : 2 ≤ base) (hnum : num ≤ 2 ^ 64) : (numberTmp type num base).length ≤ 66 := by
  rw [numberTmp]
  obtain ⟨neg, hneg⟩ : ∃ neg, (type.sign && decide (2 ^ 63 ≤ num)) = neg := ⟨_, rfl⟩
  rw [hneg]
  obtain ⟨k, hk, hlarge, hsmall⟩ : ∃ k, (if neg then 2 ^ 64 - num else num) = k ∧ k ≤ 2 ^ 64 ∧ (neg = true → k ≤ 2 ^ 63) := by
    cases neg with
    | false => exact ⟨num, rfl, hnum, nofun⟩
    | true =>
      have hge : 2 ^ 63 ≤ num := by simp_all
      exact ⟨2 ^ 64 - num, rfl, Nat.sub_le _ _, fun _ => by omega⟩
  rw [hk, List.length_append, List.length_append]
  have hdigits : (if k = 0 then [0x30] else (Nat.digits base k).map (digit type)).length ≤ max 1 (Nat.digits base k).length := by
    split <;> simp
  have hsign : (if neg then [0x2d] else [] : List UInt8).length ≤ 1 := by split <;> simp
  by_cases hbig : 8 ≤ base
  · have h₁ := length_digits_le (by decide) hbig (show k < 8 ^ 22 by omega)
    have h₂ : (if type.special then if base = 8 then [0x30] else if base = 16 then [digit type 33, 0x30] else [] else []).length
        ≤ 2 := by split_ifs <;> simp
    omega
  · -- there is no prefix, and a number with a sign has a digit less
    rw [if_neg (show ¬ base = 8 by omega), if_neg (show ¬ base = 16 by omega), ite_self, List.length_nil]
    cases neg with
    | false =>
      have h₁ := length_digits_le (le_refl 2) hbase (show k < 2 ^ 65 by omega)
      omega
    | true =>
      have hlt := hsmall rfl
      have h₁ := length_digits_le (le_refl 2) hbase (show k < 2 ^ 64 by omega)
      omega

/-- The smallest `long` in binary: 64 digits and a sign. -/
theorem length_numberTmp_binary : (numberTmp { sign := true } (2 ^ 63) 2).length = 65 ∧
    (numberTmp { sign := true } (2 ^ 63) 2).length ≤ 66 := by
  refine ⟨?_, length_numberTmp_le (by decide) (by decide)⟩
  simp [numberTmp]

theorem Underflows.mono {a b : Int} (h : Underflows b) (hab : a ≤ b) : Underflows a := Int.le_trans hab h

theorem putStr_cases (stop : Nat) (left : Bool) (width : Nat) (s : List UInt8) (o : Out) :
    (∀ t, strText left width s = some t → ∃ o', putStr stop left width s o = some o' ∧ Emit stop t o o') ∧
    (strText left width s = none → ∀ o', putStr stop left width s o = some o' → o.str ≤ o'.str ∧ stop ≤ o'.str) := by
  rw [strText, putStr]
  cases left with
  | true =>
    simp only [if_true]
    split_ifs with hov
    · simp
    · refine ⟨fun t ht => ?_, fun h => by cases h⟩
      obtain rfl := Option.some.inj ht
      exact ⟨_, rfl, (emit_strLoop stop s o).trans (emit_padLoop ..).1⟩
  | false =>
    simp only [Bool.false_eq_true, if_false]
    obtain ⟨hp, hrest⟩ := emit_padLoop stop 0x20 (strPadding width s) o
    generalize padLoop stop 0x20 (strPadding width s) o = r at hp hrest ⊢
    have hs := emit_strLoop stop s r.2
    have htail := fun k => (emit_padLoop stop 0x20 k (strLoop stop s r.2)).1
    rcases hrest with hrest | hstop
    · rw [hrest]
      split_ifs with hov
      · simp
      · refine ⟨fun t ht => ?_, fun h => by cases h⟩
        obtain rfl := Option.some.inj ht
        exact ⟨_, rfl, (hp.trans hs).trans (htail _)⟩
    · refine ⟨fun t ht => ?_, fun _ o' ho' => ?_⟩
      · split_ifs at ht with hov
        obtain rfl := Option.some.inj ht
        rw [if_neg fun hu => hov (hu.mono (by omega)), List.append_assoc]
        exact ⟨_, rfl, hp.append_of_le hstop (hs.trans (htail _)).mono⟩
      · split_ifs at ho'
        obtain rfl := Option.some.inj ho'
        have hmono := (hs.trans (htail (strLen s + r.1 - s.length).toNat)).mono
        have := hp.mono
        omega

/-! ## Directives and formats -/

def Piece.BaseOk : Piece → Prop
  | .number _ base _ _ => 2 ≤ base ∧ base ≤ 36
  | _ => True

theorem parseConv_base {large sign : Bool} (h : parseConv c = .integer base sign large) : 2 ≤ base ∧ base ≤ 36 := by
  simp only [parseConv] at h
  split_ifs at h
  all_goals
    injection h with hbase
    omega

theorem piece_baseOk (hd : parseDirective fmt = some (d, t)) (h : d.piece args = some (piece, args')) : piece.BaseOk := by
  simp only [parseDirective, Option.bind_eq_bind, Option.bind_eq_some_iff, Prod.exists] at hd
  obtain ⟨width, rest, -, hd⟩ := hd
  split at hd
  · cases hd
  · rename_i c fmt' hfmt
    obtain ⟨rfl, -⟩ := Prod.mk.inj (Option.some.inj hd)
    cases hconv : parseConv c with
    | percent =>
      simp only [Directive.piece, hconv, Option.some.injEq, Prod.mk.injEq] at h
      obtain ⟨rfl, -⟩ := h
      trivial
    | char =>
      simp only [Directive.piece, hconv, Option.map_eq_some_iff, Prod.mk.injEq] at h
      obtain ⟨r, -, rfl, -⟩ := h
      trivial
    | string =>
      simp only [Directive.piece, hconv, Option.map_eq_some_iff, Prod.mk.injEq] at h
      obtain ⟨r, -, rfl, -⟩ := h
      trivial
    | pointer =>
      simp only [Directive.piece, hconv, Option.map_eq_some_iff, Prod.mk.injEq] at h
      obtain ⟨r, -, rfl, -⟩ := h
      exact ⟨by decide, by decide⟩
    | integer base sign large =>
      simp only [Directive.piece, hconv, Option.map_eq_some_iff, Prod.mk.injEq] at h
      obtain ⟨r, -, rfl, -⟩ := h
      exact parseConv_base hconv

theorem piece_cases (stop : Nat) (hbase : piece.BaseOk) (o : Out) :
    (∀ t, piece.text = some t → ∃ o', piece.put stop o = some o' ∧ Emit stop t o o') ∧
    (piece.text = none → ∀ o', piece.put stop o = some o' → o.str ≤ o'.str ∧ stop ≤ o'.str) := by
  cases piece with
  | string left width s => exact putStr_cases stop left width s o
  | byte c =>
    refine ⟨fun t ht => ?_, fun h => by cases h⟩
    obtain rfl := Option.some.inj ht
    exact ⟨_, rfl, emit_putIf⟩
  | number num base width type =>
    refine ⟨fun t ht => ?_, fun h => by cases h⟩
    obtain rfl := Option.some.inj ht
    exact ⟨_, rfl, emit_number hbase⟩

theorem put_mono (hbase : piece.BaseOk) (h : piece.put stop o = some o') : o.str ≤ o'.str := by
  obtain ⟨h₁, h₂⟩ := piece_cases stop hbase o
  cases ht : piece.text with
  | none => exact (h₂ ht o' h).1
  | some t =>
    obtain ⟨o₁, ho₁, he⟩ := h₁ t ht
    obtain rfl := Option.some.inj (h.symm.trans ho₁)
    exact he.mono

theorem loop_mono {rounds : Nat} (h : vsnprintfLoop stop rounds fmt args o = some o') : o.str ≤ o'.str := by
  induction rounds generalizing fmt args o with
  | zero => cases h
  | succ rounds ih =>
    cases fmt with
    | nil =>
      obtain rfl := Option.some.inj h
      exact Nat.le_refl _
    | cons c fmt =>
      rw [vsnprintfLoop] at h
      split at h
      · exact Nat.le_trans (Nat.le_succ _) (ih h)
      · simp only [Option.bind_eq_bind, Option.bind_eq_some_iff, Prod.exists] at h
        obtain ⟨d, rest, hd, piece, args', hp, o₁, ho₁, h⟩ := h
        exact Nat.le_trans (put_mono (piece_baseOk hd hp) ho₁) (ih h)

theorem loop_cases (stop rounds : Nat) (fmt : List UInt8) (args : List Arg) (o : Out) :
    (∀ t, textLoop rounds fmt args = some t → ∃ o', vsnprintfLoop stop rounds fmt args o = some o' ∧ Emit stop t o o') ∧
    (textLoop rounds fmt args = none → ∀ o', vsnprintfLoop stop rounds fmt args o = some o' → stop ≤ o'.str) := by
  induction rounds generalizing fmt args o with
  | zero => simp [textLoop, vsnprintfLoop]
  | succ rounds ih =>
    cases fmt with
    | nil =>
      refine ⟨fun t ht => ?_, fun h => by cases h⟩
      obtain rfl := Option.some.inj ht
      exact ⟨o, rfl, .refl⟩
    | cons c fmt =>
      rw [textLoop, vsnprintfLoop]
      split_ifs
      · obtain ⟨h₁, h₂⟩ := ih fmt args (o.put c)
        refine ⟨fun t ht => ?_, fun hnone => h₂ (Option.map_eq_none_iff.mp hnone)⟩
        obtain ⟨t', ht', rfl⟩ := Option.map_eq_some_iff.mp ht
        obtain ⟨o', ho', he⟩ := h₁ t' ht'
        exact ⟨o', ho', emit_put.trans he⟩
      · cases hd : parseDirective fmt with
        | none => simp
        | some r =>
          obtain ⟨d, rest⟩ := r
          cases hp : d.piece args with
          | none => simp [hp]
          | some r =>
            obtain ⟨piece, args'⟩ := r
            obtain ⟨h₁, h₂⟩ := piece_cases stop (piece_baseOk hd hp) o
            cases ht : piece.text with
            | none =>
              refine ⟨fun t h => ?_, fun _ o' h => ?_⟩
              · simp [hp, ht] at h
              · simp only [Option.bind_eq_bind, Option.bind_some, hp, Option.bind_eq_some_iff] at h
                obtain ⟨o₁, ho₁, h⟩ := h
                exact Nat.le_trans (h₂ ht o₁ ho₁).2 (loop_mono h)
            | some t =>
              obtain ⟨o₁, ho₁, he⟩ := h₁ t ht
              obtain ⟨h₃, h₄⟩ := ih rest args' o₁
              simp only [Option.bind_eq_bind, Option.bind_some, hp, ht, ho₁]
              refine ⟨fun t' ht' => ?_, fun hnone => h₄ (Option.map_eq_none_iff.mp hnone)⟩
              obtain ⟨t₂, ht₂, rfl⟩ := Option.map_eq_some_iff.mp ht'
              obtain ⟨o', ho', he'⟩ := h₃ t₂ ht₂
              exact ⟨o', ho', he.trans he'⟩

/-- For every size, format and argument list the output stays in its bounds exactly if the whole text fits. -/
theorem vsnprintf_bounded_iff (size : Nat) (fmt : List UInt8) (args : List Arg) :
    Bounded size fmt args ↔ Fits size fmt args := by
  obtain ⟨h₁, h₂⟩ := loop_cases size (fmt.length + 1) fmt args ⟨0, []⟩
  constructor
  · rintro ⟨o, ho, hstores, -⟩
    obtain ⟨o₁, ho₁, rfl⟩ := Option.map_eq_some_iff.mp ho
    have hlt : o₁.str < size := hstores _ List.mem_cons_self
    cases ht : textLoop (fmt.length + 1) fmt args with
    | none =>
      have := h₂ ht o₁ ho₁
      omega
    | some t =>
      obtain ⟨o', ho', he⟩ := h₁ t ht
      obtain rfl := Option.some.inj (ho₁.symm.trans ho')
      refine ⟨t, ht, Nat.lt_of_not_le fun hle => ?_⟩
      have := he.full (by rwa [Nat.zero_add])
      omega
  · rintro ⟨t, ht, hlt⟩
    obtain ⟨o, ho, he⟩ := h₁ t ht
    obtain ⟨hstr, hstores⟩ := he.fits (by rwa [Nat.zero_add])
    have hsize : o.str < size := by
      rw [hstr, Nat.zero_add]
      exact hlt
    refine ⟨o.store 0, by rw [vsnprintf, ho, Option.map_some], fun y hy => ?_, o.str, hsize, ?_⟩
    · rcases List.mem_cons.mp hy with rfl | hy
      · exact hsize
      · exact (hstores y hy).resolve_left List.not_mem_nil
    · simp [Out.byte, Out.store]

-- the format ends within its directive
example : ¬ Fits 1024 [0x25] [.num 1] := by
  rintro ⟨t, ht, -⟩
  cases ht

/-- Two literal bytes in a buffer of two. -/
theorem vsnprintf_literal : ¬ Bounded 2 [0x61, 0x62] [] := by
  rintro ⟨o, ho, hstores, -⟩
  obtain rfl := Option.some.inj ho
  exact absurd (hstores (2, 0) List.mem_cons_self) (by decide)

end FengOS.Printf
