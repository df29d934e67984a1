import FengOS.Video.Vga
import Mathlib.Tactic.SplitIfs

/-!
# Writes stay on the screen
-/

namespace FengOS.Video

variable {s : Screen} {cur : Int} {b type : UInt8} {i : Nat}

/-! ## What a cell holds -/

theorem toBitVec_msb (c : UInt8) : c.toBitVec.msb = decide (0x80 ≤ c) := by
  rw [BitVec.msb_eq_decide]
  exact decide_eq_decide.mpr (UInt8.le_iff_toNat_le (a := 0x80) (b := c)).symm

theorem charValue_low (c type : UInt8) : (charValue c type).extractLsb' 0 8 = c.toBitVec := by
  ext i hi
  simp [charValue, hi, BitVec.getLsbD_signExtend]
  omega

theorem charValue_high (c type : UInt8) :
    (charValue c type).extractLsb' 8 8 = BitVec.fill 8 (decide (0x80 ≤ c)) ||| type.toBitVec := by
  ext i hi
  have h₁ : 8 + i < 16 := by omega
  have h₂ : ¬ 8 + i < 8 := by omega
  simp [charValue, hi, BitVec.getElem_signExtend, toBitVec_msb, h₁, h₂]

theorem charValue_attr_iff (c type : UInt8) :
    (charValue c type).extractLsb' 8 8 = type.toBitVec ↔ (0x80 ≤ c → type = 0xff) := by
  rw [charValue_high]
  by_cases hc : 0x80 ≤ c
  · simp only [hc, decide_true, true_imp_iff, BitVec.fill_true, BitVec.allOnes_or]
    exact ⟨fun h => UInt8.toBitVec_inj.mp h.symm, fun h => by rw [h]; rfl⟩
  · simp [hc]

/-! ## One byte -/

def wrapped (cur : Int) : Int := if cur ≥ row * col then (row - 1) * col else cur

theorem writeByte_cells : (writeByte s cur b type).1 = (putByte cur b type).1 := by
  unfold writeByte
  dsimp only
  split_ifs <;> rfl

theorem writeByte_cur : (writeByte s cur b type).2.2 = wrapped (putByte cur b type).2 := by
  unfold writeByte wrapped
  dsimp only
  split_ifs <;> rfl

theorem writeByte_cursor : (writeByte s cur b type).2.1.cursor = ((writeByte s cur b type).2.2 % 2 ^ 16).toNat := by
  unfold writeByte
  dsimp only
  split_ifs <;> rfl

theorem wrapped_range (h : 0 ≤ cur) : 0 ≤ wrapped cur ∧ wrapped cur < row * col := by
  unfold wrapped row col
  split_ifs <;> omega

theorem onScreen_nil (h : 0 ≤ cur ∧ cur < row * col) : OnScreen type [] cur :=
  ⟨by simp, by simp, by simp, h⟩

theorem onScreen_char_iff {c : UInt8} {i cur : Int} (hi : 0 ≤ i ∧ i < row * col) (h : 0 ≤ cur ∧ cur < row * col) :
    OnScreen type [writeChar c type i] cur ↔ (0x80 ≤ c → type = 0xff) := by
  have hindex : (i % 2 ^ 16).toNat < row * col := by
    unfold row col at hi ⊢
    omega
  constructor
  · intro hon
    exact (charValue_attr_iff c type).mp (hon.attr (writeChar c type i) (List.mem_singleton_self _))
  · intro hattr
    refine ⟨?_, ?_, ?_, h⟩ <;> rw [List.forall_mem_singleton]
    · exact hindex
    · exact charValue_low c type
    · exact (charValue_attr_iff c type).mpr hattr

theorem not_onScreen_back : ¬ OnScreen type [writeChar 0x20 type (0 - 1)] (wrapped (0 - 1)) :=
  fun h => absurd (h.cursor).1 (by decide)

theorem safeByte_of_low {c : UInt8} (hb : b = c) (hc : c ≠ 0x08) (hlow : ¬ 0x80 ≤ c) : SafeByte cur b type :=
  ⟨fun h => absurd (hb ▸ h) hc, fun h => absurd (hb ▸ h) hlow⟩

theorem putByte_onScreen_iff (h : 0 ≤ cur ∧ cur < row * col) :
    OnScreen type (putByte cur b type).1 (wrapped (putByte cur b type).2) ↔ SafeByte cur b type := by
  unfold putByte SafeByte
  split_ifs with hn ht hb
  · have hline : 0 ≤ (cur.tdiv col + 1) * col := by
      have := Int.tdiv_nonneg h.1 (Int.natCast_nonneg col)
      exact Int.mul_nonneg (by omega) (Int.natCast_nonneg col)
    exact iff_of_true (onScreen_nil (wrapped_range hline)) (safeByte_of_low hn (by decide) (by decide))
  · exact iff_of_true (onScreen_nil (wrapped_range (by omega))) (safeByte_of_low ht (by decide) (by decide))
  · by_cases hzero : cur = 0
    · rw [hzero]
      exact iff_of_false not_onScreen_back fun hsafe => hsafe.1 hb rfl
    · refine iff_of_true ?_ ⟨fun _ => hzero, fun hhigh => absurd (hb ▸ hhigh) (by decide)⟩
      exact (onScreen_char_iff ⟨by omega, by omega⟩ (wrapped_range (by omega))).mpr fun habs => absurd habs (by decide)
  · rw [onScreen_char_iff h (wrapped_range (by omega))]
    exact ⟨fun hattr => ⟨fun h8 => absurd h8 hb, hattr⟩, fun hsafe => hsafe.2⟩

theorem writeByte_onScreen_iff (h : 0 ≤ cur ∧ cur < row * col) :
    OnScreen type (writeByte s cur b type).1 (writeByte s cur b type).2.2 ↔ SafeByte cur b type := by
  rw [writeByte_cells, writeByte_cur]
  exact putByte_onScreen_iff h

/-! ## The cells past the screen -/

theorem store_cells_of_ne (s : Screen) {cells : List Cell} (h : ∀ c ∈ cells, c.index ≠ i) :
    (s.store cells).cells i = s.cells i := by
  induction cells generalizing s with
  | nil => rfl
  | cons c cells ih =>
    have hrest := ih ⟨s.cursor, Function.update s.cells c.index c.value⟩ fun d hd => h d (List.mem_cons_of_mem _ hd)
    exact hrest.trans (Function.update_of_ne (h c List.mem_cons_self).symm _ _)

theorem screenCurl_past (hi : row * col ≤ i) : (screenCurl s 1).cells i = s.cells i := by
  unfold row col at hi
  have h₁ : ¬ (80 * 24 ≤ i ∧ i < 80 * 25) := by omega
  have h₂ : ¬ i < 80 * 24 := by omega
  simp only [screenCurl, row, col, h₁, h₂, if_false]

theorem writeByte_past (hi : row * col ≤ i) (h : ∀ c ∈ (writeByte s cur b type).1, c.index < row * col) :
    (writeByte s cur b type).2.1.cells i = s.cells i := by
  rw [writeByte_cells] at h
  have hstore : (s.store (putByte cur b type).1).cells i = s.cells i :=
    store_cells_of_ne s fun c hc => by have := h c hc; omega
  unfold writeByte
  dsimp only
  split_ifs
  · exact (screenCurl_past hi).trans hstore
  · exact hstore

/-! ## One call -/

theorem writeLoop_onScreen_iff (buf : List UInt8) (h : 0 ≤ cur ∧ cur < row * col) :
    (∀ r ∈ (writeLoop type s cur buf).1, OnScreen type r.1 r.2) ↔ SafeBuf type s cur buf := by
  induction buf generalizing s cur with
  | nil => exact iff_of_true (by simp [writeLoop]) trivial
  | cons b buf ih =>
    simp only [writeLoop, SafeBuf, List.forall_mem_cons, writeByte_onScreen_iff h]
    refine and_congr_right fun hsafe => ih ?_
    exact ((writeByte_onScreen_iff h).mpr hsafe).cursor

theorem writeLoop_of_safe {buf : List UInt8} (hs : s.cursor = cur) (h : 0 ≤ cur ∧ cur < row * col)
    (hsafe : SafeBuf type s cur buf) : (writeLoop type s cur buf).2.cursor < row * col ∧
      ∀ i, row * col ≤ i → (writeLoop type s cur buf).2.cells i = s.cells i := by
  induction buf generalizing s cur with
  | nil => exact ⟨show s.cursor < row * col by exact_mod_cast hs ▸ h.2, fun _ _ => rfl⟩
  | cons b buf ih =>
    have hon := (writeByte_onScreen_iff (s := s) h).mpr hsafe.1
    have hcursor : ((writeByte s cur b type).2.1.cursor : Int) = (writeByte s cur b type).2.2 := by
      have hrange := hon.cursor
      rw [writeByte_cursor]
      unfold row col at hrange
      omega
    obtain ⟨hlt, hpast⟩ := ih hcursor hon.cursor hsafe.2
    exact ⟨hlt, fun i hi => (hpast i hi).trans (writeByte_past hi hon.index)⟩

theorem mem_screenClean {c : Cell} : c ∈ (screenClean s).1 ↔ ∃ i : Nat, i < row * col ∧ writeChar 0x20 0x0f i = c := by
  simp only [screenClean, List.mem_map, List.mem_range]

theorem screenClean_cursor : (screenClean s).2.cursor = 0 := by
  simp only [screenClean, setCursor]
  decide

theorem screenClean_index {c : Cell} (hc : c ∈ (screenClean s).1) : c.index < row * col := by
  obtain ⟨i, hi, rfl⟩ := mem_screenClean.mp hc
  unfold row col at hi ⊢
  simp only [writeChar]
  omega

theorem screenClean_past (hi : row * col ≤ i) : (screenClean s).2.cells i = s.cells i := by
  have hne : ∀ c ∈ (screenClean s).1, c.index ≠ i := fun c hc => by
    have := screenClean_index hc
    omega
  simp only [screenClean] at hne
  simp only [screenClean, setCursor]
  exact store_cells_of_ne s hne

theorem screenClean_onScreen_iff : OnScreen type (screenClean s).1 0 ↔ type = 0x0f := by
  constructor
  · intro hon
    have hattr := hon.attr _ (mem_screenClean.mpr ⟨0, by decide, rfl⟩)
    exact UInt8.toBitVec_inj.mp (hattr.symm.trans (by decide))
  · rintro rfl
    refine ⟨fun c hc => screenClean_index hc, ?_, ?_, by decide⟩ <;>
      · intro c hc
        obtain ⟨i, -, rfl⟩ := mem_screenClean.mp hc
        simp only [writeChar]
        decide

theorem Call.run_onScreen_iff (c : Call) (h : s.cursor < row * col) :
    (∀ r ∈ (c.run s).1, OnScreen c.type r.1 r.2) ↔ c.Safe s := by
  have hcur : 0 ≤ (s.cursor : Int) ∧ (s.cursor : Int) < row * col := ⟨by omega, by exact_mod_cast h⟩
  unfold Call.run Call.Safe vgaWrite consoleWrite
  by_cases hvga : c.vga = true
  · by_cases hform : c.buf = [0x0c]
    · simp [hvga, hform, screenClean_onScreen_iff]
    · simpa [hvga, hform] using writeLoop_onScreen_iff c.buf hcur
  · simpa [hvga] using writeLoop_onScreen_iff c.buf hcur

theorem Call.run_of_safe {c : Call} (h : s.cursor < row * col) (hsafe : c.Safe s) :
    (c.run s).2.cursor < row * col ∧ ∀ i, row * col ≤ i → (c.run s).2.cells i = s.cells i := by
  have hcur : 0 ≤ (s.cursor : Int) ∧ (s.cursor : Int) < row * col := ⟨by omega, by exact_mod_cast h⟩
  unfold Call.Safe at hsafe
  unfold Call.run vgaWrite consoleWrite
  by_cases hform : c.vga = true ∧ c.buf = [0x0c]
  · simp only [hform, if_true]
    exact ⟨by rw [screenClean_cursor]; decide, fun i hi => screenClean_past hi⟩
  · rw [if_neg hform] at hsafe
    have hloop := writeLoop_of_safe rfl hcur hsafe
    by_cases hvga : c.vga = true
    · simpa [hvga, show c.buf ≠ [0x0c] from fun hbuf => hform ⟨hvga, hbuf⟩] using hloop
    · simpa [hvga] using hloop

/-! ## Every sequence of calls -/

/-- The writes stay on the screen exactly if every call is safe where it is made. -/
theorem staysOnScreen_iff (s : Screen) (calls : List Call) (h : s.cursor < row * col) :
    StaysOnScreen s calls ↔ SafeCalls s calls := by
  induction calls generalizing s with
  | nil => exact Iff.rfl
  | cons c calls ih =>
    unfold StaysOnScreen SafeCalls
    rw [c.run_onScreen_iff h]
    refine and_congr_right fun hsafe => ?_
    obtain ⟨hcursor, hpast⟩ := c.run_of_safe h hsafe
    rw [and_iff_right hpast]
    exact ih _ hcursor

theorem staysOnScreen_last_cell :
    (⟨1999, fun _ => 0⟩ : Screen).cursor < row * col ∧ StaysOnScreen ⟨1999, fun _ => 0⟩ [⟨true, [0x41, 0x0a], 0x0f⟩] := by
  refine ⟨by decide, (staysOnScreen_iff _ _ (by decide)).mpr ⟨?_, trivial⟩⟩
  exact ⟨⟨by decide, by decide⟩, ⟨by decide, by decide⟩, trivial⟩

/-- A backspace at the first cell writes cell 65535 and moves the cursor there. -/
theorem backspace_off_screen :
    (vgaWrite ⟨0, fun _ => 0⟩ [0x08] 0x0f).1 = [([⟨65535, 0x20, 0x0f20⟩], -1)] ∧
      (vgaWrite ⟨0, fun _ => 0⟩ [0x08] 0x0f).2.cursor = 65535 ∧
        ¬ StaysOnScreen ⟨0, fun _ => 0⟩ [⟨true, [0x08], 0x0f⟩] := by
  refine ⟨by decide, by decide, fun h => ?_⟩
  have hon := h.1 ([⟨65535, 0x20, 0x0f20⟩], -1) (by decide)
  exact absurd hon.cursor.1 (by decide)

end FengOS.Video
