import FengOS.Ext2.Alloc

/-!
# The search for a clear bit
-/

namespace FengOS.Ext2

open FengOS.Lib

variable {fs fs' : Fs} {kind kind' : Bitmap} {i i' j k idx idx' : Nat} {α : Type} {n : Nat} {sb : SuperBlock} {buf : Mem}
  {buffer : Nat → Mem}

/-! ## The loops -/

theorem findSome?_range {f : Nat → Option α} {b : α} :
    (List.range n).findSome? f = some b ↔ ∃ i < n, f i = some b ∧ ∀ i' < i, f i' = none := by
  induction n with
  | zero => simp
  | succ n ih =>
    rw [List.range_succ, List.findSome?_append, Option.or_eq_some_iff, ih]
    simp only [List.findSome?_eq_none_iff, List.mem_range, List.findSome?_singleton]
    constructor
    · rintro (⟨i, hi, hb, hbefore⟩ | ⟨hnone, hb⟩)
      · exact ⟨i, by omega, hb, hbefore⟩
      · exact ⟨n, by omega, hb, hnone⟩
    · rintro ⟨i, hi, hb, hbefore⟩
      rcases Nat.lt_succ_iff_lt_or_eq.mp hi with hlt | rfl
      · exact Or.inl ⟨i, hlt, hb, hbefore⟩
      · exact Or.inr ⟨hbefore, hb⟩

theorem clearBit_eq_some {val : UInt8} :
    clearBit val = some k ↔ k < 8 ∧ val.toNat.testBit k = false ∧ ∀ k' < k, val.toNat.testBit k' = true := by
  rw [clearBit, List.find?_range_eq_some]
  simp only [Bool.not_eq_true', List.mem_range, Bool.not_not]
  exact and_left_comm

theorem clearBit_eq_none {val : UInt8} : clearBit val = none ↔ ∀ k < 8, val.toNat.testBit k = true := by
  simp [clearBit]

theorem clearByte_eq_some {bitmap : Mem} {bs : Nat} : clearByte bitmap bs = some (j, k) ↔
    j < bs ∧ clearBit (bitmap j) = some k ∧ ∀ j' < j, clearBit (bitmap j') = none := by
  rw [clearByte, findSome?_range]
  constructor
  · rintro ⟨j', hj', hjk, hbefore⟩
    obtain ⟨k', hk', he⟩ := Option.map_eq_some_iff.mp hjk
    cases he
    exact ⟨hj', hk', fun j' hj' => Option.map_eq_none_iff.mp (hbefore j' hj')⟩
  · rintro ⟨hj, hk, hbefore⟩
    exact ⟨j, hj, by rw [hk]; rfl, fun j' hj' => by rw [hbefore j' hj']; rfl⟩

theorem clearByte_eq_none {bitmap : Mem} {bs : Nat} : clearByte bitmap bs = none ↔ ∀ j < bs, clearBit (bitmap j) = none := by
  simp [clearByte]

theorem bufBit_byte (buf : Mem) (hk : k < 8) : bufBit buf (8 * j + k) = (buf j).toNat.testBit k := by
  have hdiv : (8 * j + k) / 8 = j := by omega
  have hmod : (8 * j + k) % 8 = k := by omega
  rw [bufBit, hdiv, hmod]

theorem clearByte_full {bs : Nat} : clearByte buf bs = none ↔ ∀ idx < 8 * bs, bufBit buf idx = true := by
  simp only [clearByte_eq_none, clearBit_eq_none]
  constructor
  · intro h idx hidx
    exact h (idx / 8) (by omega) (idx % 8) (by omega)
  · intro h j hj k hk
    rw [← bufBit_byte buf hk]
    exact h _ (by omega)

theorem clearGroup_eq_some : clearGroup fs buffer = some (i, j, k) ↔ k < 8 ∧ ClearIn fs.sb buffer i (8 * j + k) := by
  rw [clearGroup, findSome?_range]
  constructor
  · rintro ⟨i', hi', hjk, hgroups⟩
    obtain ⟨jk, hjk, he⟩ := Option.map_eq_some_iff.mp hjk
    cases he
    obtain ⟨hj, hk, hbytes⟩ := clearByte_eq_some.mp hjk
    obtain ⟨hk8, hclear, hbits⟩ := clearBit_eq_some.mp hk
    refine ⟨hk8, hi', by omega, (bufBit_byte _ hk8).trans hclear, fun i' hi' => ?_, fun idx' hidx' => ?_⟩
    · exact clearByte_full.mp (Option.map_eq_none_iff.mp (hgroups i' hi'))
    · rw [bufBit]
      rcases Nat.lt_or_ge (idx' / 8) j with hlt | hge
      · exact clearBit_eq_none.mp (hbytes _ hlt) _ (by omega)
      · obtain rfl : idx' / 8 = j := by omega
        exact hbits _ (by omega)
  · rintro ⟨hk8, h⟩
    have hindex := h.index
    refine ⟨i, h.group, ?_, fun i' hi' => Option.map_eq_none_iff.mpr (clearByte_full.mpr (h.groups i' hi'))⟩
    refine Option.map_eq_some_iff.mpr ⟨(j, k), clearByte_eq_some.mpr ⟨by omega, ?_, fun j' hj' => ?_⟩, rfl⟩
    · refine clearBit_eq_some.mpr ⟨hk8, (bufBit_byte _ hk8).symm.trans h.clear, fun k' hk' => ?_⟩
      exact (bufBit_byte _ (by omega)).symm.trans (h.before _ (by omega))
    · exact clearBit_eq_none.mpr fun k' hk' => (bufBit_byte _ hk').symm.trans (h.before _ (by omega))

theorem clearGroup_eq_none : clearGroup fs buffer = none ↔ FullIn fs.sb buffer := by
  simp only [clearGroup, List.findSome?_eq_none_iff, List.mem_range, Option.map_eq_none_iff, clearByte_full]
  rfl

theorem ClearIn.unique (h : ClearIn sb buffer i idx) (h' : ClearIn sb buffer i' idx') : i = i' ∧ idx = idx' := by
  have hsame : ∀ {i idx i' idx'}, ClearIn sb buffer i idx → ClearIn sb buffer i' idx' → ¬ i < i' := by
    intro i idx i' idx' h h' hlt
    exact Bool.false_ne_true (h.clear.symm.trans (h'.groups i hlt idx h.index))
  obtain rfl : i = i' := by
    have := hsame h h'
    have := hsame h' h
    omega
  refine ⟨rfl, ?_⟩
  rcases Nat.lt_trichotomy idx idx' with hlt | heq | hlt
  · exact absurd (h.clear.symm.trans (h'.before idx hlt)) Bool.false_ne_true
  · exact heq
  · exact absurd (h'.clear.symm.trans (h.before idx' hlt)) Bool.false_ne_true

theorem ClearIn.not_full (h : ClearIn sb buffer i idx) : ¬ FullIn sb buffer :=
  fun hall => Bool.false_ne_true (h.clear.symm.trans (hall i h.group idx h.index))

/-! ### Bitmaps that are read -/

theorem firstClear_iff : FirstClear fs kind i idx ↔ ClearIn fs.sb (readBitmap fs kind.field) i idx := by
  constructor
  · exact fun h => ⟨h.group, h.index, h.clear, h.groups, h.before⟩
  · exact fun h => ⟨h.group, h.index, h.clear, h.groups, h.before⟩

theorem FirstClear.unique (h : FirstClear fs kind i idx) (h' : FirstClear fs kind i' idx') : i = i' ∧ idx = idx' :=
  (firstClear_iff.mp h).unique (firstClear_iff.mp h')

/-! ## The write -/

theorem mul_add_inj {a b x y bs : Nat} (hx : x < bs) (hy : y < bs) (h : a * bs + x = b * bs + y) : a = b ∧ x = y := by
  have hpos : 0 < bs := by omega
  have hdiv := congrArg (· / bs) h
  have hmod := congrArg (· % bs) h
  simp only [Nat.mul_comm a, Nat.mul_comm b, Nat.mul_add_div hpos, Nat.mul_add_mod, Nat.div_eq_of_lt hx,
    Nat.div_eq_of_lt hy, Nat.mod_eq_of_lt hx, Nat.mod_eq_of_lt hy, Nat.add_zero] at hdiv hmod
  exact ⟨hdiv, hmod⟩

theorem write_bdevRead {disk : Mem} {pos off n bs : Nat} {data : Nat → UInt8} (h : off + n ≤ bs) :
    disk.write pos ((bdevRead disk pos).write off data n) bs = disk.write (pos + off) data n := Mem.write_window h

theorem write_update {disk : Mem} {pos bs : Nat} {v : UInt8} (hj : j < bs) :
    disk.write pos (Function.update (bdevRead disk pos) j v) bs = Function.update disk (pos + j) v := by
  have hone : Function.update (bdevRead disk pos) j v = (bdevRead disk pos).write j (fun _ => v) 1 := by
    rw [Mem.write_one]
  rw [hone, write_bdevRead hj, Mem.write_one]

theorem write_bdevRead_self {disk : Mem} {pos bs : Nat} : disk.write pos (bdevRead disk pos) bs = disk := by
  have h : disk.write pos ((bdevRead disk pos).write 0 (fun _ => 0) 0) bs = disk.write (pos + 0) (fun _ => 0) 0 :=
    write_bdevRead (Nat.zero_le bs)
  rwa [Mem.write_zero, Mem.write_zero] at h

def setBit (fs : Fs) (kind : Bitmap) (i idx : Nat) : Fs :=
  let addr := kind.field (fs.sb.groupDescTable i) * fs.sb.blockSize + idx / 8
  { fs with disk := Function.update fs.disk addr (fs.disk addr ||| UInt8.ofNat (1 <<< (idx % 8))) }

/-- The bitmap of the group is written from this buffer. -/
def writeBack (fs : Fs) (kind : Bitmap) (i : Nat) (buf : Mem) : Fs :=
  { fs with disk := fs.disk.write (bitmapPos fs kind.field i) buf fs.sb.blockSize }

theorem writeBack_mark (h : idx < 8 * fs.sb.blockSize) :
    writeBack fs kind i (mark (readBitmap fs kind.field i) idx) = setBit fs kind i idx := by
  unfold writeBack mark
  rw [readBitmap, write_update (by omega)]
  rfl

theorem writeBack_self : writeBack fs kind i (readBitmap fs kind.field i) = fs := by
  unfold writeBack
  rw [readBitmap, write_bdevRead_self]

inductive AllocResult (fs : Fs) (kind : Bitmap) (buffer : Nat → Mem) (junk : Int) : Int × Fs → Prop
  | found {i idx : Nat} : ClearIn fs.sb buffer i idx → ¬ BadBitmap fs kind i →
      AllocResult fs kind buffer junk (allocNo fs.sb kind i idx, writeBack fs kind i (mark (buffer i) idx))
  | failed {i idx : Nat} : ClearIn fs.sb buffer i idx → BadBitmap fs kind i → AllocResult fs kind buffer junk (-1, fs)
  | full : FullIn fs.sb buffer → fs.sb.nrGroup ≠ 0 → ¬ BadBitmap fs kind (fs.sb.nrGroup - 1) →
      AllocResult fs kind buffer junk (junk, writeBack fs kind (fs.sb.nrGroup - 1) (buffer (fs.sb.nrGroup - 1)))
  | fullFailed : FullIn fs.sb buffer → fs.sb.nrGroup ≠ 0 → BadBitmap fs kind (fs.sb.nrGroup - 1) →
      AllocResult fs kind buffer junk (-1, fs)
  | noGroup : FullIn fs.sb buffer → fs.sb.nrGroup = 0 → AllocResult fs kind buffer junk (junk, fs)

theorem allocBit_result {number : Nat → Nat → Nat → Int} {junk : Int}
    (hnumber : ∀ i j k, k < 8 → number i j k = allocNo fs.sb kind i (8 * j + k)) :
    AllocResult fs kind buffer junk (allocBit fs kind.field buffer number junk) := by
  unfold allocBit
  cases hclear : clearGroup fs buffer with
  | none =>
    have hfull := clearGroup_eq_none.mp hclear
    dsimp only [bdevWrite]
    by_cases hgroups : fs.sb.nrGroup = 0
    · rw [if_pos hgroups]
      exact .noGroup hfull hgroups
    · rw [if_neg hgroups]
      by_cases hbad : fs.bad (bitmapPos fs kind.field (fs.sb.nrGroup - 1))
      · rw [if_pos hbad]
        exact .fullFailed hfull hgroups hbad
      · rw [if_neg hbad]
        exact .full hfull hgroups hbad
  | some r =>
    obtain ⟨i, j, k⟩ := r
    obtain ⟨hk, hfirst⟩ := clearGroup_eq_some.mp hclear
    dsimp only [bdevWrite]
    by_cases hbad : fs.bad (bitmapPos fs kind.field i)
    · rw [if_pos hbad]
      exact .failed hfirst hbad
    · rw [if_neg hbad]
      dsimp only
      have hdiv : (8 * j + k) / 8 = j := by omega
      have hmod : (8 * j + k) % 8 = k := by omega
      have hfound : AllocResult fs kind buffer junk
          (allocNo fs.sb kind i (8 * j + k), writeBack fs kind i (mark (buffer i) (8 * j + k))) := .found hfirst hbad
      rw [mark, hdiv, hmod, ← hnumber i j k hk] at hfound
      exact hfound

theorem blockNumber_eq (fs : Fs) (i j k : Nat) : blockNumber fs i j k = allocNo fs.sb .block i (8 * j + k) := by
  rw [blockNumber, allocNo, Nat.add_assoc, Nat.mul_comm j]

theorem inodeNumber_eq (fs : Fs) (i j k : Nat) : inodeNumber fs i j k = allocNo fs.sb .inode i (8 * j + k) := by
  rw [inodeNumber, allocNo, Nat.add_assoc (i * _), Nat.mul_comm j]

theorem alloc_result (fs : Fs) (kind : Bitmap) :
    AllocResult fs kind (readBitmap fs kind.field) (junkNo fs kind) (alloc fs kind) := by
  cases kind with
  | block => exact allocBit_result fun i j k _ => blockNumber_eq fs i j k
  | inode => exact allocBit_result fun i j k _ => inodeNumber_eq fs i j k

theorem alloc_eq (h : FirstClear fs kind i idx) (hgood : ¬ BadBitmap fs kind i) :
    alloc fs kind = (allocNo fs.sb kind i idx, setBit fs kind i idx) := by
  have hresult := alloc_result fs kind
  have hclear := firstClear_iff.mp h
  generalize alloc fs kind = r at hresult
  cases hresult with
  | found h' =>
    obtain ⟨rfl, rfl⟩ := hclear.unique h'
    rw [writeBack_mark h.index]
  | failed h' hbad =>
    obtain ⟨rfl, rfl⟩ := hclear.unique h'
    exact absurd hbad hgood
  | full hall => exact absurd hall hclear.not_full
  | fullFailed hall => exact absurd hall hclear.not_full
  | noGroup hall => exact absurd hall hclear.not_full

theorem alloc_of_allSet (h : AllSet fs kind) : (alloc fs kind).2 = fs ∧ ((alloc fs kind).1 = junkNo fs kind ∨
    fs.sb.nrGroup ≠ 0 ∧ BadBitmap fs kind (fs.sb.nrGroup - 1) ∧ (alloc fs kind).1 = -1) := by
  have hresult := alloc_result fs kind
  generalize alloc fs kind = r at hresult
  cases hresult with
  | found hfirst => exact absurd h hfirst.not_full
  | failed hfirst => exact absurd h hfirst.not_full
  | full => exact ⟨writeBack_self, Or.inl rfl⟩
  | fullFailed _ hne hbad => exact ⟨rfl, Or.inr ⟨hne, hbad, rfl⟩⟩
  | noGroup => exact ⟨rfl, Or.inl rfl⟩

theorem alloc_sb (fs : Fs) (kind : Bitmap) : (alloc fs kind).2.sb = fs.sb := by
  have hresult := alloc_result fs kind
  generalize alloc fs kind = r at hresult
  cases hresult <;> rfl

/-! ## Bits after the write -/

theorem testBit_or_ofNat {v : UInt8} {k k' : Nat} (hk : k < 8) :
    (v ||| UInt8.ofNat (1 <<< k)).toNat.testBit k' = (v.toNat.testBit k' || decide (k = k')) := by
  have hpow : (1 <<< k) % 2 ^ 8 = 2 ^ k := by
    rw [Nat.shiftLeft_eq, Nat.one_mul]
    exact Nat.mod_eq_of_lt (Nat.pow_lt_pow_right (by decide) hk)
  rw [UInt8.toNat_or, Nat.testBit_or, UInt8.toNat_ofNat', hpow, Nat.testBit_two_pow]

theorem bufBit_mark : bufBit (mark buf idx) idx' = (bufBit buf idx' || decide (idx = idx')) := by
  unfold bufBit mark
  by_cases hbyte : idx' / 8 = idx / 8
  · have hiff : idx % 8 = idx' % 8 ↔ idx = idx' := by omega
    rw [hbyte, Function.update_self, testBit_or_ofNat (by omega)]
    simp [hiff]
  · have hne : idx ≠ idx' := fun h => hbyte (by rw [h])
    rw [Function.update_of_ne hbyte]
    simp [hne]

theorem bit_writeBack (h : idx' < 8 * fs.sb.blockSize) : bit (writeBack fs kind i buf) kind' i' idx' =
    if kind'.field (fs.sb.groupDescTable i') = kind.field (fs.sb.groupDescTable i) then bufBit buf idx'
    else bit fs kind' i' idx' := by
  have hbyte : idx' / 8 < fs.sb.blockSize := by omega
  unfold bit writeBack bitmapPos
  dsimp only
  split
  case isTrue hfield => rw [hfield, Mem.write_add hbyte, bufBit]
  case isFalse hfield =>
    have := block_disjoint fs.sb.blockSize hfield
    rw [Mem.write_apply (by omega)]

theorem bit_of_field (h : kind'.field (fs.sb.groupDescTable i') = kind.field (fs.sb.groupDescTable i)) :
    bit fs kind' i' idx = bit fs kind i idx := by
  rw [bit, bit, h]

theorem writeBack_takes_iff {i₀ idx₀ : Nat} (hi : i < fs.sb.nrGroup) (h₀ : idx₀ < 8 * fs.sb.blockSize) :
    Takes fs (writeBack fs kind i buf) kind i₀ idx₀ ↔ i₀ = i ∧ bit fs kind i idx₀ = false ∧
      (∀ idx < 8 * fs.sb.blockSize, bufBit buf idx = (bit fs kind i idx || decide (idx = idx₀))) ∧ Unshared fs.sb kind i := by
  constructor
  · intro ht
    have hset := ht.set
    rw [bit_writeBack h₀] at hset
    -- the bit has changed, so that it is in the block that is written
    have hfield : kind.field (fs.sb.groupDescTable i₀) = kind.field (fs.sb.groupDescTable i) := by
      by_contra hne
      rw [if_neg hne, ht.clear] at hset
      cases hset
    rw [if_pos hfield] at hset
    have hclear : bit fs kind i idx₀ = false := (bit_of_field hfield).symm.trans ht.clear
    -- and so has the bit of every other bitmap in this block
    have hshared : ∀ kind' i', i' < fs.sb.nrGroup →
        kind'.field (fs.sb.groupDescTable i') = kind.field (fs.sb.groupDescTable i) → (kind', i') = (kind, i₀) := by
      intro kind' i' hi' hfield'
      by_contra hne
      have hkeep := ht.other kind' i' idx₀ hi' h₀ fun he => hne (by cases he; rfl)
      rw [bit_writeBack h₀, if_pos hfield', hset, bit_of_field hfield', hclear] at hkeep
      cases hkeep
    obtain rfl : i = i₀ := (Prod.mk.inj (hshared kind i hi rfl)).2
    refine ⟨rfl, hclear, fun idx hidx => ?_, fun kind' i' hi' hne hfield' => hne (hshared kind' i' hi' hfield')⟩
    by_cases he : idx = idx₀
    · rw [he, hset]
      simp
    · have hkeep := ht.other kind i idx hi hidx fun h => he (by cases h; rfl)
      rw [bit_writeBack hidx, if_pos rfl] at hkeep
      simp [hkeep, he]
  · rintro ⟨rfl, hclear, hbits, hunshared⟩
    refine ⟨hi, h₀, hclear, ?_, fun kind' i' idx' hi' hidx' hne => ?_⟩
    · rw [bit_writeBack h₀, if_pos rfl, hbits _ h₀]
      simp
    · rw [bit_writeBack hidx']
      by_cases hsame : (kind', i') = (kind, i₀)
      · cases hsame
        rw [if_pos rfl, hbits _ hidx']
        have : idx' ≠ idx₀ := fun h => hne (by rw [h])
        simp [this]
      · rw [if_neg (hunshared kind' i' hi' hsame)]

end FengOS.Ext2
