import FengOS.Ext2.Lemmas.Alloc

/-!
# Allocated numbers
-/

namespace FengOS.Ext2

open FengOS.Lib

variable {fs fs' : Fs} {kind kind' : Bitmap} {i idx no : Nat} {sb : SuperBlock} {errs : ReadErrors} {buf : Mem}
  {calls : List (Bitmap × ReadErrors)}

/-! ## One allocation -/

theorem ext2Mount_spec {disk : Mem} {bad : Nat → Bool} {junk : Int} (h : ext2Mount disk bad junk = some fs) :
    fs.bad = bad ∧ 0 < fs.sb.sBlocksPerGroup ∧ 0 < fs.sb.sInodesPerGroup ∧ ∃ s, fs.sb.blockSize = 1024 * 2 ^ s := by
  unfold ext2Mount at h
  dsimp only at h
  split at h
  · cases h
  · split at h
    · cases h
    · rename_i hzero
      obtain rfl := Option.some.inj h
      simp only [not_or] at hzero
      exact ⟨rfl, Nat.pos_of_ne_zero hzero.1, Nat.pos_of_ne_zero hzero.2.1, _, Nat.shiftLeft_eq ..⟩

theorem Mounted.pos (h : Mounted sb) : 0 < sb.sBlocksPerGroup ∧ 0 < sb.sInodesPerGroup := by
  obtain ⟨disk, bad, junk, fs, hmount, rfl⟩ := h
  obtain ⟨-, hblocks, hinodes, -⟩ := ext2Mount_spec hmount
  exact ⟨hblocks, hinodes⟩

theorem bitOf_allocNo_iff (hm : Mounted sb) : firstNo sb kind ≤ (allocNo sb kind i idx).toNat ∧
    bitOf sb kind (allocNo sb kind i idx).toNat = (i, idx) ↔ Numbered sb kind i idx := by
  obtain ⟨hblocks, hinodes⟩ := hm.pos
  cases kind with
  | block =>
    simp only [allocNo, firstNo, bitOf, Numbered, Prod.mk.injEq, Int.ofNat_eq_natCast, Int.toNat_natCast,
      Nat.div_mod_unique hblocks, Nat.mul_comm i]
    omega
  | inode =>
    simp only [allocNo, firstNo, bitOf, Numbered, inodeGroup, inodeIndex, Prod.mk.injEq, Int.ofNat_eq_natCast,
      Int.toNat_natCast, Nat.div_mod_unique hinodes, Nat.mul_comm i]
    omega

theorem allocNo_nonneg (sb : SuperBlock) (kind : Bitmap) (i idx : Nat) : 0 ≤ allocNo sb kind i idx := by
  cases kind <;> exact Int.natCast_nonneg _

theorem failsFirst_iff : failsFirst errs fs = true ↔ UnreadFirst errs fs := by
  unfold failsFirst UnreadFirst
  rw [Option.getD_eq_iff]
  simp only [Bool.false_eq_true, and_false, or_false, findSome?_range]
  refine exists_congr fun i => and_congr_right fun _ => and_congr ?_ (forall₂_congr fun i' _ => ?_)
  · cases errs.fails (bitmapPos fs GroupDesc.bgInodeBitmap i) <;> simp
  · cases errs.fails (bitmapPos fs GroupDesc.bgInodeBitmap i') with
    | true => simp
    | false =>
      simp only [Bool.false_eq_true, if_false, Option.map_eq_none_iff, clearByte_full, eq_self, true_and]
      rfl

theorem allocErr_result (h : ¬ (kind = .inode ∧ UnreadFirst errs fs)) :
    AllocResult fs kind (buffers errs fs kind) (junkNo fs kind) (allocErr errs fs kind) := by
  cases kind with
  | block => exact allocBit_result fun i j k _ => blockNumber_eq fs i j k
  | inode =>
    have hread : ¬ failsFirst errs fs = true := fun hfails => h ⟨rfl, failsFirst_iff.mp hfails⟩
    rw [allocErr, allocInodeErr, if_neg hread]
    exact alloc_result fs .inode

theorem takesNo_refl {no : Int} (h : no < 0) : TakesNo fs fs kind no := by
  rw [TakesNo, if_pos h]
  exact fun _ _ _ _ _ => rfl

theorem takesNo_writeBack {no : Int} (hi : i < fs.sb.nrGroup) :
    TakesNo fs (writeBack fs kind i buf) kind no ↔ Marks fs kind i buf no := by
  unfold TakesNo Marks
  by_cases hneg : no < 0
  · rw [if_pos hneg, if_pos hneg]
    constructor
    · intro h idx hidx
      have := h kind i idx hi hidx
      rwa [bit_writeBack hidx, if_pos rfl] at this
    · intro h kind' i' idx _ hidx
      rw [bit_writeBack hidx]
      split
      case isTrue hfield => rw [h idx hidx, bit_of_field hfield]
      case isFalse => rfl
  · rw [if_neg hneg, if_neg hneg]
    constructor
    · rintro ⟨hfirst, htakes⟩
      obtain ⟨hgroup, hclear, hbits, hunshared⟩ := (writeBack_takes_iff hi htakes.index).mp htakes
      exact ⟨hfirst, hgroup, htakes.index, hclear, hbits, hunshared⟩
    · intro h
      exact ⟨h.first, (writeBack_takes_iff hi h.index).mpr ⟨h.group, h.clear, h.bits, h.unshared⟩⟩

theorem allocRight_iff (errs : ReadErrors) (fs : Fs) (kind : Bitmap) : AllocRight errs fs kind ↔ AllocCond errs fs kind := by
  unfold AllocRight AllocCond
  by_cases hunread : kind = .inode ∧ UnreadFirst errs fs
  · refine iff_of_true ?_ (Or.inl hunread)
    obtain ⟨rfl, hunread⟩ := hunread
    rw [allocErr, allocInodeErr, if_pos (failsFirst_iff.mpr hunread)]
    exact takesNo_refl (show (-1 : Int) < 0 by decide)
  · have hresult := allocErr_result hunread
    rw [or_iff_right hunread]
    generalize allocErr errs fs kind = r at hresult
    cases hresult with
    | @found i idx hclear hgood =>
      rw [takesNo_writeBack hclear.group]
      constructor
      · exact fun h => Or.inl ⟨i, idx, hclear, Or.inr h⟩
      · rintro (⟨i', idx', hclear', hcond⟩ | ⟨hfull, -⟩)
        · obtain ⟨rfl, rfl⟩ := hclear.unique hclear'
          exact hcond.resolve_left hgood
        · exact absurd hfull hclear.not_full
    | @failed i idx hclear hbad =>
      exact iff_of_true (takesNo_refl (show (-1 : Int) < 0 by decide)) (Or.inl ⟨i, idx, hclear, Or.inl hbad⟩)
    | full hfull hne hgood =>
      rw [takesNo_writeBack (Nat.sub_one_lt hne)]
      constructor
      · intro h
        exact Or.inr ⟨hfull, by rw [if_neg hne]; exact Or.inr h⟩
      · rintro (⟨i, idx, hclear, -⟩ | ⟨-, hcond⟩)
        · exact absurd hfull hclear.not_full
        · rw [if_neg hne] at hcond
          exact hcond.resolve_left hgood
    | fullFailed hfull hne hbad =>
      exact iff_of_true (takesNo_refl (show (-1 : Int) < 0 by decide))
        (Or.inr ⟨hfull, by rw [if_neg hne]; exact Or.inl hbad⟩)
    | noGroup hfull hgroups =>
      constructor
      · intro h
        refine Or.inr ⟨hfull, ?_⟩
        rw [if_pos hgroups]
        by_contra hneg
        rw [TakesNo, if_neg hneg] at h
        exact absurd h.2.group (by omega)
      · rintro (⟨i, idx, hclear, -⟩ | ⟨-, hcond⟩)
        · exact absurd hfull hclear.not_full
        · rw [if_pos hgroups] at hcond
          exact takesNo_refl hcond

/-! ## Calls that can read the bitmaps -/

theorem bitmapBuffer_of_reads (field : GroupDesc → Nat) (h : ∀ pos, errs.fails pos = false) :
    bitmapBuffer errs fs field = readBitmap fs field := by
  funext i
  cases i with
  | zero => rw [bitmapBuffer, h, if_neg (by decide)]
  | succ i => rw [bitmapBuffer, h, if_neg (by decide)]

theorem allocErr_of_reads (h : ∀ pos, errs.fails pos = false) : allocErr errs fs kind = alloc fs kind := by
  cases kind with
  | block => rw [allocErr, allocBlockErr, bitmapBuffer_of_reads _ h, alloc, allocBlock]
  | inode =>
    have hread : ¬ failsFirst errs fs = true := by
      rw [failsFirst_iff]
      rintro ⟨i, -, hfails, -⟩
      exact Bool.false_ne_true ((h _).symm.trans hfails)
    rw [allocErr, allocInodeErr, if_neg hread, alloc]

/-- If the bitmap of the group has been read, the number has to be that of the bit and the bitmap one of its own. -/
theorem marks_iff_numbered (hm : Mounted fs.sb) (h : ClearIn fs.sb (buffers errs fs kind) i idx)
    (hread : buffers errs fs kind i = readBitmap fs kind.field i) :
    Marks fs kind i (mark (buffers errs fs kind i) idx) (allocNo fs.sb kind i idx) ↔
      Numbered fs.sb kind i idx ∧ Unshared fs.sb kind i := by
  have hclear := h.clear
  rw [hread] at hclear ⊢
  change bit fs kind i idx = false at hclear
  rw [Marks, if_neg (Int.not_lt.mpr (allocNo_nonneg ..)), ← bitOf_allocNo_iff hm]
  have hbits : ∀ idx', bufBit (mark (readBitmap fs kind.field i) idx) idx' = (bit fs kind i idx' || decide (idx = idx')) :=
    fun _ => bufBit_mark
  constructor
  · intro hone
    have hidx := hone.bits idx h.index
    rw [hbits, hclear] at hidx
    have hsame : idx = (bitOf fs.sb kind (allocNo fs.sb kind i idx).toNat).2 := by simpa using hidx
    exact ⟨⟨hone.first, Prod.ext hone.group hsame.symm⟩, hone.unshared⟩
  · rintro ⟨⟨hfirst, hbit⟩, hunshared⟩
    refine ⟨hfirst, by rw [hbit], by rw [hbit]; exact h.index, by rw [hbit]; exact hclear, fun idx' _ => ?_, hunshared⟩
    rw [hbits, hbit]
    simp only [eq_comm]

/-! ## Sequences -/

theorem allocErr_sb (errs : ReadErrors) (fs : Fs) (kind : Bitmap) : (allocErr errs fs kind).2.sb = fs.sb := by
  by_cases hunread : kind = .inode ∧ UnreadFirst errs fs
  · obtain ⟨rfl, hunread⟩ := hunread
    rw [allocErr, allocInodeErr, if_pos (failsFirst_iff.mpr hunread)]
  · have hresult := allocErr_result hunread
    generalize allocErr errs fs kind = r at hresult
    cases hresult <;> rfl

theorem Used.mono (hsb : fs'.sb = fs.sb) (h : Used fs kind no)
    (hset : bit fs' kind (bitOf fs.sb kind no).1 (bitOf fs.sb kind no).2 = true) : Used fs' kind no :=
  ⟨hsb ▸ h.first, hsb ▸ h.group, hsb ▸ h.index, by rw [hsb]; exact hset⟩

theorem TakesNo.used {no : Int} (h : TakesNo fs fs' kind no) (hsb : fs'.sb = fs.sb) :
    (∀ kind' no', Used fs kind' no' → Used fs' kind' no') ∧ (0 ≤ no → ¬ Used fs kind no.toNat ∧ Used fs' kind no.toNat) := by
  by_cases hneg : no < 0
  · rw [TakesNo, if_pos hneg] at h
    refine ⟨fun kind' no' hused => hused.mono hsb ?_, fun hno => absurd hno (Int.not_le.mpr hneg)⟩
    rw [h _ _ _ hused.group hused.index]
    exact hused.set
  · rw [TakesNo, if_neg hneg] at h
    obtain ⟨hfirst, htakes⟩ := h
    refine ⟨fun kind' no' hused => hused.mono hsb ?_, fun _ => ⟨fun hused => ?_, ?_⟩⟩
    · by_cases he : (kind', bitOf fs.sb kind' no') = (kind, bitOf fs.sb kind no.toNat)
      · obtain ⟨rfl, hbit⟩ := Prod.mk.inj he
        rw [hbit]
        exact htakes.set
      · rw [htakes.other kind' _ _ hused.group hused.index he]
        exact hused.set
    · exact Bool.false_ne_true (htakes.clear.symm.trans hused.set)
    · refine ⟨hsb ▸ hfirst, hsb ▸ htakes.group, hsb ▸ htakes.index, ?_⟩
      rw [hsb]
      exact htakes.set

theorem allocs_cons : allocs fs ((kind, errs) :: calls) = ((allocErr errs fs kind).1 ::
    (allocs (allocErr errs fs kind).2 calls).1, (allocs (allocErr errs fs kind).2 calls).2) := rfl

theorem allocs_fresh (hconds : AllocConds fs calls) :
    (∀ p ∈ (calls.map Prod.fst).zip (allocs fs calls).1, 0 ≤ p.2 → ¬ Used fs p.1 p.2.toNat) ∧
      ((calls.map Prod.fst).zip (allocs fs calls).1).Pairwise fun p q => p.1 = q.1 → 0 ≤ p.2 → 0 ≤ q.2 → p.2 ≠ q.2 := by
  induction calls generalizing fs with
  | nil => exact ⟨fun _ hp => absurd hp List.not_mem_nil, .nil⟩
  | cons call calls ih =>
    obtain ⟨kind, errs⟩ := call
    obtain ⟨hcond, hconds'⟩ := hconds
    obtain ⟨hmono, hnew⟩ := ((allocRight_iff errs fs kind).mpr hcond).used (allocErr_sb errs fs kind)
    obtain ⟨hfresh, hpairwise⟩ := ih hconds'
    rw [allocs_cons, List.map_cons, List.zip_cons_cons, List.forall_mem_cons, List.pairwise_cons]
    refine ⟨⟨fun hno => (hnew hno).1, fun p hp hno hused => hfresh p hp hno (hmono _ _ hused)⟩, ?_, hpairwise⟩
    rintro p hp rfl hno hno' he
    -- what the later call returned would be allocated by then
    exact hfresh p hp hno' (he ▸ (hnew hno).2)

/-- An image with one group: the super block, the group descriptor, the block bitmap in block 3, the inode bitmap in
block 4 and the inodes from block 5 on. -/
def smallImage (log firstDataBlock blocksPerGroup : Nat) (bitmap : Nat) : Mem :=
  let blockSize := 1024 <<< log
  let super := [(4, 64, 4), (20, firstDataBlock, 4), (24, log, 4), (32, blocksPerGroup, 4), (40, 16, 4),
    (56, ext2SuperMagic, 2), (88, 128, 2)]
  let disk : Mem := super.foldl (fun disk field => Mem.store disk (1024 + field.1) field.2.1 field.2.2) fun _ => 0
  let table := (firstDataBlock + 1) * blockSize
  (((disk.store table 3 4).store (table + 4) 4 4).store (table + 8) 5 4).store (3 * blockSize) bitmap 1

/-- The reads succeed, and they fail. -/
def readable : ReadErrors := ⟨fun _ => false, fun _ => 0⟩
def unreadable : ReadErrors := ⟨fun _ => true, fun _ => 0⟩

end FengOS.Ext2
