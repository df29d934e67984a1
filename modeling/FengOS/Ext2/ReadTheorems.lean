import FengOS.Ext2.Read
import FengOS.Ext2.FileTheorems

/-!
# `ext2_read`
-/

namespace FengOS.Ext2

open FengOS.Lib

variable {fs : Fs} {inode : Inode} {no : Nat → Int} {ino n block offset size fuel pos : Nat} {bytes : List UInt8}

/-! ## The numbers of `get_block_no` -/

theorem Completes.range (h : Completes fs inode no) (n : Nat) : -1 ≤ no n ∧ no n < 2 ^ 32 := by
  cases hn : getBlockNo fs inode n with
  | none =>
    have := h.none n hn
    omega
  | some b =>
    rw [h.some n b hn]
    exact getBlockNo_range hn

theorem completes_getD (fs : Fs) (inode : Inode) {k : Int} (hk : 0 ≤ k ∧ k < 2 ^ 32) :
    Completes fs inode fun n => (getBlockNo fs inode n).getD k :=
  ⟨fun n b hb => by rw [hb, Option.getD_some], fun n hn => by rw [hn, Option.getD_none]; exact hk⟩

theorem toNat_eq_zero {b : Int} (h : -1 ≤ b ∧ b < 2 ^ 32) : (b % 2 ^ 64).toNat = 0 ↔ b = 0 := by omega

/-! ## The loop -/

theorem within_div {bs x : Nat} (h : offset + x < bs) : (block * bs + offset + x) / bs = block := by
  rw [Nat.add_assoc, Nat.mul_comm, Nat.mul_add_div (by omega), Nat.div_eq_of_lt h, Nat.add_zero]

theorem within_mod {bs x : Nat} (h : offset + x < bs) : (block * bs + offset + x) % bs = offset + x := by
  rw [Nat.add_assoc, Nat.mul_comm, Nat.mul_add_mod, Nat.mod_eq_of_lt h]

theorem storedLoop_of_readLoop (hno : Completes fs inode no) (h : readLoop fs inode fuel block offset size = some bytes) :
    storedLoop fs no fuel block offset size = bytes := by
  induction fuel generalizing block offset size bytes with
  | zero => exact Option.some.inj h
  | succ fuel ih =>
    rw [readLoop] at h
    rw [storedLoop]
    dsimp only
    by_cases hsize : size = 0
    · rw [if_pos hsize] at h
      rw [if_pos (.inl hsize)]
      exact Option.some.inj h
    · rw [if_neg hsize, getblock] at h
      cases hb : getBlockNo fs inode (block % 2 ^ 32) with
      | none => rw [hb] at h; cases h
      | some b =>
        rw [hb, Option.map_some] at h
        rw [hno.some _ b hb]
        dsimp only at h
        by_cases hzero : (b % 2 ^ 64).toNat = 0
        · rw [if_pos hzero] at h
          rw [if_pos (.inr hzero)]
          exact Option.some.inj h
        · rw [if_neg hzero] at h
          rw [if_neg (by simp only [hsize, hzero, or_self, not_false_eq_true])]
          obtain ⟨rest, hrest, rfl⟩ := Option.map_eq_some_iff.mp h
          rw [ih hrest]
          rfl

def storedByte (fs : Fs) (no : Nat → Int) (q : Nat) : UInt8 :=
  fs.disk ((no (q / fs.sb.blockSize % 2 ^ 32) % 2 ^ 64).toNat * fs.sb.blockSize % 2 ^ 64 + q % fs.sb.blockSize)

/-- The loop stores the bytes from its start on, and ends early only at a block with number 0. -/
structure Stored (fs : Fs) (no : Nat → Int) (p size : Nat) (bytes : List UInt8) (len : Nat) : Prop where
  le : len ≤ size
  bytes : bytes = (List.range len).map fun x => storedByte fs no (p + x)
  blocks : ∀ x < len, no ((p + x) / fs.sb.blockSize % 2 ^ 32) ≠ 0
  hole : len < size → no ((p + len) / fs.sb.blockSize % 2 ^ 32) = 0 ∧ (len = 0 ∨ fs.sb.blockSize ∣ p + len)

theorem Stored.congr {fs' : Fs} {p len : Nat} (h : Stored fs' no p size bytes len) (hsb : fs'.sb = fs.sb)
    (hdisk : fs'.disk = fs.disk) : Stored fs no p size bytes len := by
  have hbyte : ∀ q, storedByte fs' no q = storedByte fs no q := fun q => by rw [storedByte, storedByte, hsb, hdisk]
  refine ⟨h.le, ?_, ?_, ?_⟩
  · simpa only [hbyte] using h.bytes
  · simpa only [hsb] using h.blocks
  · simpa only [hsb] using h.hole

theorem storedLoop_spec (fs : Fs) (block : Nat) (hno : ∀ n, -1 ≤ no n ∧ no n < 2 ^ 32) (hoff : offset < fs.sb.blockSize) (hfuel : size ≤ fuel) :
    ∃ len, Stored fs no (block * fs.sb.blockSize + offset) size (storedLoop fs no fuel block offset size) len := by
  induction fuel generalizing block offset size with
  | zero => exact ⟨0, Nat.zero_le _, rfl, nofun, fun h => by omega⟩
  | succ fuel ih =>
    rw [storedLoop]
    dsimp only
    by_cases hsize : size = 0
    · rw [if_pos (.inl hsize)]
      exact ⟨0, Nat.zero_le _, rfl, nofun, fun h => by omega⟩
    by_cases hzero : (no (block % 2 ^ 32) % 2 ^ 64).toNat = 0
    · rw [if_pos (.inr hzero)]
      refine ⟨0, Nat.zero_le _, rfl, nofun, fun _ => ⟨?_, .inl rfl⟩⟩
      rw [within_div (x := 0) (by omega)]
      exact (toNat_eq_zero (hno _)).mp hzero
    rw [if_neg (by simp only [hsize, hzero, or_self, not_false_eq_true])]
    obtain ⟨len, h⟩ := ih (block + 1) (show 0 < fs.sb.blockSize by omega)
      (show size - min (fs.sb.blockSize - offset) size ≤ fuel by omega)
    have hle := h.le
    have hnext : len ≠ 0 ∨ len < size - min (fs.sb.blockSize - offset) size →
        (block + 1) * fs.sb.blockSize + 0 = block * fs.sb.blockSize + offset + min (fs.sb.blockSize - offset) size := by
      intro hlen
      rw [Nat.add_mul, Nat.one_mul]
      omega
    refine ⟨min (fs.sb.blockSize - offset) size + len, by omega, ?_, fun x hx => ?_, fun hlt => ?_⟩
    · rw [h.bytes, List.range_add, List.map_append, List.map_map]
      congr 1
      · refine List.map_congr_left fun x hx => ?_
        have hx := List.mem_range.mp hx
        rw [storedByte, within_div (by omega), within_mod (by omega)]
      · refine List.map_congr_left fun x hx => ?_
        have hx := List.mem_range.mp hx
        rw [hnext (.inl (by omega)), Nat.add_assoc]
        rfl
    · by_cases hfirst : x < min (fs.sb.blockSize - offset) size
      · rw [within_div (by omega)]
        exact fun hb => hzero ((toNat_eq_zero (hno _)).mpr hb)
      · have := h.blocks (x - min (fs.sb.blockSize - offset) size) (by omega)
        rwa [hnext (.inl (by omega)), Nat.add_assoc, Nat.add_sub_cancel' (by omega)] at this
    · obtain ⟨hhole, hlen⟩ := h.hole (by omega)
      have hstart := hnext (.inr (by omega))
      rw [hstart, Nat.add_assoc] at hhole hlen
      refine ⟨hhole, .inr ?_⟩
      rcases hlen with rfl | hdvd
      · rw [Nat.add_zero, ← hstart]
        exact Nat.dvd_mul_left _ _
      · exact hdvd

/-! ## Bounds -/

/-- What `ext2_read` stores; `size` has been cut off at the end of the file unless the sum overflows. -/
theorem storedBytes_spec (size : Nat) (hno : Completes fs (getinode fs ino).1 no) (hbs : 0 < fs.sb.blockSize)
    (hpos : pos < iSize (getinode fs ino).1) :
    ∃ len, Stored fs no pos (if (pos + size) % 2 ^ 64 ≥ iSize (getinode fs ino).1 then iSize (getinode fs ino).1 - pos else size)
      (storedBytes fs ino no pos size) len := by
  obtain ⟨hsb, hdisk, -⟩ := getinode_frame fs ino
  have hin : ¬ ((pos : Int) < 0 ∨ (pos : Int) ≥ iSize (getinode fs ino).1) := by omega
  rw [storedBytes]
  dsimp only
  rw [if_neg hin, Int.toNat_natCast, hsb]
  generalize (if (pos + size) % 2 ^ 64 ≥ iSize (getinode fs ino).1 then iSize (getinode fs ino).1 - pos else size) = size'
  obtain ⟨len, h⟩ := storedLoop_spec (getinode fs ino).2 (pos / fs.sb.blockSize) hno.range
    (by rw [hsb]; exact Nat.mod_lt pos hbs) (Nat.le_refl size')
  refine ⟨len, ?_⟩
  rw [hsb, Nat.mul_comm, Nat.div_add_mod] at h
  exact h.congr hsb hdisk

/-- Exactly if the position is outside, the sum does not overflow, or a block without a number ends the read in time. -/
theorem ext2_read_bounded_iff {fs : Fs} (ino : Nat) (pos : Int) {size : Nat} (hbs : 0 < fs.sb.blockSize)
    (hsize : size < 2 ^ 64) : ReadBounded fs ino pos size ↔
      pos < 0 ∨ iSize (getinode fs ino).1 ≤ pos ∨ pos + size < 2 ^ 64 ∨
        ∃ k, pos.toNat / fs.sb.blockSize ≤ k ∧ k * fs.sb.blockSize ≤ iSize (getinode fs ino).1 ∧
          getBlockNo fs (getinode fs ino).1 k = some 0 := by
  have hlt : iSize (getinode fs ino).1 < 2 ^ 32 := iSize_lt
  by_cases hin : pos < 0 ∨ pos ≥ iSize (getinode fs ino).1
  · refine iff_of_true (fun no _ => ?_) (by omega)
    rw [storedBytes]
    dsimp only
    rw [if_pos hin]
    exact Int.le_max_left _ _
  obtain ⟨p, rfl⟩ := Int.eq_ofNat_of_zero_le (show 0 ≤ pos by omega)
  have hp : p < iSize (getinode fs ino).1 := by omega
  rw [Int.toNat_natCast]
  by_cases hover : p + size < 2 ^ 64
  · refine iff_of_true (fun no hno => ?_) (by omega)
    obtain ⟨len, h⟩ := storedBytes_spec size hno hbs hp
    have hle := h.le
    rw [h.bytes, List.length_map, List.length_range]
    rw [Nat.mod_eq_of_lt hover] at hle
    split at hle <;> omega
  · have hwrap : ¬ (p + size) % 2 ^ 64 ≥ iSize (getinode fs ino).1 := by omega
    constructor
    · intro h
      have hno := completes_getD fs (getinode fs ino).1 (show 0 ≤ (1 : Int) ∧ (1 : Int) < 2 ^ 32 by decide)
      have hbound := h _ hno
      obtain ⟨len, hst⟩ := storedBytes_spec size hno hbs hp
      rw [hst.bytes, List.length_map, List.length_range] at hbound
      rw [if_neg hwrap] at hst
      obtain ⟨hhole, -⟩ := hst.hole (by omega)
      have hle : (p + len) / fs.sb.blockSize * fs.sb.blockSize ≤ p + len := Nat.div_mul_le_self _ _
      have hk : (p + len) / fs.sb.blockSize ≤ p + len := Nat.div_le_self _ _
      rw [Nat.mod_eq_of_lt (by omega)] at hhole
      refine .inr (.inr (.inr ⟨(p + len) / fs.sb.blockSize, Nat.div_le_div_right (by omega), by omega, ?_⟩))
      cases hb : getBlockNo fs (getinode fs ino).1 ((p + len) / fs.sb.blockSize) with
      | none => rw [hb] at hhole; cases hhole
      | some b => rw [hb, Option.getD_some] at hhole; rw [hhole]
    · rintro (h | h | h | ⟨k, hk, hkle, hzero⟩) no hno
      · omega
      · omega
      · omega
      obtain ⟨len, hst⟩ := storedBytes_spec size hno hbs hp
      rw [hst.bytes, List.length_map, List.length_range]
      by_contra hlong
      have hk32 : k < 2 ^ 32 := by
        have := Nat.le_mul_of_pos_right k hbs
        omega
      -- the block without a number is within what has been read
      obtain ⟨x, hx, hxk⟩ : ∃ x < len, (p + x) / fs.sb.blockSize = k := by
        by_cases hstart : k * fs.sb.blockSize ≤ p
        · refine ⟨0, by omega, Nat.le_antisymm ?_ ?_⟩
          · exact hk
          · exact (Nat.le_div_iff_mul_le hbs).mpr hstart
        · refine ⟨k * fs.sb.blockSize - p, by omega, ?_⟩
          rw [Nat.add_sub_cancel' (by omega), Nat.mul_div_cancel _ hbs]
      have := hst.blocks x hx
      rw [hxk, Nat.mod_eq_of_lt hk32, hno.some k 0 hzero] at this
      exact this rfl

def twoBlockFs (size b₀ b₁ : Nat) : Fs :=
  { sb := ⟨0, 8192, 16, 128, 1024, 1, fun _ => ⟨3, 4, 5⟩⟩
    disk := fun _ => 0
    bad := fun _ => false
    cache := fun ino => if ino = 12 then some (setISize (setIBlock (setIBlock (fun _ => 0) 0 b₀) 1 b₁) size) else none
    junk := 0 }

theorem ext2_read_bounded_small : ReadBounded (twoBlockFs 2 20 0) 12 1 100 :=
  (ext2_read_bounded_iff 12 1 (by decide) (by decide)).mpr (.inr (.inr (.inl (by decide))))

/-- A read of all but one of 2 ^ 64 bytes from the second of two bytes goes on to the end of the block. -/
theorem ext2_read_overruns : ¬ ReadBounded (twoBlockFs 2 20 0) 12 (1 : Nat) (2 ^ 64 - 1) := by
  intro h
  have hno := completes_getD (twoBlockFs 2 20 0) (getinode (twoBlockFs 2 20 0) 12).1 (show 0 ≤ (1 : Int) ∧ (1 : Int) < 2 ^ 32 by decide)
  have hsize : iSize (getinode (twoBlockFs 2 20 0) 12).1 = 2 := by decide
  have hblock : getBlockNo (twoBlockFs 2 20 0) (getinode (twoBlockFs 2 20 0) 12).1 0 = some 20 := by decide
  obtain ⟨len, hst⟩ := storedBytes_spec (2 ^ 64 - 1) hno (by decide) (show 1 < iSize _ by rw [hsize]; decide)
  have hbound := h _ hno
  rw [hst.bytes, List.length_map, List.length_range, hsize] at hbound
  rw [hsize, if_neg (by decide)] at hst
  -- the first block would have to end the read
  have hhole := (hst.hole (by omega)).1
  rw [show (1 + len) / (twoBlockFs 2 20 0).sb.blockSize % 2 ^ 32 = 0 by
    show (1 + len) / 1024 % 2 ^ 32 = 0
    omega, hblock] at hhole
  cases hhole

/-! ## The indexing scheme -/

theorem BlockSizeOk.bounds (hbs : BlockSizeOk fs.sb) : 0 < fs.sb.blockSize ∧ fs.sb.blockSize < 2 ^ 32 := by
  obtain ⟨s, hs, hbs⟩ := hbs
  have := Nat.pow_le_pow_right (show 0 < 2 by decide) hs
  have := Nat.two_pow_pos s
  omega

theorem arrayLadder_single (hbs : BlockSizeOk fs.sb) : arrayLadder (fs.sb.blockSize / 4) 12 = fs.sb.blockSize / 4 := by
  have hlt := hbs.bounds
  rw [arrayLadder, if_pos (by decide), arrayLadder_direct (by decide), Nat.one_mul]
  exact Nat.mod_eq_of_lt (by omega)

theorem getBlockNo_single (hbs : BlockSizeOk fs.sb) (hn : n < 12 + fs.sb.blockSize / 4) :
    getBlockNo fs inode n = some (Int.ofNat (ext2BlockNo fs.disk fs.sb.blockSize inode n)) := by
  by_cases hdirect : n < 12
  · rw [getBlockNo_direct hdirect, ext2BlockNo, if_pos hdirect]
  · obtain ⟨s, hs, hbs⟩ := hbs
    have hpow : 2 ^ s ≤ 2 ^ 20 := Nat.pow_le_pow_right (by decide) hs
    have hladder := arrayLadder_single ⟨s, hs, hbs⟩
    have hlevel : findLevel (arrayLadder (fs.sb.blockSize / 4)) n nrInodeBlock 0 0 0 = some (12, 1) := by
      rw [show nrInodeBlock = 12 - 0 + 3 from rfl, findLevel_skip (fun i hi => arrayLadder_direct hi) (by decide) (by omega),
        findLevel, hladder]
      rw [if_pos ⟨by omega, by omega⟩, if_pos (by decide)]
    have hreminder : (n + (2 ^ 32 - 12)) % 2 ^ 32 = n - 12 := by omega
    unfold getBlockNo
    dsimp only
    rw [hlevel]
    dsimp only
    rw [hreminder, ext2BlockNo, if_neg hdirect, if_pos hn]
    by_cases hzero : iBlock inode 12 = 0
    · rw [hzero, descend_zero, indirect, if_pos rfl]
      rfl
    · rw [descend_succ hzero (show (n - 12) / _ = n - 12 by rw [arrayLadder_direct (by decide), Nat.div_one]) (by omega), descend,
        Option.map_some]

theorem fileByte_eq_treeByte {p : Nat} (hbs : BlockSizeOk fs.sb) (h : p / fs.sb.blockSize < 12 + fs.sb.blockSize / 4) :
    fileByte fs inode p = treeByte fs inode p := by
  have hlt := hbs.bounds.2
  have hmod : p / fs.sb.blockSize % 2 ^ 32 = p / fs.sb.blockSize := Nat.mod_eq_of_lt (by omega)
  unfold fileByte treeByte
  rw [blockOf, hmod, getBlockNo_single hbs h]
  dsimp only
  split
  case h_1 b heq =>
    have hb : ext2BlockNo fs.disk fs.sb.blockSize inode (p / fs.sb.blockSize) = b + 1 := Int.ofNat.inj (Option.some.inj heq)
    rw [hb, if_neg (Nat.succ_ne_zero b)]
  case h_2 hnot =>
    cases hb : ext2BlockNo fs.disk fs.sb.blockSize inode (p / fs.sb.blockSize) with
    | zero => rfl
    | succ b => exact absurd (by rw [hb]) (hnot b)

/-! ## Contents -/

theorem getBlockNo_ne_neg (hbs : BlockSizeOk fs.sb) (hn : n * fs.sb.blockSize < 2 ^ 32) : getBlockNo fs inode n ≠ some (-1) := by
  obtain ⟨s, hs, hbs⟩ := hbs
  have hlevel := findLevel_isSome hs (hbs ▸ hn)
  have hbase : fs.sb.blockSize / 4 = 256 * 2 ^ s := by omega
  unfold getBlockNo
  dsimp only
  rw [hbase]
  split
  case h_1 hnone => exact absurd hnone hlevel
  case h_2 => exact fun h => by obtain ⟨b, -, hb⟩ := Option.map_eq_some_iff.mp h; cases hb

theorem blockOf_div {q : Nat} (h : q < 2 ^ 32) :
    blockOf fs inode (q / fs.sb.blockSize) = getBlockNo fs inode (q / fs.sb.blockSize) := by
  rw [blockOf, Nat.mod_eq_of_lt (Nat.lt_of_le_of_lt (Nat.div_le_self _ _) h)]

theorem readLoop_isSome (inode : Inode) (fuel block : Nat) (hoff : offset < fs.sb.blockSize)
    (h : ∀ x < size, (∃ b, blockOf fs inode ((block * fs.sb.blockSize + offset + x) / fs.sb.blockSize) = some b) ∨
      ∃ y ≤ x, blockOf fs inode ((block * fs.sb.blockSize + offset + y) / fs.sb.blockSize) = some 0) :
    ∃ bytes, readLoop fs inode fuel block offset size = some bytes := by
  induction fuel generalizing block offset size with
  | zero => exact ⟨[], rfl⟩
  | succ fuel ih =>
    rw [readLoop]
    by_cases hsize : size = 0
    · rw [if_pos hsize]
      exact ⟨[], rfl⟩
    rw [if_neg hsize, getblock]
    obtain ⟨b, hb⟩ : ∃ b, blockOf fs inode block = some b := by
      rcases h 0 (by omega) with ⟨b, hb⟩ | ⟨y, hy, hb⟩
      · rw [within_div (x := 0) (by omega)] at hb
        exact ⟨b, hb⟩
      · obtain rfl : y = 0 := by omega
        rw [within_div (x := 0) (by omega)] at hb
        exact ⟨0, hb⟩
    rw [show getBlockNo fs inode (block % 2 ^ 32) = some b from hb, Option.map_some]
    dsimp only
    by_cases hzero : (b % 2 ^ 64).toNat = 0
    · rw [if_pos hzero]
      exact ⟨[], rfl⟩
    rw [if_neg hzero]
    dsimp only
    have hnext : min (fs.sb.blockSize - offset) size < size →
        (block + 1) * fs.sb.blockSize + 0 = block * fs.sb.blockSize + offset + min (fs.sb.blockSize - offset) size := by
      intro hlt
      rw [Nat.add_mul, Nat.one_mul]
      omega
    obtain ⟨rest, hrest⟩ := ih (block + 1) (show 0 < fs.sb.blockSize by omega) fun x (hx : x < size - min (fs.sb.blockSize - offset) size) => by
        rw [hnext (by omega), Nat.add_assoc]
        rcases h (min (fs.sb.blockSize - offset) size + x) (by omega) with hb | ⟨y, hy, hy0⟩
        · exact .inl hb
        · refine .inr ⟨y - min (fs.sb.blockSize - offset) size, by omega, ?_⟩
          by_cases hfirst : y < min (fs.sb.blockSize - offset) size
          · rw [within_div (by omega), hb] at hy0
            rw [Option.some.inj hy0] at hzero
            exact absurd rfl hzero
          · rw [Nat.add_assoc, Nat.add_sub_cancel' (by omega)]
            exact hy0
    exact ⟨_, by rw [hrest, Option.map_some]⟩

structure Copied (fs : Fs) (inode : Inode) (p size : Nat) (bytes : List UInt8) (len : Nat) : Prop where
  le : len ≤ size
  length : bytes.length = len
  blocks : ∀ x < len, ∃ b ≠ 0, blockOf fs inode ((p + x) / fs.sb.blockSize) = some b
  hole : len < size → blockOf fs inode ((p + len) / fs.sb.blockSize) = some 0 ∧ (len = 0 ∨ fs.sb.blockSize ∣ p + len)
  bytes : (∀ x < len, Mapped fs inode ((p + x) / fs.sb.blockSize)) → bytes = fileBytes fs inode p len

theorem storedByte_eq {q : Nat} (hbs : fs.sb.blockSize < 2 ^ 32) (hno : Completes fs inode no)
    (h : Mapped fs inode (q / fs.sb.blockSize)) : storedByte fs no q = fileByte fs inode q := by
  obtain ⟨b, hb, hblock⟩ := h
  obtain ⟨b, rfl⟩ := Nat.exists_eq_succ_of_ne_zero hb
  have hlt := (getBlockNo_lt hblock).2
  have hmod : (Int.ofNat (b + 1) % 2 ^ 64).toNat = b + 1 := by
    simp only [Int.ofNat_eq_natCast]
    omega
  have hpos : (b + 1) * fs.sb.blockSize % 2 ^ 64 = (b + 1) * fs.sb.blockSize :=
    Nat.mod_eq_of_lt (Nat.lt_of_lt_of_le (Nat.mul_lt_mul_of_lt_of_lt hlt hbs) (by decide))
  rw [storedByte, hno.some _ _ hblock, fileByte, hblock, hmod, hpos]

theorem readLoop_spec (hbs : fs.sb.blockSize < 2 ^ 32) (hoff : offset < fs.sb.blockSize)
    (h : readLoop fs inode size block offset size = some bytes) :
    ∃ len, Copied fs inode (block * fs.sb.blockSize + offset) size bytes len := by
  -- a number that is missing may be taken for 0 or for 1, so that it is neither
  have hno₀ := completes_getD fs inode (show 0 ≤ (0 : Int) ∧ (0 : Int) < 2 ^ 32 by decide)
  have hno₁ := completes_getD fs inode (show 0 ≤ (1 : Int) ∧ (1 : Int) < 2 ^ 32 by decide)
  obtain ⟨len, h₀⟩ := storedLoop_spec fs block hno₀.range hoff (Nat.le_refl size)
  obtain ⟨len₁, h₁⟩ := storedLoop_spec fs block hno₁.range hoff (Nat.le_refl size)
  rw [storedLoop_of_readLoop hno₀ h] at h₀
  rw [storedLoop_of_readLoop hno₁ h] at h₁
  have hlen : bytes.length = len := by rw [h₀.bytes, List.length_map, List.length_range]
  obtain rfl : len = len₁ := by rw [← hlen, h₁.bytes, List.length_map, List.length_range]
  refine ⟨len, h₀.le, hlen, fun x hx => ?_, fun hlt => ⟨?_, (h₁.hole hlt).2⟩, fun hmap => ?_⟩
  · have hb := h₀.blocks x hx
    rw [blockOf]
    cases hn : getBlockNo fs inode ((block * fs.sb.blockSize + offset + x) / fs.sb.blockSize % 2 ^ 32) with
    | none => rw [hn] at hb; exact absurd rfl hb
    | some b => rw [hn] at hb; exact ⟨b, hb, rfl⟩
  · have hb := (h₁.hole hlt).1
    rw [blockOf]
    cases hn : getBlockNo fs inode ((block * fs.sb.blockSize + offset + len) / fs.sb.blockSize % 2 ^ 32) with
    | none => rw [hn] at hb; cases hb
    | some b => rw [hn, Option.getD_some] at hb; rw [hb]
  · rw [h₀.bytes]
    exact List.map_congr_left fun x hx => storedByte_eq hbs hno₀ (hmap x (List.mem_range.mp hx))

/-! ## `ext2_read` -/

theorem readLoop_of_frame {fs' : Fs} (hsb : fs'.sb = fs.sb) (hdisk : fs'.disk = fs.disk) :
    readLoop fs' inode fuel block offset size = readLoop fs inode fuel block offset size := by
  induction fuel generalizing block offset size with
  | zero => rfl
  | succ fuel ih => rw [readLoop, readLoop, getblock, getblock, getBlockNo_of_frame hsb hdisk, hsb, hdisk]; simp only [ih]

/-- The number of bytes that `ext2_read` is left with; the sum may overflow. -/
def clamped (inode : Inode) (pos size : Nat) : Nat := if (pos + size) % 2 ^ 64 ≥ iSize inode then iSize inode - pos else size

theorem ext2Read_eq (hpos : pos < iSize (getinode fs ino).1) : ext2Read fs ino pos size =
    (readLoop fs (getinode fs ino).1 (clamped (getinode fs ino).1 pos size) (pos / fs.sb.blockSize) (pos % fs.sb.blockSize)
      (clamped (getinode fs ino).1 pos size)).map fun bytes => (bytes, (getinode fs ino).2) := by
  obtain ⟨hsb, hdisk, -⟩ := getinode_frame fs ino
  have hin : ¬ ((pos : Int) < 0 ∨ (pos : Int) ≥ iSize (getinode fs ino).1) := by omega
  rw [ext2Read]
  dsimp only
  rw [if_neg hin, Int.toNat_natCast, readLoop_of_frame hsb hdisk, hsb]
  rfl

/-- Every byte of the range that is in the file is in a block on the disk. -/
def RangeMapped (fs : Fs) (inode : Inode) (pos size : Nat) : Prop :=
  ∀ q, pos ≤ q → q < pos + size → q < iSize inode → Mapped fs inode (q / fs.sb.blockSize)

section

variable {fs : Fs} {ino pos size : Nat} (hbs : BlockSizeOk fs.sb)
include hbs

theorem ext2Read_spec {bytes : List UInt8} {fs' : Fs} (hpos : pos < iSize (getinode fs ino).1)
    (h : ext2Read fs ino pos size = some (bytes, fs')) :
    fs' = (getinode fs ino).2 ∧ ∃ len, Copied fs (getinode fs ino).1 pos (clamped (getinode fs ino).1 pos size) bytes len := by
  obtain ⟨hpos', hlt⟩ := hbs.bounds
  rw [ext2Read_eq hpos] at h
  obtain ⟨bytes', hloop, hr⟩ := Option.map_eq_some_iff.mp h
  obtain ⟨rfl, rfl⟩ := Prod.mk.inj hr
  obtain ⟨len, hspec⟩ := readLoop_spec hlt (Nat.mod_lt pos hpos') hloop
  rw [Nat.mul_comm, Nat.div_add_mod] at hspec
  exact ⟨rfl, len, hspec⟩

theorem readContract_of_mapped (hpos : pos < iSize (getinode fs ino).1) (hmap : RangeMapped fs (getinode fs ino).1 pos size)
    (hend : clamped (getinode fs ino).1 pos size = min size (iSize (getinode fs ino).1 - pos) ∨
      blockOf fs (getinode fs ino).1 ((pos + min size (iSize (getinode fs ino).1 - pos)) / fs.sb.blockSize) = some 0) :
    ReadContract fs ino pos size := by
  obtain ⟨hpos', hlt⟩ := hbs.bounds
  have hle : min size (iSize (getinode fs ino).1 - pos) ≤ clamped (getinode fs ino).1 pos size := by
    rw [clamped]
    split <;> omega
  have hbyte : ∀ x < min size (iSize (getinode fs ino).1 - pos), Mapped fs (getinode fs ino).1 ((pos + x) / fs.sb.blockSize) :=
    fun x hx => hmap (pos + x) (by omega) (by omega) (by omega)
  obtain ⟨bytes, hloop⟩ := readLoop_isSome (getinode fs ino).1 (clamped (getinode fs ino).1 pos size)
    (pos / fs.sb.blockSize) (Nat.mod_lt pos hpos') (fun x (hx : x < clamped (getinode fs ino).1 pos size) => by
      rw [Nat.mul_comm, Nat.div_add_mod]
      by_cases hin : x < min size (iSize (getinode fs ino).1 - pos)
      · obtain ⟨b, -, hb⟩ := hbyte x hin
        exact .inl ⟨_, hb⟩
      · exact .inr ⟨_, by omega, hend.resolve_left (by omega)⟩)
  have hread : ext2Read fs ino pos size = some (bytes, (getinode fs ino).2) := by rw [ext2Read_eq hpos, hloop, Option.map_some]
  obtain ⟨-, len, hspec⟩ := ext2Read_spec hbs hpos hread
  -- the loop ends neither before the range does nor after it
  have hlen : len = min size (iSize (getinode fs ino).1 - pos) := by
    have hlen := hspec.le
    rcases Nat.lt_trichotomy len (min size (iSize (getinode fs ino).1 - pos)) with h | h | h
    · obtain ⟨b, hb, hblock⟩ := hbyte len h
      rw [(hspec.hole (by omega)).1] at hblock
      exact absurd (Int.ofNat.inj (Option.some.inj hblock)).symm hb
    · exact h
    · obtain ⟨b, hb, hblock⟩ := hspec.blocks _ h
      rw [hend.resolve_left (by omega)] at hblock
      exact absurd (Option.some.inj hblock).symm hb
  rw [ReadContract, hread, ← hlen, hspec.bytes fun x hx => hbyte x (hlen ▸ hx)]

end

theorem fileBytes_append {p m k : Nat} : fileBytes fs inode p (m + k) = fileBytes fs inode p m ++ fileBytes fs inode (p + m) k := by
  simp only [fileBytes, List.range_add, List.map_append, List.map_map, Function.comp_def, Nat.add_assoc]

theorem readContract_of_le (h : iSize (getinode fs ino).1 ≤ pos) : ReadContract fs ino pos size := by
  have hout : (pos : Int) < 0 ∨ (pos : Int) ≥ iSize (getinode fs ino).1 := by omega
  rw [ReadContract, Nat.sub_eq_zero_of_le h, Nat.min_zero, ext2Read]
  dsimp only
  rw [if_pos hout]
  rfl

/-- A read gives the bytes from `pos` on, up to `size` of them and to the end of the file, and two reads in turn give the
bytes of one. -/
theorem ext2_read_contract {fs : Fs} {ino : Nat} (hbs : BlockSizeOk fs.sb) (hmap : AllMapped fs (getinode fs ino).1)
    (pos size : Nat) (hsize : pos + size < 2 ^ 63) : ReadContract fs ino pos size ∧
      ∀ a b, a + b = size → ∃ first second fs', ext2Read fs ino pos a = some (first, fs') ∧
        ext2Read fs' ino (pos + a : Nat) b = some (second, fs') ∧ ext2Read fs ino pos size = some (first ++ second, fs') := by
  have hread : ∀ p k, p + k < 2 ^ 63 → ReadContract fs ino p k := by
    intro p k hk
    by_cases hp : p < iSize (getinode fs ino).1
    · refine readContract_of_mapped hbs hp (fun q hq _ hsize => ?_) (.inl ?_)
      · exact hmap _ (Nat.lt_of_le_of_lt (Nat.div_mul_le_self _ _) hsize)
      · rw [clamped, Nat.mod_eq_of_lt (by omega)]
        split <;> omega
    · exact readContract_of_le (by omega)
  refine ⟨hread pos size hsize, ?_⟩
  rintro a b rfl
  refine ⟨_, _, _, hread pos a (by omega), (ext2Read_getinode ..).trans (hread (pos + a) b (by omega)), ?_⟩
  rw [hread pos (a + b) hsize, Option.some.injEq, Prod.mk.injEq]
  refine ⟨?_, rfl⟩
  by_cases hfirst : pos + a ≤ iSize (getinode fs ino).1
  · rw [show min (a + b) (iSize (getinode fs ino).1 - pos) = a + min b (iSize (getinode fs ino).1 - (pos + a)) by omega,
      show min a (iSize (getinode fs ino).1 - pos) = a by omega, fileBytes_append]
  · rw [show min (a + b) (iSize (getinode fs ino).1 - pos) = min a (iSize (getinode fs ino).1 - pos) by omega,
      show min b (iSize (getinode fs ino).1 - (pos + a)) = 0 by omega]
    exact (List.append_nil _).symm

section

variable {fs : Fs} {ino pos size : Nat} (hbs : BlockSizeOk fs.sb) (hpos : pos < iSize (getinode fs ino).1)
include hbs hpos

theorem rangeMapped_of_read {bytes : List UInt8} {fs' : Fs} (hread : ext2Read fs ino pos size = some (bytes, fs'))
    (hlen : bytes.length = min size (iSize (getinode fs ino).1 - pos)) :
    RangeMapped fs (getinode fs ino).1 pos size ∧ (size < 2 ^ 64 →
      pos + size < 2 ^ 64 ∨ getBlockNo fs (getinode fs ino).1 (iSize (getinode fs ino).1 / fs.sb.blockSize) = some 0) := by
  obtain ⟨hpos', -⟩ := hbs.bounds
  have hlt : iSize (getinode fs ino).1 < 2 ^ 32 := iSize_lt
  obtain ⟨-, len, hspec⟩ := ext2Read_spec hbs hpos hread
  rw [hspec.length] at hlen
  refine ⟨fun q hq hrange hsize => ?_, ?_⟩
  · obtain ⟨b, hb, hblock⟩ := hspec.blocks (q - pos) (by omega)
    rw [Nat.add_sub_cancel' hq] at hblock
    have hq' : q / fs.sb.blockSize * fs.sb.blockSize < 2 ^ 32 :=
      Nat.lt_of_le_of_lt (Nat.div_mul_le_self _ _) (Nat.lt_trans hsize hlt)
    have hneg : b ≠ -1 := by
      rintro rfl
      rw [blockOf_div (Nat.lt_trans hsize hlt)] at hblock
      exact getBlockNo_ne_neg hbs hq' hblock
    have hrange := getBlockNo_range hblock
    exact ⟨b.toNat, by omega, by rw [hblock, Int.ofNat_eq_natCast, Int.toNat_of_nonneg (by omega)]⟩
  · intro hsize
    by_cases hover : pos + size < 2 ^ 64
    · exact .inl hover
    · have hclamped : clamped (getinode fs ino).1 pos size = size := by rw [clamped, if_neg (by omega)]
      obtain ⟨hhole, -⟩ := hspec.hole (by omega)
      rw [show pos + len = iSize (getinode fs ino).1 by omega, blockOf_div hlt] at hhole
      exact .inr hhole

theorem readContract_of_range (hmap : RangeMapped fs (getinode fs ino).1 pos size) (hend : pos + size < 2 ^ 64 ∨
      getBlockNo fs (getinode fs ino).1 (iSize (getinode fs ino).1 / fs.sb.blockSize) = some 0) :
    ReadContract fs ino pos size := by
  have hlt : iSize (getinode fs ino).1 < 2 ^ 32 := iSize_lt
  refine readContract_of_mapped hbs hpos hmap ?_
  rcases hend with hover | hhole
  · refine .inl ?_
    rw [clamped, Nat.mod_eq_of_lt hover]
    split <;> omega
  · by_cases hend : size ≤ iSize (getinode fs ino).1 - pos
    · refine .inl ?_
      rw [clamped, Nat.mod_eq_of_lt (by omega)]
      split <;> omega
    · refine .inr ?_
      rw [show pos + min size (iSize (getinode fs ino).1 - pos) = iSize (getinode fs ino).1 by omega, blockOf_div hlt]
      exact hhole

end

/-- A read gives the bytes of the indexing scheme exactly if every byte of the range is in a block with a number that holds
it and, where the sum overflows, the last block has no number. -/
theorem ext2_read_sparse_iff {fs : Fs} {ino pos size : Nat} (hbs : BlockSizeOk fs.sb)
    (hpos : pos < iSize (getinode fs ino).1) (hsize : size < 2 ^ 64) : SparseContract fs ino pos size ↔
      RangeRight fs (getinode fs ino).1 pos size ∧ (pos + size < 2 ^ 64 ∨
        getBlockNo fs (getinode fs ino).1 (iSize (getinode fs ino).1 / fs.sb.blockSize) = some 0) := by
  constructor
  · intro h
    obtain ⟨hmap, hend⟩ := rangeMapped_of_read hbs hpos h (by rw [treeBytes, List.length_map, List.length_range])
    have hend := hend hsize
    refine ⟨fun q hq hrange hsize' => ⟨hmap q hq hrange hsize', ?_⟩, hend⟩
    -- the bytes are those of the numbers as well
    have hsame := h.symm.trans (readContract_of_range hbs hpos hmap hend)
    rw [Option.some.injEq, Prod.mk.injEq, treeBytes, fileBytes, List.map_inj_left] at hsame
    have hbyte := hsame.1 (q - pos) (List.mem_range.mpr (by omega))
    rw [Nat.add_sub_cancel' hq] at hbyte
    exact hbyte.symm
  · rintro ⟨hright, hend⟩
    have hread := readContract_of_range hbs hpos (fun q hq hrange hq' => (hright q hq hrange hq').1) hend
    have hsame : fileBytes fs (getinode fs ino).1 pos (min size (iSize (getinode fs ino).1 - pos)) =
        treeBytes fs (getinode fs ino).1 pos (min size (iSize (getinode fs ino).1 - pos)) := by
      refine List.map_congr_left fun x hx => ?_
      have hx := List.mem_range.mp hx
      exact (hright (pos + x) (by omega) (by omega) (by omega)).2
    rw [SparseContract, ← hsame]
    exact hread

/-! ### Two files -/

/-- A file of 2000 bytes in the blocks 20 and 21. -/
def dataFs : Fs := { twoBlockFs 2000 20 21 with disk := fun a => UInt8.ofNat (a / 10) }

theorem dataFs_blockSize : BlockSizeOk dataFs.sb := ⟨0, by decide, rfl⟩

theorem dataFs_mapped : AllMapped dataFs (getinode dataFs 12).1 := by
  intro n hn
  have hn : n * 1024 < 2000 := hn
  have hn : n = 0 ∨ n = 1 := by omega
  rcases hn with rfl | rfl
  · exact ⟨20, by decide, by decide⟩
  · exact ⟨21, by decide, by decide⟩

/-- A read over the end of the first block, in two parts. -/
theorem ext2_read_contract_twoBlocks : ReadContract dataFs 12 1000 500 ∧ ∃ first second fs',
    ext2Read dataFs 12 1000 100 = some (first, fs') ∧ ext2Read fs' 12 1100 400 = some (second, fs') ∧
      ext2Read dataFs 12 1000 500 = some (first ++ second, fs') := by
  obtain ⟨hread, hparts⟩ := ext2_read_contract dataFs_blockSize dataFs_mapped 1000 500 (by decide)
  exact ⟨hread, hparts 100 400 rfl⟩

/-- A read from the first block to the end of the file. -/
theorem ext2_read_sparse_twoBlocks : SparseContract dataFs 12 1000 5000 := by
  refine (ext2_read_sparse_iff dataFs_blockSize (by decide) (by decide)).mpr ⟨fun q _ _ hq => ?_, .inl (by decide)⟩
  refine ⟨dataFs_mapped _ (Nat.lt_of_le_of_lt (Nat.div_mul_le_self _ _) hq), fileByte_eq_treeByte dataFs_blockSize ?_⟩
  have hq : q < 2000 := hq
  rw [show dataFs.sb.blockSize = 1024 from rfl]
  omega

/-- A file of 2000 bytes whose first block is not on the disk. -/
theorem ext2_read_ends_at_hole : (ext2Read (twoBlockFs 2000 0 20) 12 0 2000).map (fun r => r.1.length) = some 0 ∧
    ¬ SparseContract (twoBlockFs 2000 0 20) 12 0 2000 := by
  have hread : (ext2Read (twoBlockFs 2000 0 20) 12 0 2000).map (fun r => r.1.length) = some 0 := by decide
  have hsize : iSize (getinode (twoBlockFs 2000 0 20) 12).1 = 2000 := by decide
  refine ⟨hread, fun h => ?_⟩
  have hlen := congrArg (Option.map fun r => r.1.length) h
  rw [Option.map_some] at hlen
  dsimp only at hlen
  rw [treeBytes, List.length_map, List.length_range, hsize] at hlen
  exact absurd (Option.some.inj (hread.symm.trans hlen)) (by decide)

end FengOS.Ext2
