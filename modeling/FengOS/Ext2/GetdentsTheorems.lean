import FengOS.Ext2.Getdents
import FengOS.Ext2.ReadTheorems
import FengOS.Ext2.ScanTheorems

/-!
# The entries that `ext2_getdents` gives
-/

namespace FengOS.Ext2

open FengOS.Lib

variable {fs : Fs} {inode : Inode} {buf mem mem' : Mem} {base off n b bs ino fuel rounds dirp stop nbytes pos : Nat}
  {offs : List Nat} {r : DirRecord} {rs : List DirRecord} {d d' : Dents} {dir : List (Nat × List Nat)}
  {left : List (List DirRecord)}

/-! ## `struct dirent` -/

theorem DirRecord.cName_le (r : DirRecord) : r.cName.length ≤ r.name.length := (List.takeWhile_prefix _).length_le

theorem recordAt_size : (recordAt buf base off).size = 26 + dNameLen buf off := by
  simp only [DirRecord.size, recordAt, dName, dNameOffset, List.length_map, List.length_range]
  omega

theorem recordAt_size_le (buf : Mem) (base off : Nat) : (recordAt buf base off).size ≤ 281 := by
  have : dNameLen buf off < 256 := UInt8.toNat_lt _
  rw [recordAt_size]
  omega

theorem putDirent_apply {x : Nat} (h : x < dirp ∨ dirp + r.size ≤ x) : putDirent mem dirp r x = mem x := by
  have hle := r.cName_le
  unfold DirRecord.size at h
  simp only [putDirent, dNameOffset] at h ⊢
  rw [Mem.store_apply (by omega), Mem.store_apply (by omega), Mem.store_apply (by omega), Mem.write_apply (by omega),
    Mem.store_apply (by omega), Mem.store_apply (by omega)]

/-- The fields of the entry fit those of a `struct dirent`. -/
structure DirRecord.Fits (r : DirRecord) : Prop where
  ino : r.ino < 2 ^ 64
  fileType : r.fileType < 256
  off : r.off < 2 ^ 64
  name : r.name.length < 256

theorem recordAt_fits (h : base + off < 2 ^ 64) : (recordAt buf base off).Fits where
  ino := Nat.lt_of_lt_of_le (Mem.load_lt (n := 4)) (by decide)
  fileType := UInt8.toNat_lt _
  off := h
  name := by
    simp only [recordAt, dName, List.length_map, List.length_range]
    exact UInt8.toNat_lt _

theorem putDirent_direntAt (h : r.Fits) : DirentAt (putDirent mem dirp r) dirp r := by
  have hle := r.cName_le
  have hname := h.name
  have hsize : r.size < 256 ^ 8 := by
    unfold DirRecord.size dNameOffset
    omega
  simp only [putDirent, dNameOffset]
  constructor
  case ino =>
    rw [Mem.load_store_of_disjoint (by omega), Mem.load_store_of_disjoint (by omega), Mem.load_store_of_disjoint (by omega),
      Mem.load_write_of_disjoint (by omega), Mem.load_store_of_disjoint (by omega)]
    exact Mem.load_store h.ino
  case off => exact Mem.load_store h.off
  case reclen =>
    rw [Mem.load_store_of_disjoint (by omega)]
    exact Mem.load_store hsize
  case fileType =>
    rw [Mem.load_store_of_disjoint (by omega), Mem.load_store_of_disjoint (by omega), Mem.load_store_of_disjoint (by omega),
      Mem.load_write_of_disjoint (by omega)]
    exact Mem.load_store h.fileType
  case name =>
    intro i hi
    rw [Mem.store_apply (by simp only [dNameOffset]; omega), Mem.store_apply (by simp only [dNameOffset]; omega),
      Mem.store_apply (by simp only [dNameOffset]; omega)]
    exact Mem.write_add hi
  case terminator =>
    rw [Mem.store_apply (by simp only [dNameOffset]; omega), Mem.store_apply (by simp only [dNameOffset]; omega)]
    simp [Mem.store, dNameOffset]

theorem DirentAt.congr (h : DirentAt mem dirp r) (hmem : ∀ x, dirp ≤ x → x < dirp + r.size → mem' x = mem x) :
    DirentAt mem' dirp r := by
  have hle := r.cName_le
  simp only [DirRecord.size, dNameOffset] at hmem
  obtain ⟨hino, hoff, hreclen, htype, hname, hterm⟩ := h
  simp only [dNameOffset] at hname hterm
  constructor
  case ino => rw [← hino, Mem.load_congr fun x _ _ => hmem x (by omega) (by omega)]
  case off => rw [← hoff, Mem.load_congr fun x _ _ => hmem x (by omega) (by omega)]
  case reclen => rw [← hreclen, Mem.load_congr fun x _ _ => hmem x (by omega) (by omega)]
  case fileType => rw [← htype, Mem.load_congr fun x _ _ => hmem x (by omega) (by omega)]
  case name =>
    intro i hi
    rw [dNameOffset, hmem _ (by omega) (by omega), hname i hi]
  case terminator => rw [dNameOffset, hmem _ (by omega) (by omega), hterm]

/-! ## The loop over the entries -/

structure Filled (d d' : Dents) (rs : List DirRecord) : Prop where
  offset : d.offset + rs.length ≤ d'.offset
  empty : rs = [] → d' = d
  count : d'.count + d.offset = d.count + d'.offset
  dirp : d.dirp ≤ d'.dirp
  nbytes : d'.nbytes + d'.dirp = d.nbytes + d.dirp
  dirents : DirentsAt d'.mem d'.dirp d.dirp rs
  frame : ∀ x, x < d.dirp ∨ d'.dirp ≤ x → d'.mem x = d.mem x

theorem Filled.refl (d : Dents) : Filled d d [] :=
  ⟨Nat.le_refl _, fun _ => rfl, rfl, Nat.le_refl _, rfl, rfl, fun _ _ => rfl⟩

theorem Filled.put (h : Filled (d.put buf base) d' rs) (hpos : 0 < dRecLen buf d.offset)
    (hsize : (recordAt buf base d.offset).size ≤ d.nbytes) (hfits : (recordAt buf base d.offset).Fits) :
    Filled d d' (recordAt buf base d.offset :: rs) := by
  obtain ⟨hoffset, -, hcount, hdirp, hnbytes, hdirents, hframe⟩ := h
  simp only [Dents.put] at hoffset hcount hdirp hnbytes hdirents hframe
  refine ⟨by rw [List.length_cons]; omega, nofun, by omega, by omega, by omega, ⟨?_, hdirents⟩, fun x hx => ?_⟩
  · exact (putDirent_direntAt hfits).congr fun x _ hx => hframe x (Or.inl hx)
  · rw [hframe x (by omega), putDirent_apply (by omega)]

theorem getdentsBlock_spec (h : EntryChain buf bs d.offset offs) (hrounds : offs.length < rounds)
    (hbase : base + bs < 2 ^ 64) : ∃ k d', k = fitting d.nbytes (offs.map (recordAt buf base)) ∧
      getdentsBlock buf bs base rounds d = some (decide (k < offs.length), d') ∧
      EntryChain buf bs d'.offset (offs.drop k) ∧ Filled d d' ((offs.take k).map (recordAt buf base)) := by
  induction offs generalizing d rounds with
  | nil =>
    obtain ⟨rounds, rfl⟩ := Nat.exists_eq_succ_of_ne_zero (Nat.ne_of_gt hrounds)
    refine ⟨0, d, rfl, ?_, h, Filled.refl d⟩
    have hend : d.offset = bs := by
      cases h with
      | nil => rfl
    rw [getdentsBlock, if_pos hend]
    rfl
  | cons o offs ih =>
    obtain ⟨rounds, rfl⟩ := Nat.exists_eq_succ_of_ne_zero (Nat.ne_of_gt (Nat.zero_lt_of_lt hrounds))
    obtain ⟨rfl, hpos, hin, htail⟩ : o = d.offset ∧ 0 < dRecLen buf d.offset ∧
        d.offset + 8 + dNameLen buf d.offset ≤ bs ∧ EntryChain buf bs (d.offset + dRecLen buf d.offset) offs := by
      cases h with
      | cons hpos hin htail => exact ⟨rfl, hpos, hin, htail⟩
    rw [getdentsBlock, if_neg (by omega), if_neg (by omega), List.map_cons, fitting]
    by_cases hfull : d.nbytes < (recordAt buf base d.offset).size
    · refine ⟨0, d, by rw [if_pos hfull], ?_, h, Filled.refl d⟩
      rw [if_pos hfull]
      rfl
    · obtain ⟨k, d', hk, hrun, hchain, hfilled⟩ := ih (d := d.put buf base) htail (Nat.lt_of_succ_lt_succ hrounds)
      refine ⟨k + 1, d', by rw [if_neg hfull, hk]; rfl, ?_, hchain, ?_⟩
      · rw [if_neg hfull, if_neg (by omega), hrun]
        simp
      · exact hfilled.put hpos (Nat.not_lt.mp hfull) (recordAt_fits (by omega))

/-! ## Block numbers -/

def BlocksFrom (fs : Fs) (inode : Inode) : Nat → List (Nat × List Nat) → Prop
  | n, [] => getBlockNo fs inode n = some 0
  | n, (b, _) :: dir => getBlockNo fs inode n = some (Int.ofNat b) ∧ b ≠ 0 ∧ BlocksFrom fs inode (n + 1) dir

theorem numbers_of_lt (hbs : BlockSizeOk fs.sb) (h : n < 12 + fs.sb.blockSize / 4) : Numbers fs ino n :=
  fun _ hk => getBlockNo_single hbs (Nat.lt_of_le_of_lt hk h)

theorem findLevel_top {ladder : Nat → Nat} {i depth : Nat} (hladder : (12 + ladder 12) % 2 ^ 32 ≤ n)
    (h : findLevel ladder n 3 12 12 0 = some (i, depth)) : i = 13 ∨ i = 14 := by
  simp only [findLevel] at h
  split at h
  case isTrue hlt => omega
  case isFalse =>
    split at h
    case isTrue => exact Or.inl (by cases h; rfl)
    case isFalse =>
      split at h
      case isTrue => exact Or.inr (by cases h; rfl)
      case isFalse => cases h

theorem getBlockNo_top (hbs : BlockSizeOk fs.sb) (htop : iBlock inode 13 = 0 ∧ iBlock inode 14 = 0)
    (hn : 12 + fs.sb.blockSize / 4 ≤ n) (hsize : n * fs.sb.blockSize < 2 ^ 32) : getBlockNo fs inode n = some 0 := by
  have hne : getBlockNo fs inode n ≠ some (-1) := getBlockNo_ne_neg hbs hsize
  unfold getBlockNo at hne ⊢
  dsimp only at hne ⊢
  cases hlevel : findLevel (arrayLadder (fs.sb.blockSize / 4)) n nrInodeBlock 0 0 0 with
  | none =>
    rw [hlevel] at hne
    exact absurd rfl hne
  | some level =>
    obtain ⟨i, depth⟩ := level
    rw [show nrInodeBlock = 12 - 0 + 3 from rfl,
      findLevel_skip (fun i hi => arrayLadder_direct hi) (by decide) (by omega)] at hlevel
    have hzero : iBlock inode i = 0 := by
      rcases findLevel_top (Nat.le_trans (Nat.mod_le _ _) (by rwa [arrayLadder_single hbs])) hlevel with rfl | rfl
      · exact htop.1
      · exact htop.2
    dsimp only
    rw [hzero, descend_zero]
    rfl

theorem Directory.blocksFrom (h : Directory fs inode dir) : BlocksFrom fs inode 0 dir := by
  suffices hfrom : ∀ k rest, dir.drop k = rest → k ≤ dir.length → BlocksFrom fs inode k rest from
    hfrom 0 dir rfl (Nat.zero_le _)
  intro k rest
  induction rest generalizing k with
  | nil =>
    intro hdrop hk
    obtain rfl : k = dir.length := by
      have := List.drop_eq_nil_iff.mp hdrop
      omega
    by_cases hlt : dir.length < 12 + fs.sb.blockSize / 4
    · rw [BlocksFrom, getBlockNo_single h.blockSize hlt, h.unused _ (Nat.le_refl _) hlt]
      rfl
    · exact getBlockNo_top h.blockSize h.top (Nat.not_lt.mp hlt) h.size
  | cons block rest ih =>
    intro hdrop hk
    have hget : dir[k]? = some block := by
      rw [← List.head?_drop, hdrop]
      rfl
    obtain ⟨hno, hne⟩ := h.number k block hget
    have hlt : k < dir.length := (List.getElem?_eq_some_iff.mp hget).1
    have hlength := h.length
    refine ⟨?_, hne, ih (k + 1) ?_ hlt⟩
    · rw [getBlockNo_single h.blockSize (by omega), hno]
    · rw [← List.tail_drop, hdrop]
      rfl

/-! ## One call -/

theorem EntryChain.length_le (h : EntryChain buf bs off offs) : off + offs.length ≤ bs := by
  induction h with
  | nil => exact Nat.le_refl bs
  | cons hpos _ _ ih =>
    rw [List.length_cons]
    omega

theorem EntryChain.eq_nil_iff (h : EntryChain buf bs off offs) : offs = [] ↔ off = bs := by
  have hle := h.length_le
  constructor
  · rintro rfl
    cases h with
    | nil => rfl
  · rintro rfl
    exact List.length_eq_zero_iff.mp (by omega)

theorem getblock_of_ne {data : Mem} (hbs : BlockSizeOk fs.sb) (hno : getBlockNo fs inode n = some (Int.ofNat b))
    (hne : b ≠ 0) : getblock fs n inode data = some (1, blockAt fs b) := by
  rw [getblock_eq hno hbs.bounds.2, if_neg hne]

theorem getblock_end {data : Mem} (hbs : BlockSizeOk fs.sb) (hno : getBlockNo fs inode n = some 0) :
    getblock fs n inode data = some (0, data) := by
  rw [getblock_eq (b := 0) hno hbs.bounds.2, if_pos rfl]

theorem getdentsLoop_end (hbs : BlockSizeOk fs.sb) (h : BlocksFrom fs inode n dir) (hd : d.offset = fs.sb.blockSize)
    (hfuel : dir.length < fuel) : getdentsLoop fs inode fuel n d = some d := by
  induction dir generalizing n fuel with
  | nil =>
    obtain ⟨fuel, rfl⟩ := Nat.exists_eq_succ_of_ne_zero (Nat.ne_of_gt hfuel)
    rw [getdentsLoop, getblock_end hbs h]
  | cons block dir ih =>
    obtain ⟨fuel, rfl⟩ := Nat.exists_eq_succ_of_ne_zero (Nat.ne_of_gt (Nat.zero_lt_of_lt hfuel))
    obtain ⟨hno, hne, hrest⟩ := h
    rw [getdentsLoop, getblock_of_ne hbs hno hne]
    dsimp only
    rw [getdentsBlock, if_pos hd]
    exact ih hrest (Nat.lt_of_succ_lt_succ hfuel)

theorem getdentsLoop_spec (hbs : BlockSizeOk fs.sb) (h : BlocksFrom fs inode n ((b, offs) :: dir))
    (hchain : EntryChain (blockAt fs b) fs.sb.blockSize d.offset offs) (hfuel : dir.length + 1 < fuel)
    (hn : n * fs.sb.blockSize + fs.sb.blockSize < 2 ^ 64) : ∃ k d',
      k = fitting d.nbytes (offs.map (recordAt (blockAt fs b) (n * fs.sb.blockSize))) ∧
      getdentsLoop fs inode fuel n d = some d' ∧ EntryChain (blockAt fs b) fs.sb.blockSize d'.offset (offs.drop k) ∧
      Filled d d' ((offs.take k).map (recordAt (blockAt fs b) (n * fs.sb.blockSize))) := by
  obtain ⟨fuel, rfl⟩ := Nat.exists_eq_succ_of_ne_zero (Nat.ne_of_gt (Nat.zero_lt_of_lt hfuel))
  obtain ⟨hno, hne, hrest⟩ := h
  have hlen := hchain.length_le
  obtain ⟨k, d', hk, hrun, hdrop, hfilled⟩ := getdentsBlock_spec hchain (show offs.length < fs.sb.blockSize + 1 by omega) hn
  refine ⟨k, d', hk, ?_, hdrop, hfilled⟩
  rw [getdentsLoop, getblock_of_ne hbs hno hne]
  dsimp only
  rw [hrun]
  by_cases hlt : k < offs.length
  · rw [decide_eq_true hlt]
  · rw [decide_eq_false hlt]
    refine getdentsLoop_end hbs hrest (hdrop.eq_nil_iff.mp ?_) (Nat.lt_of_succ_lt_succ hfuel)
    exact List.drop_eq_nil_of_le (Nat.not_lt.mp hlt)

/-! ## Positions -/

/-- The entries that are left at a position, block by block. -/
inductive LeftAt (fs : Fs) (inode : Inode) : Nat → List (List DirRecord) → Prop
  | done {n : Nat} : BlocksFrom fs inode n [] → LeftAt fs inode (n * fs.sb.blockSize) []
  | block {n off b : Nat} {offs : List Nat} {dir : List (Nat × List Nat)} : off < fs.sb.blockSize →
      (n + (dir.length + 1)) * fs.sb.blockSize < 2 ^ 63 → BlocksFrom fs inode n ((b, offs) :: dir) →
      EntryChain (blockAt fs b) fs.sb.blockSize off offs →
      (∀ block ∈ dir, EntryChain (blockAt fs block.1) fs.sb.blockSize 0 block.2) →
      LeftAt fs inode (n * fs.sb.blockSize + off)
        (offs.map (recordAt (blockAt fs b) (n * fs.sb.blockSize)) :: blockRecords fs (n + 1) dir)

theorem leftAt_start (hbs : BlockSizeOk fs.sb) (hsize : (n + dir.length) * fs.sb.blockSize < 2 ^ 63)
    (h : BlocksFrom fs inode n dir) (hchain : ∀ block ∈ dir, EntryChain (blockAt fs block.1) fs.sb.blockSize 0 block.2) :
    LeftAt fs inode (n * fs.sb.blockSize) (blockRecords fs n dir) := by
  cases dir with
  | nil => exact .done h
  | cons block dir =>
    have hblock := LeftAt.block hbs.bounds.1 hsize h (hchain block List.mem_cons_self)
      fun block' hmem => hchain block' (List.mem_cons_of_mem _ hmem)
    exact hblock

theorem Chain.entryChain (h : Chain buf bs off offs) : EntryChain buf bs off offs := by
  induction h with
  | nil => exact .nil
  | cons _ hlen htail ih =>
    have hle := htail.le
    exact .cons (by omega) (by omega) ih

theorem dirFrom_blocks {number : Nat → Nat} (h : DirFrom fs number n dir)
    (hnumber : ∀ k ≤ dir.length, getBlockNo fs inode (n + k) = some (Int.ofNat (number (n + k)))) :
    BlocksFrom fs inode n dir ∧
    (∀ block ∈ dir, EntryChain (blockAt fs block.1) fs.sb.blockSize 0 block.2) ∧ n + dir.length < 2 ^ 32 := by
  induction dir generalizing n with
  | nil =>
    have hno := hnumber 0 (Nat.le_refl _)
    rw [Nat.add_zero, show number n = 0 from h] at hno
    exact ⟨hno, fun _ hmem => (List.not_mem_nil hmem).elim, (getBlockNo_lt (b := 0) hno).1⟩
  | cons block dir ih =>
    obtain ⟨hblock, hne, hchain, hrest⟩ := h
    have hno := hnumber 0 (Nat.zero_le _)
    rw [Nat.add_zero, hblock] at hno
    obtain ⟨hblocks, hchains, hlt⟩ := ih hrest fun k hk => by
      rw [Nat.add_assoc, Nat.add_comm 1 k]
      exact hnumber (k + 1) (Nat.succ_le_succ hk)
    refine ⟨⟨hno, hne, hblocks⟩, fun block' hmem => ?_, by rw [List.length_cons]; omega⟩
    rcases List.mem_cons.mp hmem with rfl | hmem
    · exact hchain.entryChain
    · exact hchains block' hmem

theorem dirFrom_leftAt {number : Nat → Nat} (hbs : BlockSizeOk fs.sb) (h : DirFrom fs number 0 dir)
    (hnumber : ∀ k ≤ dir.length, getBlockNo fs inode k = some (Int.ofNat (number k))) :
    LeftAt fs inode 0 (blockRecords fs 0 dir) := by
  obtain ⟨hblocks, hchains, hlt⟩ := dirFrom_blocks h fun k hk => by
    rw [Nat.zero_add]
    exact hnumber k hk
  have hstart := leftAt_start (n := 0) hbs ?_ hblocks hchains
  · rwa [Nat.zero_mul] at hstart
  · obtain ⟨s, hs, hsize⟩ := hbs
    have hpow : 2 ^ s ≤ 2 ^ 20 := Nat.pow_le_pow_right (by decide) hs
    exact Nat.lt_of_le_of_lt (Nat.mul_le_mul (Nat.le_of_lt hlt) (show fs.sb.blockSize ≤ 2 ^ 30 by omega)) (by decide)

theorem fitting_le (nbytes : Nat) (rs : List DirRecord) : fitting nbytes rs ≤ rs.length := by
  induction rs generalizing nbytes with
  | nil => exact Nat.le_refl 0
  | cons r rs ih =>
    rw [fitting, List.length_cons]
    split
    · omega
    · exact Nat.succ_le_succ (ih _)

structure Call (fs : Fs) (inode : Inode) (mem : Mem) (pos nbytes : Nat) (left : List (List DirRecord)) (count : Nat)
    (mem' : Mem) : Prop where
  next : LeftAt fs inode (pos + count) (afterBatch nbytes left)
  empty : count = 0 ↔ batch nbytes left = []
  dirents : ∃ stop ≤ nbytes, DirentsAt mem' stop 0 (batch nbytes left) ∧ ∀ x, stop ≤ x → mem' x = mem x

theorem ext2Getdents_spec (mem : Mem) (nbytes : Nat) (hbs : BlockSizeOk fs.sb) (hcache : fs.cache ino = some inode)
    (h : LeftAt fs inode pos left) (hfuel : left.length < fuel) : ∃ count mem',
      ext2Getdents fuel fs ino mem pos nbytes = some (count, mem', fs) ∧ Call fs inode mem pos nbytes left count mem' := by
  obtain ⟨hpos, -⟩ := hbs.bounds
  rw [ext2Getdents, getinode_of_cache hcache]
  dsimp only
  cases h with
  | @done n hend =>
    obtain ⟨fuel, rfl⟩ := Nat.exists_eq_succ_of_ne_zero (Nat.ne_of_gt hfuel)
    refine ⟨0, mem, ?_, .done hend, by simp [batch], 0, Nat.zero_le _, rfl, fun _ _ => rfl⟩
    rw [Nat.mul_div_cancel _ hpos, getdentsLoop, getblock_end hbs hend]
    rfl
  | @block n off b offs dir hoff hsize hblocks hchain hchains =>
    have hlen : (blockRecords fs (n + 1) dir).length = dir.length := by
      clear hfuel hsize hblocks hchains
      generalize n + 1 = m
      induction dir generalizing m with
      | nil => rfl
      | cons block dir ih =>
        rw [blockRecords, List.length_cons, List.length_cons, ih]
    have hdiv : (n * fs.sb.blockSize + off) / fs.sb.blockSize = n := within_div (x := 0) hoff
    have hmod : (n * fs.sb.blockSize + off) % fs.sb.blockSize = off := within_mod (x := 0) hoff
    rw [List.length_cons, hlen] at hfuel
    have hexpand : n * fs.sb.blockSize + fs.sb.blockSize ≤ (n + (dir.length + 1)) * fs.sb.blockSize := by
      rw [← Nat.succ_mul]
      exact Nat.mul_le_mul_right _ (by omega)
    rw [hdiv, hmod]
    obtain ⟨k, d', hk, hloop, hdrop, hfilled⟩ := getdentsLoop_spec (d := ⟨off, 0, nbytes, 0, mem⟩) hbs hblocks hchain hfuel
      (by omega)
    dsimp only at hk
    rw [hloop]
    obtain ⟨hoffset, hempty, hcount, -, hnbytes, hdirents, hframe⟩ := hfilled
    dsimp only at hoffset hcount hnbytes hdirents hframe
    have hbatch : batch nbytes (offs.map (recordAt (blockAt fs b) (n * fs.sb.blockSize)) :: blockRecords fs (n + 1) dir) =
        (offs.take k).map (recordAt (blockAt fs b) (n * fs.sb.blockSize)) := by
      rw [batch, ← hk, List.map_take]
    have hle : k ≤ offs.length := by
      rw [hk]
      simpa using fitting_le nbytes (offs.map (recordAt (blockAt fs b) (n * fs.sb.blockSize)))
    refine ⟨d'.count, d'.mem, rfl, ?_, ?_, d'.dirp, by omega, hbatch ▸ hdirents, fun x hx => hframe x (Or.inr hx)⟩
    · rw [afterBatch, ← hk, List.length_map, show n * fs.sb.blockSize + off + d'.count = n * fs.sb.blockSize + d'.offset by omega]
      by_cases hlt : k < offs.length
      · have hne : d'.offset ≠ fs.sb.blockSize := fun heq => by
          have := List.drop_eq_nil_iff.mp (hdrop.eq_nil_iff.mpr heq)
          omega
        have hle' := hdrop.length_le
        rw [if_pos hlt, ← List.map_drop]
        exact .block (by omega) hsize ⟨hblocks.1, hblocks.2.1, hblocks.2.2⟩ hdrop hchains
      · have hend := hdrop.eq_nil_iff.mp (List.drop_eq_nil_of_le (Nat.not_lt.mp hlt))
        rw [if_neg hlt, hend, ← Nat.succ_mul]
        exact leftAt_start hbs (by rwa [Nat.succ_add_eq_add_succ]) hblocks.2.2 hchains
    · rw [hbatch]
      constructor
      · intro hzero
        rw [List.length_map] at hoffset
        rw [List.map_eq_nil_iff]
        exact List.length_eq_zero_iff.mp (by omega)
      · intro hnil
        rw [hempty hnil]

/-! ## All calls -/

theorem afterBatch_length_le (nbytes : Nat) (left : List (List DirRecord)) : (afterBatch nbytes left).length ≤ left.length := by
  cases left with
  | nil => exact Nat.le_refl 0
  | cons rs blocks =>
    rw [afterBatch]
    split
    · exact Nat.le_refl _
    · exact Nat.le_succ _

theorem batch_append (nbytes : Nat) (left : List (List DirRecord)) :
    batch nbytes left ++ (afterBatch nbytes left).flatten = left.flatten := by
  cases left with
  | nil => rfl
  | cons rs blocks =>
    rw [batch, afterBatch, List.flatten_cons]
    split
    case isTrue => rw [List.flatten_cons, ← List.append_assoc, List.take_append_drop]
    case isFalse hlt => rw [List.take_of_length_le (Nat.not_lt.mp hlt)]

theorem LeftAt.batch_ne_nil (h : LeftAt fs inode pos left) (hleft : left ≠ [])
    (hnbytes : 281 ≤ nbytes) : batch nbytes left ≠ [] := by
  cases h with
  | done => exact absurd rfl hleft
  | @block n off b offs dir hoff _ _ hchain =>
    cases offs with
    | nil =>
      have := hchain.eq_nil_iff.mp rfl
      omega
    | cons o offs =>
      have := recordAt_size_le (blockAt fs b) (n * fs.sb.blockSize) o
      rw [batch, List.map_cons, fitting, if_neg (by omega), List.take_succ_cons]
      exact List.cons_ne_nil _ _

theorem enumerate_spec {mems : Nat → Mem} {sizes : Nat → Nat} {calls i : Nat}
    (hbs : BlockSizeOk fs.sb) (hcache : fs.cache ino = some inode) (hsizes : ∀ i, 281 ≤ sizes i)
    (h : LeftAt fs inode pos left) (hfuel : left.length < fuel) (hcalls : left.flatten.length < calls) :
    ∃ results, enumerate fuel ino mems sizes calls i fs pos = some results ∧
      Delivered mems sizes i left.flatten results := by
  induction calls generalizing i pos left with
  | zero => omega
  | succ calls ih =>
    obtain ⟨count, mem, hrun, hnext, hempty, stop, hstop, hdirents, hframe⟩ :=
      ext2Getdents_spec (mems i) (sizes i) hbs hcache h hfuel
    have hsplit := batch_append (sizes i) left
    rw [enumerate, hrun]
    cases count with
    | zero =>
      obtain rfl : left = [] := not_not.mp fun hne => h.batch_ne_nil hne (hsizes i) (hempty.mp rfl)
      exact ⟨[(0, mem)], rfl, [], [], stop, rfl, hstop, hdirents, hframe, rfl⟩
    | succ count =>
      have hne : batch (sizes i) left ≠ [] := fun heq => Nat.succ_ne_zero count (hempty.mpr heq)
      have hlength := congrArg List.length hsplit
      have hpos := List.length_pos_iff.mpr hne
      rw [List.length_append] at hlength
      have hle := afterBatch_length_le (sizes i) left
      obtain ⟨results, hresults, hdelivered⟩ := ih (i := i + 1) hnext (by omega) (by omega)
      refine ⟨(count + 1, mem) :: results, ?_, batch (sizes i) left, _, stop, hsplit.symm, hstop, hdirents, hframe,
        hdelivered⟩
      dsimp only
      rw [hresults]
      rfl

theorem Directory.leftAt (h : Directory fs inode dir) : LeftAt fs inode 0 (blockRecords fs 0 dir) := by
  have hstart := leftAt_start (n := 0) h.blockSize (by rw [Nat.zero_add]; exact h.size.trans (by decide)) h.blocksFrom h.chain
  rwa [Nat.zero_mul] at hstart

theorem blockRecords_getinode (ino : Nat) : blockRecords (getinode fs ino).2 n dir = blockRecords fs n dir := by
  unfold getinode
  cases fs.cache ino with
  | none =>
    dsimp only
    induction dir generalizing n with
    | nil => rfl
    | cons block dir ih =>
      rw [blockRecords, blockRecords, ih]
      rfl
  | some _ => rfl

theorem Directory.getinode (h : Directory fs inode dir) : Directory (getinode fs ino).2 inode dir := by
  unfold Ext2.getinode
  cases fs.cache ino with
  | none => exact ⟨h.blockSize, h.length, h.size, h.number, h.chain, h.unused, h.top⟩
  | some _ => exact h

theorem ext2Getdents_getinode :
    ext2Getdents fuel (getinode fs ino).2 ino mem pos nbytes = ext2Getdents fuel fs ino mem pos nbytes := by
  rw [ext2Getdents, ext2Getdents, getinode_of_cache getinode_cache]

theorem enumerate_getinode {mems : Nat → Mem} {sizes : Nat → Nat} {calls i : Nat} :
    enumerate fuel ino mems sizes calls i (getinode fs ino).2 pos = enumerate fuel ino mems sizes calls i fs pos := by
  cases calls with
  | zero => rfl
  | succ calls => rw [enumerate, enumerate, ext2Getdents_getinode]

/-- Calls of `ext2_getdents`, each with room for any entry, end and give every entry of the directory once. -/
theorem getdents_enumerates (fs : Fs) (ino : Nat) (dir : List (Nat × List Nat)) (h : Directory fs (getinode fs ino).1 dir)
    (mems : Nat → Mem) (sizes : Nat → Nat) (hsizes : ∀ i, dNameOffset + 256 ≤ sizes i) :
    Enumerates fs ino mems sizes (blockRecords fs 0 dir).flatten := by
  refine ⟨(blockRecords fs 0 dir).length + (blockRecords fs 0 dir).flatten.length + 1, fun fuel hfuel calls hcalls => ?_⟩
  rw [← enumerate_getinode, ← blockRecords_getinode ino]
  refine enumerate_spec h.getinode.blockSize getinode_cache hsizes h.getinode.leftAt ?_ ?_
  · rw [blockRecords_getinode]
    omega
  · rw [blockRecords_getinode]
    omega

/-- A directory in block 20, with entries `a`, `b`, … of these inodes. -/
def entriesFs (inos : List Nat) : Fs :=
  let buf := (List.range inos.length).foldl (fun buf i =>
    let len := if i + 1 = inos.length then 1024 - 12 * i else 12
    setDName (setDNameLen (setDRecLen (setDInode buf (12 * i) (inos.getD i 0)) (12 * i) len) (12 * i) 1) (12 * i)
      [UInt8.ofNat (97 + i)]) fun _ => 0
  { entryFs 0 0 [] with disk := Mem.write (fun _ => 0) 20480 buf 1024 }

theorem entriesFs_directory : Directory (entriesFs [7, 0, 8]) (getinode (entriesFs [7, 0, 8]) 12).1 [(20, [0, 12, 24])] where
  blockSize := ⟨0, by decide, rfl⟩
  length := by decide
  size := by decide
  number n block h := by
    cases n with
    | zero =>
      obtain rfl := Option.some.inj h
      exact ⟨by decide, by decide⟩
    | succ n => cases h
  chain block h := by
    obtain rfl := List.mem_singleton.mp h
    exact Chain.entryChain (by decide)
  unused n hn hlt := by
    by_cases hdirect : n < 12
    · have hzero : ∀ n < 12, 1 ≤ n → iBlock (getinode (entriesFs [7, 0, 8]) 12).1 n = 0 := by decide
      rw [ext2BlockNo, if_pos hdirect, hzero n hdirect hn]
    · rw [ext2BlockNo, if_neg hdirect, if_pos hlt, indirect,
        if_pos (show iBlock (getinode (entriesFs [7, 0, 8]) 12).1 12 = 0 by decide)]
  top := by decide

theorem getdents_enumerates_entries : Enumerates (entriesFs [7, 0, 8]) 12 (fun _ _ => 0) (fun _ => 281)
    [⟨7, 0, [97], 0⟩, ⟨0, 0, [98], 12⟩, ⟨8, 0, [99], 24⟩] := by
  have h := getdents_enumerates (entriesFs [7, 0, 8]) 12 [(20, [0, 12, 24])] entriesFs_directory (fun _ _ => 0) (fun _ => 281)
    fun _ => Nat.le_refl _
  rwa [show (blockRecords (entriesFs [7, 0, 8]) 0 [(20, [0, 12, 24])]).flatten =
    [⟨7, 0, [97], 0⟩, ⟨0, 0, [98], 12⟩, ⟨8, 0, [99], 24⟩] by decide +kernel] at h

end FengOS.Ext2
