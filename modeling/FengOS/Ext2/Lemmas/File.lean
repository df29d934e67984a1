import FengOS.Ext2.File
import FengOS.Ext2.Lemmas.Alloc
import FengOS.Ext2.Lemmas.Block

/-!
# Direct blocks and single rounds of the copy loops
-/

namespace FengOS.Ext2

open FengOS.Lib

variable {fs fs' : Fs} {inode : Inode} {ino n m v off size bs pos fuel : Nat} {disk : Mem} {data buf : Nat → UInt8}
  {b : Nat} {sblock : Nat} {cache : Nat → Option Inode}

/-! ## Fields of an inode -/

@[simp] theorem iSize_setISize (h : v < 2 ^ 32) : iSize (setISize inode v) = v := Mem.load_store h

@[simp] theorem iBlock_setISize : iBlock (setISize inode v) n = iBlock inode n := Mem.load_store_of_disjoint (by omega)

@[simp] theorem iSize_setIBlock : iSize (setIBlock inode n v) = iSize inode := Mem.load_store_of_disjoint (by omega)

@[simp] theorem iBlocks_setIBlock : iBlocks (setIBlock inode n v) = iBlocks inode := Mem.load_store_of_disjoint (by omega)

@[simp] theorem iBlock_setIBlock_self (h : v < 2 ^ 32) : iBlock (setIBlock inode n v) n = v := Mem.load_store h

@[simp] theorem iBlock_setIBlock_of_ne (h : m ≠ n) : iBlock (setIBlock inode n v) m = iBlock inode m :=
  Mem.load_store_of_disjoint (by omega)

@[simp] theorem iSize_setIBlocks : iSize (setIBlocks inode v) = iSize inode := Mem.load_store_of_disjoint (by omega)

@[simp] theorem iBlock_setIBlocks : iBlock (setIBlocks inode v) n = iBlock inode n :=
  Mem.load_store_of_disjoint (by omega)

@[simp] theorem iBlocks_setIBlocks (h : v < 2 ^ 32) : iBlocks (setIBlocks inode v) = v := Mem.load_store h

theorem iBlock_lt : iBlock inode n < 2 ^ 32 := Mem.load_lt

theorem iSize_lt : iSize inode < 2 ^ 32 := Mem.load_lt

/-! ## The inode map -/

@[simp] theorem setInode_cache : (fs.setInode ino inode).cache ino = some inode := Function.update_self ..

theorem getinode_of_cache (h : fs.cache ino = some inode) : getinode fs ino = (inode, fs) := by
  rw [getinode, h]

theorem getinode_cache : (getinode fs ino).2.cache ino = some (getinode fs ino).1 := by
  unfold getinode
  cases hcache : fs.cache ino with
  | none => exact setInode_cache
  | some inode => exact hcache

theorem getinode_frame (fs : Fs) (ino : Nat) : (getinode fs ino).2.sb = fs.sb ∧ (getinode fs ino).2.disk = fs.disk ∧
    (getinode fs ino).2.bad = fs.bad ∧ (getinode fs ino).2.cache ino = some (getinode fs ino).1 := by
  unfold getinode
  cases h : fs.cache ino with
  | none => exact ⟨rfl, rfl, rfl, setInode_cache⟩
  | some inode => exact ⟨rfl, rfl, rfl, h⟩

theorem getBlockNo_of_frame {fs' : Fs} (hsb : fs'.sb = fs.sb) (hdisk : fs'.disk = fs.disk) (n : Nat) :
    getBlockNo fs' inode n = getBlockNo fs inode n := by
  unfold getBlockNo
  rw [hsb, hdisk]

/-! ## The block device -/

theorem putinode_eq (hcache : fs.cache ino = some inode) (hio : ∀ pos, fs.bad pos = false)
    (hslot : inodeOffset fs.sb ino + inodeBytes ≤ fs.sb.blockSize) : putinode fs ino = { fs with
      disk := fs.disk.write (inodeBlock fs.sb ino * fs.sb.blockSize + inodeOffset fs.sb ino) inode inodeBytes } := by
  simp only [putinode, hcache, bdevWrite, hio, Bool.false_eq_true, if_false, Option.getD_some, write_bdevRead hslot]

/-! ## Block numbers -/

theorem findLevel_lt {ladder : Nat → Nat} {rounds i sum depth : Nat} {r : Nat × Nat}
    (h : findLevel ladder n rounds i sum depth = some r) : n < 2 ^ 32 ∧ i ≤ r.1 := by
  induction rounds generalizing i sum depth with
  | zero => cases h
  | succ rounds ih =>
    rw [findLevel] at h
    generalize (if 12 ≤ i then depth + 1 else depth) = depth' at h
    split at h
    · rename_i hround
      obtain rfl := Option.some.inj h
      exact ⟨by omega, Nat.le_refl i⟩
    · obtain ⟨hn, hi⟩ := ih h
      exact ⟨hn, by omega⟩

theorem descend_lt {disk : Mem} {bs b depth block reminder : Nat} {ladder : Nat → Nat} (hblock : block < 2 ^ 32)
    (h : descend disk bs ladder depth block reminder = some b) : b < 2 ^ 32 := by
  induction depth generalizing block reminder with
  | zero =>
    obtain rfl := Option.some.inj h
    exact hblock
  | succ depth ih =>
    rw [descend] at h
    split at h
    · obtain rfl := Option.some.inj h
      exact hblock
    · dsimp only at h
      split at h
      · exact ih Mem.load_lt h
      · cases h

theorem getBlockNo_lt (h : getBlockNo fs inode n = some (Int.ofNat b)) : n < 2 ^ 32 ∧ b < 2 ^ 32 := by
  unfold getBlockNo at h
  dsimp only at h
  split at h
  · cases h
  · rename_i hlevel
    obtain ⟨b', hb', he⟩ := Option.map_eq_some_iff.mp h
    obtain rfl := Int.ofNat.inj he
    exact ⟨(findLevel_lt hlevel).1, descend_lt iBlock_lt hb'⟩

theorem getBlockNo_range {b : Int} (h : getBlockNo fs inode n = some b) : -1 ≤ b ∧ b < 2 ^ 32 := by
  unfold getBlockNo at h
  dsimp only at h
  split at h
  · obtain rfl := Option.some.inj h
    decide
  · obtain ⟨c, hc, rfl⟩ := Option.map_eq_some_iff.mp h
    have := descend_lt iBlock_lt hc
    constructor <;> simp only [Int.ofNat_eq_natCast] <;> omega

/-! ## Direct blocks -/

theorem getBlockNo_direct (hn : n < 12) : getBlockNo fs inode n = some (Int.ofNat (iBlock inode n)) := by
  have hrounds : nrInodeBlock = 12 - 0 + 3 := rfl
  unfold getBlockNo
  dsimp only
  rw [hrounds, findLevel_direct (fun i hi => arrayLadder_direct hi) (Nat.zero_le n) hn]
  rfl

theorem getblock_direct (hn : n < 12) (hbs : fs.sb.blockSize < 2 ^ 31) : getblock fs n inode data =
    some (if iBlock inode n = 0 then (0, data) else (1, bdevRead fs.disk (iBlock inode n * fs.sb.blockSize))) := by
  have hlt : iBlock inode n < 2 ^ 32 := iBlock_lt
  have hmod : (Int.ofNat (iBlock inode n) % 2 ^ 64).toNat = iBlock inode n := by
    simp only [Int.ofNat_eq_natCast]
    omega
  have hpos : iBlock inode n * fs.sb.blockSize % 2 ^ 64 = iBlock inode n * fs.sb.blockSize := by
    refine Nat.mod_eq_of_lt (Nat.lt_of_le_of_lt (Nat.mul_le_mul (Nat.le_of_lt hlt) (Nat.le_of_lt hbs)) (by decide))
  rw [getblock, Nat.mod_eq_of_lt (by omega), getBlockNo_direct hn, Option.map_some]
  dsimp only
  rw [hmod, hpos]

/-! ## Reads within a block -/

theorem readLoop_single (hn : n < 12) (hbs : fs.sb.blockSize < 2 ^ 31) (hblock : iBlock inode n ≠ 0)
    (hfit : off + size ≤ fs.sb.blockSize) : readLoop fs inode size n off size =
      some ((List.range size).map fun x => fs.disk (iBlock inode n * fs.sb.blockSize + (off + x))) := by
  cases size with
  | zero => rfl
  | succ size =>
    have hcopy : min (fs.sb.blockSize - off) (size + 1) = size + 1 := by omega
    have hrest : readLoop fs inode size (n + 1) 0 0 = some [] := by
      cases size <;> simp [readLoop]
    rw [readLoop, if_neg (Nat.succ_ne_zero size), getblock_direct hn hbs, if_neg hblock]
    dsimp only
    rw [hcopy, Nat.sub_self, hrest, Option.map_some, List.append_nil]
    rfl

theorem ext2Read_single (hcache : fs.cache ino = some inode) (hbs : fs.sb.blockSize < 2 ^ 31) (hsize : 0 < size)
    (hpos : pos + size ≤ iSize inode) (hn : pos / fs.sb.blockSize < 12)
    (hblock : iBlock inode (pos / fs.sb.blockSize) ≠ 0) (hfit : pos % fs.sb.blockSize + size ≤ fs.sb.blockSize) :
    ext2Read fs ino pos size = some ((List.range size).map fun x =>
      fs.disk (iBlock inode (pos / fs.sb.blockSize) * fs.sb.blockSize + (pos % fs.sb.blockSize + x)), fs) := by
  have hlt : iSize inode < 2 ^ 32 := iSize_lt
  have hin : ¬ ((pos : Int) < 0 ∨ (pos : Int) ≥ iSize inode) := by omega
  have hclip : (if (pos + size) % 2 ^ 64 ≥ iSize inode then iSize inode - pos else size) = size := by
    rw [Nat.mod_eq_of_lt (by omega)]
    split <;> omega
  rw [ext2Read, getinode_of_cache hcache]
  dsimp only
  rw [if_neg hin, Int.toNat_natCast, hclip, readLoop_single hn hbs hblock hfit, Option.map_some]

/-! ## Writes within a block -/

theorem toInt_small (h : b < 2 ^ 31) : toInt (Int.ofNat b) = b := toInt_eq (by rw [Int.ofNat_eq_natCast]; omega) (by
  rw [Int.ofNat_eq_natCast]
  omega)

theorem toInt_neg (h : 2 ^ 31 ≤ b) (h' : b < 2 ^ 32) : toInt (Int.ofNat b) < 0 := by
  simp only [toInt, Int.ofNat_eq_natCast]
  omega

theorem toInt_ofNat (b : Nat) : toInt (Int.ofNat b) =
    if b % 2 ^ 32 < 2 ^ 31 then ((b % 2 ^ 32 : Nat) : Int) else ((b % 2 ^ 32 : Nat) : Int) - 2 ^ 32 := by
  simp only [toInt, Int.ofNat_eq_natCast]
  split <;> omega

def Fs.put (fs : Fs) (disk : Mem) (cache : Nat → Option Inode) : Fs := { fs with disk := disk, cache := cache }

theorem put_sb : (fs.put disk cache).sb = fs.sb := rfl

theorem put_disk : (fs.put disk cache).disk = disk := rfl

theorem put_cache : (fs.put disk cache).cache = cache := rfl

def grownInode (inode : Inode) (size : Nat) : Inode := setISize inode ((iSize inode + size) % 2 ^ 32)

def written (fs : Fs) (ino : Nat) (inode : Inode) (buf : Nat → UInt8) (addr size : Nat) : Fs :=
  fs.put ((fs.disk.write addr buf size).write (inodeBlock fs.sb ino * fs.sb.blockSize + inodeOffset fs.sb ino)
    (grownInode inode size) inodeBytes) (Function.update fs.cache ino (some (grownInode inode size)))

theorem written_sb {addr : Nat} : (written fs ino inode buf addr size).sb = fs.sb := put_sb

theorem written_cache {addr : Nat} : (written fs ino inode buf addr size).cache ino = some (grownInode inode size) := by
  rw [written, put_cache, Function.update_self]

theorem writeLoop_single (hcache : fs.cache ino = some inode) (hio : ∀ pos, fs.bad pos = false)
    (hbs : fs.sb.blockSize < 2 ^ 31) (hslot : inodeOffset fs.sb ino + inodeBytes ≤ fs.sb.blockSize) (hsize : 0 < size)
    (hn : n < 12) (hblock : iBlock inode n ≠ 0) (hint : iBlock inode n < 2 ^ 31) (hfit : off + size ≤ fs.sb.blockSize) :
    writeLoop ino buf (size + 1) fs n off 0 size =
      some (Int.ofNat size, written fs ino inode buf (iBlock inode n * fs.sb.blockSize + off) size) := by
  obtain ⟨size, rfl⟩ := Nat.exists_eq_succ_of_ne_zero (Nat.ne_of_gt hsize)
  have hcopy : min (fs.sb.blockSize - off) (size + 1) = size + 1 := by omega
  have hpos : ¬ ((iBlock inode n : Int) ≤ 0) := by omega
  rw [writeLoop, if_neg (Nat.succ_ne_zero size), getinode_of_cache hcache]
  dsimp only
  rw [getblock_direct hn hbs, if_neg hblock]
  dsimp only
  rw [getBlockNo_direct hn]
  dsimp only
  rw [toInt_small hint, if_neg hpos, hcopy, Int.toNat_natCast, bdevWrite, hio, if_neg Bool.false_ne_true,
    write_bdevRead hfit]
  dsimp only
  rw [writeLoop, Nat.sub_self, if_pos rfl, Nat.zero_add, putinode_eq setInode_cache (by exact hio) (by exact hslot)]
  rfl

theorem writeLoop_stop {no : Int} {count : Nat} (hcache : fs.cache ino = some inode) (hn : n < 2 ^ 32)
    (hno : getBlockNo fs inode n = some no) (hsize : 0 < size)
    (hstop : toInt no ≤ 0 ∨ fs.bad ((toInt no).toNat * fs.sb.blockSize) = true) :
    writeLoop ino buf (fuel + 1) fs n off count size = some (-1, fs) := by
  rw [writeLoop, if_neg (Nat.ne_of_gt hsize), getinode_of_cache hcache]
  dsimp only
  rw [getblock, Nat.mod_eq_of_lt hn, hno, Option.map_some]
  dsimp only
  by_cases hzero : (no % 2 ^ 64).toNat = 0
  · rw [if_pos hzero]
  · rw [if_neg hzero]
    dsimp only
    by_cases hle : toInt no ≤ 0
    · rw [if_pos hle]
    · rw [if_neg hle, bdevWrite, if_pos (hstop.resolve_left hle)]

theorem writeLoop_failed (hcache : fs.cache ino = some inode) (hsize : 0 < size) (hn : n < 12)
    (hblock : iBlock inode n = 0 ∨ 2 ^ 31 ≤ iBlock inode n) :
    writeLoop ino buf (size + 1) fs n off 0 size = some (-1, fs) := by
  refine writeLoop_stop hcache (by omega) (getBlockNo_direct hn) hsize (Or.inl ?_)
  rcases hblock with hzero | hbig
  · rw [hzero]
    decide
  · exact Int.le_of_lt (toInt_neg hbig iBlock_lt)

/-! ## The allocation loop -/

theorem allocBlock_cache (fs : Fs) : (allocBlock fs).2.cache = fs.cache := by
  have hresult := alloc_result fs .block
  change AllocResult fs .block _ _ (allocBlock fs) at hresult
  generalize allocBlock fs = r at hresult
  cases hresult <;> rfl

theorem writeAlloc_done (hcache : fs.cache ino = some inode) (h : sblock ≤ iBlocks inode) :
    writeAlloc ino n sblock (fuel + 1) fs = some (true, fs) := by
  rw [writeAlloc, getinode_of_cache hcache]
  exact if_neg (Nat.not_lt.mpr h)

def extended (fs : Fs) (ino : Nat) (inode : Inode) (n b : Nat) : Inode × Fs :=
  let inode := setIBlocks (setIBlock inode n b) ((iBlocks inode + fs.sb.blockSize / 512) % 2 ^ 32)
  (inode, fs.setInode ino inode)

theorem setblock_eq {no : Nat} (hcache : fs.cache ino = some inode) (hn : n < 12) (hunused : iBlock inode n = 0) :
    setblock fs ino n no = (true, (extended fs ino inode n no).2) := by
  rw [setblock, if_neg (Nat.not_le.mpr hn), getinode_of_cache hcache]
  dsimp only
  rw [if_neg (not_not.mpr hunused), iBlocks_setIBlock]
  rfl

theorem writeAlloc_refused {r : Int} (hcache : fs.cache ino = some inode) (hneed : iBlocks inode < sblock)
    (halloc : allocBlock fs = (r, fs')) (hrefused : toInt r < 0 ∨ 12 ≤ n ∨ iBlock inode n ≠ 0) :
    writeAlloc ino n sblock (fuel + 1) fs = some (false, fs') := by
  have hcache' : fs'.cache ino = some inode := by
    have := allocBlock_cache fs
    rw [halloc] at this
    rw [this, hcache]
  rw [writeAlloc, getinode_of_cache hcache]
  dsimp only
  rw [if_pos hneed, halloc]
  dsimp only
  by_cases hneg : toInt r < 0
  · rw [if_pos hneg]
  · rw [if_neg hneg, setblock]
    by_cases hn : 12 ≤ n
    · rw [if_pos hn]
    · rw [if_neg hn, getinode_of_cache hcache']
      dsimp only
      rw [if_pos ((hrefused.resolve_left hneg).resolve_left hn)]

theorem writeAlloc_extended {r : Int} (hcache : fs.cache ino = some inode) (hneed : iBlocks inode < sblock)
    (halloc : allocBlock fs = (r, fs')) (hint : 0 ≤ toInt r) (hn : n < 12) (hunused : iBlock inode n = 0) :
    writeAlloc ino n sblock (fuel + 1) fs = writeAlloc ino n sblock fuel (extended fs' ino inode n (toInt r).toNat).2 := by
  have hcache' : fs'.cache ino = some inode := by
    have := allocBlock_cache fs
    rw [halloc] at this
    rw [this, hcache]
  rw [writeAlloc, getinode_of_cache hcache]
  dsimp only
  rw [if_pos hneed, halloc]
  dsimp only
  rw [if_neg (Int.not_lt.mpr hint), setblock_eq hcache' hn hunused]

theorem extended_cache : (extended fs ino inode n b).2.cache ino = some (extended fs ino inode n b).1 :=
  setInode_cache

theorem extended_blocks : iBlocks (extended fs ino inode n b).1 = (iBlocks inode + fs.sb.blockSize / 512) % 2 ^ 32 :=
  iBlocks_setIBlocks (Nat.mod_lt _ (by decide))

theorem writeAlloc_single {sblock i idx : Nat} (hcache : fs.cache ino = some inode)
    (hio : ∀ pos, fs.bad pos = false) (hfirst : FirstClear fs .block i idx) (hneed : iBlocks inode < sblock)
    (henough : sblock ≤ (iBlocks inode + fs.sb.blockSize / 512) % 2 ^ 32) (hn : n < 12) (hunused : iBlock inode n = 0) :
    writeAlloc ino n sblock (sblock + 1) fs = if (i * fs.sb.blockSize + idx) % 2 ^ 32 < 2 ^ 31 then
        some (true, (extended (setBit fs .block i idx) ino inode n ((i * fs.sb.blockSize + idx) % 2 ^ 32)).2)
      else some (false, setBit fs .block i idx) := by
  obtain ⟨fuel, rfl⟩ : ∃ fuel, sblock = fuel + 1 := ⟨sblock - 1, by omega⟩
  have hgood : ¬ BadBitmap fs .block i := fun hbad => Bool.false_ne_true ((hio _).symm.trans hbad)
  have halloc : allocBlock fs = (Int.ofNat (i * fs.sb.blockSize + idx), setBit fs .block i idx) := alloc_eq hfirst hgood
  have hint := toInt_ofNat (i * fs.sb.blockSize + idx)
  split
  · rename_i hsmall
    rw [if_pos hsmall] at hint
    rw [writeAlloc_extended hcache hneed halloc (by omega) hn hunused, hint, Int.toNat_natCast]
    exact writeAlloc_done extended_cache (by rw [extended_blocks]; exact henough)
  · rename_i hbig
    rw [if_neg hbig] at hint
    exact writeAlloc_refused hcache hneed halloc (Or.inl (by omega))

/-! ## The size that a write leaves -/

theorem fileSize_of_cache (h : fs.cache ino = some inode) : fileSize fs ino = iSize inode := by
  rw [fileSize, getinode_of_cache h]

theorem fileSize_getinode : fileSize (getinode fs ino).2 ino = fileSize fs ino :=
  fileSize_of_cache (getinode_frame fs ino).2.2.2

theorem fileSize_putinode (hcache : fs.cache ino = some inode) : fileSize (putinode fs ino) ino = iSize inode := by
  refine fileSize_of_cache ?_
  unfold putinode bdevWrite
  rw [hcache]
  dsimp only
  split <;> exact hcache

theorem setblock_size {no : Nat} (h : setblock fs ino n no = (true, fs')) :
    fileSize fs' ino = fileSize fs ino ∧ ∃ inode', fs'.cache ino = some inode' := by
  unfold setblock at h
  split at h
  · cases h
  · dsimp only at h
    split at h
    · cases h
    · cases h
      refine ⟨?_, _, setInode_cache⟩
      rw [fileSize_of_cache setInode_cache, iSize_setIBlocks, iSize_setIBlock]
      rfl

theorem writeAlloc_size (hcache : fs.cache ino = some inode) (h : writeAlloc ino n sblock fuel fs = some (true, fs')) :
    fileSize fs' ino = fileSize fs ino ∧ ∃ inode', fs'.cache ino = some inode' := by
  induction fuel generalizing fs inode with
  | zero => cases h
  | succ fuel ih =>
    rw [writeAlloc, getinode_of_cache hcache] at h
    dsimp only at h
    split at h
    · have hcache' : (allocBlock fs).2.cache ino = some inode := by rw [allocBlock_cache, hcache]
      split at h
      · cases h
      · split at h
        · cases h
        · rename_i fs₁ hset
          obtain ⟨hsize, inode', hcache₁⟩ := setblock_size hset
          rw [fileSize_of_cache hcache'] at hsize
          rw [fileSize_of_cache hcache, ← hsize]
          exact ih hcache₁ h
    · cases h
      exact ⟨rfl, inode, hcache⟩

theorem setblock_sb (fs : Fs) (ino n no : Nat) : (setblock fs ino n no).2.sb = fs.sb := by
  unfold setblock
  split
  · rfl
  · dsimp only
    split <;> exact (getinode_frame fs ino).1

/-- What holds of one state and the next in each call that `ext2_write` makes to get blocks. -/
theorem writeAlloc_rel {R : Fs → Fs → Prop} {ok : Bool} (htrans : ∀ a b c, R a b → R b c → R a c)
    (hget : ∀ fs, R fs (getinode fs ino).2) (hnew : ∀ fs, R fs (allocBlock fs).2)
    (hset : ∀ fs no, R fs (setblock fs ino n no).2) (h : writeAlloc ino n sblock fuel fs = some (ok, fs')) : R fs fs' := by
  induction fuel generalizing fs with
  | zero => cases h
  | succ fuel ih =>
    have hnew := htrans _ _ _ (hget fs) (hnew _)
    have hset := htrans _ _ _ hnew (hset _ (toInt (allocBlock (getinode fs ino).2).1).toNat)
    rw [writeAlloc] at h
    dsimp only at h
    split at h
    · split at h
      · cases h
        exact hnew
      · split at h
        · rename_i he
          cases h
          rwa [he] at hset
        · rename_i he
          rw [he] at hset
          exact htrans _ _ _ hset (ih h)
    · cases h
      exact hget fs

theorem writeAlloc_sb {ok : Bool} (h : writeAlloc ino n sblock fuel fs = some (ok, fs')) : fs'.sb = fs.sb :=
  writeAlloc_rel (R := fun a b => b.sb = a.sb) (fun _ _ _ h h' => h'.trans h) (fun fs => (getinode_frame fs ino).1)
    (fun fs => alloc_sb fs .block) (fun fs no => setblock_sb fs ino n no) h

theorem writeLoop_size {count c : Nat} (hcache : fs.cache ino = some inode)
    (h : writeLoop ino buf fuel fs n off count size = some (Int.ofNat c, fs')) :
    count ≤ c ∧ fileSize fs' ino = (iSize inode + (c - count)) % 2 ^ 32 := by
  induction fuel generalizing fs inode n off count size with
  | zero => cases h
  | succ fuel ih =>
    rw [writeLoop] at h
    split at h
    · obtain ⟨hc, rfl⟩ := Prod.mk.inj (Option.some.inj h)
      obtain rfl := Int.ofNat.inj hc
      rw [fileSize_putinode hcache, Nat.sub_self, Nat.add_zero, Nat.mod_eq_of_lt iSize_lt]
      exact ⟨Nat.le_refl count, rfl⟩
    · rw [getinode_of_cache hcache] at h
      dsimp only at h
      split at h
      · cases h
      · cases h
      · split at h
        · cases h
        · split at h
          · cases h
          · split at h
            · cases h
            · obtain ⟨hle, hsize⟩ := ih setInode_cache h
              rw [hsize, iSize_setISize (Nat.mod_lt _ (by decide)), Nat.mod_add_mod, Nat.add_assoc]
              exact ⟨by omega, by congr 2; omega⟩

/-! ## Bytes that a write does not use -/

theorem writeLoop_congr {buf' : Nat → UInt8} {bound count : Nat} (hbuf : ∀ x < bound, buf x = buf' x)
    (hcopy : min (fs.sb.blockSize - off) size ≤ bound) (hrest : size - min (fs.sb.blockSize - off) size ≤ bound) :
    writeLoop ino buf fuel fs n off count size = writeLoop ino buf' fuel fs n off count size := by
  induction fuel generalizing fs n off count size with
  | zero => rfl
  | succ fuel ih =>
    have hsb := (getinode_frame fs ino).1
    have hwrite : ∀ buffer : Mem, buffer.write off buf (min ((getinode fs ino).2.sb.blockSize - off) size) =
        buffer.write off buf' (min ((getinode fs ino).2.sb.blockSize - off) size) := by
      intro buffer
      rw [hsb]
      exact Mem.write_congr fun x hx => hbuf x (Nat.lt_of_lt_of_le hx hcopy)
    simp only [writeLoop, hwrite]
    split
    · rfl
    · split
      · rfl
      · rfl
      · split
        · rfl
        · split
          · rfl
          · split
            · rfl
            · rename_i hbdev
              unfold bdevWrite at hbdev
              split at hbdev
              · cases hbdev
              · cases hbdev
                rw [hsb]
                refine ih ?_ ?_ <;> dsimp only [Fs.setInode] <;> omega

end FengOS.Ext2
