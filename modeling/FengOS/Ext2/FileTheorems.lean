import FengOS.Ext2.Lemmas.File

/-!
# Writing to files
-/

namespace FengOS.Ext2

open FengOS.Lib

variable {fs fs₂ : Fs} {ino i idx n pos size : Nat} {others : Nat → Prop} {inode₂ : Inode} {buf : Nat → UInt8}

/-! ## The steps of `ext2_write` -/

theorem exists_firstClear {kind : Bitmap} (h : ¬ AllSet fs kind) : ∃ i idx, FirstClear fs kind i idx := by
  cases hclear : clearGroup fs (readBitmap fs kind.field) with
  | none => exact absurd (clearGroup_eq_none.mp hclear) h
  | some r => exact ⟨_, _, firstClear_iff.mpr (clearGroup_eq_some.mp hclear).2⟩

theorem firstClear_getinode {kind : Bitmap} : FirstClear (getinode fs ino).2 kind i idx ↔ FirstClear fs kind i idx := by
  unfold getinode
  cases fs.cache ino with
  | some inode => rfl
  | none =>
    constructor
    · exact fun h => ⟨h.group, h.index, h.clear, h.groups, h.before⟩
    · exact fun h => ⟨h.group, h.index, h.clear, h.groups, h.before⟩

theorem ext2Read_getinode : (ext2Read (getinode fs ino).2 ino pos size) = ext2Read fs ino pos size := by
  unfold ext2Read
  rw [getinode_of_cache (getinode_frame fs ino).2.2.2]

theorem DirectFile.sectors (h : DirectFile fs ino others) :
    ∃ s, fs.sb.blockSize = 512 * s ∧ fs.sb.blockSize / 512 = s ∧ 2 ≤ s := by
  obtain ⟨s, hs⟩ := h.blockSize
  have hpos := Nat.two_pow_pos s
  exact ⟨2 * 2 ^ s, by omega, by omega, by omega⟩

theorem DirectFile.blockSize_pos (h : DirectFile fs ino others) : 0 < fs.sb.blockSize := by
  obtain ⟨s, hs, -, hs'⟩ := h.sectors
  omega

theorem upperDiv_le {x s : Nat} (h : x ≤ 512 * s) : upperDiv x 512 ≤ s := by
  unfold upperDiv
  split <;> omega

theorem lt_upperDiv {x s : Nat} (h : 512 * s < x) : s < upperDiv x 512 := by
  unfold upperDiv
  split <;> omega

section Steps

variable (h : DirectFile fs ino others)

include h

theorem DirectFile.sblock (hfits : pos + size ≤ 12 * fs.sb.blockSize) :
    upperDiv ((pos + size) % 2 ^ 64) 512 % 2 ^ 32 = upperDiv (pos + size) 512 := by
  have hbound := h.bound
  have hle : upperDiv (pos + size) 512 ≤ pos + size := upperDiv_le (by omega)
  rw [Nat.mod_eq_of_lt (by omega : pos + size < 2 ^ 64), Nat.mod_eq_of_lt (by omega)]

theorem DirectFile.write_existing (hpos : pos ≤ fileSize fs ino)
    (hfits : pos + size ≤ fileBlocks fs ino * fs.sb.blockSize) : ext2Write fs ino buf pos size =
      writeLoop ino buf (size + 1) (getinode fs ino).2 (pos / fs.sb.blockSize) (pos % fs.sb.blockSize) 0 size := by
  obtain ⟨hsb, -, -, hcache⟩ := getinode_frame fs ino
  have hin : ¬ ((pos : Int) < 0 ∨ (pos : Int) > iSize (getinode fs ino).1) := by
    have : pos ≤ iSize (getinode fs ino).1 := hpos
    omega
  have hdone : upperDiv (pos + size) 512 ≤ iBlocks (getinode fs ino).1 := by
    obtain ⟨s, hs, hs', -⟩ := h.sectors
    rw [h.count, hs']
    refine upperDiv_le ?_
    rw [hs, Nat.mul_left_comm] at hfits
    exact hfits
  have hsblock := h.sblock (Nat.le_trans hfits (Nat.mul_le_mul_right _ h.direct))
  rw [ext2Write]
  dsimp only
  rw [if_neg hin, Int.toNat_natCast, hsblock, writeAlloc_done hcache hdone]
  dsimp only
  rw [hsb]

theorem DirectFile.write_new (hfirst : FirstClear fs .block i idx) (hpos : pos = fileSize fs ino)
    (hend : pos = fileBlocks fs ino * fs.sb.blockSize) (hsize : 0 < size) (hfit : size ≤ fs.sb.blockSize)
    (hn : fileBlocks fs ino < 12) : ext2Write fs ino buf pos size = if (i * fs.sb.blockSize + idx) % 2 ^ 32 < 2 ^ 31 then
        writeLoop ino buf (size + 1) (extended (setBit (getinode fs ino).2 .block i idx) ino (getinode fs ino).1
          (fileBlocks fs ino) ((i * fs.sb.blockSize + idx) % 2 ^ 32)).2 (fileBlocks fs ino) 0 0 size
      else some (-1, setBit (getinode fs ino).2 .block i idx) := by
  obtain ⟨hsb, -, hbad, hcache⟩ := getinode_frame fs ino
  obtain ⟨s, hs, hs', htwo⟩ := h.sectors
  have hin : ¬ ((pos : Int) < 0 ∨ (pos : Int) > iSize (getinode fs ino).1) := by
    have : pos = iSize (getinode fs ino).1 := hpos
    omega
  have hbs : 0 < fs.sb.blockSize := by omega
  have hsectors : pos + size ≤ 512 * (fileBlocks fs ino * s + s) := by
    rw [hend, Nat.mul_add, Nat.mul_left_comm, ← hs]
    omega
  have hmul : pos = 512 * (fileBlocks fs ino * s) := by
    rw [hend, hs, Nat.mul_left_comm]
  have hbound := h.bound
  have hcount : iBlocks (getinode fs ino).1 = fileBlocks fs ino * s := by rw [h.count, hs']
  have hle : fileBlocks fs ino * fs.sb.blockSize + fs.sb.blockSize ≤ 12 * fs.sb.blockSize := by
    rw [← Nat.succ_mul]
    exact Nat.mul_le_mul_right _ hn
  have hsblock : upperDiv ((pos + size) % 2 ^ 64) 512 % 2 ^ 32 = _ := h.sblock (by omega)
  have hblocks : iBlocks (getinode fs ino).1 / (fs.sb.blockSize / 512) = fileBlocks fs ino := rfl
  have halloc : writeAlloc ino (fileBlocks fs ino) (upperDiv (pos + size) 512) (upperDiv (pos + size) 512 + 1)
      (getinode fs ino).2 = _ :=
    writeAlloc_single hcache (by rw [hbad]; exact h.io) (firstClear_getinode.mpr hfirst)
      (by rw [hcount]; exact lt_upperDiv (by omega)) (by
        rw [hsb, hs', hcount, Nat.mod_eq_of_lt (by omega)]
        exact upperDiv_le hsectors) hn (h.unused _ hn (Nat.le_refl _))
  rw [hsb] at halloc
  rw [ext2Write]
  dsimp only
  rw [if_neg hin, Int.toNat_natCast, hsblock, hsb, hblocks, halloc]
  by_cases hint : (i * fs.sb.blockSize + idx) % 2 ^ 32 < 2 ^ 31
  · rw [if_pos hint, if_pos hint]
    have hsb' : (extended (setBit (getinode fs ino).2 .block i idx) ino (getinode fs ino).1
        (fileBlocks fs ino) ((i * fs.sb.blockSize + idx) % 2 ^ 32)).2.sb = fs.sb := hsb
    dsimp only
    rw [hsb', hend, Nat.mul_div_cancel _ hbs, Nat.mul_mod_left]
  · rw [if_neg hint, if_neg hint]

end Steps

/-! ## The state after a write -/

/-- Before the copy loop the file has its old blocks, and only bitmaps have changed. -/
structure Ready (fs : Fs) (ino : Nat) (fs₂ : Fs) (inode₂ : Inode) : Prop where
  cache : fs₂.cache ino = some inode₂
  sb : fs₂.sb = fs.sb
  io : ∀ pos, fs₂.bad pos = false
  size : iSize inode₂ = fileSize fs ino
  blocks : ∀ j < fileBlocks fs ino, iBlock inode₂ j = fileBlock fs ino j
  disk : ∀ b, (∀ i < fs.sb.nrGroup, b ≠ (fs.sb.groupDescTable i).bgBlockBitmap) → ∀ x < fs.sb.blockSize,
    fs₂.disk (b * fs.sb.blockSize + x) = fs.disk (b * fs.sb.blockSize + x)

theorem DirectFile.ready (h : DirectFile fs ino others) : Ready fs ino (getinode fs ino).2 (getinode fs ino).1 := by
  obtain ⟨hsb, hdisk, hbad, hcache⟩ := getinode_frame fs ino
  exact ⟨hcache, hsb, hbad ▸ h.io, rfl, fun _ _ => rfl, fun _ _ _ _ => by rw [hdisk]⟩

theorem DirectFile.ready_new (h : DirectFile fs ino others) (hfirst : FirstClear fs .block i idx) (b : Nat) :
    Ready fs ino (extended (setBit (getinode fs ino).2 .block i idx) ino (getinode fs ino).1 (fileBlocks fs ino) b).2
      (extended (setBit (getinode fs ino).2 .block i idx) ino (getinode fs ino).1 (fileBlocks fs ino) b).1 := by
  obtain ⟨hsb, hdisk, hbad, hcache⟩ := getinode_frame fs ino
  have hindex := hfirst.index
  refine ⟨setInode_cache, hsb, fun pos => (congrFun hbad pos).trans (h.io pos), ?_, fun j hj => ?_, fun c hc x hx => ?_⟩
  · simp only [extended, iSize_setIBlocks, iSize_setIBlock]
    rfl
  · simp only [extended, iBlock_setIBlocks, iBlock_setIBlock_of_ne (Nat.ne_of_lt hj)]
    rfl
  · have hne : c * fs.sb.blockSize + x ≠ (fs.sb.groupDescTable i).bgBlockBitmap * fs.sb.blockSize + idx / 8 :=
      fun he => hc i hfirst.group (mul_add_inj hx (by omega) he).1
    simp only [extended, Fs.setInode, setBit, Bitmap.field, hsb, hdisk, Function.update_of_ne hne]

theorem DirectFile.read_byte {fs' : Fs} {inode' : Inode} {p : Nat} (h : DirectFile fs ino others)
    (hcache : fs'.cache ino = some inode') (hsb : fs'.sb = fs.sb)
    (hblocks : ∀ j < fileBlocks fs ino, iBlock inode' j = fileBlock fs ino j) (hp : p < fileSize fs ino)
    (hp' : p < iSize inode') : (ext2Read fs' ino p 1).map Prod.fst =
      some [fs'.disk (fileBlock fs ino (p / fs.sb.blockSize) * fs.sb.blockSize + p % fs.sb.blockSize)] := by
  have hbound := h.bound
  have hbs := h.blockSize_pos
  have hj : p / fs.sb.blockSize < fileBlocks fs ino :=
    (Nat.div_lt_iff_lt_mul hbs).mpr (Nat.lt_of_lt_of_le hp h.size)
  have hblock := hblocks _ hj
  have hread := ext2Read_single hcache (by rw [hsb]; omega) Nat.one_pos hp'
    (by rw [hsb]; exact Nat.lt_of_lt_of_le hj h.direct) (by rw [hsb, hblock]; exact h.used _ hj)
    (by rw [hsb]; exact Nat.mod_lt p hbs)
  rw [hread, hsb, hblock]
  rfl

theorem DirectFile.read_old {p : Nat} (h : DirectFile fs ino others) (hp : p < fileSize fs ino) :
    (ext2Read fs ino p 1).map Prod.fst =
      some [fs.disk (fileBlock fs ino (p / fs.sb.blockSize) * fs.sb.blockSize + p % fs.sb.blockSize)] := by
  obtain ⟨hsb, hdisk, -, hcache⟩ := getinode_frame fs ino
  rw [← ext2Read_getinode, h.read_byte hcache hsb (fun _ _ => rfl) hp hp, hdisk]

section Written

variable {b off c x : Nat}

theorem written_of_ne (hslot : inodeOffset fs₂.sb ino + inodeBytes ≤ fs₂.sb.blockSize) (hx : x < fs₂.sb.blockSize)
    (htable : c ≠ inodeBlock fs₂.sb ino) (hout : c ≠ b ∨ x < off ∨ off + size ≤ x) (hfit : off + size ≤ fs₂.sb.blockSize) :
    (written fs₂ ino inode₂ buf (b * fs₂.sb.blockSize + off) size).disk (c * fs₂.sb.blockSize + x) =
      fs₂.disk (c * fs₂.sb.blockSize + x) := by
  have htable' := block_disjoint fs₂.sb.blockSize htable
  rw [written, put_disk, Mem.write_apply (by omega), Mem.write_apply]
  by_cases hcb : c = b
  · subst hcb
    omega
  · have hblock := block_disjoint fs₂.sb.blockSize hcb
    omega

theorem written_of_mem (hslot : inodeOffset fs₂.sb ino + inodeBytes ≤ fs₂.sb.blockSize) (hx : x < size)
    (htable : b = inodeBlock fs₂.sb ino → off + size ≤ inodeOffset fs₂.sb ino) (hfit : off + size ≤ fs₂.sb.blockSize) :
    (written fs₂ ino inode₂ buf (b * fs₂.sb.blockSize + off) size).disk (b * fs₂.sb.blockSize + (off + x)) = buf x := by
  rw [written, put_disk, Mem.write_apply, ← Nat.add_assoc, Mem.write_add hx]
  by_cases hb : b = inodeBlock fs₂.sb ino
  · have := htable hb
    subst hb
    omega
  · have hblock := block_disjoint fs₂.sb.blockSize hb
    omega

theorem written_slot (hx : x < inodeBytes) : (written fs₂ ino inode₂ buf (b * fs₂.sb.blockSize + off) size).disk
    (inodeBlock fs₂.sb ino * fs₂.sb.blockSize + (inodeOffset fs₂.sb ino + x)) = grownInode inode₂ size x := by
  rw [written, put_disk, ← Nat.add_assoc, Mem.write_add hx]

end Written

theorem exists_byte_ne (a : UInt8) : ∃ v : UInt8, v ≠ a := by
  by_cases h : a = 0
  · exact ⟨1, by rw [h]; decide⟩
  · exact ⟨0, fun he => h he.symm⟩

section Append

variable (h : DirectFile fs ino others) (hr : Ready fs ino fs₂ inode₂) (hpos : pos = fileSize fs ino) (hsize : 0 < size)
  (hfits : pos + size ≤ 12 * fs.sb.blockSize)

include h hr hpos hfits

theorem Ready.written_size (buf : Nat → UInt8) (addr : Nat) :
    (written fs₂ ino inode₂ buf addr size).cache ino = some (grownInode inode₂ size) ∧
    iSize (grownInode inode₂ size) = pos + size := by
  have hbound := h.bound
  refine ⟨written_cache, ?_⟩
  rw [grownInode, hr.size, ← hpos, iSize_setISize (Nat.mod_lt _ (by decide)), Nat.mod_eq_of_lt (by omega)]

include hsize

theorem Ready.read_written (hfit : pos % fs.sb.blockSize + size ≤ fs.sb.blockSize) (addr : Nat)
    (hblock : iBlock inode₂ (pos / fs.sb.blockSize) ≠ 0) :
    (ext2Read (written fs₂ ino inode₂ buf addr size) ino pos size).map Prod.fst =
      some ((List.range size).map fun x => (written fs₂ ino inode₂ buf addr size).disk
        (iBlock inode₂ (pos / fs.sb.blockSize) * fs.sb.blockSize + (pos % fs.sb.blockSize + x))) := by
  obtain ⟨hcache, hsize'⟩ := hr.written_size h hpos hfits buf addr
  have hbound := h.bound
  have hsb : (written fs₂ ino inode₂ buf addr size).sb = fs.sb := written_sb.trans hr.sb
  have hn : pos / fs.sb.blockSize < 12 := (Nat.div_lt_iff_lt_mul (by omega)).mpr (by omega)
  have hread := ext2Read_single hcache (by rw [hsb]; omega) hsize (Nat.le_of_eq hsize'.symm) (by rw [hsb]; exact hn)
    (by rw [hsb, grownInode, iBlock_setISize]; exact hblock) (by rw [hsb]; exact hfit)
  rw [hread, hsb, grownInode, iBlock_setISize]
  rfl

omit hsize in
theorem Ready.read_before {p : Nat} (hp : p < pos) (buf : Nat → UInt8) (addr : Nat) :
    (ext2Read (written fs₂ ino inode₂ buf addr size) ino p 1).map Prod.fst =
      some [(written fs₂ ino inode₂ buf addr size).disk
        (fileBlock fs ino (p / fs.sb.blockSize) * fs.sb.blockSize + p % fs.sb.blockSize)] ∧
    (ext2Read fs ino p 1).map Prod.fst =
      some [fs.disk (fileBlock fs ino (p / fs.sb.blockSize) * fs.sb.blockSize + p % fs.sb.blockSize)] := by
  obtain ⟨hcache, hsize'⟩ := hr.written_size h hpos hfits buf addr
  refine ⟨h.read_byte hcache (written_sb.trans hr.sb) (fun j hj => ?_) (hpos ▸ hp) (by omega), h.read_old (hpos ▸ hp)⟩
  rw [grownInode, iBlock_setISize, hr.blocks j hj]

theorem Ready.contract (hfit : pos % fs.sb.blockSize + size ≤ fs.sb.blockSize) {b : Nat}
    (hb : iBlock inode₂ (pos / fs.sb.blockSize) = b) (hzero : b ≠ 0) (hwrite : ext2Write fs ino buf pos size =
      some (Int.ofNat size, written fs₂ ino inode₂ buf (b * fs.sb.blockSize + pos % fs.sb.blockSize) size))
    (hothers : ¬ others b) (hown : ∀ j < fileBlocks fs ino, fileBlock fs ino j = b → j = pos / fs.sb.blockSize)
    (htable : b = inodeBlock fs.sb ino → pos % fs.sb.blockSize + size ≤ inodeOffset fs.sb ino) :
    WriteContract fs ino others buf pos size := by
  have hsb := hr.sb
  have hslot : inodeOffset fs₂.sb ino + inodeBytes ≤ fs₂.sb.blockSize := by rw [hsb]; exact h.slot
  have hbs : 0 < fs.sb.blockSize := by omega
  have hkeep : ∀ c x, x < fs.sb.blockSize → c ≠ inodeBlock fs.sb ino →
      c ≠ b ∨ x < pos % fs.sb.blockSize ∨ pos % fs.sb.blockSize + size ≤ x →
      (∀ i < fs.sb.nrGroup, c ≠ (fs.sb.groupDescTable i).bgBlockBitmap) →
      (written fs₂ ino inode₂ buf (b * fs.sb.blockSize + pos % fs.sb.blockSize) size).disk (c * fs.sb.blockSize + x) =
        fs.disk (c * fs.sb.blockSize + x) := by
    intro c x hx htable' hout hbitmap
    rw [← hr.disk c hbitmap x hx]
    have hne : (written fs₂ ino inode₂ buf (b * fs₂.sb.blockSize + pos % fs.sb.blockSize) size).disk _ = _ :=
      written_of_ne hslot (by rw [hsb]; exact hx) (by rw [hsb]; exact htable') hout (by rw [hsb]; exact hfit)
    rwa [hsb] at hne
  obtain ⟨hcache, hsize'⟩ := hr.written_size h hpos hfits buf (b * fs.sb.blockSize + pos % fs.sb.blockSize)
  refine ⟨_, hwrite, ?_, ?_, fun p hp hout => ?_, fun c hc x hx => ?_⟩
  · rw [fileSize_of_cache hcache, hsize', ← hpos]
    omega
  · rw [hr.read_written h hpos hsize hfits hfit _ (hb ▸ hzero), hb]
    refine congrArg some (List.map_congr_left fun x hx => ?_)
    have hmem : (written fs₂ ino inode₂ buf (b * fs₂.sb.blockSize + pos % fs.sb.blockSize) size).disk _ = _ :=
      written_of_mem hslot (List.mem_range.mp hx) (by rw [hsb]; exact htable) (by rw [hsb]; exact hfit)
    rwa [hsb] at hmem
  · have hp' : p < pos := hpos ▸ hp
    have hj : p / fs.sb.blockSize < fileBlocks fs ino :=
      (Nat.div_lt_iff_lt_mul hbs).mpr (Nat.lt_of_lt_of_le hp h.size)
    obtain ⟨hread, hread'⟩ := hr.read_before h hpos hfits hp' buf (b * fs.sb.blockSize + pos % fs.sb.blockSize)
    rw [hread, hread', hkeep _ _ (Nat.mod_lt p hbs) (h.table _ hj) ?_ (h.bitmap _ hj)]
    by_cases hsame : fileBlock fs ino (p / fs.sb.blockSize) = b
    · -- the same block of the file, so an offset before the range
      have hdiv := hown _ hj hsame
      have hp₁ := Nat.div_add_mod p fs.sb.blockSize
      have hp₂ := Nat.div_add_mod pos fs.sb.blockSize
      rw [hdiv] at hp₁
      omega
    · exact Or.inl hsame
  · obtain ⟨htable', -, hbitmap⟩ := h.others c hc
    exact hkeep c x hx htable' (Or.inl fun he => hothers (he ▸ hc)) hbitmap


theorem Ready.of_contract (hend : pos = fileBlocks fs ino * fs.sb.blockSize) (hfit : size ≤ fs.sb.blockSize) {b : Nat}
    (hb : iBlock inode₂ (fileBlocks fs ino) = b) (hzero : b ≠ 0) (hwrite : ∀ buf, ext2Write fs ino buf pos size =
      some (Int.ofNat size, written fs₂ ino inode₂ buf (b * fs.sb.blockSize) size))
    (hcontract : ∀ buf, WriteContract fs ino others buf pos size) :
    ¬ others b ∧ (∀ j < fileBlocks fs ino, b ≠ fileBlock fs ino j) ∧
      (b = inodeBlock fs.sb ino → size ≤ inodeOffset fs.sb ino) := by
  have hsb := hr.sb
  have hslot : inodeOffset fs₂.sb ino + inodeBytes ≤ fs₂.sb.blockSize := by rw [hsb]; exact h.slot
  have hbs : 0 < fs.sb.blockSize := by omega
  have hdiv : pos / fs.sb.blockSize = fileBlocks fs ino := by rw [hend, Nat.mul_div_cancel _ hbs]
  have hmod : pos % fs.sb.blockSize = 0 := by rw [hend, Nat.mul_mod_left]
  -- the first byte of the block is that of the buffer
  have hfirst : ∀ buf, b ≠ inodeBlock fs.sb ino →
      (written fs₂ ino inode₂ buf (b * fs.sb.blockSize) size).disk (b * fs.sb.blockSize) = buf 0 := by
    intro buf htable
    have hmem : (written fs₂ ino inode₂ buf (b * fs₂.sb.blockSize + 0) size).disk (b * fs₂.sb.blockSize + (0 + 0)) = _ :=
      written_of_mem hslot hsize (by rw [hsb]; exact fun he => absurd he htable) (by rw [hsb]; omega)
    rwa [hsb] at hmem
  obtain ⟨v, hv⟩ : ∃ v : UInt8, v ≠ fs.disk (b * fs.sb.blockSize) := exists_byte_ne _
  obtain ⟨w, hw⟩ : ∃ w : UInt8, w ≠ grownInode inode₂ size 0 := exists_byte_ne _
  refine ⟨fun hothers => ?_, fun j hj he => ?_, fun htable => ?_⟩
  · obtain ⟨fs', hwrite', -, -, -, hkeep⟩ := hcontract fun _ => v
    rw [hwrite] at hwrite'
    cases hwrite'
    have hkept := hkeep b hothers 0 hbs
    rw [Nat.add_zero, hfirst _ (h.others b hothers).1] at hkept
    exact hv hkept
  · obtain ⟨fs', hwrite', -, -, hkeep, -⟩ := hcontract fun _ => v
    rw [hwrite] at hwrite'
    cases hwrite'
    have hp : j * fs.sb.blockSize < pos := hend ▸ Nat.mul_lt_mul_of_pos_right hj hbs
    obtain ⟨hread, hread'⟩ := hr.read_before h hpos hfits hp (fun _ => v) (b * fs.sb.blockSize)
    have hsame := hkeep _ (hpos ▸ hp) (Or.inl hp)
    rw [hread, hread', Nat.mul_div_cancel _ hbs, Nat.mul_mod_left, ← he, Nat.add_zero,
      hfirst _ (he ▸ h.table j hj)] at hsame
    exact hv (List.cons.inj (Option.some.inj hsame)).1
  · by_contra hslot'
    obtain ⟨fs', hwrite', -, hread, -, -⟩ := hcontract fun _ => w
    rw [hwrite] at hwrite'
    cases hwrite'
    rw [hr.read_written h hpos hsize hfits (by omega) _ (by rw [hdiv, hb]; exact hzero), hdiv, hmod, hb] at hread
    have hbyte := List.map_inj_left.mp (Option.some.inj hread) (inodeOffset fs.sb ino) (List.mem_range.mpr (by omega))
    have hinode : (written fs₂ ino inode₂ (fun _ => w) (b * fs₂.sb.blockSize + 0) size).disk
        (inodeBlock fs₂.sb ino * fs₂.sb.blockSize + (inodeOffset fs₂.sb ino + 0)) = _ := written_slot (by decide)
    rw [hsb, ← htable, Nat.add_zero, Nat.add_zero] at hinode
    rw [Nat.zero_add, hinode] at hbyte
    exact hw hbyte.symm


end Append

/-! ## The contract -/

theorem ext2Write_size {fs' : Fs} (hwrite : ext2Write fs ino buf pos size = some (Int.ofNat size, fs')) :
    fileSize fs' ino = (fileSize fs ino + size) % 2 ^ 32 := by
  have hcache := (getinode_frame fs ino).2.2.2
  rw [ext2Write] at hwrite
  dsimp only at hwrite
  split at hwrite
  · cases hwrite
  · split at hwrite
    · cases hwrite
    · cases hwrite
    · rename_i hin fs₂ halloc
      obtain ⟨hsize, inode₂, hcache₂⟩ := writeAlloc_size hcache halloc
      obtain ⟨-, hloop⟩ := writeLoop_size hcache₂ hwrite
      rw [hloop, Nat.sub_zero, ← fileSize_of_cache hcache₂, hsize, fileSize_getinode]

theorem ext2Write_congr {buf' : Nat → UInt8} (hlong : fs.sb.blockSize < pos % fs.sb.blockSize + size)
    (hbs : 0 < fs.sb.blockSize) (hbuf : ∀ x < size - 1, buf x = buf' x) :
    ext2Write fs ino buf pos size = ext2Write fs ino buf' pos size := by
  have hmod : pos % fs.sb.blockSize < fs.sb.blockSize := Nat.mod_lt pos hbs
  rw [ext2Write, ext2Write]
  dsimp only
  split
  · rfl
  · split
    · rfl
    · rfl
    · rename_i fs₂ halloc
      have hsb : fs₂.sb = fs.sb := (writeAlloc_sb halloc).trans (getinode_frame fs ino).1
      rw [Int.toNat_natCast, hsb]
      exact writeLoop_congr hbuf (by rw [hsb]; omega) (by rw [hsb]; omega)

theorem DirectFile.contract_zero (h : DirectFile fs ino others) (hpos : pos ≤ fileSize fs ino) :
    WriteContract fs ino others buf pos 0 := by
  obtain ⟨hsb, hdisk, hbad, hcache⟩ := getinode_frame fs ino
  have hput : putinode (getinode fs ino).2 ino = _ :=
    putinode_eq hcache (fun p => (congrFun hbad p).trans (h.io p)) (by rw [hsb]; exact h.slot)
  have hwrite : ext2Write fs ino buf pos 0 = some (Int.ofNat 0, putinode (getinode fs ino).2 ino) := by
    rw [h.write_existing hpos (Nat.le_trans hpos h.size), writeLoop, if_pos rfl]
  have hcache' : (putinode (getinode fs ino).2 ino).cache ino = some (getinode fs ino).1 := by
    rw [hput]
    exact hcache
  have hsb' : (putinode (getinode fs ino).2 ino).sb = fs.sb := by
    rw [hput]
    exact hsb
  have hkeep : ∀ c x, x < fs.sb.blockSize → c ≠ inodeBlock fs.sb ino →
      (putinode (getinode fs ino).2 ino).disk (c * fs.sb.blockSize + x) = fs.disk (c * fs.sb.blockSize + x) := by
    intro c x hx htable
    have hblock := block_disjoint fs.sb.blockSize htable
    have hslot := h.slot
    rw [hput]
    dsimp only
    rw [hsb, hdisk, Mem.write_apply (by omega)]
  refine ⟨_, hwrite, ?_, ?_, fun p hp _ => ?_, fun c hc x hx => hkeep c x hx (h.others c hc).1⟩
  · rw [fileSize_putinode hcache, Nat.add_zero, Nat.max_eq_left hpos]
    rfl
  · rw [ext2Read, getinode_of_cache hcache']
    dsimp only
    split
    · rfl
    · rename_i hin
      have hle : iSize (getinode fs ino).1 < 2 ^ 32 := iSize_lt
      rw [if_neg (by rw [Nat.mod_eq_of_lt (by omega)]; omega)]
      rfl
  · have hbs := h.blockSize_pos
    have hj : p / fs.sb.blockSize < fileBlocks fs ino :=
      (Nat.div_lt_iff_lt_mul hbs).mpr (Nat.lt_of_lt_of_le hp h.size)
    rw [h.read_byte hcache' hsb' (fun _ _ => rfl) hp hp, h.read_old hp, hkeep _ _ (Nat.mod_lt p hbs) (h.table _ hj)]

theorem within_blocks {bs nb : Nat} (hj : pos / bs < nb) (hfit : pos % bs + size ≤ bs) : pos + size ≤ nb * bs := by
  have hsplit := Nat.div_add_mod pos bs
  have hle : (pos / bs + 1) * bs ≤ nb * bs := Nat.mul_le_mul_right bs hj
  rw [Nat.succ_mul, Nat.mul_comm] at hle
  omega

theorem at_end {bs nb : Nat} (hbs : 0 < bs) (hj : ¬ pos / bs < nb) (hle : pos ≤ nb * bs) : pos = nb * bs := by
  have := (Nat.le_div_iff_mul_le hbs).mp (Nat.le_of_not_lt hj)
  omega

section Contract

variable (h : DirectFile fs ino others) (hpos : pos = fileSize fs ino) (hsize : 0 < size)
  (hfits : pos + size ≤ 12 * fs.sb.blockSize) (hfit : pos % fs.sb.blockSize + size ≤ fs.sb.blockSize)

include h hpos hsize hfits hfit

theorem DirectFile.contract_existing (hj : pos / fs.sb.blockSize < fileBlocks fs ino) :
    (∀ buf, WriteContract fs ino others buf pos size) ↔ fileBlock fs ino (pos / fs.sb.blockSize) < 2 ^ 31 := by
  obtain ⟨hsb, -, hbad, hcache⟩ := getinode_frame fs ino
  have hbound := h.bound
  have hn : pos / fs.sb.blockSize < 12 := Nat.lt_of_lt_of_le hj h.direct
  have hwrite : ∀ buf, ext2Write fs ino buf pos size = _ :=
    fun buf => h.write_existing (Nat.le_of_eq hpos) (within_blocks hj hfit)
  constructor
  · intro hcontract
    by_contra hbig
    obtain ⟨fs', hresult, -⟩ := hcontract fun _ => 0
    rw [hwrite, writeLoop_failed hcache hsize hn (Or.inr (Nat.le_of_not_lt hbig))] at hresult
    cases hresult
  · intro hint buf
    refine h.ready.contract h hpos hsize hfits hfit rfl (h.used _ hj) ?_ ?_ ?_ ?_
    · rw [hwrite, writeLoop_single hcache (fun p => (congrFun hbad p).trans (h.io p)) (by rw [hsb]; omega)
        (by rw [hsb]; exact h.slot) hsize hn (h.used _ hj) hint (by rw [hsb]; exact hfit), hsb]
    · exact fun hothers => (h.others _ hothers).2.1 _ hj rfl
    · exact fun j hj' he => h.inj j hj' _ hj he
    · exact fun he => absurd he (h.table _ hj)

theorem DirectFile.contract_new (hj : ¬ pos / fs.sb.blockSize < fileBlocks fs ino) (hfree : ¬ AllSet fs .block) :
    (∀ buf, WriteContract fs ino others buf pos size) ↔ NewBlockOk fs ino others size := by
  obtain ⟨i, idx, hfirst⟩ := exists_firstClear hfree
  have hbs := h.blockSize_pos
  have hbound := h.bound
  have hend := at_end hbs hj (Nat.le_trans (Nat.le_of_eq hpos) h.size)
  have hdiv : pos / fs.sb.blockSize = fileBlocks fs ino := by rw [hend, Nat.mul_div_cancel _ hbs]
  have hmod : pos % fs.sb.blockSize = 0 := by rw [hend, Nat.mul_mod_left]
  have hfit' : size ≤ fs.sb.blockSize := by omega
  have hn : fileBlocks fs ino < 12 := by
    rw [← hdiv]
    exact (Nat.div_lt_iff_lt_mul hbs).mpr (by omega)
  have hwrite : ∀ buf, ext2Write fs ino buf pos size = _ := fun buf => h.write_new hfirst hpos hend hsize hfit' hn
  generalize hb : (i * fs.sb.blockSize + idx) % 2 ^ 32 = b at hwrite
  have hlt : b < 2 ^ 32 := hb ▸ Nat.mod_lt _ (by decide)
  have hready := h.ready_new hfirst b
  generalize hext : extended (setBit (getinode fs ino).2 .block i idx) ino (getinode fs ino).1 (fileBlocks fs ino) b =
    ext at hready hwrite
  have hblock : iBlock ext.1 (fileBlocks fs ino) = b := by
    rw [← hext]
    simp only [extended, iBlock_setIBlocks, iBlock_setIBlock_self hlt]
  have hbs₂ : ext.2.sb.blockSize < 2 ^ 31 := by
    rw [hready.sb]
    omega
  have hdone : b ≠ 0 → b < 2 ^ 31 → ∀ buf, ext2Write fs ino buf pos size =
      some (Int.ofNat size, written ext.2 ino ext.1 buf (b * fs.sb.blockSize) size) := by
    intro hzero hint buf
    rw [hwrite, if_pos hint, writeLoop_single hready.cache hready.io hbs₂ (by rw [hready.sb]; exact h.slot) hsize hn
      (hblock ▸ hzero) (hblock ▸ hint) (by rw [hready.sb, Nat.zero_add]; exact hfit'), hblock, hready.sb, Nat.add_zero]
  constructor
  · intro hcontract i' idx' hfirst'
    obtain ⟨rfl, rfl⟩ := hfirst.unique hfirst'
    dsimp only
    rw [hb]
    obtain ⟨fs', hresult, -⟩ := hcontract fun _ => 0
    have hint : b < 2 ^ 31 := by
      by_contra hbig
      rw [hwrite, if_neg hbig] at hresult
      cases hresult
    have hzero : b ≠ 0 := by
      intro hzero
      rw [hwrite, if_pos hint, writeLoop_failed hready.cache hsize hn (Or.inl (hblock.trans hzero))] at hresult
      cases hresult
    obtain ⟨hothers, hown, htable⟩ :=
      hready.of_contract h hpos hsize hfits hend hfit' hblock hzero (hdone hzero hint) hcontract
    exact ⟨Nat.pos_of_ne_zero hzero, hint, hothers, hown, htable⟩
  · intro hok buf
    obtain ⟨hpos', hint, hothers, hown, htable⟩ := hok i idx hfirst
    rw [hb] at hpos' hint hothers hown htable
    have hzero : b ≠ 0 := Nat.ne_of_gt hpos'
    refine hready.contract h hpos hsize hfits hfit (hdiv ▸ hblock) hzero ?_ hothers ?_ ?_
    · rw [hdone hzero hint, hmod, Nat.add_zero]
    · exact fun j hj' he => absurd he.symm (hown j hj')
    · rw [hmod, Nat.zero_add]
      exact htable

end Contract

/-- `ext2_write` to a file with direct blocks is right for every buffer exactly if nothing is written, or the write begins at
the end, stays in one block and finds a usable one. -/
theorem ext2_write_iff {fs : Fs} {ino pos size : Nat} {others : Nat → Prop} (h : DirectFile fs ino others)
    (hpos : pos ≤ fileSize fs ino) (hfits : pos + size ≤ 12 * fs.sb.blockSize)
    (hfree : fileBlocks fs ino * fs.sb.blockSize < pos + size → ¬ AllSet fs .block) :
    (∀ buf, WriteContract fs ino others buf pos size) ↔ WriteCond fs ino others pos size := by
  have hbs := h.blockSize_pos
  have hbound := h.bound
  have hfile : fileSize fs ino ≤ 12 * fs.sb.blockSize := Nat.le_trans h.size (Nat.mul_le_mul_right _ h.direct)
  unfold WriteCond
  rcases Nat.eq_zero_or_pos size with rfl | hsize
  · exact iff_of_true (fun buf => h.contract_zero hpos) (Or.inl rfl)
  · rw [or_iff_right (Nat.ne_of_gt hsize)]
    have hiff : pos = fileSize fs ino → pos % fs.sb.blockSize + size ≤ fs.sb.blockSize →
        ((∀ buf, WriteContract fs ino others buf pos size) ↔
          if pos / fs.sb.blockSize < fileBlocks fs ino then fileBlock fs ino (pos / fs.sb.blockSize) < 2 ^ 31
          else NewBlockOk fs ino others size) := by
      intro hend hfit
      split
      · rename_i hj
        exact h.contract_existing hend hsize hfits hfit hj
      · rename_i hj
        have hlast := at_end hbs hj (Nat.le_trans hpos h.size)
        exact h.contract_new hend hsize hfits hfit hj (hfree (by omega))
    constructor
    · intro hcontract
      have hend : pos = fileSize fs ino := by
        obtain ⟨fs', hwrite, hsize', -⟩ := hcontract fun _ => 0
        rw [ext2Write_size hwrite, Nat.mod_eq_of_lt (by omega)] at hsize'
        omega
      have hfit : pos % fs.sb.blockSize + size ≤ fs.sb.blockSize := by
        by_contra hlong
        -- two buffers that differ in their last byte only
        obtain ⟨fs₁, hwrite₁, -, hread₁, -⟩ := hcontract fun _ => 0
        obtain ⟨fs₂, hwrite₂, -, hread₂, -⟩ := hcontract fun x => if x = size - 1 then 1 else 0
        have hsame : ext2Write fs ino (fun _ => 0) pos size =
            ext2Write fs ino (fun x => if x = size - 1 then 1 else 0) pos size :=
          ext2Write_congr (Nat.lt_of_not_le hlong) hbs fun x hx => (if_neg (Nat.ne_of_lt hx)).symm
        rw [hwrite₁, hwrite₂] at hsame
        cases hsame
        have hbyte := List.map_inj_left.mp (Option.some.inj (hread₁.symm.trans hread₂)) (size - 1)
          (List.mem_range.mpr (by omega))
        simp at hbyte
      exact ⟨hend, hfit, (hiff hend hfit).mp hcontract⟩
    · rintro ⟨hend, hfit, hcond⟩
      exact (hiff hend hfit).mpr hcond

/-! ### A file with one byte -/

def oneByteFs : Fs :=
  { sb := ⟨0, 8192, 16, 128, 1024, 1, fun _ => ⟨3, 4, 5⟩⟩
    disk := fun _ => 0
    bad := fun _ => false
    cache := fun ino => if ino = 12 then some (setISize (setIBlocks (setIBlock (fun _ => 0) 0 20) 2) 1) else none
    junk := 0 }

theorem oneByteFs_direct : DirectFile oneByteFs 12 fun _ => False where
  blockSize := ⟨0, rfl⟩
  bound := by decide
  io _ := rfl
  count := by decide
  direct := by decide
  size := by decide
  used := by decide
  unused := by decide
  inj := by decide
  slot := by decide
  table := by decide
  bitmap := by decide
  others := nofun

/-- Writing the byte again makes the file longer. -/
theorem overwrite_grows : DirectFile oneByteFs 12 (fun _ => False) ∧ fileSize oneByteFs 12 = 1 ∧
    ∃ fs', ext2Write oneByteFs 12 (fun _ => 7) 0 1 = some (1, fs') ∧ fileSize fs' 12 = 2 := by
  have hrun : (ext2Write oneByteFs 12 (fun _ => 7) 0 1).map (fun r => (r.1, fileSize r.2 12)) = some (1, 2) := by
    decide
  obtain ⟨⟨no, fs'⟩, hwrite, hr⟩ := Option.map_eq_some_iff.mp hrun
  obtain ⟨rfl, hsize⟩ := Prod.mk.inj hr
  exact ⟨oneByteFs_direct, by decide, fs', hwrite, hsize⟩

theorem ext2_write_iff_append : WriteContract oneByteFs 12 (fun _ => False) (fun _ => 7) 1 1 := by
  have hiff := ext2_write_iff oneByteFs_direct (show 1 ≤ fileSize oneByteFs 12 by decide) (show 1 + 1 ≤ _ by decide)
    (fun h => absurd h (by decide))
  refine hiff.mpr (Or.inr ⟨by decide, by decide, ?_⟩) (fun _ => 7)
  rw [if_pos (by decide)]
  decide

end FengOS.Ext2
