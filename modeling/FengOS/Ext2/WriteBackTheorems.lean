import FengOS.Ext2.Lemmas.File
import FengOS.Ext2.WriteBack

/-!
# The round trip of an inode
-/

namespace FengOS.Ext2

open FengOS.Lib

variable {s s' : Server} {sb : SuperBlock} {map : InodeMap} {ino other : Nat} {inode : Inode} {junk : Int}

/-! ## The inode map -/

theorem getInodeMap_putInodeMap :
    getInodeMap (putInodeMap map ino inode) = Function.update (getInodeMap map) ino (some inode) := by
  funext k
  rcases eq_or_ne k ino with rfl | hne
  · simp [getInodeMap, putInodeMap]
  · rw [Function.update_of_ne hne, getInodeMap, getInodeMap, putInodeMap]
    by_cases hlist : k % inodeHashMapSize = ino % inodeHashMapSize
    · rw [hlist, Function.update_self, List.find?_cons_of_neg (by simpa using hne.symm)]
    · rw [Function.update_of_ne hlist]

theorem find_changeNode (nodes : List (Nat × Inode)) :
    ((changeNode ino inode nodes).find? fun node => node.1 = other).map Prod.snd =
      if other = ino then ((nodes.find? fun node => node.1 = ino).map Prod.snd).map fun _ => inode
      else (nodes.find? fun node => node.1 = other).map Prod.snd := by
  induction nodes with
  | nil => simp [changeNode]
  | cons node nodes ih =>
    rw [changeNode]
    by_cases hnode : node.1 = ino
    · rw [if_pos hnode]
      by_cases hother : other = ino
      · simp [hnode, hother]
      · have hne : ¬ ino = other := fun h => hother h.symm
        simp [hnode, hother, hne]
    · rw [if_neg hnode]
      by_cases hother : node.1 = other
      · have hne : ¬ other = ino := fun h => hnode (hother.trans h)
        simp [hother, hne]
      · simp only [List.find?_cons, hother, hnode, decide_false]
        exact ih

theorem getInodeMap_changeInode : getInodeMap (changeInode map ino inode) other =
    if other = ino then (getInodeMap map ino).map fun _ => inode else getInodeMap map other := by
  by_cases hlist : other % inodeHashMapSize = ino % inodeHashMapSize
  · rw [getInodeMap, changeInode, hlist, Function.update_self, find_changeNode, getInodeMap, getInodeMap, hlist]
  · have hne : other ≠ ino := fun h => hlist (by rw [h])
    rw [getInodeMap, changeInode, Function.update_of_ne hlist, if_neg hne, getInodeMap]

/-! ## Refinement -/

def Server.toFs (s : Server) (junk : Int) : Fs := ⟨s.sb, s.disk, s.bad, getInodeMap s.map, junk⟩

@[simp] theorem Server.toFs_sb : (s.toFs junk).sb = s.sb := rfl
@[simp] theorem Server.toFs_disk : (s.toFs junk).disk = s.disk := rfl
@[simp] theorem Server.toFs_bad : (s.toFs junk).bad = s.bad := rfl

/-- The numbers of the source are those without overflow. -/
structure SuperBlock.Exact (sb : SuperBlock) (ino : Nat) : Prop where
  block : sb.tableBlock ino = inodeBlock sb ino
  offset : sb.slotOffset ino = inodeOffset sb ino
  slot : inodeOffset sb ino + inodeBytes ≤ sb.blockSize

theorem SuperBlock.Exact.slotInBuffer (h : sb.Exact ino) : sb.SlotInBuffer ino := by
  have hslot := h.slot
  rw [SuperBlock.SlotInBuffer, h.offset]
  omega

theorem SuperBlock.Exact.toNat_slotOffset (h : sb.Exact ino) : (sb.slotOffset ino).toNat = inodeOffset sb ino := by
  rw [h.offset, Int.toNat_natCast]

theorem SuperBlock.Exact.slot_eq (h : s.sb.Exact ino) (junk : Int) : s.slot ino = readInode (s.toFs junk) ino := by
  funext i
  rw [Server.slot, Server.tablePos, h.block, h.toNat_slotOffset]
  rfl

theorem Server.getinode_refines (h : s.sb.Exact ino) (junk : Int) :
    ∃ s', s.getinode ino = some ((Ext2.getinode (s.toFs junk) ino).1, s') ∧
    s'.toFs junk = (Ext2.getinode (s.toFs junk) ino).2 := by
  rw [Server.getinode, Ext2.getinode, show (s.toFs junk).cache ino = getInodeMap s.map ino from rfl]
  cases getInodeMap s.map ino with
  | some inode => exact ⟨s, rfl, rfl⟩
  | none =>
    refine ⟨_, by rw [if_pos h.slotInBuffer, h.slot_eq junk], ?_⟩
    simp only [Server.toFs, Fs.setInode, getInodeMap_putInodeMap]

theorem Server.putinode_refines (h : s.sb.Exact ino) (hmap : getInodeMap s.map ino = some inode) (junk : Int) :
    ∃ s', s.putinode ino = some (0, s') ∧ s'.toFs junk = Ext2.putinode (s.toFs junk) ino ∧ s'.map = s.map := by
  have hcache : (s.toFs junk).cache ino = some inode := hmap
  cases hbad : s.bad (inodeBlock s.sb ino * s.sb.blockSize) with
  | true =>
    refine ⟨s, ?_, ?_, rfl⟩
    · simp [Server.putinode, hmap, h.slotInBuffer, Server.tablePos, h.block, hbad]
    · simp [Ext2.putinode, hcache, bdevWrite, hbad]
  | false =>
    refine ⟨{ s with
      disk := s.disk.write (inodeBlock s.sb ino * s.sb.blockSize)
        ((bdevRead s.disk (inodeBlock s.sb ino * s.sb.blockSize)).write (inodeOffset s.sb ino) inode inodeBytes)
        s.sb.blockSize }, ?_, ?_, rfl⟩
    · simp only [Server.putinode, hmap, if_pos h.slotInBuffer, Server.tablePos, h.block, h.toNat_slotOffset, hbad,
        Bool.false_eq_true, if_false]
    · simp only [Ext2.putinode, hcache, bdevWrite, Server.toFs_sb, Server.toFs_bad, hbad, Bool.false_eq_true, if_false]
      rfl

/-! ## Slots -/

theorem toNat_add_mod (a b : Nat) : (((a : Int) + b) % 2 ^ 32).toNat = (a + b) % 2 ^ 32 := by omega

theorem toNat_add_toInt32_mod (a b : Nat) : (((a : Int) + toInt b) % 2 ^ 32).toNat = (a + b) % 2 ^ 32 := by
  rw [toInt]
  omega

theorem Server.Image.exact (h : s.Image)
    (hindex : inodeIndex s.sb ino < 2 ^ 31 ∨ s.sb.blockSize = s.sb.sInodeSize) : s.sb.Exact ino := by
  have hsize := h.inodeSize_ge
  have hpos : 0 < s.sb.inodePerBlock := Nat.div_pos h.inodeSize_le (by unfold inodeBytes at hsize; omega)
  have hmod : inodeIndex s.sb ino % s.sb.inodePerBlock < s.sb.inodePerBlock := Nat.mod_lt _ hpos
  have hslot : inodeOffset s.sb ino + inodeBytes ≤ s.sb.blockSize := by
    have hnext : s.sb.sInodeSize * (inodeIndex s.sb ino % s.sb.inodePerBlock + 1) ≤ s.sb.sInodeSize * s.sb.inodePerBlock :=
      Nat.mul_le_mul_left _ hmod
    have hall : s.sb.sInodeSize * s.sb.inodePerBlock ≤ s.sb.blockSize := Nat.mul_div_le _ _
    rw [Nat.mul_succ] at hnext
    rw [inodeOffset, ← SuperBlock.inodePerBlock]
    omega
  rcases hindex with hlt | hone
  · have hint : s.sb.index ino = inodeIndex s.sb ino := toInt_small hlt
    refine ⟨?_, ?_, hslot⟩
    · rw [SuperBlock.tableBlock, hint, ← Int.ofNat_tdiv, toNat_add_mod, inodeBlock,
        SuperBlock.inodePerBlock]
    · rw [SuperBlock.slotOffset, hint, ← Int.ofNat_tmod, inodeOffset,
        SuperBlock.inodePerBlock, Int.natCast_mul]
  · have hper : s.sb.inodePerBlock = 1 := by
      rw [SuperBlock.inodePerBlock, hone, Nat.div_self]
      unfold inodeBytes at hsize
      omega
    refine ⟨?_, ?_, hslot⟩
    · rw [SuperBlock.tableBlock, hper, Int.natCast_one, Int.tdiv_one, SuperBlock.index, toNat_add_toInt32_mod, inodeBlock,
        ← SuperBlock.inodePerBlock, hper, Nat.div_one]
    · rw [SuperBlock.slotOffset, hper, Int.natCast_one, Int.tmod_one, inodeOffset, ← SuperBlock.inodePerBlock, hper,
        Nat.mod_one]
      rfl

theorem add_mod_pred (hlow : 1 ≤ ino) (hhigh : ino < 2 ^ 32) : (ino + (2 ^ 32 - 1)) % 2 ^ 32 = ino - 1 := by omega

theorem inodeIndex_lt (hpos : 0 < sb.sInodesPerGroup) : inodeIndex sb ino < sb.sInodesPerGroup := Nat.mod_lt _ hpos

theorem SuperBlock.Valid.number_eq (h : sb.Valid ino) :
    sb.sInodesPerGroup * inodeGroup sb ino + inodeIndex sb ino = ino - 1 := by
  rw [inodeGroup, inodeIndex, add_mod_pred h.1 h.2.1, Nat.div_add_mod]

theorem SuperBlock.Valid.group_lt (h : sb.Valid ino) (hpos : 0 < sb.sInodesPerGroup) : inodeGroup sb ino < sb.nrGroup := by
  obtain ⟨hlow, hhigh, hlast⟩ := h
  rw [inodeGroup, add_mod_pred hlow hhigh, Nat.div_lt_iff_lt_mul hpos]
  omega

theorem Server.Image.inodeBlock_eq (h : s.Image) (hino : s.sb.Valid ino) :
    inodeBlock s.sb ino = s.sb.slotBlock (inodeGroup s.sb ino) (inodeIndex s.sb ino) :=
  Nat.mod_eq_of_lt (h.fits _ (hino.group_lt h.inodes.1) _ (inodeIndex_lt h.inodes.1))

def SuperBlock.slotPos (sb : SuperBlock) (ino : Nat) : Nat := inodeBlock sb ino * sb.blockSize + inodeOffset sb ino

theorem Server.Image.slots_apart (h : s.Image) (hino : s.sb.Valid ino) (hother : s.sb.Valid other) (hne : other ≠ ino)
    (hslot : inodeOffset s.sb ino + inodeBytes ≤ s.sb.blockSize)
    (hslot' : inodeOffset s.sb other + inodeBytes ≤ s.sb.blockSize) :
    s.sb.slotPos other + inodeBytes ≤ s.sb.slotPos ino ∨ s.sb.slotPos ino + inodeBytes ≤ s.sb.slotPos other := by
  unfold SuperBlock.slotPos
  by_cases hblock : inodeBlock s.sb other = inodeBlock s.sb ino
  · rw [h.inodeBlock_eq hino, h.inodeBlock_eq hother] at hblock
    have hgroup : inodeGroup s.sb other = inodeGroup s.sb ino := by
      by_contra hdiff
      exact h.apart _ (hother.group_lt h.inodes.1) _ (hino.group_lt h.inodes.1) hdiff
        _ (inodeIndex_lt h.inodes.1) _ (inodeIndex_lt h.inodes.1) hblock
    have hdiv : inodeIndex s.sb other / s.sb.inodePerBlock = inodeIndex s.sb ino / s.sb.inodePerBlock := by
      rw [SuperBlock.slotBlock, SuperBlock.slotBlock, hgroup] at hblock
      exact Nat.add_left_cancel hblock
    have hmod : inodeIndex s.sb other % s.sb.inodePerBlock ≠ inodeIndex s.sb ino % s.sb.inodePerBlock := by
      intro hmod
      have hindex : inodeIndex s.sb other = inodeIndex s.sb ino := by
        rw [← Nat.div_add_mod (inodeIndex s.sb other) s.sb.inodePerBlock, hdiv, hmod, Nat.div_add_mod]
      have hnumber := hother.number_eq
      rw [hgroup, hindex, hino.number_eq] at hnumber
      have hlow := hino.1
      have hlow' := hother.1
      omega
    have hsize := h.inodeSize_ge
    have happart := block_disjoint s.sb.sInodeSize hmod
    rw [inodeOffset, inodeOffset, ← SuperBlock.inodePerBlock, h.inodeBlock_eq hino, h.inodeBlock_eq hother, hblock,
      Nat.mul_comm s.sb.sInodeSize, Nat.mul_comm s.sb.sInodeSize]
    omega
  · have happart := block_disjoint s.sb.blockSize hblock
    omega

/-! ## The round trip -/

theorem readInode_apply {fs : Fs} {i : Nat} (hi : i < inodeBytes) :
    readInode fs ino i = fs.disk (fs.sb.slotPos ino + i) := by
  rw [readInode, if_pos hi, bdevRead, ← Nat.add_assoc, SuperBlock.slotPos]

theorem readInode_congr {fs fs' : Fs} (hsb : fs'.sb = fs.sb)
    (hdisk : ∀ i < inodeBytes, fs'.disk (fs.sb.slotPos ino + i) = fs.disk (fs.sb.slotPos ino + i)) :
    readInode fs' ino = readInode fs ino := by
  funext i
  by_cases hi : i < inodeBytes
  · rw [readInode_apply hi, readInode_apply hi, hsb, hdisk i hi]
  · rw [readInode, readInode, if_neg hi, if_neg hi]

theorem getinode_congr {fs fs' : Fs} (hcache : fs'.cache ino = fs.cache ino)
    (hread : readInode fs' ino = readInode fs ino) : (getinode fs' ino).1 = (getinode fs ino).1 := by
  unfold getinode
  rw [hcache]
  cases fs.cache ino with
  | none => exact hread
  | some inode => rfl

theorem SuperBlock.Exact.getinode_fst (h : s.sb.Exact ino) (junk : Int) :
    (s.getinode ino).map Prod.fst = some (getinode (s.toFs junk) ino).1 := by
  obtain ⟨s', hget, -⟩ := Server.getinode_refines h junk
  rw [hget]
  rfl

theorem Server.Image.roundTrip (h : s.Image) (hexact : ∀ k, s.sb.Valid k → s.sb.Exact k) (hino : s.sb.Valid ino)
    (hmap : (getInodeMap s.map ino).isSome) : s.RoundTrip ino inode := by
  have hslot := (hexact ino hino).slot
  have hchanged : getInodeMap (changeInode s.map ino inode) ino = some inode := by
    obtain ⟨old, hold⟩ := Option.isSome_iff_exists.mp hmap
    rw [getInodeMap_changeInode, if_pos rfl, hold]
    rfl
  obtain ⟨s', hput, hfs, hmap'⟩ := Server.putinode_refines (s := { s with map := changeInode s.map ino inode })
    (hexact ino hino) hchanged 0
  have hwritten := hfs.trans (putinode_eq hchanged h.io hslot)
  have hsb : s'.sb = s.sb := congrArg Fs.sb hwritten
  have hdisk := congrArg Fs.disk hwritten
  simp only [Server.toFs_sb, Server.toFs_disk] at hdisk
  rw [← SuperBlock.slotPos] at hdisk
  have hkeep : ∀ other, s.sb.Valid other → other ≠ ino → ∀ i < inodeBytes,
      s'.disk (s.sb.slotPos other + i) = s.disk (s.sb.slotPos other + i) := by
    intro other hother hne i hi
    have hapart := h.slots_apart hino hother hne hslot (hexact other hother).slot
    rw [hdisk]
    exact Mem.write_apply (by omega)
  refine ⟨s', hput, ?_, fun other hother hne => ⟨?_, ?_⟩, fun b hb => ?_⟩
  · have hexact' : s'.empty.sb.Exact ino := hsb ▸ hexact ino hino
    obtain ⟨t, hget, -⟩ := Server.getinode_refines hexact' 0
    refine ⟨_, hget, fun i hi => ?_⟩
    have hfound : (Ext2.getinode (s'.empty.toFs 0) ino).1 i = s'.disk (s'.sb.slotPos ino + i) := readInode_apply hi
    rw [hfound, hsb, hdisk, Mem.write_add hi]
  · have hexact' : s'.sb.Exact other := hsb ▸ hexact other hother
    rw [hexact'.getinode_fst 0, (hexact other hother).getinode_fst 0]
    refine congrArg some (getinode_congr ?_ (readInode_congr hsb (hkeep other hother hne)))
    show getInodeMap s'.map other = getInodeMap s.map other
    rw [hmap', getInodeMap_changeInode, if_neg hne]
  · have hexact' : s'.empty.sb.Exact other := hsb ▸ hexact other hother
    have hexact : s.empty.sb.Exact other := hexact other hother
    rw [hexact'.getinode_fst 0, hexact.getinode_fst 0]
    exact congrArg some (getinode_congr rfl (readInode_congr hsb (hkeep other hother hne)))
  · have hblock := h.inodeBlock_eq hino
    rw [hdisk]
    refine Mem.write_apply ?_
    by_contra hin
    refine hb ?_
    rw [← hblock]
    unfold SuperBlock.slotPos at hin
    exact Nat.div_eq_of_lt_le (by omega) (by rw [Nat.succ_mul]; omega)

/-! ## Indices that are not `int`s -/

def overflowing : Nat := 2 ^ 31 + 1

theorem inodeIndex_overflowing (h : 2 ^ 31 < sb.sInodesPerGroup) :
    inodeGroup sb overflowing = 0 ∧ inodeIndex sb overflowing = 2 ^ 31 := by
  have hpred : (overflowing + (2 ^ 32 - 1)) % 2 ^ 32 = 2 ^ 31 := by decide
  rw [inodeGroup, inodeIndex, hpred]
  exact ⟨Nat.div_eq_of_lt h, Nat.mod_eq_of_lt h⟩

theorem Server.Image.inodePerBlock_mul (h : s.Image) (hne : s.sb.blockSize ≠ s.sb.sInodeSize) :
    ∃ q, 1 ≤ q ∧ q ≤ 2 ^ 30 ∧ s.sb.inodePerBlock * q = 2 ^ 31 := by
  obtain ⟨k, hk, hblock⟩ := h.blockSize
  obtain ⟨m, hsize⟩ := h.inodeSize
  have hle := h.inodeSize_le
  rw [hblock, hsize] at hle hne
  have hlt : m < 10 + k :=
    Nat.lt_of_le_of_ne ((Nat.pow_le_pow_iff_right (by decide)).mp hle) fun he => hne (by rw [he])
  obtain ⟨e, he⟩ : ∃ e, 10 + k = m + (e + 1) := ⟨10 + k - m - 1, by omega⟩
  refine ⟨2 ^ (30 - e), Nat.one_le_two_pow, Nat.pow_le_pow_right (by decide) (Nat.sub_le _ _), ?_⟩
  rw [SuperBlock.inodePerBlock, hblock, hsize, he, Nat.pow_add, Nat.mul_div_cancel_left _ (Nat.two_pow_pos m), ← Nat.pow_add]
  congr 1
  omega

theorem Server.Image.tableBlock_overflowing (h : s.Image) (hgroups : 0 < s.sb.nrGroup)
    (hmany : 2 ^ 31 < s.sb.sInodesPerGroup) (hne : s.sb.blockSize ≠ s.sb.sInodeSize) :
    s.sb.tableBlock overflowing ≠ s.sb.slotBlock 0 (2 ^ 31) ∧ s.sb.slotOffset overflowing = 0 := by
  obtain ⟨q, hone, hq, hmul⟩ := h.inodePerBlock_mul hne
  obtain ⟨hgroup, hindex⟩ := inodeIndex_overflowing hmany
  have hpos : 0 < s.sb.inodePerBlock := Nat.pos_of_ne_zero fun hzero => by simp [hzero] at hmul
  have hint : s.sb.index overflowing = (s.sb.inodePerBlock : Int) * -(q : Int) := by
    rw [SuperBlock.index, hindex, Int.mul_neg, ← Int.natCast_mul, hmul]
    decide
  have hfits := h.fits 0 hgroups (2 ^ 31) hmany
  rw [SuperBlock.slotBlock, ← hmul, Nat.mul_div_cancel_left _ hpos] at hfits
  constructor
  · rw [SuperBlock.tableBlock, hgroup, hint, Int.mul_tdiv_cancel_left _ (by omega), SuperBlock.slotBlock, ← hmul,
      Nat.mul_div_cancel_left _ hpos]
    omega
  · rw [SuperBlock.slotOffset, hint, Int.mul_tmod_right, Int.mul_zero]

theorem Server.Image.not_roundTrips (h : s.Image) (hgroups : 0 < s.sb.nrGroup)
    (hmany : 2 ^ 31 < s.sb.sInodesPerGroup) (hne : s.sb.blockSize ≠ s.sb.sInodeSize) : ¬ s.RoundTrips := by
  intro hall
  obtain ⟨hblock, hoffset⟩ := h.tableBlock_overflowing hgroups hmany hne
  obtain ⟨hgroup, hindex⟩ := inodeIndex_overflowing hmany
  have hsize : inodeBytes ≤ s.sb.blockSize := Nat.le_trans h.inodeSize_ge h.inodeSize_le
  have hvalid : s.sb.Valid overflowing := by
    refine ⟨by decide, by decide, ?_⟩
    calc overflowing ≤ s.sb.sInodesPerGroup := hmany
      _ ≤ s.sb.nrGroup * s.sb.sInodesPerGroup := Nat.le_mul_of_pos_left _ hgroups
  -- the first byte of the inode differs from what is found where it is written
  obtain ⟨inode, hinode⟩ : ∃ inode : Inode, inode 0 ≠ s.disk (s.tablePos overflowing) := by
    by_cases hzero : s.disk (s.tablePos overflowing) = 0
    · exact ⟨fun _ => 1, by rw [hzero]; decide⟩
    · exact ⟨fun _ => 0, Ne.symm hzero⟩
  have hcached : getInodeMap (putInodeMap initInodeMap overflowing inode) overflowing = some inode := by
    rw [getInodeMap_putInodeMap, Function.update_self]
  have hchanged : getInodeMap (changeInode (putInodeMap initInodeMap overflowing inode) overflowing inode) overflowing =
      some inode := by
    rw [getInodeMap_changeInode, if_pos rfl, hcached]
    rfl
  obtain ⟨s', hput, -, -, hframe⟩ := hall _ overflowing inode hvalid (by rw [hcached]; rfl)
  have hbuffer : s.sb.SlotInBuffer overflowing := by
    rw [SuperBlock.SlotInBuffer, hoffset]
    omega
  simp only [Server.putinode, hchanged, if_pos hbuffer, h.io, Bool.false_eq_true, if_false, hoffset] at hput
  obtain rfl := (Prod.mk.inj (Option.some.inj hput)).2
  have hpos : 0 < s.sb.blockSize := Nat.lt_of_lt_of_le (by decide) hsize
  have hbyte := hframe (s.tablePos overflowing) (by
    rw [Server.tablePos, Nat.mul_div_cancel _ hpos, hgroup, hindex]
    exact hblock)
  refine hinode (Eq.trans ?_ hbyte)
  exact ((Mem.write_add (k := 0) hpos).trans (Mem.write_add (a := 0) (k := 0) (by decide))).symm

/-- The round trip works iff the indices are `int`s or each inode has a block of its own. -/
theorem roundTrips_iff (h : s.Image) :
    s.RoundTrips ↔ s.sb.nrGroup = 0 ∨ s.sb.sInodesPerGroup ≤ 2 ^ 31 ∨ s.sb.blockSize = s.sb.sInodeSize := by
  constructor
  · intro hall
    by_contra hnot
    simp only [not_or] at hnot
    exact h.not_roundTrips (Nat.pos_of_ne_zero hnot.1) (Nat.lt_of_not_le hnot.2.1) hnot.2.2 hall
  · intro hcond map ino inode hino hmap
    refine Server.Image.roundTrip (s := { s with map := map }) ⟨h.1, h.2, h.3, h.4, h.5, h.6, h.7, h.8, h.9⟩
      (fun k hk => h.exact ?_) hino hmap
    rcases hcond with hnone | hfew | hone
    · have hlast := hk.2.2
      have hfirst := hk.1
      simp only [hnone, Nat.zero_mul] at hlast
      omega
    · exact .inl (Nat.lt_of_lt_of_le (inodeIndex_lt h.inodes.1) hfew)
    · exact .inr hone

def oneGroup (inodesPerGroup : Nat) : Server where
  sb :=
    { sFirstDataBlock := 1
      sBlocksPerGroup := 2 ^ 29
      sInodesPerGroup := inodesPerGroup
      sInodeSize := 128
      blockSize := 1024
      nrGroup := 1
      groupDescTable := fun _ => ⟨3, 4, 5⟩ }
  disk := fun _ => 0
  bad := fun _ => false
  map := initInodeMap

theorem oneGroup_image {n : Nat} (hpos : 0 < n) (hlt : n ≤ 2 ^ 32 - 40) : (oneGroup n).Image := by
  refine ⟨⟨0, by decide, rfl⟩, ⟨7, rfl⟩, Nat.le_refl 128, (by decide : 128 ≤ 1024), ⟨hpos, ?_⟩, (by decide : 1 < 2 ^ 31), ?_,
    ?_, fun _ => rfl⟩
  · exact Nat.lt_of_le_of_lt hlt (by decide)
  · intro g _ index hindex
    have hindex : index < n := hindex
    show 5 + index / (1024 / 128) < 2 ^ 32
    omega
  · intro g hg g' hg' hne
    have hg : g < 1 := hg
    have hg' : g' < 1 := hg'
    omega

theorem roundTrips_sixteen : (oneGroup 16).RoundTrips :=
  (roundTrips_iff (oneGroup_image (by decide) (by decide))).mpr (.inr (.inl (by decide)))

/-- The index of an inode is negative, so that it is written to a block outside its table. -/
theorem no_roundTrip_overflowing : (oneGroup (2 ^ 31 + 8)).Image ∧ ¬ (oneGroup (2 ^ 31 + 8)).RoundTrips :=
  have himage := oneGroup_image (by decide) (by decide)
  ⟨himage, himage.not_roundTrips (by decide) (by decide) (by decide)⟩

end FengOS.Ext2
