import FengOS.Ext2.Lemmas.WriteFailure
import FengOS.Ext2.ScanTheorems

/-!
# The inode map
-/

namespace FengOS.Ext2

open FengOS.Lib

variable {fs fs' fs₁ fs₂ : Fs} {inode : Inode} {ino pino n rounds fuel : Nat} {name : List UInt8} {buf : Nat → UInt8}

structure Loaded (fs fs' : Fs) : Prop where
  sb : fs'.sb = fs.sb
  disk : fs'.disk = fs.disk
  junk : fs'.junk = fs.junk
  cache : ∀ k, fs'.cache k = fs.cache k ∨
    fs.cache k = none ∧ fs'.cache k = some (readInode fs k) ∧ inodeGroup fs.sb k < fs.sb.nrGroup

theorem Loaded.refl : Loaded fs fs := ⟨rfl, rfl, rfl, fun _ => .inl rfl⟩

theorem Loaded.readInode (h : Loaded fs fs') (k : Nat) : readInode fs' k = readInode fs k := by
  unfold Ext2.readInode
  rw [h.sb, h.disk]

theorem Loaded.trans (h₁ : Loaded fs fs₁) (h₂ : Loaded fs₁ fs₂) : Loaded fs fs₂ := by
  refine ⟨h₂.sb.trans h₁.sb, h₂.disk.trans h₁.disk, h₂.junk.trans h₁.junk, fun k => ?_⟩
  rcases h₂.cache k with hsame | ⟨hnone, hsome, hgroup⟩
  · rw [hsame]
    exact h₁.cache k
  · rcases h₁.cache k with hsame | ⟨-, hloaded, -⟩
    · rw [h₁.readInode] at hsome
      exact .inr ⟨hsame.symm.trans hnone, hsome, h₁.sb ▸ hgroup⟩
    · cases hnone.symm.trans hloaded

theorem Loaded.getinode (h : Loaded fs fs') (k : Nat) : (getinode fs' k).1 = (getinode fs k).1 := by
  unfold Ext2.getinode
  rcases h.cache k with hsame | ⟨hnone, hsome, -⟩
  · rw [hsame]
    cases fs.cache k with
    | none => exact h.readInode k
    | some inode => rfl
  · rw [hnone, hsome]

theorem Loaded.of_cache (h : Loaded fs fs') (hcache : fs.cache ino = some inode) : fs'.cache ino = some inode := by
  rcases h.cache ino with hsame | ⟨hnone, -⟩
  · rw [hsame, hcache]
  · cases hcache.symm.trans hnone

theorem Loaded.fetchable (h : Loaded fs fs') (k : Nat) : Fetchable fs' k ↔ Fetchable fs k := by
  unfold Fetchable
  rw [h.sb]
  rcases h.cache k with hsame | ⟨-, -, hgroup⟩
  · rw [hsame]
  · exact iff_of_true (.inr hgroup) (.inr hgroup)

theorem loaded_getinode (h : Fetchable fs ino) : Loaded fs (getinode fs ino).2 := by
  unfold getinode
  cases hcache : fs.cache ino with
  | some inode => exact .refl
  | none =>
    refine ⟨rfl, rfl, rfl, fun k => ?_⟩
    by_cases hk : k = ino
    · subst hk
      exact .inr ⟨hcache, setInode_cache, h.resolve_left (by simp [hcache])⟩
    · exact .inl (Function.update_of_ne hk ..)

theorem Loaded.scanLoop (h : Loaded fs fs') :
    scanLoop keepEntry fs' inode name rounds fuel n = scanLoop keepEntry fs inode name rounds fuel n := by
  have hno : ∀ n, getBlockNo fs' inode n = getBlockNo fs inode n := by
    intro n
    unfold getBlockNo
    rw [h.sb, h.disk]
  have hblock : ∀ n data, getblock fs' n inode data = getblock fs n inode data := by
    intro n data
    unfold getblock
    rw [hno, h.sb, h.disk]
  induction fuel generalizing n with
  | zero => rfl
  | succ fuel ih => simp only [Ext2.scanLoop, hblock, h.sb, h.junk, ih]

theorem ext2Lookup_fst : (ext2Lookup rounds fuel fs name pino).map Prod.fst =
    if Fetchable fs pino then (scanLoop keepEntry fs (getinode fs pino).1 name rounds fuel 0).bind fun r =>
      r.elim (some none) fun ino => if Fetchable fs ino then
        some (some ⟨ino, iMode (getinode fs ino).1, iSize (getinode fs ino).1⟩) else none
    else none := by
  unfold ext2Lookup fetch
  by_cases hpino : Fetchable fs pino
  · have hloaded := loaded_getinode hpino
    rw [if_pos hpino, if_pos hpino]
    dsimp only
    rw [hloaded.scanLoop]
    rcases scanLoop keepEntry fs (getinode fs pino).1 name rounds fuel 0 with _ | _ | ino
    · rfl
    · rfl
    · by_cases hino : Fetchable fs ino
      · simp [hloaded.fetchable, hino, hloaded.getinode]
      · simp [hloaded.fetchable, hino]
  · rw [if_neg hpino, if_neg hpino]
    rfl

theorem Loaded.ext2Lookup (h : Loaded fs fs') (rounds fuel : Nat) (name : List UInt8) (pino : Nat) :
    (ext2Lookup rounds fuel fs' name pino).map Prod.fst = (ext2Lookup rounds fuel fs name pino).map Prod.fst := by
  simp only [ext2Lookup_fst, h.fetchable, h.scanLoop, h.getinode]

theorem ext2Lookup_loaded {entry : Option Dentry} (h : ext2Lookup rounds fuel fs name pino = some (entry, fs')) :
    Loaded fs fs' ∧ ∀ e, entry = some e → ∃ inode, fs'.cache e.fIno = some inode ∧ iSize inode = e.fSize := by
  unfold ext2Lookup at h
  split at h
  case h_1 => cases h
  case h_2 hfetch =>
    obtain ⟨hpino, he⟩ := fetch_eq_some.mp hfetch
    obtain rfl := congrArg Prod.snd he
    split at h
    case h_1 => cases h
    case h_2 =>
      cases h
      exact ⟨loaded_getinode hpino, nofun⟩
    case h_3 =>
      obtain ⟨r, hfound, he'⟩ := Option.map_eq_some_iff.mp h
      obtain ⟨hino, rfl⟩ := fetch_eq_some.mp hfound
      cases he'
      refine ⟨(loaded_getinode hpino).trans (loaded_getinode hino), fun e he => ?_⟩
      obtain rfl := Option.some.inj he
      exact ⟨_, getinode_cache, rfl⟩

theorem ext2Mount_cache {disk : Lib.Mem} {bad : Nat → Bool} {junk : Int} (h : ext2Mount disk bad junk = some fs) :
    ∃ inode, fs.cache ext2RootIno = some inode := by
  unfold ext2Mount at h
  dsimp only at h
  split at h
  · cases h
  · split at h
    · cases h
    · rw [← Option.some.inj h]
      exact ⟨_, getinode_cache⟩

structure KeepsSize (ino : Nat) (fs fs' : Fs) : Prop where
  other : ∀ k, k ≠ ino → fs'.cache k = fs.cache k
  size : ∀ inode, fs.cache ino = some inode → ∃ inode', fs'.cache ino = some inode' ∧ iSize inode' = iSize inode

theorem KeepsSize.of_cache (h : fs'.cache = fs.cache) : KeepsSize ino fs fs' :=
  ⟨fun _ _ => by rw [h], fun inode hinode => ⟨inode, by rw [h, hinode], rfl⟩⟩

theorem KeepsSize.trans (h₁ : KeepsSize ino fs fs₁) (h₂ : KeepsSize ino fs₁ fs₂) : KeepsSize ino fs fs₂ := by
  refine ⟨fun k hk => (h₂.other k hk).trans (h₁.other k hk), fun inode hinode => ?_⟩
  obtain ⟨inode₁, hcache₁, hsize₁⟩ := h₁.size inode hinode
  obtain ⟨inode₂, hcache₂, hsize₂⟩ := h₂.size inode₁ hcache₁
  exact ⟨inode₂, hcache₂, hsize₂.trans hsize₁⟩

theorem keepsSize_getinode : KeepsSize ino fs (getinode fs ino).2 := by
  refine ⟨fun k hk => ?_, fun inode hinode => ⟨inode, (loaded_getinode (.inl (by simp [hinode]))).of_cache hinode, rfl⟩⟩
  unfold getinode
  cases fs.cache ino with
  | none => exact Function.update_of_ne hk ..
  | some _ => rfl

theorem bdevWrite_cache (fs : Fs) (pos : Nat) (buf : Lib.Mem) (size : Nat) :
    ((bdevWrite fs pos buf size).getD fs).cache = fs.cache := by
  unfold bdevWrite
  split <;> rfl

theorem putinode_cache : (putinode fs ino).cache = fs.cache := by
  unfold putinode
  cases fs.cache ino with
  | none => rfl
  | some inode => exact bdevWrite_cache ..

theorem keepsSize_setInode (hcache : fs.cache ino = some inode) {inode' : Inode} (hsize : iSize inode' = iSize inode) :
    KeepsSize ino fs (fs.setInode ino inode') := by
  refine ⟨fun k hk => Function.update_of_ne hk .., fun inode₀ hinode₀ => ⟨inode', setInode_cache, ?_⟩⟩
  rw [hsize, Option.some.inj (hcache.symm.trans hinode₀)]

theorem keepsSize_setblock (fs : Fs) (ino n no : Nat) : KeepsSize ino fs (setblock fs ino n no).2 := by
  unfold setblock
  split
  · exact .of_cache rfl
  · dsimp only
    split
    · exact keepsSize_getinode
    · exact keepsSize_getinode.trans (keepsSize_setInode getinode_cache (iSize_setIBlocks.trans iSize_setIBlock))

theorem keepsSize_writeAlloc {sblock : Nat} {ok : Bool} (h : writeAlloc ino n sblock fuel fs = some (ok, fs')) :
    KeepsSize ino fs fs' :=
  writeAlloc_rel (fun _ _ _ => .trans) (fun _ => keepsSize_getinode) (fun fs => .of_cache (allocBlock_cache fs))
    (fun fs no => keepsSize_setblock fs ino n no) h

theorem keepsSize_opened : KeepsSize ino fs (opened fs ino fs.bad fs.junk) := by
  have hget : KeepsSize ino fs (getinode (fs.withErrors fs.bad fs.junk) ino).2 := keepsSize_getinode
  rwa [getinode_withErrors] at hget

theorem keepsSize_ext2Write {pos : Int} {size : Nat} {r : Int} (hidle : CopiesNothing fs ino pos size)
    (h : ext2Write fs ino buf pos size = some (r, fs')) : KeepsSize ino fs fs' := by
  replace h : ext2Write (fs.withErrors fs.bad fs.junk) ino buf pos size = some (r, fs') := h
  by_cases hpos : pos < 0 ∨ pos > fileSize fs ino
  · rw [ext2Write, getinode_withErrors] at h
    dsimp only at h
    rw [if_pos (by exact hpos)] at h
    cases h
    exact keepsSize_opened
  rcases Nat.eq_zero_or_pos size with rfl | hsize
  · -- blocks may be added, which does not change the size
    rw [ext2Write_withErrors hpos] at h
    split at h
    · cases h
    · rename_i halloc
      cases h
      exact keepsSize_opened.trans (keepsSize_writeAlloc halloc)
    · rename_i halloc
      rw [writeLoop_empty] at h
      cases h
      exact (keepsSize_opened.trans (keepsSize_writeAlloc halloc)).trans (.of_cache putinode_cache)
  rcases hidle with hzero | hneg | hbig | hidle
  · omega
  · exact absurd (Or.inl hneg) hpos
  · exact absurd (Or.inr hbig) hpos
  · split at hidle
    · rename_i hneed
      obtain ⟨⟨no, fs₁⟩, halloc⟩ : ∃ result, allocBlock (opened fs ino fs.bad fs.junk) = result := ⟨_, rfl⟩
      have hcache := allocBlock_cache (opened fs ino fs.bad fs.junk)
      rw [halloc] at hcache
      rw [ext2Write_refused buf hpos hneed halloc (Or.inr hidle)] at h
      cases h
      exact keepsSize_opened.trans (.of_cache hcache)
    · rename_i hneed
      obtain ⟨no, hno, hstop⟩ := hidle
      have hlt : pos.toNat / fs.sb.blockSize < 2 ^ 32 := by
        have hmax : fileSize fs ino < 2 ^ 32 := iSize_lt
        exact Nat.lt_of_le_of_lt (Nat.div_le_self ..) (by omega)
      rw [ext2Write_needless hpos hneed, writeLoop_stop opened_cache hlt hno hsize hstop] at h
      cases h
      exact keepsSize_opened

end FengOS.Ext2
