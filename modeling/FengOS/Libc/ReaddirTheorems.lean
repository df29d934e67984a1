import FengOS.Libc.Readdir
import FengOS.Ext2.GetdentsTheorems
import Mathlib.Data.List.TakeWhile

/-!
# What `readdir` lists
-/

namespace FengOS.Libc

open FengOS.Lib FengOS.Ext2

variable {fs : Fs} {inode : Inode} {data : Mem} {ino pos entry stop fuel calls m : Nat} {r : DirRecord}
  {rs : List DirRecord} {left : List (List DirRecord)} {dp : Dir} {dir : List (Nat × List Nat)}
  {bs : List (List DirRecord)}

/-! ## States of the buffer -/

/-- The entries `rs` are in the buffer and have not been returned, `left` are in the directory after them. -/
structure Reading (fs : Fs) (ino : Nat) (inode : Inode) (dp : Dir) (rs : List DirRecord) (left : List (List DirRecord)) :
    Prop where
  server : dp.fs = fs
  behind : LeftAt fs inode dp.pos left
  buffer : ∃ entry stop, dp.entry = some entry ∧ DirentsAt dp.data stop entry rs ∧ dp.data.load stop 8 = 0

def untilUnused (rs : List DirRecord) : List DirRecord := rs.takeWhile fun r => InUse r

def shown : List DirRecord → List DirRecord
  | [] => []
  | r :: rs => r :: untilUnused rs

theorem Reading.atEnd (h : Reading fs ino inode dp rs left) (hrs : untilUnused rs = []) : dp.atEnd = true := by
  obtain ⟨entry, stop, hentry, hdirents, hzero⟩ := h.buffer
  rw [Dir.atEnd, hentry, Option.all_some, beq_iff_eq]
  cases rs with
  | nil => rw [show entry = stop from hdirents, hzero]
  | cons r rs =>
    rw [hdirents.1.ino]
    by_contra hne
    rw [untilUnused, List.takeWhile_cons_of_pos (by simpa using (show InUse r from hne))] at hrs
    cases hrs

theorem Reading.next (h : Reading fs ino inode dp (r :: rs) left) (fuel : Nat) (hr : InUse r) :
    ∃ dirp dp', readdir fuel ino dp = some (some dirp, dp') ∧ DirentAt dp'.data dirp r ∧
      Reading fs ino inode dp' rs left := by
  obtain ⟨entry, stop, hentry, hdirents, hzero⟩ := h.buffer
  have hend : dp.atEnd = false := by
    rw [Dir.atEnd, hentry, Option.all_some, hdirents.1.ino]
    exact beq_eq_false_iff_ne.mpr hr
  refine ⟨entry, dp.take.2, ?_, hdirents.1, h.server, h.behind, entry + r.size, stop, ?_, hdirents.2, hzero⟩
  · rw [readdir, hend, if_neg (by decide), Dir.take, hentry]
  · rw [Dir.take, hentry, Option.map_some, hdirents.1.reclen]

theorem readdir_refill (hbs : BlockSizeOk fs.sb) (hcache : fs.cache ino = some inode) (hfs : dp.fs = fs)
    (hend : dp.atEnd = true) (hleft : LeftAt fs inode dp.pos (rs :: left)) (hfuel : left.length + 1 < fuel) :
    ∃ r rs' dirp dp', batch (dirDataSize - 16) (rs :: left) = r :: rs' ∧ readdir fuel ino dp = some (some dirp, dp') ∧
      DirentAt dp'.data dirp r ∧ Reading fs ino inode dp' rs' (afterBatch (dirDataSize - 16) (rs :: left)) := by
  obtain ⟨count, mem, hrun, hnext, hempty, stop, hstop, hdirents, hframe⟩ := ext2Getdents_spec
    (dp.data.write 0 (fun _ => 0) dirDataSize) (dirDataSize - 16) hbs hcache hleft hfuel
  have hne := hleft.batch_ne_nil (List.cons_ne_nil _ _) (show 281 ≤ dirDataSize - 16 by decide)
  obtain ⟨count, rfl⟩ := Nat.exists_eq_succ_of_ne_zero fun hzero => hne (hempty.mp hzero)
  obtain ⟨r, rs', hbatch⟩ := List.exists_cons_of_ne_nil hne
  rw [hbatch] at hdirents
  have hzero : mem.load stop 8 = 0 := by
    refine Mem.load_eq_zero fun x hx hx' => ?_
    have hlt : x < dirDataSize := Nat.lt_of_lt_of_le hx' (Nat.add_le_of_le_sub (by decide) (Nat.le_trans hstop (by decide)))
    rw [hframe x hx, ← Nat.zero_add x, Mem.write_add hlt]
  refine ⟨r, rs', 0, (Dir.take ⟨fs, dp.pos + (count + 1), mem, some 0⟩).2, hbatch, ?_, hdirents.1, rfl, hnext, 0 + r.size, stop,
    ?_, hdirents.2, hzero⟩
  · rw [readdir, hend, if_pos rfl, hfs, hrun]
    rfl
  · rw [Dir.take, Option.map_some, hdirents.1.reclen]

theorem readdir_end (hbs : BlockSizeOk fs.sb) (hcache : fs.cache ino = some inode) (hfs : dp.fs = fs)
    (hend : dp.atEnd = true) (hleft : LeftAt fs inode dp.pos []) (hfuel : 0 < fuel) :
    ∃ dp', readdir fuel ino dp = some (none, dp') := by
  obtain ⟨count, mem, hrun, -, hempty, -⟩ := ext2Getdents_spec
    (dp.data.write 0 (fun _ => 0) dirDataSize) (dirDataSize - 16) hbs hcache hleft hfuel
  obtain rfl := hempty.mpr rfl
  refine ⟨{ dp with fs := fs, data := mem }, ?_⟩
  rw [readdir, hend, if_pos rfl, hfs, hrun]

/-! ## All calls -/

theorem readdirs_spec (m : Nat) (rs : List DirRecord) (dp : Dir) (hbs : BlockSizeOk fs.sb) (hcache : fs.cache ino = some inode) (hfuel : left.length < fuel)
    (hm : left.flatten.length ≤ m) (hcalls : rs.length + left.flatten.length < calls) (hfs : dp.fs = fs)
    (hleft : LeftAt fs inode dp.pos left) (h : (dp.atEnd = true ∧ rs = []) ∨ Reading fs ino inode dp rs left) :
    ∃ results, readdirs fuel ino calls dp = some results ∧
      List.Forall₂ (fun result r => DirentAt result.1 result.2 r) results
        (untilUnused rs ++ (batches (dirDataSize - 16) m left).flatMap shown) := by
  induction calls generalizing dp rs left m with
  | zero => omega
  | succ calls ih =>
    rw [readdirs]
    by_cases hrs : untilUnused rs = []
    · have hend : dp.atEnd = true := h.elim And.left fun hreading => hreading.atEnd hrs
      rw [hrs, List.nil_append]
      cases left with
      | nil =>
        obtain ⟨dp', hrun⟩ := readdir_end hbs hcache hfs hend hleft hfuel
        refine ⟨[], by rw [hrun], ?_⟩
        cases m with
        | zero => exact .nil
        | succ m => exact .nil
      | cons block left =>
        obtain ⟨r, rs', dirp, dp', hbatch, hrun, hdirent, hreading⟩ :=
          readdir_refill hbs hcache hfs hend hleft hfuel
        have hsplit := congrArg List.length (batch_append (dirDataSize - 16) (block :: left))
        rw [hbatch, List.length_append, List.length_cons] at hsplit
        obtain ⟨m, rfl⟩ := Nat.exists_eq_succ_of_ne_zero (show m ≠ 0 by omega)
        have hle := afterBatch_length_le (dirDataSize - 16) (block :: left)
        obtain ⟨results, hresults, hall⟩ := ih m rs' dp' (by omega) (by omega) (by omega) hreading.server hreading.behind
          (Or.inr hreading)
        refine ⟨(dp'.data, dirp) :: results, ?_, ?_⟩
        · rw [hrun]
          dsimp only
          rw [hresults]
          rfl
        · rw [batches, if_neg (List.cons_ne_nil _ _), hbatch, List.flatMap_cons, shown, List.cons_append]
          exact .cons hdirent hall
    · obtain ⟨r, rs, rfl, hr⟩ : ∃ r rs', rs = r :: rs' ∧ InUse r := by
        cases rs with
        | nil => exact absurd rfl hrs
        | cons r rs' =>
          refine ⟨r, rs', rfl, ?_⟩
          by_contra hunused
          exact hrs (List.takeWhile_cons_of_neg (by simpa using hunused))
      have hreading : Reading fs ino inode dp (r :: rs) left := h.elim (fun hempty => nomatch hempty.2) id
      obtain ⟨dirp, dp', hrun, hdirent, hnext⟩ := hreading.next fuel hr
      rw [List.length_cons] at hcalls
      obtain ⟨results, hresults, hall⟩ := ih m rs dp' hfuel hm (by omega) hnext.server hnext.behind (Or.inr hnext)
      refine ⟨(dp'.data, dirp) :: results, ?_, ?_⟩
      · rw [hrun]
        dsimp only
        rw [hresults]
        rfl
      · rw [untilUnused, List.takeWhile_cons_of_pos (by simpa using hr)]
        exact .cons hdirent hall

/-! ## What the buffer is filled with -/

def Fillable (left : List (List DirRecord)) : Prop := ∀ rs ∈ left, rs ≠ [] ∧ ∀ r ∈ rs, r.size ≤ dirDataSize - 16

theorem Fillable.batch_ne_nil (h : Fillable left) (hne : left ≠ []) : batch (dirDataSize - 16) left ≠ [] := by
  cases left with
  | nil => exact absurd rfl hne
  | cons rs left =>
    obtain ⟨hrs, hsize⟩ := h rs List.mem_cons_self
    cases rs with
    | nil => exact absurd rfl hrs
    | cons r rs =>
      rw [batch, fitting, if_neg (Nat.not_lt.mpr (hsize r List.mem_cons_self)), List.take_succ_cons]
      exact List.cons_ne_nil _ _

theorem Fillable.afterBatch (h : Fillable left) : Fillable (afterBatch (dirDataSize - 16) left) := by
  cases left with
  | nil => exact h
  | cons rs left =>
    have htail : Fillable left := fun rs' hmem => h rs' (List.mem_cons_of_mem _ hmem)
    rw [Ext2.afterBatch]
    split
    case isTrue hlt =>
      intro rs' hmem
      rcases List.mem_cons.mp hmem with rfl | hmem
      · refine ⟨fun hnil => ?_, fun r hr => (h rs List.mem_cons_self).2 r (List.mem_of_mem_drop hr)⟩
        have := List.drop_eq_nil_iff.mp hnil
        omega
      · exact htail rs' hmem
    case isFalse => exact htail

theorem batches_spec (h : Fillable left) (hm : left.flatten.length ≤ m) :
    (batches (dirDataSize - 16) m left).flatten = left.flatten ∧ [] ∉ batches (dirDataSize - 16) m left := by
  induction m generalizing left with
  | zero =>
    rw [List.length_eq_zero_iff.mp (Nat.le_zero.mp hm)]
    exact ⟨rfl, List.not_mem_nil⟩
  | succ m ih =>
    rw [batches]
    by_cases hleft : left = []
    · rw [if_pos hleft, hleft]
      exact ⟨rfl, List.not_mem_nil⟩
    · have hne := h.batch_ne_nil hleft
      have hsplit := batch_append (dirDataSize - 16) left
      have hlength := congrArg List.length hsplit
      rw [List.length_append] at hlength
      have hpos := List.length_pos_iff.mpr hne
      obtain ⟨hflatten, hnil⟩ := ih h.afterBatch (by omega)
      rw [if_neg hleft, List.flatten_cons, hflatten, hsplit]
      refine ⟨rfl, fun hmem => ?_⟩
      rcases List.mem_cons.mp hmem with heq | hmem
      · exact hne heq.symm
      · exact hnil hmem

/-! ## Entries in use -/

theorem untilUnused_length_le (rs : List DirRecord) : (untilUnused rs).length ≤ (rs.filter fun r => InUse r).length := by
  induction rs with
  | nil => exact Nat.le_refl 0
  | cons r rs ih =>
    by_cases hr : InUse r
    · rw [untilUnused, List.takeWhile_cons_of_pos (by simpa using hr), List.filter_cons_of_pos (by simpa using hr),
        List.length_cons, List.length_cons]
      exact Nat.succ_le_succ ih
    · rw [untilUnused, List.takeWhile_cons_of_neg (by simpa using hr)]
      exact Nat.zero_le _

theorem shown_of_inUseFirst (h : InUseFirst rs) : shown rs = rs.filter fun r => InUse r := by
  obtain ⟨front, rest, rfl, hne, hfront, hrest⟩ := h
  obtain ⟨r, front, rfl⟩ := List.exists_cons_of_ne_nil hne
  have hunused : untilUnused rest = [] := by
    cases rest with
    | nil => rfl
    | cons u rest => exact List.takeWhile_cons_of_neg (by simpa using hrest u List.mem_cons_self)
  have hall : ∀ u ∈ front, decide (InUse u) = true := fun u hu => decide_eq_true (hfront u (List.mem_cons_of_mem _ hu))
  rw [List.cons_append, shown, List.filter_cons_of_pos (by simpa using hfront r List.mem_cons_self), untilUnused,
    List.takeWhile_append_of_pos hall, List.filter_append, List.filter_eq_self.mpr hall,
    List.filter_eq_nil_iff.mpr fun u hu => by simpa using hrest u hu]
  exact congrArg (fun l => r :: (front ++ l)) hunused

theorem inUseFirst_of_length (hr : InUse r) (h : (untilUnused rs).length = (rs.filter fun r => InUse r).length) :
    InUseFirst (r :: rs) := by
  refine ⟨r :: untilUnused rs, rs.dropWhile fun r => InUse r, ?_, List.cons_ne_nil _ _, ?_, ?_⟩
  · rw [List.cons_append, untilUnused, List.takeWhile_append_dropWhile]
  · intro u hu
    rcases List.mem_cons.mp hu with rfl | hu
    · exact hr
    · simpa using List.mem_takeWhile_imp hu
  · have hfilter : (rs.filter fun r => InUse r) = untilUnused rs ++ (rs.dropWhile fun r => InUse r).filter fun r => InUse r := by
      conv_lhs => rw [← List.takeWhile_append_dropWhile (p := fun r => decide (InUse r)) (l := rs)]
      rw [List.filter_append, untilUnused, List.filter_eq_self.mpr fun u hu => List.mem_takeWhile_imp (p := fun r => decide (InUse r)) hu]
    rw [hfilter, List.length_append] at h
    have hnil := List.length_eq_zero_iff.mp (show ((rs.dropWhile fun r => InUse r).filter fun r => InUse r).length = 0 by omega)
    intro u hu
    simpa using List.filter_eq_nil_iff.mp hnil u hu

theorem inUseFirst_of_ino (hnil : [] ∉ bs)
    (h : (bs.flatMap shown).map DirRecord.ino = (bs.flatten.filter fun r => InUse r).map DirRecord.ino) :
    ∀ rs ∈ bs, InUseFirst rs := by
  have hfirst : ∀ r rs, r :: rs ∈ bs → InUse r := by
    intro r rs hmem hzero
    have hino : r.ino ∈ (bs.flatMap shown).map DirRecord.ino :=
      List.mem_map_of_mem (List.mem_flatMap.mpr ⟨_, hmem, List.mem_cons_self⟩)
    rw [h] at hino
    obtain ⟨u, hu, heq⟩ := List.mem_map.mp hino
    have hinUse : InUse u := by simpa using (List.mem_filter.mp hu).2
    exact hinUse (heq.trans hzero)
  have hlength := congrArg List.length h
  rw [List.length_map, List.length_map] at hlength
  clear h
  -- each time no more is returned than there are entries in use, so that equality holds each time
  suffices hle : (bs.flatMap shown).length ≤ (bs.flatten.filter fun r => InUse r).length ∧
      ((bs.flatMap shown).length = (bs.flatten.filter fun r => InUse r).length → ∀ rs ∈ bs, InUseFirst rs) from
    hle.2 hlength
  clear hlength
  induction bs with
  | nil => exact ⟨Nat.le_refl 0, fun _ _ hmem => nomatch hmem⟩
  | cons rs bs ih =>
    obtain ⟨hle, hall⟩ := ih (fun hmem => hnil (List.mem_cons_of_mem _ hmem))
      fun r rs hmem => hfirst r rs (List.mem_cons_of_mem _ hmem)
    cases rs with
    | nil => exact absurd List.mem_cons_self hnil
    | cons r rs =>
      have hr := hfirst r rs List.mem_cons_self
      have huntil := untilUnused_length_le rs
      rw [List.flatMap_cons, List.flatten_cons, List.filter_append, List.length_append, List.length_append, shown,
        List.filter_cons_of_pos (by simpa using hr), List.length_cons, List.length_cons]
      refine ⟨by omega, fun heq rs' hmem => ?_⟩
      rcases List.mem_cons.mp hmem with rfl | hmem
      · exact inUseFirst_of_length hr (by omega)
      · exact hall (by omega) rs' hmem

theorem flatMap_shown (h : ∀ rs ∈ bs, InUseFirst rs) : bs.flatMap shown = bs.flatten.filter fun r => InUse r := by
  induction bs with
  | nil => rfl
  | cons rs bs ih =>
    rw [List.flatMap_cons, List.flatten_cons, List.filter_append, shown_of_inUseFirst (h rs List.mem_cons_self),
      ih fun rs' hmem => h rs' (List.mem_cons_of_mem _ hmem)]

/-! ## Directories -/

theorem forall₂_ino {results : List (Mem × Nat)} {rs' : List DirRecord}
    (h : List.Forall₂ (fun result r => DirentAt result.1 result.2 r) results rs)
    (h' : List.Forall₂ (fun result r => DirentAt result.1 result.2 r) results rs') :
    rs.map DirRecord.ino = rs'.map DirRecord.ino := by
  induction h generalizing rs' with
  | nil =>
    cases h' with
    | nil => rfl
  | cons hdirent _ ih =>
    cases h' with
    | cons hdirent' htail' => rw [List.map_cons, List.map_cons, ← hdirent.ino, ← hdirent'.ino, ih htail']

theorem dirFrom_fillable {number : Nat → Nat} {n : Nat} (hbs : 0 < fs.sb.blockSize) (h : DirFrom fs number n dir) :
    Fillable (blockRecords fs n dir) := by
  induction dir generalizing n with
  | nil => exact fun _ hmem => (List.not_mem_nil hmem).elim
  | cons block dir ih =>
    obtain ⟨-, -, hchain, hrest⟩ := h
    intro rs hmem
    rcases List.mem_cons.mp hmem with rfl | hmem
    · refine ⟨fun hnil => ?_, fun r hr => ?_⟩
      · have := hchain.entryChain.eq_nil_iff.mp (List.map_eq_nil_iff.mp hnil)
        omega
      · obtain ⟨off, -, rfl⟩ := List.mem_map.mp hr
        exact Nat.le_trans (recordAt_size_le ..) (by decide)
    · exact ih hrest rs hmem

theorem readdirs_getinode : readdirs fuel ino calls (opendir (getinode fs ino).2 data) =
    readdirs fuel ino calls (opendir fs data) := by
  cases calls with
  | zero => rfl
  | succ calls =>
    have hrun : readdir fuel ino (opendir (getinode fs ino).2 data) = readdir fuel ino (opendir fs data) := by
      simp only [readdir, opendir, ext2Getdents_getinode, Dir.atEnd, Option.all_none, if_true]
    rw [readdirs, readdirs, hrun]

theorem readdirs_dir {fuel calls : Nat} (hbs : BlockSizeOk fs.sb) (h : DirAt fs ino dir) (hnumbers : Numbers fs ino dir.length)
    (data : Mem) (hfuel : (blockRecords fs 0 dir).length < fuel) (hcalls : (blockRecords fs 0 dir).flatten.length < calls) :
    ∃ results, readdirs fuel ino calls (opendir fs data) = some results ∧
      List.Forall₂ (fun result r => DirentAt result.1 result.2 r) results ((dirBatches fs dir).flatMap shown) := by
  obtain ⟨hsb, hdisk, -⟩ := getinode_frame fs ino
  have hbs' : BlockSizeOk (getinode fs ino).2.sb := hsb ▸ hbs
  have hleft := dirFrom_leftAt hbs' ((dirFrom_congr hsb hdisk).mpr h) fun k hk => by
    rw [getBlockNo_of_frame hsb hdisk]
    exact hnumbers k hk
  rw [blockRecords_getinode] at hleft
  have hrun := readdirs_spec (blockRecords fs 0 dir).flatten.length []
    (opendir (getinode fs ino).2 data) hbs' getinode_cache hfuel (Nat.le_refl _)
    (by rwa [List.length_nil, Nat.zero_add]) rfl hleft (Or.inl ⟨rfl, rfl⟩)
  rwa [readdirs_getinode] at hrun

/-- `readdir` lists the entries in use iff the buffer is never filled with an unused entry before one in use, where
`get_block_no` gives the blocks of the directory. -/
theorem readdir_lists_iff (fs : Fs) (ino : Nat) (dir : List (Nat × List Nat)) (data : Mem) (hbs : BlockSizeOk fs.sb)
    (hdir : DirAt fs ino dir) (hnumbers : Numbers fs ino dir.length) :
    ReaddirLists fs ino data ((blockRecords fs 0 dir).flatten.filter fun r => InUse r) ↔
      ∀ rs ∈ dirBatches fs dir, InUseFirst rs := by
  obtain ⟨hflatten, hnil⟩ : (dirBatches fs dir).flatten = (blockRecords fs 0 dir).flatten ∧ [] ∉ dirBatches fs dir :=
    batches_spec (dirFrom_fillable hbs.bounds.1 hdir) (Nat.le_refl _)
  rw [← hflatten]
  constructor
  · rintro ⟨bound, h⟩
    obtain ⟨results, hrun, hall⟩ := h (bound + (blockRecords fs 0 dir).length + 1) (by omega)
      (bound + (blockRecords fs 0 dir).flatten.length + 1) (by omega)
    obtain ⟨results', hrun', hall'⟩ := readdirs_dir hbs hdir hnumbers data
      (show (blockRecords fs 0 dir).length < bound + (blockRecords fs 0 dir).length + 1 by omega)
      (show (blockRecords fs 0 dir).flatten.length < bound + (blockRecords fs 0 dir).flatten.length + 1 by omega)
    obtain rfl := Option.some.inj (hrun.symm.trans hrun')
    exact inUseFirst_of_ino hnil (forall₂_ino hall' hall)
  · intro h
    refine ⟨(blockRecords fs 0 dir).length + (blockRecords fs 0 dir).flatten.length + 1, fun fuel hfuel calls hcalls => ?_⟩
    rw [← flatMap_shown h]
    exact readdirs_dir hbs hdir hnumbers data (by omega) (by omega)

theorem readdir_lists_inUse : ReaddirLists (entriesFs [7, 8, 0]) 12 (fun _ => 0) [⟨7, 0, [97], 0⟩, ⟨8, 0, [98], 12⟩] := by
  have hlist : (blockRecords (entriesFs [7, 8, 0]) 0 [(20, [0, 12, 24])]).flatten.filter (fun r => InUse r) =
    [⟨7, 0, [97], 0⟩, ⟨8, 0, [98], 12⟩] := by decide +kernel
  have hbatches : dirBatches (entriesFs [7, 8, 0]) [(20, [0, 12, 24])] =
    [[⟨7, 0, [97], 0⟩, ⟨8, 0, [98], 12⟩, ⟨0, 0, [99], 24⟩]] := by decide +kernel
  rw [← hlist]
  refine (readdir_lists_iff _ 12 [(20, [0, 12, 24])] _ ⟨0, by decide, rfl⟩ (by decide)
    (numbers_of_lt ⟨0, by decide, rfl⟩ (by decide))).mpr fun rs hrs => ?_
  rw [hbatches] at hrs
  obtain rfl := List.mem_singleton.mp hrs
  exact ⟨[⟨7, 0, [97], 0⟩, ⟨8, 0, [98], 12⟩], [⟨0, 0, [99], 24⟩], rfl, List.cons_ne_nil _ _, by decide, by decide⟩

/-- An unused entry between two others ends what is in the buffer: the second of them is never returned. -/
theorem readdir_loses_entry : DirAt (entriesFs [7, 0, 8]) 12 [(20, [0, 12, 24])] ∧
    (readdirs 3 12 3 (opendir (entriesFs [7, 0, 8]) fun _ => 0)).map (fun results => results.map fun r => r.1.load r.2 8) =
      some [7] ∧
    ¬ ReaddirLists (entriesFs [7, 0, 8]) 12 (fun _ => 0) [⟨7, 0, [97], 0⟩, ⟨8, 0, [99], 24⟩] := by
  have hdir : DirAt (entriesFs [7, 0, 8]) 12 [(20, [0, 12, 24])] := by decide
  refine ⟨hdir, by decide, fun h => ?_⟩
  obtain ⟨bound, hbound⟩ := h
  obtain ⟨results, hrun, hall⟩ := hbound (bound + 2) (by omega) (bound + 4) (by omega)
  have hrecords : (blockRecords (entriesFs [7, 0, 8]) 0 [(20, [0, 12, 24])]).length = 1 ∧
    (blockRecords (entriesFs [7, 0, 8]) 0 [(20, [0, 12, 24])]).flatten.length = 3 := by decide
  obtain ⟨results', hrun', hall'⟩ := readdirs_dir ⟨0, by decide, rfl⟩ hdir (by decide) (fun _ => 0)
    (show _ < bound + 2 by rw [hrecords.1]; omega) (show _ < bound + 4 by rw [hrecords.2]; omega)
  obtain rfl := Option.some.inj (hrun.symm.trans hrun')
  have hshown : (dirBatches (entriesFs [7, 0, 8]) [(20, [0, 12, 24])]).flatMap shown = [⟨7, 0, [97], 0⟩] := by decide +kernel
  have hino := forall₂_ino hall' hall
  rw [hshown] at hino
  cases hino

end FengOS.Libc
