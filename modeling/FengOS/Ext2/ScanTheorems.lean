import FengOS.Ext2.Scan
import FengOS.Ext2.Lemmas.Dir

/-!
# What the loops over directory entries find, and when they end
-/

namespace FengOS.Ext2

open FengOS.Lib

variable {carve : Mem → Nat → Mem} {fs : Fs} {inode : Inode} {junk : Int} {buf : Mem} {name : List UInt8}
  {off e n m pino rounds fuel : Nat} {offs : List Nat} {dir : List (Nat × List Nat)} {r : Option Nat} {ino : Nat}
  {s : Nat × Mem} {l : List (List UInt8 × Nat)}

/-! ## Names -/

theorem strncmp_eq_zero_iff (h : off + name.length ≤ e) : ∃ r, strncmp junk e name buf off = some r ∧
    (r = 0 ↔ (List.range name.length).map (fun i => buf (off + i)) = name ∧ (name = [] → junk = 0)) := by
  have hread : (List.range name.length).map (fun i => buf (off + i)) = name ↔
      ∀ i < name.length, name.getD i 0 = buf (off + i) := by
    rw [List.ext_getElem_iff]
    simp +contextual [eq_comm]
  unfold strncmp
  rw [hread]
  rcases Libc.strncmp_cases junk (name.getD · 0) (fun i => buf (off + i)) name.length with
    ⟨hall, heq⟩ | ⟨i, hi, -, hne, heq⟩
  · refine ⟨_, by rw [heq]; exact if_pos h, ?_⟩
    simp only [and_iff_right hall, List.length_eq_zero_iff, ite_eq_right_iff]
  · refine ⟨_, by rw [heq]; exact if_pos (show off + (i + 1) ≤ e by omega), ?_⟩
    rw [toInt8_toInt_inj]
    exact iff_of_false hne fun hboth => hne (hboth.1 i hi)

theorem sameName_eq (h : off + 8 + dNameLen buf off ≤ e) :
    sameName junk e name buf off = some (decide (dName buf off = name ∧ (name = [] → junk = 0))) := by
  unfold sameName
  by_cases hlen : dNameLen buf off = name.length
  · obtain ⟨r, hr, hiff⟩ := strncmp_eq_zero_iff (show off + 8 + name.length ≤ e by omega)
    rw [if_pos hlen, hr, Option.map_some, dName, hlen]
    refine congrArg some ?_
    rw [← Bool.coe_iff_coe, decide_eq_true_iff, beq_iff_eq]
    exact hiff
  · rw [if_neg hlen]
    have hne : dName buf off ≠ name := by
      rintro rfl
      exact hlen (by simp [dName])
    simp [hne]

/-! ## The comparison of whole names -/

theorem sameName_of_inBuffer (hname : name ≠ []) (h : InBuffer buf e off name) :
    sameName junk e name buf off = some (decide (dName buf off = name)) := by
  by_cases hlen : dNameLen buf off = name.length
  · have hin := h.2 hlen
    rw [sameName_eq (by omega)]
    simp [hname]
  · rw [sameName, if_neg hlen, decide_eq_false fun heq => hlen (by rw [← heq]; simp [dName])]

theorem scanBlock_of_carveBlock {newdir : Option Nat} {r : Option (Mem × Option Nat)} (hname : name ≠ [])
    (h : carveBlock e name rounds off buf newdir = some r) : ∃ found buf',
      scanBlock (carveEntry name) junk e name rounds off buf = some (found, buf') ∧ (r = none ↔ found.isSome) ∧
      ∀ result, r = some result → result.1 = buf' := by
  induction rounds generalizing off buf newdir with
  | zero => cases h
  | succ rounds ih =>
    rw [carveBlock] at h
    rw [scanBlock]
    split at h
    case isTrue hend =>
      rw [if_pos hend]
      obtain rfl := Option.some.inj h
      exact ⟨none, buf, rfl, by simp, fun result hr => by rw [← Option.some.inj hr]⟩
    case isFalse hend =>
      split at h
      case isTrue => cases h
      case isFalse hin =>
        have hin := not_not.mp hin
        rw [if_neg hend, if_neg (Nat.not_lt.mpr hin.1), sameName_of_inBuffer hname hin]
        split at h
        case isTrue hsame =>
          obtain rfl := Option.some.inj h
          rw [decide_eq_true hsame]
          exact ⟨some off, buf, rfl, by simp, by simp⟩
        case isFalse hsame =>
          rw [decide_eq_false hsame, carveEntry]
          dsimp only at h ⊢
          split at h
          case isTrue hfree =>
            split at h
            case isTrue => cases h
            case isFalse =>
              rw [if_pos hfree]
              exact ih h
          case isFalse hfree =>
            rw [if_neg hfree]
            exact ih h

/-! ## Lookups in a directory -/

theorem taken_cons {nm : List UInt8} : taken junk name ((nm, ino) :: l) =
    if nm = name ∧ (name = [] → junk = 0) then some ino else taken junk name l := by
  unfold taken
  by_cases hempty : name = [] ∧ junk ≠ 0
  · rw [if_pos hempty, if_pos hempty, if_neg fun h => hempty.2 (h.2 hempty.1)]
  · rw [if_neg hempty, if_neg hempty, List.lookup_cons]
    have hjunk : name = [] → junk = 0 := fun hname => not_not.mp fun h => hempty ⟨hname, h⟩
    by_cases hname : nm = name
    · rw [beq_iff_eq.mpr hname.symm, if_pos ⟨hname, hjunk⟩]
    · rw [beq_eq_false_iff_ne.mpr (Ne.symm hname), if_neg fun h => hname h.1]

theorem taken_append {l l' : List (List UInt8 × Nat)} :
    taken junk name (l ++ l') = (taken junk name l).or (taken junk name l') := by
  unfold taken
  split
  · rfl
  · rw [List.lookup_append]

theorem scanBlock_eq (junk : Int) (name : List UInt8) (h : Chain buf e off offs) (hrounds : offs.length < rounds) :
    (scanBlock keepEntry junk e name rounds off buf).map (fun r => r.1.map (dInode r.2)) =
      some (taken junk name (entries buf offs)) := by
  induction h generalizing rounds with
  | nil =>
    obtain ⟨rounds, rfl⟩ := Nat.exists_eq_succ_of_ne_zero (Nat.ne_of_gt hrounds)
    rw [scanBlock, if_pos rfl]
    simp [taken, entries]
  | @cons off offs hdvd hlen htail ih =>
    obtain ⟨rounds, rfl⟩ := Nat.exists_eq_succ_of_ne_zero (Nat.ne_of_gt (Nat.zero_lt_of_lt hrounds))
    have hle := htail.le
    rw [scanBlock, if_neg (by omega), if_neg (by omega), sameName_eq (by omega), entries, List.map_cons, taken_cons]
    by_cases hname : dName buf off = name ∧ (name = [] → junk = 0)
    · rw [if_pos hname, decide_eq_true hname]
      rfl
    · rw [if_neg hname, decide_eq_false hname]
      exact ih (Nat.lt_of_succ_lt_succ hrounds)

theorem scanLoop_eq {number : Nat → Nat} (hbs : fs.sb.blockSize < 2 ^ 32) (h : DirFrom fs number n dir)
    (hnumber : ∀ k ≤ blocksBefore fs name dir, getBlockNo fs inode (n + k) = some (Int.ofNat (number (n + k))))
    (hfuel : dir.length < fuel) (hrounds : fs.sb.blockSize < rounds) :
    scanLoop keepEntry fs inode name rounds fuel n = some (taken fs.junk name (listing fs dir)) := by
  induction dir generalizing n fuel with
  | nil =>
    obtain ⟨fuel, rfl⟩ := Nat.exists_eq_succ_of_ne_zero (Nat.ne_of_gt hfuel)
    have hno := hnumber 0 (Nat.zero_le _)
    rw [Nat.add_zero, show number n = 0 from h] at hno
    rw [scanLoop, getblock_eq hno hbs]
    simp [taken, listing]
  | cons block dir ih =>
    obtain ⟨fuel, rfl⟩ := Nat.exists_eq_succ_of_ne_zero (Nat.ne_of_gt (Nat.zero_lt_of_lt hfuel))
    obtain ⟨hblockNo, hne, hchain, hrest⟩ := h
    have hno := hnumber 0 (Nat.zero_le _)
    rw [Nat.add_zero, hblockNo] at hno
    have hlen := hchain.length_le
    have hblock := scanBlock_eq fs.junk name hchain (show block.2.length < rounds by omega)
    rw [scanLoop, getblock_eq hno hbs, if_neg hne, listing, List.flatMap_cons, taken_append]
    dsimp only
    cases hscan : scanBlock keepEntry fs.junk fs.sb.blockSize name rounds 0 (blockAt fs block.1) with
    | none =>
      rw [hscan] at hblock
      cases hblock
    | some r =>
      rw [hscan, Option.map_some, Option.some.injEq] at hblock
      obtain ⟨_ | off, buffer⟩ := r
      · rw [← hblock]
        refine ih hrest (fun k hk => ?_) (Nat.lt_of_succ_lt_succ hfuel)
        have hk' : k + 1 ≤ blocksBefore fs name (block :: dir) := by
          rw [blocksBefore, List.takeWhile_cons_of_pos (by rw [← hblock]; rfl), List.length_cons]
          exact Nat.succ_le_succ hk
        rw [Nat.add_assoc, Nat.add_comm 1 k]
        exact hnumber (k + 1) hk'
      · rw [← hblock]
        rfl

theorem fetch_eq_some {r : Inode × Fs} : fetch fs ino = some r ↔ Fetchable fs ino ∧ getinode fs ino = r := by
  unfold fetch
  split
  case isTrue h => simp [h]
  case isFalse h => simp [h]

/-- Once an inode has been fetched, another one can be fetched if it could before. -/
theorem fetchable_getinode (h : Fetchable fs pino) : Fetchable (getinode fs pino).2 ino ↔ Fetchable fs ino := by
  unfold getinode
  cases hcache : fs.cache pino with
  | some inode => exact Iff.rfl
  | none =>
    by_cases hino : ino = pino
    · subst hino
      exact iff_of_true (Or.inl (by simp [setInode_cache])) h
    · have hsame : (fs.setInode pino (readInode fs pino)).cache ino = fs.cache ino := Function.update_of_ne hino ..
      unfold Fetchable
      rw [hsame]
      rfl

theorem blocksBefore_congr {fs' : Fs} (hsb : fs'.sb = fs.sb) (hdisk : fs'.disk = fs.disk) (hjunk : fs'.junk = fs.junk) :
    blocksBefore fs' name dir = blocksBefore fs name dir := by
  unfold blocksBefore blockAt
  rw [hsb, hdisk, hjunk]

section Lookup

variable (hbs : fs.sb.blockSize < 2 ^ 32) (hdir : DirAt fs pino dir) (hfetch : Fetchable fs pino)
  (hnumbers : Numbers fs pino (blocksBefore fs name dir)) (hfuel : dir.length < fuel) (hrounds : fs.sb.blockSize < rounds)

include hbs hdir hfetch hnumbers hfuel hrounds

theorem ext2Lookup_eq : ext2Lookup rounds fuel fs name pino =
    match taken fs.junk name (listing fs dir) with
    | none => some (none, (getinode fs pino).2)
    | some ino => (fetch (getinode fs pino).2 ino).map fun (inode, fs) => (some ⟨ino, iMode inode, iSize inode⟩, fs) := by
  obtain ⟨hsb, hdisk, -⟩ := getinode_frame fs pino
  have hjunk : (getinode fs pino).2.junk = fs.junk := by
    unfold getinode
    split
    · rfl
    · rfl
  have hlisting : listing (getinode fs pino).2 dir = listing fs dir := by
    unfold listing blockAt
    rw [hsb, hdisk]
  have hloop : scanLoop keepEntry (getinode fs pino).2 (getinode fs pino).1 name rounds fuel 0 =
      some (taken (getinode fs pino).2.junk name (listing (getinode fs pino).2 dir)) := by
    have hfrom : DirFrom (getinode fs pino).2 (treeNo fs pino) 0 dir := (dirFrom_congr hsb hdisk).mpr hdir
    refine scanLoop_eq (hsb ▸ hbs) hfrom (fun k hk => ?_) hfuel (hsb ▸ hrounds)
    rw [blocksBefore_congr hsb hdisk hjunk] at hk
    rw [Nat.zero_add, getBlockNo_of_frame hsb hdisk]
    exact hnumbers k hk
  rw [hlisting, hjunk] at hloop
  rw [ext2Lookup, fetch_eq_some.mpr ⟨hfetch, rfl⟩]
  dsimp only
  rw [hloop]
  cases taken fs.junk name (listing fs dir) with
  | none => rfl
  | some ino => rfl

theorem ext2Lookup_some {r : Option Dentry} {fs' : Fs} (h : ext2Lookup rounds fuel fs name pino = some (r, fs')) :
    r.map Dentry.fIno = taken fs.junk name (listing fs dir) ∧ (r = none → fs' = (getinode fs pino).2) ∧
      ∀ ino, taken fs.junk name (listing fs dir) = some ino → Fetchable fs ino := by
  rw [ext2Lookup_eq hbs hdir hfetch hnumbers hfuel hrounds] at h
  cases htaken : taken fs.junk name (listing fs dir) with
  | none =>
    rw [htaken] at h
    cases h
    exact ⟨rfl, fun _ => rfl, fun _ he => by cases he⟩
  | some ino =>
    rw [htaken] at h
    obtain ⟨q, hq, he⟩ := Option.map_eq_some_iff.mp h
    obtain ⟨rfl, rfl⟩ := Prod.mk.inj he
    refine ⟨rfl, fun he => (by cases he), fun ino' he => ?_⟩
    rw [← Option.some.inj he]
    exact (fetchable_getinode hfetch).mp (fetch_eq_some.mp hq).1

theorem ext2Lookup_isSome (h : ∀ ino, taken fs.junk name (listing fs dir) = some ino → Fetchable fs ino) :
    ∃ r, ext2Lookup rounds fuel fs name pino = some r := by
  rw [ext2Lookup_eq hbs hdir hfetch hnumbers hfuel hrounds]
  cases htaken : taken fs.junk name (listing fs dir) with
  | none => exact ⟨_, rfl⟩
  | some ino =>
    dsimp only
    rw [fetch_eq_some.mpr ⟨(fetchable_getinode hfetch).mpr (h ino htaken), rfl⟩]
    exact ⟨_, rfl⟩

end Lookup

/-! ## The first entry with a name -/

theorem lookup_eq_none (h : name ∉ l.map Prod.fst) : l.lookup name = none := by
  refine List.lookup_eq_none_iff.mpr fun p hp => bne_iff_ne.mpr ?_
  rintro rfl
  exact h (List.mem_map_of_mem hp)

theorem lookup_of_append {l pre post : List (List UInt8 × Nat)} (h : l = pre ++ (name, ino) :: post)
    (hpre : name ∉ pre.map Prod.fst) : l.lookup name = some ino := by
  rw [h, List.lookup_append, lookup_eq_none hpre, List.lookup_cons_self]
  rfl

theorem append_of_lookup (h : l.lookup name = some ino) :
    ∃ pre post, l = pre ++ (name, ino) :: post ∧ name ∉ pre.map Prod.fst := by
  induction l with
  | nil => cases h
  | cons entry l ih =>
    obtain ⟨nm, i⟩ := entry
    rw [List.lookup_cons] at h
    by_cases hname : name = nm
    · rw [beq_iff_eq.mpr hname, Option.some.injEq] at h
      exact ⟨[], l, by rw [hname, h]; rfl, by simp⟩
    · rw [beq_eq_false_iff_ne.mpr hname] at h
      obtain ⟨pre, post, rfl, hpre⟩ := ih h
      refine ⟨(nm, i) :: pre, post, rfl, ?_⟩
      rw [List.map_cons, List.mem_cons]
      exact not_or.mpr ⟨hname, hpre⟩

theorem firstInUse_iff : FirstInUse fs dir name ↔
    (∀ ino, taken fs.junk name (listing fs dir) = some ino ↔ ino ≠ 0 ∧ (name, ino) ∈ listing fs dir) ∧
      ∀ ino, taken fs.junk name (listing fs dir) = some ino → Fetchable fs ino := by
  unfold FirstInUse taken
  split
  · constructor
    · intro h
      exact ⟨fun ino => ⟨fun he => (by cases he), fun hino => absurd (h ino hino.2) hino.1⟩, fun _ he => (by cases he)⟩
    · rintro ⟨h, -⟩ ino hmem
      refine not_not.mp fun hne => ?_
      cases (h ino).mpr ⟨hne, hmem⟩
  · constructor
    · intro h
      refine ⟨fun ino => ⟨fun hlookup => ?_, ?_⟩, fun ino hlookup => ?_⟩
      · obtain ⟨pre, post, heq, hpre⟩ := append_of_lookup hlookup
        refine ⟨(h pre ino post heq hpre).1, ?_⟩
        rw [heq]
        simp
      · rintro ⟨hne, hmem⟩
        cases hlookup : (listing fs dir).lookup name with
        | none =>
          have := List.lookup_eq_none_iff.mp hlookup _ hmem
          simp at this
        | some first =>
          obtain ⟨pre, post, heq, hpre⟩ := append_of_lookup hlookup
          obtain ⟨-, -, hpost⟩ := h pre first post heq hpre
          rw [heq, List.mem_append, List.mem_cons] at hmem
          rcases hmem with hmem | hmem | hmem
          · exact absurd (List.mem_map_of_mem hmem) hpre
          · rw [(Prod.mk.inj hmem).2]
          · rw [(hpost ino hmem).resolve_left hne]
      · obtain ⟨pre, post, heq, hpre⟩ := append_of_lookup hlookup
        exact (h pre ino post heq hpre).2.1
    · rintro ⟨h, hfetch⟩ pre ino post heq hpre
      have hlookup := lookup_of_append heq hpre
      refine ⟨((h ino).mp hlookup).1, hfetch ino hlookup, fun other hmem => ?_⟩
      by_cases hother : other = 0
      · exact Or.inl hother
      · have := (h other).mpr ⟨hother, by rw [heq]; simp [hmem]⟩
        rw [hlookup, Option.some.injEq] at this
        exact Or.inr this.symm

/-- A lookup gives exactly the entry in use with the name iff no other entry with this name comes first and its inode can be
fetched, where `get_block_no` gives the blocks of the directory up to the one with the name. -/
theorem lookup_exact_iff (fs : Fs) (pino : Nat) (dir : List (Nat × List Nat)) (name : List UInt8)
    (hbs : fs.sb.blockSize < 2 ^ 32) (hdir : DirAt fs pino dir) (hfetch : Fetchable fs pino)
    (hnumbers : Numbers fs pino (blocksBefore fs name dir)) :
    LookupExact fs pino dir name ↔ FirstInUse fs dir name := by
  rw [firstInUse_iff]
  constructor
  · rintro ⟨bound, h⟩
    obtain ⟨r, fs', hscan, hexact, -⟩ := h (bound + fs.sb.blockSize + 1) (by omega) (bound + dir.length + 1) (by omega)
    obtain ⟨htaken, -, hfound⟩ := ext2Lookup_some hbs hdir hfetch hnumbers (by omega) (by omega) hscan
    refine ⟨fun ino => ?_, hfound⟩
    rw [← htaken]
    exact hexact ino
  · rintro ⟨h, hfound⟩
    refine ⟨fs.sb.blockSize + dir.length + 1, fun rounds hrounds fuel hfuel => ?_⟩
    have hfuel : dir.length < fuel := by omega
    have hrounds : fs.sb.blockSize < rounds := by omega
    obtain ⟨⟨r, fs'⟩, hscan⟩ := ext2Lookup_isSome hbs hdir hfetch hnumbers hfuel hrounds hfound
    obtain ⟨htaken, hnone, -⟩ := ext2Lookup_some hbs hdir hfetch hnumbers hfuel hrounds hscan
    refine ⟨r, fs', hscan, fun ino => ?_, hnone⟩
    rw [htaken]
    exact h ino

def entryFs (ino recLen : Nat) (name : List UInt8) : Fs :=
  { sb := ⟨0, 8192, 16, 128, 1024, 1, fun _ => ⟨3, 4, 5⟩⟩
    disk := Mem.write (fun _ => 0) 20480
      (setDName (setDNameLen (setDRecLen (setDInode (fun _ => 0) 0 ino) 0 recLen) 0 name.length) 0 name) 1024
    bad := fun _ => false
    cache := fun ino => if ino = 12 then some (setIBlock (fun _ => 0) 0 20) else none
    junk := 0 }

theorem lookup_exact_inUse : LookupExact (entryFs 7 1024 [97]) 12 [(20, [0])] [97] := by
  refine (lookup_exact_iff _ 12 [(20, [0])] [97] (by decide) (by decide) (by decide) (by decide)).mpr ?_
  have hlisting : listing (entryFs 7 1024 [97]) [(20, [0])] = [([97], 7)] := by decide
  have htaken : ∀ ino, taken (entryFs 7 1024 [97]).junk [97] [([97], 7)] = some ino ↔ ino = 7 := by
    intro ino
    rw [eq_comm (a := ino)]
    exact Option.some.injEq 7 ino ▸ Iff.rfl
  rw [firstInUse_iff, hlisting]
  refine ⟨fun ino => ?_, fun ino h => ?_⟩
  · rw [htaken]
    simp
    omega
  · rw [(htaken ino).mp h]
    decide

/-- The name is that of a deleted entry, which is taken: its inode 0 belongs to no group, so that `getinode` reads behind
`group_desc_table`. -/
theorem lookup_finds_deleted : DirAt (entryFs 0 1024 [97]) 12 [(20, [0])] ∧
    scanLoop keepEntry (entryFs 0 1024 [97]) (getinode (entryFs 0 1024 [97]) 12).1 [97] 2 2 0 = some (some 0) ∧
    inodeGroup (entryFs 0 1024 [97]).sb 0 = 0xfffffff ∧ ext2Lookup 2 2 (entryFs 0 1024 [97]) [97] 12 = none ∧
    ¬ LookupExact (entryFs 0 1024 [97]) 12 [(20, [0])] [97] := by
  have hdir : DirAt (entryFs 0 1024 [97]) 12 [(20, [0])] := by decide
  have hlookup : ext2Lookup 2 2 (entryFs 0 1024 [97]) [97] 12 = none := by
    rw [← Option.not_isSome_iff_eq_none]
    decide
  refine ⟨hdir, by decide, by decide, hlookup, fun h => ?_⟩
  obtain ⟨bound, hbound⟩ := h
  obtain ⟨r, fs', hscan, -⟩ := hbound (bound + 1025) (by omega) (bound + 2) (by omega)
  have hfound := (ext2Lookup_some (by decide) hdir (by decide) (by decide) (show 1 < bound + 2 by omega)
    (show 1024 < bound + 1025 by omega) hscan).2.2
  have hlisting : listing (entryFs 0 1024 [97]) [(20, [0])] = [([97], 0)] := by decide
  rw [hlisting] at hfound
  exact absurd (hfound 0 rfl) (by decide)

/-! ## Rounds of the loop over the entries -/

theorem scanBlock_mono {r : Option Nat × Mem} (h : scanBlock carve junk e name rounds off buf = some r) {rounds' : Nat}
    (hle : rounds ≤ rounds') : scanBlock carve junk e name rounds' off buf = some r := by
  induction rounds generalizing off buf rounds' with
  | zero => cases h
  | succ rounds ih =>
    obtain ⟨rounds', rfl⟩ := Nat.exists_eq_succ_of_ne_zero (show rounds' ≠ 0 by omega)
    rw [scanBlock] at h ⊢
    split at h
    case isTrue hend => rw [if_pos hend, h]
    case isFalse hend =>
      rw [if_neg hend]
      split at h
      case isTrue => cases h
      case isFalse hin =>
        rw [if_neg hin]
        split at h
        · cases h
        · exact h
        · exact ih h (Nat.le_of_succ_le_succ hle)

theorem scanBlock_entry {same : Bool} (h : EntryIn fs name same s) :
    scanBlock carve fs.junk fs.sb.blockSize name (rounds + 1) s.1 s.2 = if same then some (some s.1, s.2)
      else scanBlock carve fs.junk fs.sb.blockSize name rounds (advance carve s).1 (advance carve s).2 := by
  rw [scanBlock, if_neg h.ne, if_neg (Nat.not_lt.mpr h.header), h.compared]
  cases same with
  | false => rfl
  | true => rfl

theorem scanBlock_of_passed {k : Nat} (h : ∀ j < k, EntryIn fs name false ((advance carve)^[j] s)) :
    (((advance carve)^[k] s).1 = fs.sb.blockSize →
      ∃ buf, scanBlock carve fs.junk fs.sb.blockSize name (k + 1) s.1 s.2 = some (none, buf)) ∧
    (EntryIn fs name true ((advance carve)^[k] s) →
      ∃ off buf, scanBlock carve fs.junk fs.sb.blockSize name (k + 1) s.1 s.2 = some (some off, buf)) := by
  induction k generalizing s with
  | zero =>
    rw [Function.iterate_zero, id]
    refine ⟨fun hend => ⟨s.2, ?_⟩, fun hin => ⟨s.1, s.2, scanBlock_entry hin⟩⟩
    rw [scanBlock, if_pos hend]
  | succ k ih =>
    have hin : EntryIn fs name false s := h 0 (Nat.zero_lt_succ k)
    rw [scanBlock_entry hin, Function.iterate_succ_apply]
    exact ih fun j hj => h (j + 1) (Nat.succ_lt_succ hj)

theorem passed_of_scanBlock {r : Option Nat × Mem}
    (h : scanBlock carve fs.junk fs.sb.blockSize name rounds s.1 s.2 = some r) :
    ∃ k, (∀ j < k, EntryIn fs name false ((advance carve)^[j] s)) ∧
      if r.1.isSome then EntryIn fs name true ((advance carve)^[k] s) else ((advance carve)^[k] s).1 = fs.sb.blockSize := by
  induction rounds generalizing s with
  | zero => cases h
  | succ rounds ih =>
    rw [scanBlock] at h
    split at h
    case isTrue hend =>
      obtain rfl := Option.some.inj h
      exact ⟨0, nofun, hend⟩
    case isFalse hend =>
      split at h
      case isTrue => cases h
      case isFalse hin =>
        split at h
        case h_1 => cases h
        case h_2 hsame =>
          obtain rfl := Option.some.inj h
          exact ⟨0, nofun, hend, Nat.not_lt.mp hin, hsame⟩
        case h_3 hsame =>
          obtain ⟨k, hpassed, hstop⟩ := ih (s := advance carve s) h
          refine ⟨k + 1, fun j hj => ?_, hstop⟩
          cases j with
          | zero => exact ⟨hend, Nat.not_lt.mp hin, hsame⟩
          | succ j => exact hpassed j (Nat.lt_of_succ_lt_succ hj)

theorem covered_iff : Covered carve fs name buf ↔
    ∃ rounds buf', scanBlock carve fs.junk fs.sb.blockSize name rounds 0 buf = some (none, buf') := by
  constructor
  · rintro ⟨k, hpassed, hend⟩
    exact ⟨k + 1, (scanBlock_of_passed hpassed).1 hend⟩
  · rintro ⟨rounds, buf', h⟩
    exact passed_of_scanBlock (s := (0, buf)) h

theorem named_iff : Named carve fs name buf ↔
    ∃ rounds off buf', scanBlock carve fs.junk fs.sb.blockSize name rounds 0 buf = some (some off, buf') := by
  constructor
  · rintro ⟨k, hpassed, hin⟩
    exact ⟨k + 1, (scanBlock_of_passed hpassed).2 hin⟩
  · rintro ⟨rounds, off, buf', h⟩
    exact passed_of_scanBlock (s := (0, buf)) h

/-! ## Rounds of the loop over the blocks -/

theorem scanLoop_mono (h : scanLoop carve fs inode name rounds fuel n = some r) {rounds' : Nat}
    (hle : rounds ≤ rounds') : scanLoop carve fs inode name rounds' fuel n = some r := by
  induction fuel generalizing n with
  | zero => cases h
  | succ fuel ih =>
    rw [scanLoop] at h ⊢
    split at h
    case h_1 => cases h
    case h_2 => exact h
    case h_3 =>
      split at h
      case h_1 => cases h
      case h_2 hscan =>
        rw [scanBlock_mono hscan hle]
        exact h
      case h_3 hscan =>
        rw [scanBlock_mono hscan hle]
        exact ih h

theorem scanLoop_of_cond
    (h : ∀ i < m, ∃ buf, getblock fs (n + i) inode (fun _ => 0) = some (1, buf) ∧ Covered carve fs name buf)
    (hlast : (∃ buf, getblock fs (n + m) inode (fun _ => 0) = some (0, buf)) ∨
      ∃ buf, getblock fs (n + m) inode (fun _ => 0) = some (1, buf) ∧ Named carve fs name buf) :
    ∃ rounds r, scanLoop carve fs inode name rounds (m + 1) n = some r := by
  induction m generalizing n with
  | zero =>
    rcases hlast with ⟨buf, hblock⟩ | ⟨buf, hblock, hnamed⟩
    · refine ⟨0, none, ?_⟩
      rw [scanLoop, show getblock fs n inode _ = _ from hblock]
    · obtain ⟨rounds, off, buf', hscan⟩ := named_iff.mp hnamed
      refine ⟨rounds, some (dInode buf' off), ?_⟩
      rw [scanLoop, show getblock fs n inode _ = _ from hblock]
      dsimp only
      rw [hscan]
  | succ m ih =>
    obtain ⟨buf, hblock, hcovered⟩ := h 0 (Nat.zero_lt_succ m)
    obtain ⟨rounds, buf', hscan⟩ := covered_iff.mp hcovered
    have hshift : ∀ i, n + 1 + i = n + (i + 1) := fun i => by omega
    obtain ⟨rounds', r, hloop⟩ := ih (n := n + 1) (fun i hi => hshift i ▸ h (i + 1) (Nat.succ_lt_succ hi))
      (hshift m ▸ hlast)
    refine ⟨max rounds rounds', r, ?_⟩
    rw [scanLoop, show getblock fs n inode _ = _ from hblock]
    dsimp only
    rw [scanBlock_mono hscan (Nat.le_max_left _ _)]
    exact scanLoop_mono hloop (Nat.le_max_right _ _)

theorem getblock_status {data buf : Mem} {status : Nat} (h : getblock fs n inode data = some (status + 1, buf)) : status = 0 := by
  unfold getblock at h
  obtain ⟨block, -, h⟩ := Option.map_eq_some_iff.mp h
  dsimp only at h
  split at h
  · cases h
  · rw [Prod.mk.injEq] at h
    omega

theorem cond_of_scanLoop (h : scanLoop carve fs inode name rounds fuel n = some r) :
    ∃ m, (∀ i < m, ∃ buf, getblock fs (n + i) inode (fun _ => 0) = some (1, buf) ∧ Covered carve fs name buf) ∧
      ((∃ buf, getblock fs (n + m) inode (fun _ => 0) = some (0, buf)) ∨
        ∃ buf, getblock fs (n + m) inode (fun _ => 0) = some (1, buf) ∧ Named carve fs name buf) := by
  induction fuel generalizing n with
  | zero => cases h
  | succ fuel ih =>
    rw [scanLoop] at h
    split at h
    case h_1 => cases h
    case h_2 buf hblock => exact ⟨0, nofun, .inl ⟨buf, hblock⟩⟩
    case h_3 buf hblock =>
      obtain rfl := getblock_status hblock
      split at h
      case h_1 => cases h
      case h_2 hscan => exact ⟨0, nofun, .inr ⟨buf, hblock, named_iff.mpr ⟨_, _, _, hscan⟩⟩⟩
      case h_3 hscan =>
        obtain ⟨m, hbefore, hlast⟩ := ih h
        have hshift : ∀ i, n + 1 + i = n + (i + 1) := fun i => by omega
        rw [hshift] at hlast
        refine ⟨m + 1, fun i hi => ?_, hlast⟩
        cases i with
        | zero => exact ⟨buf, hblock, covered_iff.mpr ⟨_, _, hscan⟩⟩
        | succ i => exact hshift i ▸ hbefore i (Nat.lt_of_succ_lt_succ hi)

theorem scanEnds_iff : ScanEnds carve fs pino name ↔ ScanCond carve (getinode fs pino).2 (getinode fs pino).1 name := by
  unfold ScanCond
  constructor
  · rintro ⟨rounds, fuel, h⟩
    obtain ⟨r, hr⟩ := Option.isSome_iff_exists.mp h
    simpa only [Nat.zero_add] using cond_of_scanLoop hr
  · rintro ⟨m, hbefore, hlast⟩
    obtain ⟨rounds, r, hloop⟩ := scanLoop_of_cond (n := 0) (by simpa only [Nat.zero_add] using hbefore)
      (by simpa only [Nat.zero_add] using hlast)
    exact ⟨rounds, m + 1, by rw [hloop]; rfl⟩

/-- The loops over arbitrary blocks end and stay in the buffer iff in every block the lengths lead to its end or to the name.
-/
theorem directory_scans_iff (fs : Fs) (pino : Nat) (name : List UInt8) :
    ScanEnds keepEntry fs pino name ∧ ScanEnds (carveEntry name) fs pino name ↔
      ScanCond keepEntry (getinode fs pino).2 (getinode fs pino).1 name ∧
        ScanCond (carveEntry name) (getinode fs pino).2 (getinode fs pino).1 name := by
  rw [scanEnds_iff, scanEnds_iff]

/-- The lookup does not get past an entry of length 0. -/
theorem scan_stuck : ¬ (ScanEnds keepEntry (entryFs 7 0 [98]) 12 [97] ∧
    ScanEnds (carveEntry [97]) (entryFs 7 0 [98]) 12 [97]) := by
  rintro ⟨h, -⟩
  have hstuck : ∀ rounds, scanBlock keepEntry 0 1024 [97] rounds 0 (blockAt (entryFs 7 0 [98]) 20) = none := by
    intro rounds
    induction rounds with
    | zero => rfl
    | succ rounds ih =>
      have hsame : sameName 0 1024 [97] (blockAt (entryFs 7 0 [98]) 20) 0 = some false := by decide
      have hlen : dRecLen (blockAt (entryFs 7 0 [98]) 20) 0 = 0 := by decide
      rw [scanBlock, if_neg (by decide), if_neg (by decide), hsame, hlen]
      exact ih
  have hno : getBlockNo (entryFs 7 0 [98]) (setIBlock (fun _ => 0) 0 20) 0 = some (Int.ofNat 20) := by decide
  have hblock : getblock (entryFs 7 0 [98]) 0 _ (fun _ => 0) = _ := getblock_eq hno (by decide)
  rw [if_neg (by decide)] at hblock
  obtain ⟨m, hbefore, hlast⟩ := scanEnds_iff.mp h
  rw [getinode_of_cache (show (entryFs 7 0 [98]).cache 12 = some (setIBlock (fun _ => 0) 0 20) from rfl)] at hbefore hlast
  cases m with
  | zero =>
    rcases hlast with ⟨buf, hget⟩ | ⟨buf, hget, hnamed⟩
    · cases hblock.symm.trans hget
    · obtain rfl := (Prod.mk.inj (Option.some.inj (hblock.symm.trans hget))).2
      obtain ⟨rounds, off, buf', hscan⟩ := named_iff.mp hnamed
      cases (hstuck rounds).symm.trans hscan
  | succ m =>
    obtain ⟨buf, hget, hcovered⟩ := hbefore 0 (Nat.zero_lt_succ m)
    obtain rfl := (Prod.mk.inj (Option.some.inj (hblock.symm.trans hget))).2
    obtain ⟨rounds, buf', hscan⟩ := covered_iff.mp hcovered
    cases (hstuck rounds).symm.trans hscan

end FengOS.Ext2
