import FengOS.Fat32.Read
import FengOS.Libc.Strings
import Mathlib.Tactic.Ring

/-!
# Looking up a name in a directory (`fs/fat32/fat32.c`)

There is no result if an entry before the buffer of the cluster is read, or if a name does not fit into `tmp`.
-/

namespace FengOS.Fat32

open FengOS.Lib FengOS.Libc

/-- The entry at `k` is part of a long name. -/
def isLong (buf : Mem) (k : Nat) : Bool := buf (32 * k + 11) == 0x0f && buf (32 * k) != 0xe5

def isUsed (buf : Mem) (k : Nat) : Bool :=
  buf (32 * k + 11) != 0x0f && buf (32 * k) != 0xe5 && buf (32 * k) != 0 && buf (32 * k) != 5

def pieces (buf : Mem) (k : Nat) : List Nat :=
  [1, 3, 5, 7, 9, 14, 16, 18, 20, 22, 24, 28, 30].map fun o => buf.load (32 * k + o) 2

/-- The first loop of `getname`. It compares `de`, not `lde`, with the beginning of the buffer. -/
def longName (buf : Mem) : Nat → Option (List Nat)
  | 0 => none
  | k + 1 => if isLong buf k then (longName buf k).map (pieces buf k ++ ·) else some []

def copyName : List Nat → List UInt8
  | [] => []
  | u :: tmp => if UInt8.ofNat u = 0 then [0] else UInt8.ofNat u :: copyName tmp

def getname (buf : Mem) (k : Nat) : Option (List UInt8) :=
  (longName buf k).bind fun tmp => if 512 < tmp.length then none else some (copyName tmp)

def matchName (name : CStr) (buf : Mem) (k : Nat) : Option Bool :=
  (getname buf k).map fun tmp => 0 < tmp.length && (strncmp 0 (tmp.getD · 0) name.bytes tmp.length).1 == 0

def examine (name : CStr) (buf : Mem) (k : Nat) : Option Bool := if isUsed buf k then matchName name buf k else some false

/-- The first of `left` entries from `k` on that the body takes. -/
def scan (body : Nat → Option Bool) : Nat → Nat → Option (Option Nat)
  | _, 0 => some none
  | k, left + 1 => (body k).bind fun hit => if hit then some (some k) else scan body (k + 1) left

def Superblock.entries (sb : Superblock) : Nat := 16 * sb.sectorPerClus

/-- The buffer after `storage_read` of a cluster. Here `clus` is an `unsigned int`, and so is the product. -/
def readDirClus (sb : Superblock) (disk : Mem) (clus : Nat) : Mem := fun i =>
  disk (512 * ((sb.dataFirstSector + (clus + 2 ^ 32 - 2) * sb.sectorPerClus % 2 ^ 32) % 2 ^ 64) + i)

/-- The loop over the clusters: the cluster and the number of the entry that is found. -/
def lookupLoop (sb : Superblock) (disk : Mem) (name : CStr) : Nat → Nat → Option (Option (Nat × Nat))
  | 0, _ => none
  | rounds + 1, clus =>
    (scan (examine name (readDirClus sb disk clus)) 0 sb.entries).bind fun
      | some k => some (some (clus, k))
      | none => if getnextclus sb disk clus < 0x0ffffff7 then lookupLoop sb disk name rounds (getnextclus sb disk clus)
        else some none

/-- The entry that is found, with its first cluster and its size. -/
structure Found where
  clus : Nat
  k : Nat
  inode : Nat
  fsize : Nat
  deriving DecidableEq

def firstClus (buf : Mem) (k : Nat) : Nat := buf.load (32 * k + 20) 2 * 2 ^ 16 + buf.load (32 * k + 26) 2

def fileSize (buf : Mem) (k : Nat) : Nat := buf.load (32 * k + 28) 4

def fat32Lookup (sb : Superblock) (disk : Mem) (rounds : Nat) (name : CStr) (pread : Nat) : Option (Int × Option Found) :=
  (lookupLoop sb disk name rounds (pread % 2 ^ 32)).map fun
    | some (clus, k) => (0, some ⟨clus, k, firstClus (readDirClus sb disk clus) k, fileSize (readDirClus sb disk clus) k⟩)
    | none => (-1, none)

/-! ## What it should do

The entries of a directory are those of all its clusters. -/

/-- How many parts of a long name stand directly before an entry, and their characters. -/
def runLength (dir : Mem) : Nat → Nat
  | 0 => 0
  | e + 1 => if isLong dir e then runLength dir e + 1 else 0

def run (dir : Mem) : Nat → List Nat
  | 0 => []
  | e + 1 => if isLong dir e then pieces dir e ++ run dir e else []

/-- The characters, up to a NUL if there is one, are those of the name. -/
def Named (name : CStr) (us : List Nat) : Prop :=
  us ≠ [] ∧ us.takeWhile (· ≠ 0) = (List.range name.len).map fun i => (name.bytes i).toNat

/-- The low bytes of the characters, up to a NUL if there is one, are the first of the name and its NUL. -/
def Looks (name : CStr) (us : List Nat) : Prop :=
  0 < (copyName us).length ∧ ∀ i < (copyName us).length, (copyName us).getD i 0 = name.bytes i

instance {name : CStr} {us : List Nat} : Decidable (Looks name us) := inferInstanceAs (Decidable (_ ∧ _))

def Hit (name : CStr) (dir : Mem) (e : Nat) : Prop := isUsed dir e = true ∧ Named name (run dir e)

/-- The chain has `n` clusters. -/
def ChainEnds (sb : Superblock) (disk : Mem) (first n : Nat) : Prop :=
  0 < n ∧ 0x0ffffff7 ≤ (getnextclus sb disk)^[n] first ∧ ∀ j, 0 < j → j < n → (getnextclus sb disk)^[j] first < 0x0ffffff7

/-- An entry with the name is found, or there is none. -/
def LookupRight (sb : Superblock) (disk : Mem) (name : CStr) (first n : Nat) : Prop :=
  let dir := chainBytes sb disk first
  (∃ j < n, ∃ k < sb.entries, Hit name dir (j * sb.entries + k) ∧ fat32Lookup sb disk n name first =
      some (0, some ⟨(getnextclus sb disk)^[j] (first % 2 ^ 32), k,
        firstClus dir (j * sb.entries + k), fileSize dir (j * sb.entries + k)⟩)) ∨
    fat32Lookup sb disk n name first = some (-1, none) ∧ ∀ e < n * sb.entries, ¬ Hit name dir e

/-- What is read of a directory; it is the directory if no product is cut to an `unsigned int`. -/
def readBytes (sb : Superblock) (disk : Mem) (first : Nat) : Mem := fun x =>
  readDirClus sb disk ((getnextclus sb disk)^[x / sb.bytesPerClus] (first % 2 ^ 32)) (x % sb.bytesPerClus)

def LooksUsed (name : CStr) (buf : Mem) (e : Nat) : Prop := isUsed buf e = true ∧ Looks name (run buf e)

instance {name : CStr} {buf : Mem} {e : Nat} : Decidable (LooksUsed name buf e) := inferInstanceAs (Decidable (_ ∧ _))

/-- Up to the first entry that looks like the name, long names begin in the cluster and have at most 39 parts; that entry has
the name in the directory, and if there is none then no entry has. -/
structure Clear (sb : Superblock) (disk : Mem) (name : CStr) (first n : Nat) : Prop where
  fits : ∀ e < n * sb.entries, (∀ e' < e, ¬ LooksUsed name (readBytes sb disk first) e') →
    isUsed (readBytes sb disk first) e = true →
      runLength (readBytes sb disk first) e < e % sb.entries ∧ runLength (readBytes sb disk first) e ≤ 39
  found : ∀ e < n * sb.entries, (∀ e' < e, ¬ LooksUsed name (readBytes sb disk first) e') →
    LooksUsed name (readBytes sb disk first) e → Hit name (chainBytes sb disk first) e ∧
      firstClus (readBytes sb disk first) e = firstClus (chainBytes sb disk first) e ∧
      fileSize (readBytes sb disk first) e = fileSize (chainBytes sb disk first) e
  missing : (∀ e < n * sb.entries, ¬ LooksUsed name (readBytes sb disk first) e) →
    ∀ e < n * sb.entries, ¬ Hit name (chainBytes sb disk first) e

variable {sb : Superblock} {disk buf dir : Mem} {name : CStr} {first n j k e b rounds left : Nat}

/-! ## Entries -/

/-- The entry at `k` of the buffer is the entry `e` of the directory. -/
def SameEntry (buf : Mem) (k : Nat) (dir : Mem) (e : Nat) : Prop := ∀ o < 32, buf (32 * k + o) = dir (32 * e + o)

theorem SameEntry.load (h : SameEntry buf k dir e) {o m : Nat} (hm : o + m ≤ 32) :
    buf.load (32 * k + o) m = dir.load (32 * e + o) m := by
  induction m generalizing o with
  | zero => rfl
  | succ m ih => simp only [Mem.load, h o (by omega), Nat.add_assoc, ih (o := o + 1) (by omega)]

theorem SameEntry.isLong (h : SameEntry buf k dir e) : isLong buf k = isLong dir e := by
  have hord : buf (32 * k) = dir (32 * e) := h 0 (by decide)
  simp only [Fat32.isLong, h 11 (by decide), hord]

theorem SameEntry.isUsed (h : SameEntry buf k dir e) : isUsed buf k = isUsed dir e := by
  have hname : buf (32 * k) = dir (32 * e) := h 0 (by decide)
  simp only [Fat32.isUsed, h 11 (by decide), hname]

theorem SameEntry.pieces (h : SameEntry buf k dir e) : pieces buf k = pieces dir e :=
  List.map_congr_left fun o ho => h.load (by
    have hle : ∀ o ∈ [1, 3, 5, 7, 9, 14, 16, 18, 20, 22, 24, 28, 30], o + 2 ≤ 32 := by decide
    exact hle o ho)

theorem run_length : (run dir e).length = 13 * runLength dir e := by
  induction e with
  | zero => rfl
  | succ e ih =>
    rw [run, runLength]
    split
    · rw [List.length_append, ih]
      simp [pieces]
      omega
    · rfl

theorem longName_eq (h : ∀ i < k, SameEntry buf i dir (b + i)) :
    longName buf k = if runLength dir (b + k) < k then some (run dir (b + k)) else none := by
  induction k with
  | zero => simp [longName]
  | succ k ih =>
    have hk := h k (Nat.lt_succ_self k)
    rw [longName, ih fun i hi => h i (by omega), hk.isLong, hk.pieces, ← Nat.add_assoc, runLength, run]
    cases hlong : isLong dir (b + k) with
    | false => simp
    | true =>
      simp only [if_true, Nat.add_lt_add_iff_right]
      split <;> rfl

/-! ## The loops -/

theorem scan_spec (body : Nat → Option Bool) (k left : Nat) :
    match scan body k left with
    | none => ∃ i < left, body (k + i) = none ∧ ∀ i' < i, body (k + i') = some false
    | some none => ∀ i < left, body (k + i) = some false
    | some (some r) => ∃ i < left, r = k + i ∧ body (k + i) = some true ∧ ∀ i' < i, body (k + i') = some false := by
  induction left generalizing k with
  | zero => simp [scan]
  | succ left ih =>
    rw [scan]
    cases hbody : body k with
    | none => exact ⟨0, by omega, hbody, fun _ h => by omega⟩
    | some hit =>
      cases hit with
      | true => exact ⟨0, by omega, rfl, hbody, fun _ h => by omega⟩
      | false =>
        have hcons : ∀ m, (∀ i < m, body (k + 1 + i) = some false) → ∀ i < m + 1, body (k + i) = some false := by
          intro m hm i hi
          cases i with
          | zero => exact hbody
          | succ i => simpa [Nat.add_assoc, Nat.add_comm 1] using hm i (by omega)
        have ih := ih (k + 1)
        simp only [Option.bind_some, Bool.false_eq_true, if_false]
        cases hscan : scan body (k + 1) left with
        | none =>
          rw [hscan] at ih
          obtain ⟨i, hi, hnone, hbefore⟩ := ih
          exact ⟨i + 1, by omega, by rwa [Nat.add_comm i, ← Nat.add_assoc], hcons i hbefore⟩
        | some r =>
          rw [hscan] at ih
          cases r with
          | none => exact hcons left ih
          | some r =>
            obtain ⟨i, hi, rfl, htrue, hbefore⟩ := ih
            exact ⟨i + 1, by omega, by omega, by rwa [Nat.add_comm i, ← Nat.add_assoc], hcons i hbefore⟩

/-- What the body does at an entry of the directory. -/
def exam (sb : Superblock) (name : CStr) (dir : Mem) (e : Nat) : Option Bool :=
  if isUsed dir e then
    if runLength dir e < e % sb.entries ∧ runLength dir e ≤ 39 then some (decide (Looks name (run dir e))) else none
  else some false

theorem readBytes_apply {o : Nat} (h : o < sb.bytesPerClus) : readBytes sb disk first (j * sb.bytesPerClus + o) =
    readDirClus sb disk ((getnextclus sb disk)^[j] (first % 2 ^ 32)) o := by
  rw [readBytes, Nat.mul_comm, Nat.mul_add_div sb.bytesPerClus_pos, Nat.div_eq_of_lt h, Nat.mul_add_mod, Nat.mod_eq_of_lt h,
    Nat.add_zero]

theorem sameEntry_readDirClus (hk : k < sb.entries) :
    SameEntry (readDirClus sb disk ((getnextclus sb disk)^[j] (first % 2 ^ 32))) k (readBytes sb disk first) (j * sb.entries + k) := by
  intro o ho
  unfold Superblock.entries at *
  rw [← readBytes_apply (by unfold Superblock.bytesPerClus; omega)]
  congr 1
  unfold Superblock.bytesPerClus
  ring

theorem examine_eq (hk : k < sb.entries) : examine name (readDirClus sb disk ((getnextclus sb disk)^[j] (first % 2 ^ 32))) k =
      exam sb name (readBytes sb disk first) (j * sb.entries + k) := by
  have hmod : (j * sb.entries + k) % sb.entries = k := by rw [Nat.mul_comm, Nat.mul_add_mod, Nat.mod_eq_of_lt hk]
  rw [examine, exam, (sameEntry_readDirClus hk).isUsed, hmod, matchName, getname,
    longName_eq fun i hi => sameEntry_readDirClus (lt_trans hi hk)]
  refine if_congr Iff.rfl ?_ rfl
  by_cases hrun : runLength (readBytes sb disk first) (j * sb.entries + k) < k
  · simp only [hrun, if_true, Option.bind_some, true_and, run_length]
    by_cases hfits : runLength (readBytes sb disk first) (j * sb.entries + k) ≤ 39
    · rw [if_neg (by omega), if_pos hfits, Option.map_some]
      congr 1
      rw [Bool.eq_iff_iff]
      by_cases hpos : 0 < (copyName (run (readBytes sb disk first) (j * sb.entries + k))).length
      · simp only [hpos, decide_true, Bool.true_and, beq_iff_eq, strncmp_eq_zero_iff hpos, Looks, true_and, decide_eq_true_eq]
      · simp [hpos, Looks]
    · rw [if_pos (by omega), if_neg hfits, Option.map_none]
  · simp [hrun]

theorem lookupLoop_spec (hchain : ChainEnds sb disk (first % 2 ^ 32) n) (hj : j + rounds = n) (hlt : 0 < rounds) :
    match lookupLoop sb disk name rounds ((getnextclus sb disk)^[j] (first % 2 ^ 32)) with
    | none => ∃ e < n * sb.entries, exam sb name (readBytes sb disk first) e = none ∧
        ∀ e', j * sb.entries ≤ e' → e' < e → exam sb name (readBytes sb disk first) e' = some false
    | some none => ∀ e, j * sb.entries ≤ e → e < n * sb.entries → exam sb name (readBytes sb disk first) e = some false
    | some (some (clus, k)) => ∃ q < n, k < sb.entries ∧ clus = (getnextclus sb disk)^[q] (first % 2 ^ 32) ∧
        exam sb name (readBytes sb disk first) (q * sb.entries + k) = some true ∧
        ∀ e', j * sb.entries ≤ e' → e' < q * sb.entries + k → exam sb name (readBytes sb disk first) e' = some false := by
  induction rounds generalizing j with
  | zero => omega
  | succ rounds ih =>
    have hscan := scan_spec (examine name (readDirClus sb disk ((getnextclus sb disk)^[j] (first % 2 ^ 32)))) 0 sb.entries
    have hle : (j + 1) * sb.entries ≤ n * sb.entries := Nat.mul_le_mul_right _ (by omega)
    rw [Nat.succ_mul] at hle
    have hbefore : ∀ i ≤ sb.entries, (∀ i' < i, examine name (readDirClus sb disk ((getnextclus sb disk)^[j] (first % 2 ^ 32))) (0 + i') =
        some false) → ∀ e', j * sb.entries ≤ e' → e' < j * sb.entries + i →
          exam sb name (readBytes sb disk first) e' = some false := by
      intro i hi h e' hge hlt
      obtain ⟨i', rfl⟩ := Nat.exists_eq_add_of_le hge
      rw [← examine_eq (by omega), ← Nat.zero_add i']
      exact h i' (by omega)
    rw [lookupLoop]
    cases hr : scan (examine name (readDirClus sb disk ((getnextclus sb disk)^[j] (first % 2 ^ 32)))) 0 sb.entries with
    | none =>
      rw [hr] at hscan
      obtain ⟨i, hi, hnone, hfalse⟩ := hscan
      rw [Nat.zero_add, examine_eq hi] at hnone
      exact ⟨j * sb.entries + i, by omega, hnone, hbefore i hi.le hfalse⟩
    | some r =>
      rw [hr] at hscan
      cases r with
      | some k =>
        obtain ⟨i, hi, rfl, htrue, hfalse⟩ := hscan
        rw [Nat.zero_add] at htrue ⊢
        rw [examine_eq hi] at htrue
        exact ⟨j, by omega, hi, rfl, htrue, hbefore i hi.le hfalse⟩
      | none =>
        have hcluster := hbefore sb.entries le_rfl hscan
        simp only [Option.bind_some, ← Function.iterate_succ_apply' (getnextclus sb disk)]
        rcases Nat.eq_zero_or_pos rounds with rfl | hpos
        · obtain rfl : j + 1 = n := hj
          rw [if_neg (not_lt.mpr hchain.2.1)]
          intro e hge hlt
          rw [Nat.succ_mul] at hlt
          exact hcluster e hge hlt
        · rw [if_pos (hchain.2.2 (j + 1) (by omega) (by omega))]
          have ih := ih (j := j + 1) (by omega) hpos
          have hjoin : ∀ m, (∀ e', (j + 1) * sb.entries ≤ e' → e' < m → exam sb name (readBytes sb disk first) e' =
              some false) → ∀ e', j * sb.entries ≤ e' → e' < m → exam sb name (readBytes sb disk first) e' = some false := by
            intro m h e' hge hlt
            rcases Nat.lt_or_ge e' (j * sb.entries + sb.entries) with hin | hout
            · exact hcluster e' hge hin
            · exact h e' (by rwa [Nat.succ_mul]) hlt
          cases hloop : lookupLoop sb disk name rounds ((getnextclus sb disk)^[j + 1] (first % 2 ^ 32)) with
          | none =>
            rw [hloop] at ih
            obtain ⟨e, he, hnone, hfalse⟩ := ih
            exact ⟨e, he, hnone, hjoin e hfalse⟩
          | some r =>
            rw [hloop] at ih
            cases r with
            | none => exact hjoin _ ih
            | some r =>
              obtain ⟨q, hq, hk, hclus, htrue, hfalse⟩ := ih
              exact ⟨q, hq, hk, hclus, htrue, hjoin _ hfalse⟩

theorem exam_eq_some {hit : Bool} (h : exam sb name dir e = some hit) (hused : isUsed dir e = true) :
    runLength dir e < e % sb.entries ∧ runLength dir e ≤ 39 ∧ (Looks name (run dir e) ↔ hit = true) := by
  rw [exam, if_pos hused] at h
  split at h
  · rename_i hfits
    obtain rfl := Option.some.inj h
    exact ⟨hfits.1, hfits.2, decide_eq_true_iff.symm⟩
  · cases h

theorem looksUsed_iff {hit : Bool} (h : exam sb name dir e = some hit) : LooksUsed name dir e ↔ hit = true := by
  by_cases hused : isUsed dir e = true
  · exact (and_iff_right hused).trans (exam_eq_some h hused).2.2
  · obtain rfl : false = hit := by simpa [exam, hused] using h
    simp [LooksUsed, hused]

theorem getnextclus_mod : getnextclus sb disk (k % 2 ^ 32) = getnextclus sb disk k := by
  rw [getnextclus, Nat.mod_mod, Nat.mod_mod_of_dvd k (by decide : 128 ∣ 2 ^ 32), getnextclus]

theorem ChainEnds.mod (hchain : ChainEnds sb disk first n) : ChainEnds sb disk (first % 2 ^ 32) n := by
  have hiter : ∀ j, 0 < j → (getnextclus sb disk)^[j] (first % 2 ^ 32) = (getnextclus sb disk)^[j] first := by
    intro j hj
    obtain ⟨j, rfl⟩ := Nat.exists_eq_add_of_lt hj
    rw [Nat.zero_add, Function.iterate_succ_apply, Function.iterate_succ_apply, getnextclus_mod]
  exact ⟨hchain.1, hiter n hchain.1 ▸ hchain.2.1, fun j hj hlt => hiter j hj ▸ hchain.2.2 j hj hlt⟩

/-- In a directory below the first `2 ^ 32` sectors of the data the bytes of its clusters are read. -/
theorem readBytes_eq {x : Nat} (hfirst : first < 2 ^ 32) (hclus : ∀ j < n, 2 ≤ (getnextclus sb disk)^[j] first ∧
      ((getnextclus sb disk)^[j] first - 2) * sb.sectorPerClus < 2 ^ 32) (hx : x < n * sb.bytesPerClus) :
    readBytes sb disk first x = chainBytes sb disk first x := by
  obtain ⟨hge, hlt⟩ := hclus (x / sb.bytesPerClus) ((Nat.div_lt_iff_lt_mul sb.bytesPerClus_pos).mpr hx)
  rw [readBytes, chainBytes, Nat.mod_eq_of_lt hfirst, readDirClus, readClus]
  obtain ⟨c, hc⟩ := Nat.exists_eq_add_of_le hge
  rw [hc, Nat.add_sub_cancel_left] at hlt
  rw [hc, show 2 + c + 2 ^ 32 - 2 = c + 2 ^ 32 by omega, show 2 + c + 2 ^ 64 - 2 = c + 2 ^ 64 by omega, Nat.add_mul,
    Nat.add_mul, Nat.add_mul_mod_self_left, Nat.mod_eq_of_lt hlt, ← Nat.add_assoc, Nat.add_mul_mod_self_left]

/-- No cluster comes twice in a chain that ends. -/
theorem ChainEnds.inj (hchain : ChainEnds sb disk first n) {q : Nat} (hj : j < n) (hq : q < n)
    (h : (getnextclus sb disk)^[j] first = (getnextclus sb disk)^[q] first) : j = q := by
  have hlt : ∀ a b, a < b → b < n → (getnextclus sb disk)^[a] first ≠ (getnextclus sb disk)^[b] first := by
    intro a b hab hb heq
    have hend := hchain.2.1
    rw [← Nat.sub_add_cancel hb.le, Function.iterate_add_apply, ← heq, ← Function.iterate_add_apply] at hend
    exact absurd (hchain.2.2 (n - b + a) (by omega) (by omega)) (not_lt.mpr hend)
  rcases lt_trichotomy j q with hjq | hjq | hjq
  · exact absurd h (hlt j q hjq hq)
  · exact hjq
  · exact absurd h.symm (hlt q j hjq hj)

/-- A volume whose root directory is cluster 2 with these bytes. -/
def smallDisk (root : Mem) : Mem := fun i => if 512 ≤ i then root (i - 512) else if 8 ≤ i ∧ i < 12 then 255 else 0

theorem smallDisk_chainEnds (root : Mem) : ChainEnds ⟨1, 1, 0, by decide⟩ (smallDisk root) 2 1 :=
  ⟨by decide, by simp [getnextclus, Mem.load, smallDisk], fun j h h' => by omega⟩

/-- The name `aaaaaaaaaaaaaa`, with 14 characters. -/
def longA : CStr where
  bytes i := if i < 14 then 97 else 0
  len := 14
  nul := rfl
  ne_zero i hi := by simp [hi]
  len_lt := by decide

/-- The name `abc`. -/
def abc : CStr where
  bytes i := [97, 98, 99].getD i 0
  len := 3
  nul := rfl
  ne_zero := by decide
  len_lt := by decide

/-- A part with `abc`, and its entry with the first cluster 5 and the size 9. -/
def abcDir : Mem := fun i => [(32, 65), (33, 97), (35, 98), (37, 99), (43, 15), (64, 65), (90, 5), (92, 9)].lookup i |>.getD 0

end FengOS.Fat32
