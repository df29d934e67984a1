import FengOS.Disk.Transfer
import Mathlib.Tactic.SplitIfs

/-!
# What a transfer moves
-/

namespace FengOS.Disk.Bytes

open FengOS.Lib

variable {mem : Mem} {disk : Nat → UInt8} {pos buf size : Nat}

/-! ## The server's model without the bytes -/

theorem diskRead_server (s : Server) (dev : Device) (r : Request) (data : Nat → UInt8)
    (hpos : r.position = s.position) (hsize : r.size = s.size) :
    let moved := diskRead r mem (if dev.error then none else some data)
    moved.1 = (Disk.diskRead s dev).1 ∧ moved.2.1.position = (Disk.diskRead s dev).2.position ∧
      moved.2.1.size = (Disk.diskRead s dev).2.size := by
  unfold Disk.diskRead
  by_cases herr : dev.error = true
  · simp only [herr, if_true, diskRead]
    exact ⟨trivial, hpos, hsize⟩
  · simp only [herr, diskRead, hpos, hsize]
    exact ⟨rfl, rfl, rfl⟩

theorem diskWrite_server (s : Server) (dev : Device) (r : Request) (hsize : r.size = s.size) :
    (diskWrite r mem dev.error).1 = (Disk.diskWrite s dev).1 ∧
      (diskWrite r mem dev.error).2.1.size = (Disk.diskWrite s dev).2.size := by
  unfold Disk.diskWrite diskWrite
  rw [hsize]
  split_ifs <;> exact ⟨rfl, by simp [hsize]⟩

/-! ## What the drive is told -/

theorem ofNat_and_toNat (v : Nat) : (UInt8.ofNat (v &&& 0xff)).toNat = v % 2 ^ 8 := by
  rw [UInt8.toNat_ofNat', show (0xff : Nat) = 2 ^ 8 - 1 from rfl, Nat.and_two_pow_sub_one_eq_mod, Nat.mod_mod]

theorem doRequest_count (p : Ports) {n : Nat} (sector : Nat) (hpos : 0 < n) (hlt : n < 2 ^ 16) :
    (doRequest p n sector).count = n := by
  simp only [Ports.count, doRequest, Reg.outb, ofNat_and_toNat, Nat.shiftRight_eq_div_pow]
  rw [if_neg (by omega)]
  omega

theorem doRequest_lba (p : Ports) (n : Nat) {sector : Nat} (hlt : sector < 2 ^ 48) :
    (doRequest p n sector).lba = sector := by
  simp only [Ports.lba, doRequest, Reg.outb, ofNat_and_toNat, Nat.shiftRight_eq_div_pow]
  omega

theorem covering_pos : 0 < covering pos size := Nat.succ_pos _

theorem nsect_of_le (hsize : 0 < size) (hend : pos + size ≤ 2 ^ 57) : nsect pos size = covering pos size := by
  unfold nsect covering upperDiv sectorSize
  dsimp only
  split_ifs <;> omega

theorem nsect_of_aligned (hsize : 0 < size) (hpos : pos < 2 ^ 64) (haligned : pos % sectorSize = 0)
    (hcount : covering 0 size < 2 ^ 16) : nsect pos size = covering 0 size := by
  unfold covering sectorSize at hcount
  unfold sectorSize at haligned
  unfold nsect covering upperDiv sectorSize
  dsimp only
  split_ifs <;> omega

/-! ## Reads -/

theorem sectorData_offset (i : Nat) : sectorData disk (pos / sectorSize) (pos % sectorSize + i) = disk (pos + i) := by
  unfold sectorData sectorSize
  congr 1
  omega

theorem diskRead_sector (hlt : pos + size < 2 ^ 64) :
    diskRead ⟨pos, size, buf⟩ mem (some (sectorData disk (pos / sectorSize))) =
      let copysz := min (sectorSize - pos % sectorSize) size
      (if size - copysz = 0 then .done else .undone, ⟨pos + copysz, size - copysz, buf + copysz⟩,
        mem.write buf (fun i => disk (pos + i)) copysz) := by
  have hpos : (pos + min (sectorSize - pos % sectorSize) size) % 2 ^ 64 =
      pos + min (sectorSize - pos % sectorSize) size := Nat.mod_eq_of_lt (by omega)
  simp only [diskRead, sectorData_offset, hpos]

theorem readLoop_sectors (requested : Nat) {n : Nat} (hsize : 0 < size) (hlt : pos + size < 2 ^ 64)
    (hn : covering pos size = n) : readLoop requested ⟨pos, size, buf⟩ mem
        ((List.range' (pos / sectorSize) n).map fun sector => some (sectorData disk sector)) =
      some ⟨.done, mem.write buf (fun i => disk (pos + i)) size, requested, []⟩ := by
  -- by induction on the number of sectors: after one of them the rest starts at the next
  induction n generalizing pos size buf mem with
  | zero => exact absurd hn (Nat.ne_of_gt covering_pos)
  | succ n ih =>
    rw [List.range'_succ, List.map_cons, readLoop, diskRead_sector hlt]
    dsimp only
    by_cases hlast : size ≤ sectorSize - pos % sectorSize
    · have hone : n = 0 := by
        unfold covering at hn
        unfold sectorSize at hn hlast
        omega
      subst hone
      rw [Nat.min_eq_right hlast, Nat.sub_self]
      rfl
    · have hoff : pos % sectorSize < sectorSize := Nat.mod_lt _ (by decide)
      have hnext : (pos + (sectorSize - pos % sectorSize)) / sectorSize = pos / sectorSize + 1 := by
        unfold sectorSize
        omega
      have hrest : covering (pos + (sectorSize - pos % sectorSize)) (size - (sectorSize - pos % sectorSize)) = n := by
        unfold covering at hn ⊢
        unfold sectorSize at hn hlast ⊢
        omega
      have hmore : size - (sectorSize - pos % sectorSize) ≠ 0 := by omega
      rw [Nat.min_eq_left (by omega), if_neg hmore, if_pos rfl]
      have hrun := @ih (mem.write buf (fun i => disk (pos + i)) (sectorSize - pos % sectorSize))
        (pos + (sectorSize - pos % sectorSize)) (buf + (sectorSize - pos % sectorSize))
        (size - (sectorSize - pos % sectorSize)) (by omega) (by omega) hrest
      rw [hnext] at hrun
      rw [hrun]
      have happend := @Mem.write_append mem buf (sectorSize - pos % sectorSize)
        (size - (sectorSize - pos % sectorSize)) (fun i => disk (pos + i))
      rw [Nat.add_sub_of_le (by omega)] at happend
      simp only [Nat.add_assoc] at happend ⊢
      rw [happend]

/-- A read takes the interrupts of the sectors it asked for, and stores the bytes of the disk in the buffer. -/
theorem transferRead_eq (sectorPerDrq : Nat) (disk : Nat → UInt8) (p : Ports) (mem : Mem) (pos buf size : Nat)
    (hsize : 0 < size) (hend : pos + size ≤ 2 ^ 57) (hcount : covering pos size ≤ sectorPerDrq)
    (hdrq : sectorPerDrq < 2 ^ 16) :
    transferRead sectorPerDrq disk p mem pos buf size =
      some ⟨.done, mem.write buf (fun i => disk (pos + i)) size, covering pos size, []⟩ := by
  have hn := nsect_of_le hsize hend
  have hsector : pos / sectorSize < 2 ^ 48 := by
    unfold sectorSize
    omega
  unfold transferRead readIntrs
  dsimp only
  rw [hn, if_neg (by omega), doRequest_lba p _ hsector, doRequest_count p _ covering_pos (by omega)]
  exact readLoop_sectors _ hsize (by omega) rfl

theorem transferRead_two_sectors :
    covering 510 4 = 2 ∧
      transferRead 2 (fun a => UInt8.ofNat (a / 2)) default (fun _ => 0) 510 100 4 =
        some ⟨.done, Mem.write (fun _ => 0) 100 (fun i => UInt8.ofNat ((510 + i) / 2)) 4, 2, []⟩ :=
  ⟨by decide, transferRead_eq 2 _ _ _ 510 100 4 (by decide) (by decide) (by decide) (by decide)⟩

/-! ## Writes -/

theorem bytesAt_add (mem : Mem) (a n k : Nat) : bytesAt mem a (n + k) = bytesAt mem a n ++ bytesAt mem (a + n) k := by
  simp only [bytesAt, List.range_add, List.map_append, List.map_map]
  congr 2
  funext i
  simp only [Function.comp_apply, Nat.add_assoc]

def paddedSector (mem : Mem) (buf size : Nat) : Sent :=
  ⟨bytesAt mem buf (min sectorSize size) ++ List.replicate (sectorSize - min sectorSize size) 0, buf, min sectorSize size⟩

def paddedSectors (mem : Mem) (buf size : Nat) : Nat → List Sent
  | 0 => []
  | n + 1 => paddedSector mem buf size :: paddedSectors mem (buf + sectorSize) (size - sectorSize) n

theorem covering_zero_sub {n : Nat} (hlt : sectorSize < size) (hn : covering 0 size = n + 1) :
    covering 0 (size - sectorSize) = n := by
  unfold covering at hn ⊢
  unfold sectorSize at hlt hn ⊢
  omega

theorem covering_zero_le (hle : size ≤ sectorSize) (hpos : 0 < size) : covering 0 size = 1 := by
  unfold covering
  unfold sectorSize at hle ⊢
  omega

theorem diskWrite_next (hlt : sectorSize < size) : diskWrite ⟨pos, size, buf⟩ mem false =
      (.undone, ⟨pos, size - sectorSize, buf + sectorSize⟩,
        some (paddedSector mem (buf + sectorSize) (size - sectorSize))) := by
  have hcopy : (if sectorSize < size - sectorSize then sectorSize else size - sectorSize) =
      min sectorSize (size - sectorSize) := by
    split_ifs <;> omega
  simp only [diskWrite, hlt, Bool.false_eq_true, if_true, if_false, hcopy, paddedSector]

theorem diskWrite_last (hle : size ≤ sectorSize) :
    diskWrite ⟨pos, size, buf⟩ mem false = (.done, ⟨pos, size, buf⟩, none) := by
  simp only [diskWrite, Nat.not_lt.mpr hle, Bool.false_eq_true, if_false]

theorem writeLoop_sectors (requested : Nat) {n : Nat} (sent : List Sent) (hsize : 0 < size) (hn : covering 0 size = n + 1) :
    writeLoop requested mem ⟨pos, size, buf⟩ sent (List.replicate (n + 1) false) =
      some ⟨.done, sent ++ paddedSectors mem (buf + sectorSize) (size - sectorSize) n, requested, []⟩ := by
  induction n generalizing size buf sent with
  | zero =>
    have hle : size ≤ sectorSize := by
      unfold covering at hn
      unfold sectorSize at hn ⊢
      omega
    simp [writeLoop, List.replicate, diskWrite_last hle, paddedSectors]
  | succ n ih =>
    have hlt : sectorSize < size := by
      unfold covering at hn
      unfold sectorSize at hn ⊢
      omega
    rw [List.replicate_succ, writeLoop, diskWrite_next hlt]
    simp only [if_true, Option.toList_some]
    rw [ih _ (by omega) (covering_zero_sub hlt hn), List.append_assoc]
    rfl

theorem firstSector_of_le (h : sectorSize ≤ size) : firstSector mem buf = paddedSector mem buf size := by
  rw [firstSector, paddedSector, Nat.min_eq_left h, Nat.sub_self, List.replicate_zero, List.append_nil]

theorem paddedSectors_length (n : Nat) : (paddedSectors mem buf size n).length = n := by
  induction n generalizing buf size with
  | zero => rfl
  | succ n ih => rw [paddedSectors, List.length_cons, ih]

theorem paddedSectors_data {n : Nat} (hsize : 0 < size) (hn : covering 0 size = n) :
    ((paddedSectors mem buf size n).map Sent.data).flatten =
      bytesAt mem buf size ++ List.replicate (n * sectorSize - size) 0 := by
  induction n generalizing buf size with
  | zero => exact absurd hn (Nat.ne_of_gt covering_pos)
  | succ n ih =>
    rw [paddedSectors, List.map_cons, List.flatten_cons, paddedSector]
    rcases Nat.lt_or_ge sectorSize size with hlt | hle
    · have hpad : n * sectorSize - (size - sectorSize) = (n + 1) * sectorSize - size := by
        rw [Nat.succ_mul]
        omega
      rw [ih (by omega) (covering_zero_sub hlt hn), Nat.min_eq_left (by omega), Nat.sub_self, List.replicate_zero,
        List.append_nil, ← List.append_assoc, ← bytesAt_add, Nat.add_sub_of_le (by omega), hpad]
    · have hzero : n = 0 := by
        have := covering_zero_le hle hsize
        omega
      subst hzero
      rw [Nat.min_eq_right hle, Nat.zero_add, Nat.one_mul]
      exact List.append_nil _

theorem paddedSectors_reads {n a : Nat} {s : Sent} (hs : s ∈ paddedSectors mem buf size n) (hstart : s.start ≤ a)
    (hend : a < s.start + s.length) : buf ≤ a ∧ a < buf + size := by
  induction n generalizing buf size with
  | zero => exact absurd hs (List.not_mem_nil)
  | succ n ih =>
    rcases List.mem_cons.mp hs with rfl | hs
    · unfold paddedSector at hstart hend
      dsimp only at hstart hend
      omega
    · have := ih hs
      omega

theorem transferWrite_eq (sectorPerDrq : Nat) (p : Ports) (mem : Mem) (pos buf size : Nat) (hpos : pos < 2 ^ 64)
    (haligned : pos % sectorSize = 0) (hsize : 0 < size) (hcount : covering 0 size ≤ sectorPerDrq)
    (hdrq : sectorPerDrq < 2 ^ 16) : transferWrite sectorPerDrq p mem pos buf size =
      some ⟨.done, firstSector mem buf :: paddedSectors mem (buf + sectorSize) (size - sectorSize) (covering 0 size - 1),
        covering 0 size, []⟩ := by
  have hn := nsect_of_aligned hsize hpos haligned (by omega)
  have hsucc : covering 0 size - 1 + 1 = covering 0 size := Nat.sub_add_cancel covering_pos
  have hloop := @writeLoop_sectors mem pos buf size (covering 0 size) _ [firstSector mem buf] hsize hsucc.symm
  rw [hsucc] at hloop
  unfold transferWrite
  dsimp only
  rw [if_neg (fun h => h haligned), hn, if_neg (by omega), doRequest_count p _ covering_pos (by omega), hloop]
  rfl

/-- A write sends the padded buffer exactly if the buffer has a whole sector. -/
theorem sendsPadded_iff (sectorPerDrq : Nat) (p : Ports) (mem : Mem) (pos buf size : Nat) (hpos : pos < 2 ^ 64)
    (haligned : pos % sectorSize = 0) (hsize : 0 < size) (hcount : covering 0 size ≤ sectorPerDrq)
    (hdrq : sectorPerDrq < 2 ^ 16) :
    (∃ w, transferWrite sectorPerDrq p mem pos buf size = some w ∧ SendsPadded mem buf size w) ↔ sectorSize ≤ size := by
  rw [transferWrite_eq sectorPerDrq p mem pos buf size hpos haligned hsize hcount hdrq]
  constructor
  · rintro ⟨w, hw, hpadded⟩
    obtain rfl := Option.some.inj hw
    -- the last byte of the first sector is read from the buffer
    have hlast := hpadded.reads _ List.mem_cons_self (buf + (sectorSize - 1))
    have hread := hlast (by simp [firstSector]) (by simp [firstSector, sectorSize])
    unfold sectorSize at hread ⊢
    omega
  · intro hle
    have hall : firstSector mem buf :: paddedSectors mem (buf + sectorSize) (size - sectorSize) (covering 0 size - 1) =
        paddedSectors mem buf size (covering 0 size) := by
      obtain ⟨n, hn⟩ : ∃ n, covering 0 size = n + 1 := ⟨_, rfl⟩
      rw [firstSector_of_le hle, hn, Nat.add_sub_cancel, paddedSectors]
    refine ⟨_, rfl, ?_⟩
    rw [hall]
    exact ⟨paddedSectors_data hsize rfl, fun s hs a hstart hend => paddedSectors_reads hs hstart hend,
      paddedSectors_length _⟩

theorem sendsPadded_two_sectors :
    covering 0 513 = 2 ∧ ∃ w, transferWrite 2 default (fun _ => 7) 1024 100 513 = some w ∧
      SendsPadded (fun _ => 7) 100 513 w :=
  ⟨by decide, (sendsPadded_iff 2 default (fun _ => 7) 1024 100 513 (by decide) (by decide) (by decide) (by decide)
    (by decide)).mpr (by decide)⟩

/-- One byte alone is sent with the 511 bytes behind the buffer. -/
theorem one_byte_not_padded :
    transferWrite 1 default (fun _ => 7) 1024 100 1 = some ⟨.done, [⟨List.replicate 512 7, 100, 512⟩], 1, []⟩ ∧
      ¬ ∃ w, transferWrite 1 default (fun _ => 7) 1024 100 1 = some w ∧ SendsPadded (fun _ => 7) 100 1 w := by
  have heq : transferWrite 1 default (fun _ => 7) 1024 100 1 =
      some ⟨.done, [⟨List.replicate 512 7, 100, 512⟩], 1, []⟩ := by
    rw [transferWrite_eq 1 default _ 1024 100 1 (by decide) (by decide) (by decide) (by decide) (by decide), firstSector,
      bytesAt, List.map_const', List.length_range]
    rfl
  refine ⟨heq, ?_⟩
  rintro ⟨w, hw, hpadded⟩
  obtain rfl := Option.some.inj (heq.symm.trans hw)
  have := hpadded.reads _ List.mem_cons_self 101 (by decide) (by decide)
  omega

end FengOS.Disk.Bytes
