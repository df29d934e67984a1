import FengOS.Vfs.Replies

/-!
# The position of an open file (`vfs_lseek`, `vfs_read` and `vfs_write`, and `lseek` in `libc/syscall.c`)

Here a position is a `long long`. A step has no result if a signed sum overflows.
-/

namespace FengOS.Vfs

open FengOS.Lib

/-- The value of a number that is converted to a `long`. -/
def toLong (x : Int) : Int := (x + 2 ^ 63) % 2 ^ 64 - 2 ^ 63

def IsLong (x : Int) : Prop := -2 ^ 63 ≤ x ∧ x < 2 ^ 63

instance : DecidablePred IsLong := fun _ => inferInstanceAs (Decidable (_ ∧ _))

def addLong (x y : Int) : Option Int := if IsLong (x + y) then some (x + y) else none

/-- The result of `vfs_lseek` and the position after it; the second sum of `SEEK_END` is unsigned. -/
def seek (size : Nat) (pos offset whence : Int) : Option (Int × Int) :=
  match whence with
  | 0 => some (if offset < 0 then (-1, pos) else (offset, offset))
  | 1 => (addLong pos offset).map fun p => if p < 0 then (-1, pos) else (p, p)
  | 2 => (addLong (toLong size) offset).map fun p =>
    if p < 0 then (-1, pos) else (toLong (size + offset), toLong (size + offset))
  | _ => some (-1, pos)

/-- A call of the process, with the answer of the server to a `read` or a `write`. -/
inductive PosCall where
  | lseek (offset whence : Int)
  | transfer (retval : Int)

/-- The position after a call, and what it returns. `_syscall` returns an `int`. -/
def PosCall.run (size : Nat) (pos : Int) : PosCall → Option (Int × Int)
  | .lseek offset whence => (seek size pos offset whence).map fun r => (toInt r.1, r.2)
  | .transfer retval => if 0 < retval then (addLong pos retval).map fun p => (toInt retval, p) else some (toInt retval, pos)

def posStep (size : Nat) (pos : Int) (call : PosCall) : Option Int := (call.run size pos).map Prod.snd

/-- A call returns and makes no position negative; `lseek` returns the new position, and -1 only if it is the old. -/
def PosCall.Right (size : Nat) (pos : Int) (call : PosCall) : Prop :=
  ∃ r p, call.run size pos = some (r, p) ∧ 0 ≤ p ∧ ∀ offset whence, call = .lseek offset whence →
    (r = -1 → p = pos) ∧ (seek size pos offset whence = some (p, p) → r = p)

def target (size : Nat) (pos offset whence : Int) : Option Int :=
  match whence with
  | 0 => some offset
  | 1 => some (pos + offset)
  | 2 => some (toLong size + offset)
  | _ => none

/-- The position asked for is an `int` or negative; a transfer does not go behind the last one. -/
def PosCall.InRange (size : Nat) (pos : Int) : PosCall → Prop
  | .lseek offset whence => ∀ p ∈ target size pos offset whence, -2 ^ 63 ≤ p ∧ p < 2 ^ 31
  | .transfer retval => pos + retval < 2 ^ 63

def PosCall.Typed : PosCall → Prop
  | .lseek offset _ => IsLong offset
  | .transfer retval => IsLong retval

variable {size : Nat} {pos offset whence p : Int}

theorem addLong_eq_some_iff {x y : Int} : addLong x y = some p ↔ p = x + y ∧ IsLong (x + y) := by
  unfold addLong
  split
  · simp_all [eq_comm]
  · simp_all

/-- The unsigned sum of `SEEK_END` is the signed one. -/
theorem toLong_add (hsum : IsLong (toLong size + offset)) : toLong (size + offset) = toLong size + offset := by
  unfold IsLong toLong at *
  omega

/-- The model of the VFS does the same where no sum overflows. -/
theorem vfsLseek_of_seek {v w : State} {pid filp : Nat} {fd : Int} {f : File} {r : Int × Int}
    (hget : v.getfilp pid fd = some (some filp, w)) (hfile : w.file filp = some f) (hsize : (w.dentry f.dentry).size < 2 ^ 63)
    (h : seek (w.dentry f.dentry).size f.pos offset whence = some r) :
    vfsLseek v pid fd offset whence = some (r.1, w.setFile filp { f with pos := r.2 }) := by
  have hlong : toLong (w.dentry f.dentry).size = (w.dentry f.dentry).size := by
    unfold toLong
    omega
  simp only [vfsLseek, State.onFile, hget, hfile, Option.bind_eq_bind, Option.bind_some]
  generalize (w.dentry f.dentry).size = size at *
  unfold seek at h
  split at h
  · cases h
    rfl
  · obtain ⟨p, hp, rfl⟩ := Option.map_eq_some_iff.mp h
    rw [(addLong_eq_some_iff.mp hp).1]
    rfl
  · obtain ⟨p, hp, rfl⟩ := Option.map_eq_some_iff.mp h
    obtain ⟨hp, hsum⟩ := addLong_eq_some_iff.mp hp
    rw [hp, toLong_add hsum, hlong]
    rfl
  · rename_i h0 h1 h2
    cases h
    simp

/-- What a server answers to a `read` or a `write`. -/
def answer (reply : Option FsReply) : Int := reply.elim (-1) FsReply.retval

theorem moved_of_transfer {reply : Option FsReply} (h : posStep size pos (.transfer (answer reply)) = some p) :
    moved reply pos = (answer reply, p) := by
  cases reply with
  | none => simpa [posStep, PosCall.run, moved, answer] using h
  | some reply =>
    have h : posStep size pos (.transfer reply.retval) = some p := h
    rw [posStep, PosCall.run] at h
    by_cases hpos : 0 < reply.retval
    · rw [if_pos hpos, Option.map_map] at h
      obtain ⟨q, hq, rfl⟩ := Option.map_eq_some_iff.mp h
      rw [moved, if_pos hpos, (addLong_eq_some_iff.mp hq).1]
      rfl
    · rw [if_neg hpos] at h
      rw [moved, if_neg hpos, ← Option.some.inj h]
      rfl

/-- So do `vfs_read` and `vfs_write` with the answer of the server. -/
theorem onFile_of_transfer {v w : State} {pid filp n : Nat} {fd : Int} {f : File} {ask : Dentry → File → Option FsReply}
    (hget : v.getfilp pid fd = some (some filp, w)) (hfile : w.file filp = some f)
    (h : posStep n f.pos (.transfer (answer (ask (w.dentry f.dentry) f))) = some p) :
    v.onFile pid fd (fun d f => moved (ask d f) f.pos) =
      some (answer (ask (w.dentry f.dentry) f), w.setFile filp { f with pos := p }) := by
  simp only [State.onFile, hget, hfile, Option.bind_eq_bind, Option.bind_some, moved_of_transfer h]
  rfl

/-! ## One call -/

theorem seek_eq (hoffset : IsLong offset) (htarget : target size pos offset whence = some p) : seek size pos offset whence =
      if IsLong p then some (if p < 0 then (-1, pos) else (p, p)) else none := by
  unfold target at htarget
  split at htarget
  · cases htarget
    simp [seek, hoffset]
  · cases htarget
    simp only [seek, addLong]
    split <;> rfl
  · rw [← Option.some.inj htarget]
    simp only [seek, addLong]
    split
    · rename_i hsum
      rw [toLong_add hsum]
      rfl
    · rfl
  · cases htarget

theorem seek_none (htarget : target size pos offset whence = none) : seek size pos offset whence = some (-1, pos) := by
  unfold target at htarget
  split at htarget
  · cases htarget
  · cases htarget
  · cases htarget
  · simp [seek]

theorem lseek_right_iff (hpos : 0 ≤ pos) (hoffset : IsLong offset) :
    (PosCall.lseek offset whence).Right size pos ↔ (PosCall.lseek offset whence).InRange size pos := by
  simp only [PosCall.Right, PosCall.InRange, PosCall.run, PosCall.lseek.injEq]
  cases htarget : target size pos offset whence with
  | none =>
    refine iff_of_true ⟨-1, pos, by simp [seek_none htarget, toInt], hpos, ?_⟩ (by simp)
    rintro _ _ ⟨rfl, rfl⟩
    rw [seek_none htarget]
    grind
  | some p =>
    rw [seek_eq hoffset htarget]
    constructor
    · rintro ⟨r, q, hrun, -, hright⟩ _ ⟨⟩
      obtain ⟨-, hset⟩ := hright _ _ ⟨rfl, rfl⟩
      rw [seek_eq hoffset htarget] at hset
      simp only [toInt, IsLong] at hrun hset
      grind
    · intro hrange
      obtain ⟨hlow, hhigh⟩ := hrange p rfl
      refine ⟨if p < 0 then -1 else p, if p < 0 then pos else p, ?_, by grind, ?_⟩
      · rw [if_pos ⟨hlow, by omega⟩]
        simp only [toInt]
        grind
      · rintro _ _ ⟨rfl, rfl⟩
        rw [seek_eq hoffset htarget]
        grind

theorem transfer_right_iff {retval : Int} (hpos : 0 ≤ pos ∧ pos < 2 ^ 63) :
    (PosCall.transfer retval).Right size pos ↔ (PosCall.transfer retval).InRange size pos := by
  simp only [PosCall.Right, PosCall.InRange, PosCall.run, addLong]
  rcases le_or_gt retval 0 with hle | hlt
  · simp [not_lt.mpr hle, hpos.1]
    omega
  · have hlong : IsLong (pos + retval) ↔ pos + retval < 2 ^ 63 := by
      unfold IsLong
      omega
    rw [if_pos hlt, ← hlong]
    by_cases hsum : IsLong (pos + retval)
    · simp [hsum]
      omega
    · simp [hsum]

theorem right_iff {call : PosCall} (hpos : 0 ≤ pos ∧ pos < 2 ^ 63) (htyped : call.Typed) :
    call.Right size pos ↔ call.InRange size pos := by
  cases call with
  | lseek offset whence => exact lseek_right_iff hpos.1 htyped
  | transfer retval => exact transfer_right_iff hpos

/-! ## A sequence of calls -/

theorem posStep_range {q : Int} {call : PosCall} (hpos : 0 ≤ pos ∧ pos < 2 ^ 63) (htyped : call.Typed)
    (hstep : posStep size pos call = some q) : 0 ≤ q ∧ q < 2 ^ 63 := by
  unfold posStep at hstep
  cases call with
  | lseek offset whence =>
    simp only [PosCall.run] at hstep
    cases htarget : target size pos offset whence with
    | none =>
      rw [seek_none htarget] at hstep
      grind
    | some p =>
      rw [seek_eq htyped htarget] at hstep
      unfold IsLong at hstep
      grind
  | transfer retval =>
    simp only [PosCall.run, addLong, IsLong] at hstep
    grind

/-- A call is right if and only if it is in range, and calls in range keep the position from being negative. -/
theorem positions_right (size : Nat) (pos : Int) (hpos : 0 ≤ pos ∧ pos < 2 ^ 63) :
    (∀ call : PosCall, call.Typed → (call.Right size pos ↔ call.InRange size pos)) ∧
    ∀ q, Run (posStep size) (fun p call => call.Typed ∧ call.InRange size p) (· = pos) q →
      0 ≤ q ∧ ∀ call : PosCall, call.Typed → call.InRange size q → call.Right size q := by
  refine ⟨fun call htyped => right_iff hpos htyped, fun q hrun => ?_⟩
  have hq : 0 ≤ q ∧ q < 2 ^ 63 := Run.invariant (Q := fun p => 0 ≤ p ∧ p < 2 ^ 63) (fun p hp => hp ▸ hpos)
    (fun p call p' hp hok hstep => posStep_range hp hok.1 hstep) hrun
  exact ⟨hq.1, fun call htyped hrange => (right_iff hq htyped).mpr hrange⟩

theorem positions_right_start : (PosCall.lseek 5 0).Right 10 0 :=
  ((positions_right 10 0 (by omega)).1 (.lseek 5 0) (by simp [PosCall.Typed, IsLong])).mpr (by simp [PosCall.InRange, target])

/-- 2 GiB is returned as a negative number, 4 GiB less one as a failure; behind the last position the sum overflows. -/
theorem positions_wrong : (PosCall.lseek (2 ^ 31) 0).run 0 0 = some (-2 ^ 31, 2 ^ 31) ∧
    (PosCall.lseek (2 ^ 32 - 1) 0).run 0 0 = some (-1, 2 ^ 32 - 1) ∧ ¬ (PosCall.lseek (2 ^ 31) 0).Right 0 0 ∧
    posStep 0 0 (.lseek (2 ^ 63 - 1) 0) = some (2 ^ 63 - 1) ∧ posStep 0 (2 ^ 63 - 1) (.transfer 1) = none := by
  refine ⟨by decide, by decide, ?_, by decide, by decide⟩
  rw [right_iff (by omega) (by simp [PosCall.Typed, IsLong])]
  simp [PosCall.InRange, target]

end FengOS.Vfs
