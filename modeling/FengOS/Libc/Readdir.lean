import FengOS.Ext2.Getdents

/-!
# Reading a directory (`opendir` and `readdir` in `libc/dirent.c`)

The client fills a buffer through `getdents` and takes an entry with the inode 0 for the end of what is in it.
-/

namespace FengOS.Libc

open FengOS.Lib FengOS.Ext2

def dirDataSize : Nat := 4096

structure Dir where
  fs : Fs
  pos : Nat
  data : Mem
  entry : Option Nat

/-- `opendir` of a directory; `data` is what `malloc` gives. -/
def opendir (fs : Fs) (data : Mem) : Dir := ⟨fs, 0, data, none⟩

def Dir.atEnd (dp : Dir) : Bool := dp.entry.all fun entry => dp.data.load entry 8 == 0

def Dir.take (dp : Dir) : Option Nat × Dir :=
  (dp.entry, { dp with entry := dp.entry.map fun entry => entry + dp.data.load (entry + 16) 8 })

def readdir (fuel ino : Nat) (dp : Dir) : Option (Option Nat × Dir) :=
  if dp.atEnd then
    match ext2Getdents fuel dp.fs ino (dp.data.write 0 (fun _ => 0) dirDataSize) dp.pos (dirDataSize - 16) with
    | none => none
    | some (0, mem, fs) => some (none, { dp with fs := fs, data := mem })
    | some (count + 1, mem, fs) => some (Dir.take ⟨fs, dp.pos + (count + 1), mem, some 0⟩)
  else some dp.take

/-- Calls of `readdir` until it returns `NULL`: the places of the entries, each with the buffer then. -/
def readdirs (fuel ino : Nat) : Nat → Dir → Option (List (Mem × Nat))
  | 0, _ => none
  | calls + 1, dp =>
    match readdir fuel ino dp with
    | none => none
    | some (none, _) => some []
    | some (some dirp, dp) => (readdirs fuel ino calls dp).map ((dp.data, dirp) :: ·)

def InUse (r : DirRecord) : Prop := r.ino ≠ 0

instance : DecidablePred InUse := fun r => inferInstanceAs (Decidable (r.ino ≠ 0))

/-- The calls give exactly these entries, and then `NULL`. -/
def ReaddirLists (fs : Fs) (ino : Nat) (data : Mem) (rs : List DirRecord) : Prop :=
  ∃ bound, ∀ fuel ≥ bound, ∀ calls ≥ bound, ∃ results, readdirs fuel ino calls (opendir fs data) = some results ∧
    List.Forall₂ (fun result r => DirentAt result.1 result.2 r) results rs

/-! ## When they do it -/

def batches (nbytes : Nat) : Nat → List (List DirRecord) → List (List DirRecord)
  | 0, _ => []
  | m + 1, left => if left = [] then [] else batch nbytes left :: batches nbytes m (afterBatch nbytes left)

/-- Entries in use, at least one, and after them unused entries only. -/
def InUseFirst (rs : List DirRecord) : Prop :=
  ∃ front rest, rs = front ++ rest ∧ front ≠ [] ∧ (∀ r ∈ front, InUse r) ∧ ∀ r ∈ rest, ¬ InUse r

def dirBatches (fs : Fs) (dir : List (Nat × List Nat)) : List (List DirRecord) :=
  batches (dirDataSize - 16) (blockRecords fs 0 dir).flatten.length (blockRecords fs 0 dir)

end FengOS.Libc
