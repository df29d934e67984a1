import FengOS.Ext2.Dir
import FengOS.Ext2.Read

/-!
# Calls that fail (`srv/ext2/main.c`)

`alloc_block` and `alloc_inode` without a clear bit, and calls of `ext2_write` that copy nothing.
-/

namespace FengOS.Ext2

open FengOS.Lib

/-! ## No clear bit -/

/-- The byte in which the bit is set: if all are set, the index is the block size. -/
def markedByte (fs : Fs) (kind : Bitmap) : Option Nat :=
  match clearGroup fs (readBitmap fs kind.field) with
  | some (_, j, _) => some j
  | none => if fs.sb.nrGroup = 0 then none else some fs.sb.blockSize

/-- The callers fail: a write that needs a block, and everything that makes a directory. -/
structure CallersFail (fs : Fs) (kind : Bitmap) : Prop where
  write : kind = .block → ∀ ino buf (pos : Int) size, 0 ≤ pos → pos ≤ fileSize fs ino →
    iBlocks (getinode fs ino).1 < upperDiv ((pos.toNat + size) % 2 ^ 64) 512 % 2 ^ 32 →
    ∃ fs', ext2Write fs ino buf pos size = some (-1, fs')
  newdir : ∀ pino mode, (initNewdir fs pino mode).1 = -1
  mkdir : ∀ fuel pino name mode buffer r, ext2Mkdir fuel fs pino name mode buffer = some r → r.1 = -1

/-- What an allocation without a clear bit should do. -/
structure Exhaustion (fs : Fs) (kind : Bitmap) : Prop where
  result : (alloc fs kind).1 = -1
  bitmaps : ∀ kind' i idx, bit (alloc fs kind).2 kind' i idx = bit fs kind' i idx
  buffer : ∃ j < fs.sb.blockSize, markedByte fs kind = some j
  callers : CallersFail fs kind

/-! ## `ext2_write` -/

/-- The state if other writes fail and if the variable for a new block holds another number. -/
def Fs.withErrors (fs : Fs) (bad : Nat → Bool) (junk : Int) : Fs := { fs with bad := bad, junk := junk }

def sectors (pos size : Nat) : Nat := upperDiv ((pos + size) % 2 ^ 64) 512 % 2 ^ 32

def HasPlace (fs : Fs) (ino : Nat) : Prop := fileBlocks fs ino < 12 ∧ fileBlock fs ino (fileBlocks fs ino) = 0

/-- Nothing is to be copied, the position is outside, a block has no place, or the first one cannot be written. -/
def CopiesNothing (fs : Fs) (ino : Nat) (pos : Int) (size : Nat) : Prop :=
  size = 0 ∨ pos < 0 ∨ pos > fileSize fs ino ∨
    if iBlocks (getinode fs ino).1 < sectors pos.toNat size then ¬ HasPlace fs ino
    else ∃ no, getBlockNo fs (getinode fs ino).1 (pos.toNat / fs.sb.blockSize) = some no ∧
      (toInt no ≤ 0 ∨ fs.bad ((toInt no).toNat * fs.sb.blockSize) = true)

end FengOS.Ext2
