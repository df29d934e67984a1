import FengOS.Lib.Ring

/-!
# The buffer of the keyboard (`srv/keyboard/keyboard.c`)
-/

namespace FengOS.Keyboard

open FengOS.Lib

def keyboardBufSize : Nat := 128

structure KbBuf where
  buf : Nat → UInt8
  count : Int
  head : Nat
  tail : Nat

def initBuf : KbBuf := ⟨fun _ => 0, 0, 0, 0⟩

def putChar (b : KbBuf) (c : UInt8) : KbBuf :=
  if keyboardBufSize ≤ b.count then b
  else { b with
    buf := Function.update b.buf b.tail c, tail := (b.tail + 1) % keyboardBufSize, count := b.count + 1 }

/-- The loop of `read_char` with a bound on its rounds; `sz` is the number of bytes stored so far. -/
def readLoop : Nat → KbBuf → Nat → Nat → Option (List UInt8 × KbBuf)
  | 0, _, _, _ => none
  | rounds + 1, b, size, sz =>
    if b.head ≠ b.tail ∧ sz ≤ size then do
      let (bytes, b') ← readLoop rounds { b with head := (b.head + 1) % keyboardBufSize, count := b.count - 1 } size (sz + 1)
      return (b.buf b.head :: bytes, b')
    else some ([], b)

/-- `read_char`: the bytes it stores, whose number it returns; each round brings the head closer to the tail. -/
def readChar (b : KbBuf) (size : Nat) : Option (List UInt8 × KbBuf) := readLoop keyboardBufSize b size 0

/-! ## Runs -/

inductive KbOp where
  | put (c : UInt8)
  | read (size : Nat)
  deriving DecidableEq, Repr

def KbBuf.step (b : KbBuf) : KbOp → Option (List UInt8 × KbBuf)
  | .put c => some ([], putChar b c)
  | .read size => readChar b size

def KbBuf.run (b : KbBuf) : List KbOp → Option (List (List UInt8) × KbBuf)
  | [] => some ([], b)
  | op :: ops => do
    let (bytes, b) ← b.step op
    let (outs, b) ← b.run ops
    return (bytes :: outs, b)

/-! ## The queue -/

/-- What the buffer is meant to be: a queue of at most 128 characters. -/
def queueStep (q : List UInt8) : KbOp → List UInt8 × List UInt8
  | .put c => ([], if q.length < keyboardBufSize then q ++ [c] else q)
  | .read size => (q.take size, q.drop size)

def queueRun (q : List UInt8) : List KbOp → List (List UInt8) × List UInt8
  | [] => ([], q)
  | op :: ops =>
    let (bytes, q) := queueStep q op
    let (outs, q) := queueRun q ops
    (bytes :: outs, q)

/-- The buffer holds the characters of a queue. -/
structure KbBuf.Holds (b : KbBuf) (q : List UInt8) : Prop where
  head_lt : b.head < keyboardBufSize
  length_le : q.length ≤ keyboardBufSize
  count : b.count = q.length
  tail : b.tail = (b.head + q.length) % keyboardBufSize
  held : Ring.held b.buf keyboardBufSize b.head q.length = q

/-- A run returns what the queue returns, and the buffer holds what the queue holds. -/
def Fifo (ops : List KbOp) : Prop :=
  ∃ b, initBuf.run ops = some ((queueRun [] ops).1, b) ∧ b.Holds (queueRun [] ops).2

/-- A read of at least what is in a buffer that is not full, or of nothing from a full one. -/
def OpOk (q : List UInt8) : KbOp → Prop
  | .put _ => True
  | .read size => q.length ≤ size ∧ q.length < keyboardBufSize ∨ size = 0 ∧ q.length = keyboardBufSize

def RunOk (q : List UInt8) : List KbOp → Prop
  | [] => True
  | op :: ops => OpOk q op ∧ RunOk (queueStep q op).2 ops

end FengOS.Keyboard
