import FengOS.Lib.Mem
import Mathlib.Data.Nat.Digits.Defs

/-!
# Formatted output (`vsnprintf` and `number` in `core/printk.c` and `libc/vsprintf.c`)

The two versions differ in the test for a digit only. There is no result if the 0 of the format is passed, an argument is
missing or has another type, or an `int` overflows.
-/

namespace FengOS.Printf

open FengOS.Lib

/-! ## The buffer -/

structure Out where
  str : Nat
  stores : List (Nat × UInt8)
  deriving DecidableEq, Repr

/-- `*str = c`. -/
def Out.store (o : Out) (c : UInt8) : Out := { o with stores := (o.str, c) :: o.stores }

/-- `*str++ = c`. -/
def Out.put (o : Out) (c : UInt8) : Out := ⟨o.str + 1, (o.str, c) :: o.stores⟩

/-- `str` is advanced in any case, and the byte is stored in front of `end` only. -/
def Out.putIf (o : Out) (stop : Nat) (c : UInt8) : Out := if o.str < stop then o.put c else { o with str := o.str + 1 }

def Out.byte (o : Out) (i : Nat) : Option UInt8 := o.stores.lookup i

/-- A loop that stores `c` up to `n` times: the rounds that are left when it comes to `end`. -/
def padLoop (stop : Nat) (c : UInt8) : Nat → Out → Nat × Out
  | 0, o => (0, o)
  | n + 1, o => if o.str < stop then padLoop stop c n (o.put c) else (n + 1, o)

/-! ## `number` -/

structure Flags where
  zeropad : Bool := false
  sign : Bool := false
  left : Bool := false
  special : Bool := false
  large : Bool := false
  deriving DecidableEq, Repr

/-- `small_digits` and `large_digits`. -/
def digit (type : Flags) (d : Nat) : UInt8 := .ofNat (if d < 10 then 0x30 + d else (if type.large then 0x37 else 0x57) + d)

/-- The negation of the smallest `long` wraps around, as its use as an `unsigned long` needs. -/
def numberTmp (type : Flags) (num base : Nat) : List UInt8 :=
  let neg := type.sign && decide (2 ^ 63 ≤ num)
  let num := if neg then 2 ^ 64 - num else num
  (if num = 0 then [0x30] else (Nat.digits base num).map (digit type)) ++ (if neg then [0x2d] else []) ++
    if type.special then if base = 8 then [0x30] else if base = 16 then [digit type 33, 0x30] else [] else []

def padChar (type : Flags) : UInt8 := if type.left then 0x20 else if type.zeropad then 0x30 else 0x20

def digitsLoop (stop : Nat) : List UInt8 → Nat → Out → Nat × Out
  | [], size, o => (size, o)
  | c :: cs, size, o => if o.str < stop ∧ 0 < size then digitsLoop stop cs (size - 1) (o.put c) else (size, o)

def number (stop : Nat) (o : Out) (num base size : Nat) (type : Flags) : Out :=
  if base < 2 ∨ 36 < base then o
  else
    let tmp := numberTmp type num base
    let size := if size < tmp.length then tmp.length else size
    let (rest, o) := if type.left then (size - tmp.length, o) else padLoop stop (padChar type) (size - tmp.length) o
    let (size, o) := digitsLoop stop tmp.reverse (tmp.length + rest) o
    let (_, o) := padLoop stop (padChar type) size o
    o.store 0

/-! ## Directives -/

inductive Qualifier where
  | none
  | long
  | longLong
  deriving DecidableEq, Repr

/-- What the character at the end of a directive stands for. -/
inductive Conv where
  | char
  | string
  | pointer
  | percent
  | integer (base : Nat) (sign large : Bool)
  deriving DecidableEq, Repr

structure Directive where
  flags : Flags
  width : Nat
  qualifier : Qualifier
  conv : Conv
  deriving DecidableEq, Repr

/-- The label `repeat`: `-` and `0`. -/
def flagsLoop (flags : Flags) : List UInt8 → Flags × List UInt8
  | [] => (flags, [])
  | c :: fmt =>
    if c = 0x2d then flagsLoop { flags with left := true } fmt
    else if c = 0x30 then flagsLoop { flags with zeropad := true } fmt
    else (flags, c :: fmt)

/-- The loop over the digits of `field_width`. There is no result if the `int` overflows. -/
def widthLoop (width : Nat) : List UInt8 → Option (Nat × List UInt8)
  | [] => some (width, [])
  | c :: fmt =>
    if 0x30 ≤ c ∧ c ≤ 0x39 then
      if width * 10 + c.toNat < 2 ^ 31 then widthLoop (width * 10 + c.toNat - 0x30) fmt else none
    else some (width, c :: fmt)

def parseQualifier : List UInt8 → Qualifier × List UInt8
  | 0x6c :: 0x6c :: fmt => (.longLong, fmt)
  | 0x6c :: fmt => (.long, fmt)
  | fmt => (.none, fmt)

/-- `c`, `s`, `p`, `%`, `o`, `X`, `x`, `d` and `i`; everything else is an unsigned number. -/
def parseConv (c : UInt8) : Conv :=
  if c = 0x63 then .char
  else if c = 0x73 then .string
  else if c = 0x70 then .pointer
  else if c = 0x25 then .percent
  else if c = 0x6f then .integer 8 false false
  else if c = 0x58 then .integer 16 false true
  else if c = 0x78 then .integer 16 false false
  else if c = 0x64 ∨ c = 0x69 then .integer 10 true false
  else .integer 10 false false

/-- A directive behind its `%`, with the rest. At the end of the format the 0 is the conversion, and the loop goes on. -/
def parseDirective (fmt : List UInt8) : Option (Directive × List UInt8) := do
  let (flags, fmt) := flagsLoop {} fmt
  let (width, fmt) ← widthLoop 0 fmt
  let (qualifier, fmt) := parseQualifier fmt
  match fmt with
  | [] => none
  | c :: fmt => return (⟨flags, width, qualifier, parseConv c⟩, fmt)

/-! ## Arguments -/

inductive Arg where
  | num (n : Nat)
  | str (s : { s : List UInt8 // 0 ∉ s })
  deriving DecidableEq, Repr

def takeNum : List Arg → Option (Nat × List Arg)
  | .num n :: args => some (n, args)
  | _ => none

def takeStr : List Arg → Option (List UInt8 × List Arg)
  | .str s :: args => some (s, args)
  | _ => none

def Qualifier.value (q : Qualifier) (n : Nat) : Nat := if q = .none then n % 2 ^ 32 else n % 2 ^ 64

def intFlags (flags : Flags) (sign large : Bool) : Flags := { flags with sign := sign, large := large }

def ptrFlags (flags : Flags) : Flags := { flags with special := true }

/-! ## `vsnprintf` -/

def intMin : Int := -2 ^ 31

/-- `field_width--` overflows here or on the way to this value. -/
def Underflows (x : Int) : Prop := x ≤ intMin

instance (x : Int) : Decidable (Underflows x) := inferInstanceAs (Decidable (x ≤ intMin))

def strLoop (stop : Nat) : List UInt8 → Out → Out
  | [], o => o
  | c :: s, o => strLoop stop s (o.putIf stop c)

def strLen (s : List UInt8) : Int := toInt s.length

/-- The rounds of the first loop of the case `s`, if it does not come to the end of the buffer. -/
def strPadding (width : Nat) (s : List UInt8) : Nat :=
  ((if (width : Int) < strLen s then strLen s else width) - strLen s).toNat

/-- The case `s`; after the first loop `field_width` is `len + r.1`. -/
def putStr (stop : Nat) (left : Bool) (width : Nat) (s : List UInt8) (o : Out) : Option Out :=
  let r := if left then (strPadding width s, o) else padLoop stop 0x20 (strPadding width s) o
  let fieldWidth := strLen s + r.1 - s.length
  if Underflows fieldWidth then none else some (padLoop stop 0x20 fieldWidth.toNat (strLoop stop s r.2)).2

/-- What a directive puts out: a byte, a string or a number. -/
inductive Piece where
  | byte (c : UInt8)
  | string (left : Bool) (width : Nat) (s : List UInt8)
  | number (num base width : Nat) (type : Flags)

/-- The cases of the last `switch` with their arguments. -/
def Directive.piece (d : Directive) (args : List Arg) : Option (Piece × List Arg) :=
  match d.conv with
  | .char => (takeNum args).map fun r => (.byte (.ofNat r.1), r.2)
  | .string => (takeStr args).map fun r => (.string d.flags.left d.width r.1, r.2)
  | .pointer => (takeNum args).map fun r => (.number (Qualifier.long.value r.1) 16 d.width (ptrFlags d.flags), r.2)
  | .percent => some (.byte 0x25, args)
  | .integer base sign large => (takeNum args).map fun r =>
    (.number (d.qualifier.value r.1) base d.width (intFlags d.flags sign large), r.2)

def Piece.put (stop : Nat) : Piece → Out → Option Out
  | .byte c, o => some (o.putIf stop c)
  | .string left width s, o => putStr stop left width s o
  | .number num base width type, o => some (Printf.number stop o num base width type)

/-- The loop over the format, which takes a byte at least in each round. -/
def vsnprintfLoop (stop : Nat) : Nat → List UInt8 → List Arg → Out → Option Out
  | 0, _, _, _ => none
  | _ + 1, [], _, o => some o
  | rounds + 1, c :: fmt, args, o =>
    if c ≠ 0x25 then vsnprintfLoop stop rounds fmt args (o.put c)
    else do
      let (d, fmt) ← parseDirective fmt
      let (piece, args) ← d.piece args
      let o ← piece.put stop o
      vsnprintfLoop stop rounds fmt args o

/-- `vsnprintf`, which returns the last offset. -/
def vsnprintf (size : Nat) (fmt : List UInt8) (args : List Arg) : Option Out :=
  (vsnprintfLoop size (fmt.length + 1) fmt args ⟨0, []⟩).map (·.store 0)

/-- The function returns, keeps to the format and the buffer, and leaves a string there. -/
def Bounded (size : Nat) (fmt : List UInt8) (args : List Arg) : Prop :=
  ∃ o, vsnprintf size fmt args = some o ∧ (∀ x ∈ o.stores, x.1 < size) ∧ ∃ i < size, o.byte i = some 0

/-! ## The whole text -/

def numText (num base size : Nat) (type : Flags) : List UInt8 :=
  let tmp := numberTmp type num base
  let pad := List.replicate (size - tmp.length) (padChar type)
  if type.left then tmp.reverse ++ pad else pad ++ tmp.reverse

def strText (left : Bool) (width : Nat) (s : List UInt8) : Option (List UInt8) :=
  let behind := strLen s + (if left then strPadding width s else 0 : Nat) - s.length
  if Underflows behind then none
  else some ((if left then [] else List.replicate (strPadding width s) 0x20) ++ s ++ List.replicate behind.toNat 0x20)

def Piece.text : Piece → Option (List UInt8)
  | .byte c => some [c]
  | .string left width s => strText left width s
  | .number num base width type => some (numText num base width type)

def textLoop : Nat → List UInt8 → List Arg → Option (List UInt8)
  | 0, _, _ => none
  | _ + 1, [], _ => some []
  | rounds + 1, c :: fmt, args =>
    if c ≠ 0x25 then (textLoop rounds fmt args).map (c :: ·)
    else do
      let (d, fmt) ← parseDirective fmt
      let (piece, args) ← d.piece args
      let text ← piece.text
      (textLoop rounds fmt args).map (text ++ ·)

/-- The text, unless the format ends in a directive, a width or a string is too long, or an argument does not match. -/
def text (fmt : List UInt8) (args : List Arg) : Option (List UInt8) := textLoop (fmt.length + 1) fmt args

/-- The text and the terminating 0 fit the buffer. -/
def Fits (size : Nat) (fmt : List UInt8) (args : List Arg) : Prop := ∃ t, text fmt args = some t ∧ t.length < size

end FengOS.Printf
