import FengOS.Printf.Vsnprintf
import Mathlib.Data.FinEnum

/-!
# Unsigned numbers in formatted output

What the C standard says about the conversions `u`, `x`, `X` and `o`, with the flags `-` and `0`, a width and the length
modifiers, and what such a text is read back as.
-/

namespace FengOS.Printf

/-! ## The directive -/

inductive Flag where
  | minus
  | zero
  deriving DecidableEq, Repr

def Flag.char : Flag → UInt8
  | .minus => 0x2d
  | .zero => 0x30

inductive UConv where
  | decimal
  | lower
  | upper
  | octal
  deriving DecidableEq, Repr

def UConv.char : UConv → UInt8
  | .decimal => 0x75
  | .lower => 0x78
  | .upper => 0x58
  | .octal => 0x6f

def UConv.base : UConv → Nat
  | .decimal => 10
  | .lower | .upper => 16
  | .octal => 8

def Qualifier.chars : Qualifier → List UInt8
  | .none => []
  | .long => [0x6c]
  | .longLong => [0x6c, 0x6c]

def Qualifier.bits : Qualifier → Nat
  | .none => 32
  | .long | .longLong => 64

def widthChars (width : Nat) : List UInt8 := (Nat.digits 10 width).reverse.map fun d => .ofNat (0x30 + d)

def unsignedFormat (flags : List Flag) (width : Nat) (q : Qualifier) (conv : UConv) : List UInt8 :=
  0x25 :: (flags.map Flag.char ++ (widthChars width ++ (q.chars ++ [conv.char])))

/-! ## The text -/

def digitChar (upper : Bool) (d : Nat) : UInt8 :=
  .ofNat (if d < 10 then 0x30 + d else (if upper then 0x41 else 0x61) + (d - 10))

/-- The digits of a number, the first one first and never a 0 in front of another. -/
def digitsOf (base n : Nat) : List Nat := if n = 0 then [0] else (Nat.digits base n).reverse

/-- The text that the standard asks for. -/
def unsignedText (flags : List Flag) (width : Nat) (q : Qualifier) (conv : UConv) (n : Nat) : List UInt8 :=
  let t := (digitsOf conv.base (n % 2 ^ q.bits)).map (digitChar (conv = .upper))
  if Flag.minus ∈ flags then t ++ List.replicate (width - t.length) 0x20
  else List.replicate (width - t.length) (if Flag.zero ∈ flags then 0x30 else 0x20) ++ t

/-- The buffer holds the text and a 0, and nothing else has been stored. -/
def Emits (size : Nat) (fmt : List UInt8) (args : List Arg) (t : List UInt8) : Prop :=
  ∃ o, vsnprintf size fmt args = some o ∧ o.str = t.length ∧ ∀ i, o.byte i = (t ++ [0])[i]?

/-! ## Reading it back -/

def digitValue (c : UInt8) : Option Nat :=
  if 0x30 ≤ c ∧ c ≤ 0x39 then some (c.toNat - 0x30)
  else if 0x61 ≤ c ∧ c ≤ 0x7a then some (c.toNat - 0x57)
  else if 0x41 ≤ c ∧ c ≤ 0x5a then some (c.toNat - 0x37)
  else none

/-- The digits in front, added to what has been read, and the rest. -/
def readDigits (base acc : Nat) : List UInt8 → Nat × List UInt8
  | [] => (acc, [])
  | c :: cs =>
    match digitValue c with
    | some d => if d < base then readDigits base (acc * base + d) cs else (acc, c :: cs)
    | none => (acc, c :: cs)

def readNumber (base : Nat) (t : List UInt8) : Option Nat :=
  let t := t.dropWhile (· = 0x20)
  let (n, rest) := readDigits base 0 t
  if rest.length < t.length ∧ ∀ c ∈ rest, c = 0x20 then some n else none

end FengOS.Printf
