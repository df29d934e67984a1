/-!
# Scan codes (`annlysis_scancode` in `srv/keyboard/keyboard.c`)

`pre_code` is a `char`, which is signed in the build, and it is compared with the constants 0xe0 and 0xe1 as an `int`.
-/

namespace FengOS.Keyboard

def keymapRows : List (UInt8 × UInt8) :=
  [(0x00, 0x00), (0x00, 0x00), (0x31, 0x21), (0x32, 0x40), (0x33, 0x23), (0x34, 0x24), (0x35, 0x25), (0x36, 0x5e),
    (0x37, 0x26), (0x38, 0x2a), (0x39, 0x28), (0x30, 0x29), (0x2d, 0x5f), (0x3d, 0x2b), (0x08, 0x00), (0x09, 0x00),
    (0x71, 0x51), (0x77, 0x57), (0x65, 0x45), (0x72, 0x52), (0x74, 0x54), (0x79, 0x59), (0x75, 0x55), (0x69, 0x49),
    (0x6f, 0x4f), (0x70, 0x50), (0x5b, 0x7b), (0x5d, 0x7d), (0x0a, 0x00), (0x1d, 0x1d), (0x61, 0x41), (0x73, 0x53),
    (0x64, 0x44), (0x66, 0x46), (0x67, 0x47), (0x68, 0x48), (0x6a, 0x4a), (0x6b, 0x4b), (0x6c, 0x4c), (0x3b, 0x3a),
    (0x27, 0x22), (0x60, 0x7e), (0x2a, 0x2a), (0x5c, 0x7c), (0x7a, 0x5a), (0x78, 0x58), (0x63, 0x43), (0x76, 0x56),
    (0x62, 0x42), (0x6e, 0x4e), (0x6d, 0x4d), (0x2c, 0x3c), (0x2e, 0x3e), (0x2f, 0x3f), (0x36, 0x36), (0x2a, 0x2a),
    (0x38, 0x38), (0x20, 0x20), (0x00, 0x00), (0x00, 0x00), (0x00, 0x00), (0x00, 0x00), (0x00, 0x00), (0x00, 0x00),
    (0x00, 0x00), (0x00, 0x00), (0x00, 0x00), (0x00, 0x00), (0x00, 0x00), (0x00, 0x00), (0x00, 0x00), (0x37, 0x00),
    (0x38, 0x00), (0x39, 0x00), (0x2d, 0x00), (0x34, 0x00), (0x35, 0x00), (0x36, 0x00), (0x2b, 0x00), (0x31, 0x00),
    (0x32, 0x00), (0x33, 0x00), (0x30, 0x00), (0x2e, 0x00)]

def keymap (code : UInt8) (shift : Bool) : UInt8 :=
  let row := keymapRows.getD code.toNat (0, 0)
  if shift then row.2 else row.1

structure Kbf where
  shiftL : Bool
  shiftR : Bool
  ctrlL : Bool
  ctrlR : Bool
  altL : Bool
  altR : Bool
  deriving DecidableEq, Repr

def Kbf.none : Kbf := ⟨false, false, false, false, false, false⟩

def toChar (n : Nat) : Int := Int.bmod n 256

/-- A code without a prefix: the flags, or the character if the table has one. -/
def plainCode (kbf : Kbf) (code : UInt8) : Option UInt8 × Kbf :=
  let make := code &&& 0x80 = 0
  let code := code &&& 0x7f
  if code = 0x2a then (.none, { kbf with shiftL := make })
  else if code = 0x36 then (.none, { kbf with shiftR := make })
  else if code = 0x1d then (.none, { kbf with ctrlL := make })
  else if code = 0x38 then (.none, { kbf with altL := make })
  else
    let key := if make then keymap code (kbf.shiftL || kbf.shiftR) else 0
    (if key = 0 then .none else some key, kbf)

def extendedCode (kbf : Kbf) (code : UInt8) : Kbf :=
  if code = 0x1d then { kbf with ctrlR := true }
  else if code = 0x9d then { kbf with ctrlR := false }
  else if code = 0x38 then { kbf with altR := true }
  else if code = 0xb8 then { kbf with altR := false }
  else kbf

structure Scanner where
  preCode : Int
  skip : Int
  kbf : Kbf
  deriving DecidableEq, Repr

def Scanner.init : Scanner := ⟨0, 0, Kbf.none⟩

/-- `annlysis_scancode`: the character that it passes to `put_char`. -/
def annlysisScancode (s : Scanner) (code : UInt8) : Option UInt8 × Scanner :=
  if code = 0xe1 then (none, { s with preCode := toChar 0xe1, skip := 5 })
  else if code = 0xe0 then (none, { s with preCode := toChar 0xe1 })
  else if s.preCode = 0xe1 then
    (none, { s with skip := s.skip - 1, preCode := if s.skip - 1 = 0 then 0 else s.preCode })
  else if s.preCode = 0xe0 then (none, { s with kbf := extendedCode s.kbf code, preCode := 0 })
  else
    let (key, kbf) := plainCode s.kbf code
    (key, { s with kbf := kbf })

/-! ## The decoder that is meant -/

inductive Mode where
  | plain
  | extended
  | skipping (left : Nat)
  deriving DecidableEq, Repr

structure Decoder where
  mode : Mode
  kbf : Kbf
  deriving DecidableEq, Repr

def Decoder.init : Decoder := ⟨.plain, Kbf.none⟩

/-- 0xe0 gives the next code to the right keys, 0xe1 skips the next five. -/
def Decoder.step (d : Decoder) (code : UInt8) : Option UInt8 × Decoder :=
  match d.mode with
  | .skipping (left + 2) => (none, { d with mode := .skipping (left + 1) })
  | .skipping _ => (none, { d with mode := .plain })
  | .extended => (none, ⟨.plain, extendedCode d.kbf code⟩)
  | .plain =>
    if code = 0xe1 then (none, { d with mode := .skipping 5 })
    else if code = 0xe0 then (none, { d with mode := .extended })
    else
      let (key, kbf) := plainCode d.kbf code
      (key, { d with kbf := kbf })

/-! ## Streams of codes -/

def views {σ : Type} (step : σ → UInt8 → Option UInt8 × σ) (kbf : σ → Kbf) : σ → List UInt8 → List (Option UInt8 × Kbf)
  | _, [] => []
  | s, code :: codes =>
    let (key, s) := step s code
    (key, kbf s) :: views step kbf s codes

/-- `annlysis_scancode` does to the codes what is meant. -/
def Decodes (codes : List UInt8) : Prop :=
  views annlysisScancode Scanner.kbf Scanner.init codes = views Decoder.step Decoder.kbf Decoder.init codes

/-- Without a prefix the code would do nothing. -/
def Idle (kbf : Kbf) (code : UInt8) : Prop := code = 0xe0 ∨ code = 0xe1 ∨ plainCode kbf code = (none, kbf)

/-- The code has no prefix, or it does nothing in either way: it is not the make code of a right key. -/
def Decoder.Harmless (d : Decoder) (code : UInt8) : Prop :=
  d.mode = .plain ∨ Idle d.kbf code ∧ (d.mode = .extended → code ≠ 0x1d ∧ code ≠ 0x38)

def Decoder.HarmlessAll : Decoder → List UInt8 → Prop
  | _, [] => True
  | d, code :: codes => d.Harmless code ∧ (d.step code).2.HarmlessAll codes

end FengOS.Keyboard
