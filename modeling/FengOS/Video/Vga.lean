import Mathlib.Logic.Function.Basic
import Mathlib.Algebra.Group.Int.Units

/-!
# The screen (`srv/video/vga.c` and `boot/console.c`)

The server and the kernel use the same functions under other names; `console_curl` is `screen_curl`. A cell is numbered from
the start of the video memory. The hardware cursor has 16 bits, `cur` is an `int`, and so is the counter of the loop, left
out: a buffer has fewer than 2^31 bytes.
-/

namespace FengOS.Video

/-- `ROW` and `COL`. -/
def row : Nat := 25
def col : Nat := 80

structure Screen where
  cursor : Nat
  cells : Nat → BitVec 16

structure Cell where
  index : Nat
  char : UInt8
  value : BitVec 16
  deriving DecidableEq, Repr

/-- `(unsigned short)c | ((unsigned short)type << 8)`, where `c` is a signed `char`. -/
def charValue (c type : UInt8) : BitVec 16 := c.toBitVec.signExtend 16 ||| type.toBitVec.setWidth 16 <<< 8

/-- `write_char`, whose last argument is an `unsigned short`. -/
def writeChar (c type : UInt8) (cur : Int) : Cell := ⟨(cur % 2 ^ 16).toNat, c, charValue c type⟩

def Screen.store (s : Screen) (cells : List Cell) : Screen :=
  { s with cells := cells.foldl (fun m c => Function.update m c.index c.value) s.cells }

/-- `set_cursor`, whose argument is an `unsigned short`. -/
def setCursor (s : Screen) (cur : Int) : Screen := { s with cursor := (cur % 2 ^ 16).toNat }

/-- `screen_curl` by a number of lines in range: they move up, and the last one is cleared. -/
def screenCurl (s : Screen) (line : Nat) : Screen :=
  let moved := fun i => if i < col * (row - line) then s.cells (i + col * line) else s.cells i
  { s with cells := fun i => if col * (row - 1) ≤ i ∧ i < col * row then 0 else moved i }

def screenClean (s : Screen) : List Cell × Screen :=
  let cells := (List.range (row * col)).map fun (i : Nat) => writeChar 0x20 0x0f i
  (cells, setCursor (s.store cells) 0)

def putByte (cur : Int) (b type : UInt8) : List Cell × Int :=
  if b = 0x0a then ([], (cur.tdiv col + 1) * col)
  else if b = 0x09 then ([], cur + 4)
  else if b = 0x08 then ([writeChar 0x20 type (cur - 1)], cur - 1)
  else ([writeChar b type cur], cur + 1)

def writeByte (s : Screen) (cur : Int) (b type : UInt8) : List Cell × Screen × Int :=
  let (cells, cur) := putByte cur b type
  let s := s.store cells
  if cur ≥ row * col then (cells, setCursor (screenCurl s 1) ((row - 1) * col), (row - 1) * col)
  else (cells, setCursor s cur, cur)

def writeLoop (type : UInt8) : Screen → Int → List UInt8 → List (List Cell × Int) × Screen
  | s, _, [] => ([], s)
  | s, cur, b :: buf =>
    let (cells, s, cur) := writeByte s cur b type
    let (rest, s) := writeLoop type s cur buf
    ((cells, cur) :: rest, s)

def consoleWrite (s : Screen) (buf : List UInt8) (type : UInt8) : List (List Cell × Int) × Screen :=
  writeLoop type s s.cursor buf

/-- `vga_write`: a form feed alone clears the screen. -/
def vgaWrite (s : Screen) (buf : List UInt8) (type : UInt8) : List (List Cell × Int) × Screen :=
  if buf = [0x0c] then ([((screenClean s).1, 0)], (screenClean s).2) else writeLoop type s s.cursor buf

/-! ## Calls -/

structure Call where
  vga : Bool
  buf : List UInt8
  type : UInt8
  deriving DecidableEq, Repr

def Call.run (c : Call) (s : Screen) : List (List Cell × Int) × Screen :=
  if c.vga then vgaWrite s c.buf c.type else consoleWrite s c.buf c.type

/-- After a byte the cells written and the cursor are on the screen, with the character and attribute. -/
structure OnScreen (type : UInt8) (cells : List Cell) (cur : Int) : Prop where
  index : ∀ c ∈ cells, c.index < row * col
  char : ∀ c ∈ cells, c.value.extractLsb' 0 8 = c.char.toBitVec
  attr : ∀ c ∈ cells, c.value.extractLsb' 8 8 = type.toBitVec
  cursor : 0 ≤ cur ∧ cur < row * col

/-- This holds after every byte of every call, and no call touches a cell past the screen. -/
def StaysOnScreen : Screen → List Call → Prop
  | _, [] => True
  | s, c :: calls =>
    (∀ r ∈ (c.run s).1, OnScreen c.type r.1 r.2) ∧ (∀ i, row * col ≤ i → (c.run s).2.cells i = s.cells i) ∧
      StaysOnScreen (c.run s).2 calls

/-! ## The condition -/

/-- No backspace at the first cell, and no byte whose sign is copied to the attribute. -/
def SafeByte (cur : Int) (b type : UInt8) : Prop := (b = 0x08 → cur ≠ 0) ∧ (0x80 ≤ b → type = 0xff)

def SafeBuf (type : UInt8) : Screen → Int → List UInt8 → Prop
  | _, _, [] => True
  | s, cur, b :: buf => SafeByte cur b type ∧ SafeBuf type (writeByte s cur b type).2.1 (writeByte s cur b type).2.2 buf

/-- A form feed alone is written with the attribute 0x0f only. -/
def Call.Safe (c : Call) (s : Screen) : Prop :=
  if c.vga = true ∧ c.buf = [0x0c] then c.type = 0x0f else SafeBuf c.type s s.cursor c.buf

def SafeCalls : Screen → List Call → Prop
  | _, [] => True
  | s, c :: calls => c.Safe s ∧ SafeCalls (c.run s).2 calls

end FengOS.Video
