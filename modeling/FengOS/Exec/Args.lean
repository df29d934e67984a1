import FengOS.Lib.Mem
import FengOS.Mm.Copy

/-!
# Arguments of a program (`dup_args` and `setup_args` in `core/exec.c`, with `strlen` and `memcpy`)

Addresses are those of the running process. There is no result after an access to an address that is not canonical or an
overflow of `int`.
-/

namespace FengOS.Exec

open FengOS.Lib
open FengOS.Mm (pageSize)

def toSize (x : Int) : Nat := (x % 2 ^ 64).toNat

def subInt (x y : Int) : Option Int := if -2 ^ 31 ≤ x - y ∧ x - y < 2 ^ 31 then some (x - y) else none

/-- The `n` bytes from `a` on are in one of the two halves of the address space. -/
def Canonical (a n : Nat) : Prop := n = 0 ∨ a + n ≤ 2 ^ 47 ∨ 2 ^ 64 - 2 ^ 47 ≤ a ∧ a + n ≤ 2 ^ 64

instance (a n : Nat) : Decidable (Canonical a n) := inferInstanceAs (Decidable (_ ∨ _ ∨ _ ∧ _))

/-! ## Accesses -/

def loadPtr (mem : Mem) (a : Nat) : Option Nat := if Canonical a 8 then some (mem.load a 8) else none

def storePtr (mem : Mem) (a v : Nat) : Option Mem := if Canonical a 8 then some (mem.store a v 8) else none

def memcpy (mem : Mem) (dest src n : Nat) : Option Mem :=
  if Canonical dest n ∧ Canonical src n then some (Mm.memcpy mem dest src n) else none

def strlenLoop (mem : Mem) : Nat → Nat → Nat → Option Nat
  | 0, _, _ => none
  | rounds + 1, s, rcx =>
    if Canonical s 1 then if mem s = 0 then some rcx else strlenLoop mem rounds (s + 1) (rcx + 1) else none

/-- `strlen`, which takes the counter out of `ecx`, as an `int`. -/
def strlen (mem : Mem) (s : Nat) : Option Nat := (strlenLoop mem (2 ^ 64) s 0).map fun rcx : Nat => toSize (toInt rcx)

def countLoop (mem : Mem) (arg : Nat) : Nat → Nat → Option Nat
  | 0, _ => none
  | rounds + 1, nr => do
    let p ← loadPtr mem (arg + 8 * nr)
    if p ≠ 0 then countLoop mem arg rounds (nr + 1) else return nr

def count (mem : Mem) (arg : Nat) : Option Nat := if arg = 0 then some 0 else countLoop mem arg (2 ^ 31) 0

/-! ## The packers -/

structure ArgVars where
  mem : Mem
  cur : Nat
  left : Int

/-- Where a string goes and the next value of the pointer: `dup_args` fills upwards, `setup_args` downwards. -/
def place (down : Bool) (cur : Nat) (len : Int) : Nat × Nat :=
  if down then (toSize (cur - len), toSize (cur - len)) else (cur, toSize (cur + len))

/-- A loop over strings with the rounds left; the flag is false after an early return. -/
def argLoop (down : Bool) (src dst : Nat) : Nat → Nat → ArgVars → Option (Bool × ArgVars)
  | 0, i, v => do
    let mem ← storePtr v.mem (dst + 8 * i) 0
    return (true, { v with mem := mem })
  | n + 1, i, v => do
    let s ← loadPtr v.mem (src + 8 * i)
    let size ← strlen v.mem s
    let len := toInt (size + 1)
    let left ← subInt v.left len
    if left < 0 then return (false, v)
    else
      let (dest, cur) := place down v.cur len
      let mem ← memcpy v.mem dest s (toSize len)
      let mem ← storePtr mem (dst + 8 * i) dest
      argLoop down src dst n (i + 1) ⟨mem, cur, left⟩

/-- `dup_args`: the returned value, the memory and the values of `*ptr_argv` and `*ptr_envp`. -/
def dupArgs (mem : Mem) (argv envp buf : Nat) (bufsz : Int) : Option (Int × Mem × Nat × Nat) := do
  let argc ← count mem argv
  let envc ← count mem envp
  -- the difference is unsigned
  if toSize (bufsz - (argc + envc + 2) * 8) < 0 then return (-1, mem, argv, envp)
  else
    let newargv := buf
    let newenvp := toSize (newargv + (argc + 1) * 8)
    let v := ⟨mem, toSize (newenvp + (envc + 1) * 8), toInt (bufsz - (argc + envc + 2) * 8)⟩
    let (ok, v) ← argLoop false argv newargv argc 0 v
    if ok then
      let (ok, v) ← argLoop false envp newenvp envc 0 v
      if ok then return (0, v.mem, newargv, newenvp) else return (-1, v.mem, newargv, envp)
    else return (-1, v.mem, argv, envp)

def storeArglist (v : ArgVars) (argc newargv newenvp : Nat) : Option (Nat × Mem) := do
  let bufend := v.cur - v.cur % 8
  let bufsize := v.left - v.left % 8
  -- the difference is unsigned
  if toSize (bufsize - 3 * 8) < 0 then return (0, v.mem)
  else
    let arglist := toSize (bufend - 3 * 8)
    let mem ← storePtr v.mem arglist argc
    let mem ← storePtr mem (arglist + 8) newargv
    let mem ← storePtr mem (arglist + 16) newenvp
    return (arglist, mem)

/-- `setup_args`: the returned address and the memory. -/
def setupArgs (mem : Mem) (argv envp bufend : Nat) (bufsize : Int) : Option (Nat × Mem) := do
  let argc ← count mem argv
  let envc ← count mem envp
  -- the difference is unsigned
  if toSize (bufsize - (argc + envc + 2) * 8) < 0 then return (0, mem)
  else
    let newargv := toSize (bufend - (argc + 1) * 8)
    let newenvp := toSize (newargv - (envc + 1) * 8)
    let v := ⟨mem, newenvp, toInt (bufsize - (argc + envc + 2) * 8)⟩
    let (ok, v) ← argLoop true argv newargv argc 0 v
    if ok then
      let (ok, v) ← argLoop true envp newenvp envc 0 v
      if ok then storeArglist v argc newargv newenvp else return (0, v.mem)
    else return (0, v.mem)

/-! ## Vectors of strings -/

structure CStr (mem : Mem) (a : Nat) (s : List UInt8) : Prop where
  nonzero : ∀ c ∈ s, c ≠ 0
  byte : ∀ i (h : i < s.length), mem (a + i) = s[i]
  stop : mem (a + s.length) = 0
  inside : Canonical a (s.length + 1)

def Pointers (mem : Mem) : Nat → List Nat → Prop
  | p, [] => Canonical p 8 ∧ mem.load p 8 = 0
  | p, a :: as => Canonical p 8 ∧ mem.load p 8 = a ∧ a ≠ 0 ∧ Pointers mem (p + 8) as

structure Vec (mem : Mem) (p : Nat) (xs : List (Nat × List UInt8)) : Prop where
  pointers : Pointers mem p (xs.map Prod.fst)
  strings : ∀ x ∈ xs, CStr mem x.1 x.2

/-- A parameter of `execve`: `NULL` stands for an array without strings. -/
def ArgVec (mem : Mem) (p : Nat) (xs : List (Nat × List UInt8)) : Prop := p = 0 ∧ xs = [] ∨ p ≠ 0 ∧ Vec mem p xs

abbrev Area := Nat × Nat

def Area.Apart (x y : Area) : Prop := x.1 + x.2 ≤ y.1 ∨ y.1 + y.2 ≤ x.1

def vecAreas (p : Nat) (xs : List (Nat × List UInt8)) : List Area :=
  (p, 8 * (xs.length + 1)) :: xs.map fun x => (x.1, x.2.length + 1)

end FengOS.Exec
