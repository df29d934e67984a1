import FengOS.Exec.Args
import Mathlib.Algebra.Ring.Nat

/-!
# What `setup_args` writes

The areas that `setup_args` writes to are recorded along its loops, so that they can be compared with its buffer, which ends
at `bufend` and has `bufsize` bytes.
-/

namespace FengOS.Exec

open FengOS.Lib

/-! ## The areas -/

/-- One round over the strings: the area copied to and the new variables, or neither after an early return. -/
def argRound (down : Bool) (src dst i : Nat) (v : ArgVars) : Option (Option (Area × ArgVars)) := do
  let s ← loadPtr v.mem (src + 8 * i)
  let size ← strlen v.mem s
  let len := toInt (size + 1)
  let left ← subInt v.left len
  if left < 0 then return none
  else
    let (dest, cur) := place down v.cur len
    let mem ← memcpy v.mem dest s (toSize len)
    let mem ← storePtr mem (dst + 8 * i) dest
    return some ((dest, toSize len), ⟨mem, cur, left⟩)

def argWrites (src dst : Nat) : Nat → Nat → ArgVars → List Area
  | 0, i, _ => [(dst + 8 * i, 8)]
  | n + 1, i, v =>
    match argRound true src dst i v with
    | some (some (area, v)) => area :: (dst + 8 * i, 8) :: argWrites src dst n (i + 1) v
    | _ => []

def arglistAt (v : ArgVars) : Nat := toSize ((v.cur - v.cur % 8 : Nat) - 3 * 8)

def newArgv (bufend argc : Nat) : Nat := toSize (bufend - (argc + 1) * 8)

def newEnvp (bufend argc envc : Nat) : Nat := toSize (newArgv bufend argc - (envc + 1) * 8)

def setupStart (mem : Mem) (bufend : Nat) (bufsize : Int) (argc envc : Nat) : ArgVars :=
  ⟨mem, newEnvp bufend argc envc, toInt (bufsize - (argc + envc + 2) * 8)⟩

def writesAfter (next : ArgVars → List Area) : Option (Bool × ArgVars) → List Area
  | some (true, v) => next v
  | _ => []

def setupWrites (mem : Mem) (argv envp bufend : Nat) (bufsize : Int) : List Area :=
  match count mem argv, count mem envp with
  | some argc, some envc =>
    argWrites argv (newArgv bufend argc) argc 0 (setupStart mem bufend bufsize argc envc) ++
      writesAfter (fun v =>
        argWrites envp (newEnvp bufend argc envc) envc 0 v ++
          writesAfter (fun v => [(arglistAt v, 8), (arglistAt v + 8, 8), (arglistAt v + 16, 8)])
            (argLoop true envp (newEnvp bufend argc envc) envc 0 v))
        (argLoop true argv (newArgv bufend argc) argc 0 (setupStart mem bufend bufsize argc envc))
  | _, _ => []

/-! ## The buffer -/

/-- The buffer, and the vectors outside of it. -/
structure SetupBuffer (mem : Mem) (argv envp bufend bufsize : Nat) (xs ys : List (Nat × List UInt8)) : Prop where
  aligned : bufend % 8 = 0
  sizeAligned : bufsize % 8 = 0
  size_lt : bufsize < 2 ^ 31
  room : bufsize < bufend
  lt : bufend < 2 ^ 64
  inside : Canonical (bufend - bufsize) bufsize
  argvVec : ArgVec mem argv xs
  envpVec : ArgVec mem envp ys
  argvApart : argv ≠ 0 → ∀ area ∈ vecAreas argv xs, area.Apart (bufend - bufsize, bufsize)
  envpApart : envp ≠ 0 → ∀ area ∈ vecAreas envp ys, area.Apart (bufend - bufsize, bufsize)

def stringsSize (ss : List (List UInt8)) : Nat := (ss.map fun s => s.length + 1).sum

/-- The arrays, the strings, the alignment and the three words fit. -/
def SetupFits (bufsize : Nat) (as es : List (List UInt8)) : Prop :=
  8 * (as.length + es.length + 2) + (stringsSize (as ++ es) + 7) / 8 * 8 + 3 * 8 ≤ bufsize

/-- `setup_args` returns, it writes only inside the buffer, and it returns `NULL` if not everything fits. -/
structure SetupRespects (mem : Mem) (argv envp bufend bufsize : Nat) (as es : List (List UInt8)) : Prop where
  inside : ∀ area ∈ setupWrites mem argv envp bufend bufsize, bufend - bufsize ≤ area.1 ∧ area.1 + area.2 ≤ bufend
  returns : ∃ sp mem', setupArgs mem argv envp bufend bufsize = some (sp, mem') ∧ (¬ SetupFits bufsize as es → sp = 0)

def argLen (s : List UInt8) : Int := toInt (s.length + 1)

/-- The test in the loops fires for the length of a string, without an overflow. -/
def TestFires (left len : Int) : Prop := -2 ^ 31 ≤ left - len ∧ left < len

/-- The test fires for one of the lengths, and the strings before it are copied. -/
def Refused : Int → List Int → Prop
  | _, [] => False
  | left, len :: lens => TestFires left len ∨ 0 ≤ len ∧ len ≤ left ∧ Refused (left - len) lens

/-- Everything fits, or the test fires before anything is written outside. -/
def SetupMet (bufsize : Nat) (as es : List (List UInt8)) : Prop :=
  SetupFits bufsize as es ∨
    as.length < 2 ^ 31 ∧ es.length < 2 ^ 31 ∧ (as = [] → 8 ≤ bufsize) ∧
      Refused (toInt (bufsize - (as.length + es.length + 2) * 8))
        ((if 8 * (as.length + es.length + 2) ≤ bufsize then as ++ es else (as ++ es).take 1).map argLen)

end FengOS.Exec
