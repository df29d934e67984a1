import FengOS.Vfs.Request
import Mathlib.Logic.Relation

/-!
# What a path means

A reference for `vfs_lookup`, over the components of a path and over the links of the tree from parents to children.
-/

namespace FengOS.Vfs

/-! ## Trees of dentries -/

/-- Follows `f_parent`. -/
def State.up (v : State) : Nat → Nat → Option Nat
  | 0, d => some d
  | k + 1, d => (v.dentry d).parent.bind (v.up k)

def State.Below (v : State) : Nat → Nat → Prop := Relation.ReflTransGen fun e c => c ∈ (v.dentry e).children

/-- A dentry points to the dentry it is linked below, and leads up to the root. -/
structure State.Sound (v : State) (d : Nat) : Prop where
  linked : ∀ e, d ∈ (v.dentry e).children → (v.dentry d).parent = some e
  reaches : ∃ k, v.up k d = some v.rootEntry

/-- Children point back, the root is its own parent, siblings have different names, and all lead up to the root. -/
structure State.WellFormed (v : State) : Prop where
  root_lt : v.rootEntry < v.nrDentry
  root_parent : (v.dentry v.rootEntry).parent = some v.rootEntry
  parent_lt : ∀ d < v.nrDentry, ∀ e, (v.dentry d).parent = some e → e < v.nrDentry
  child_lt : ∀ e < v.nrDentry, ∀ d ∈ (v.dentry e).children, d < v.nrDentry
  linked : ∀ e < v.nrDentry, ∀ d ∈ (v.dentry e).children, (v.dentry d).parent = some e
  names : ∀ e < v.nrDentry, (v.dentry e).children.Pairwise fun c d => (v.dentry c).name ≠ (v.dentry d).name
  reaches : ∀ d < v.nrDentry, ∃ k, v.up k d = some v.rootEntry

def State.above (v : State) (d : Nat) : Nat :=
  if d = v.rootEntry then v.rootEntry
  else ((List.range v.nrDentry).find? fun e => d ∈ (v.dentry e).children).getD d

/-! ## Paths -/

def State.start (v : State) (cwd : Nat) (path : Name) : Nat := if path.head? = some slash then v.rootEntry else cwd

def pathNames (path : Name) : List Name := if path.head? = some slash then names path.tail else names path

/-- A buffer with a string and the 0 after it. -/
def Buf.Holds (buf : Buf) (s : Name) : Prop := ∀ i ≤ s.length, buf i = s.getD i 0

/-- Components other than the empty one and `.`. -/
def Matters (n : Name) : Bool := n ≠ [] ∧ n ≠ dot

def refNames (path : Name) : List Name := (path.splitOn slash).filter Matters

/-- Every component fits in `f_name`. -/
def Short (path : Name) : Prop := ∀ n ∈ path.splitOn slash, n.length < nameSize

/-- The reference: up for `..`, to the child for any other name. -/
def resolve (fs : Fs) : List Name → Nat → State → Option (Option Nat × State)
  | [], d, v => some (some d, v)
  | n :: ns, d, v =>
    if n = dotdot then resolve fs ns (v.above d) v
    else
      match child fs v d n with
      | none => none
      | some (none, v) => some (none, v)
      | some (some e, v) => resolve fs ns e v

def reference (fs : Fs) (v : State) (cwd : Nat) (path : Name) : Option (Option Nat × State) :=
  resolve fs (refNames path) (v.start cwd path) v

/-- The walk does not leave through `..` a dentry without `f_parent`. -/
def UpOk (fs : Fs) : List Name → Nat → State → Prop
  | [], _, _ => True
  | n :: ns, d, v =>
    if n = dotdot then (v.dentry d).parent ≠ none ∧ UpOk fs ns (v.above d) v
    else
      match child fs v d n with
      | some (some e, v) => UpOk fs ns e v
      | _ => True

end FengOS.Vfs
