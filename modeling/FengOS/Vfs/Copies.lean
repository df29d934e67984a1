import FengOS.Vfs.Path

/-!
# The strings that `vfs_lookup` copies (`srv/vfs/vfs.c`)

`getfilename` copies a component to `filename`, and `vfs_lookup_in_fs` from there to `f_name`. Neither looks at the size of
its buffer.
-/

namespace FengOS.Vfs

/-! ## Copies -/

inductive Copy where
  | filename (name : Name)
  | fName (name : Name)

def Copy.Ok : Copy → Prop
  | .filename name => name.length + 1 ≤ filenameSize
  | .fName name => name.length + 1 ≤ nameSize

instance : (c : Copy) → Decidable c.Ok
  | .filename name => inferInstanceAs (Decidable (name.length + 1 ≤ filenameSize))
  | .fName name => inferInstanceAs (Decidable (name.length + 1 ≤ nameSize))

def Finds (fs : Fs) (v : State) (d : Nat) (name : Name) : Prop :=
  ∃ reply, fs (v.dentry d).fsPid (.lookup name (v.dentry d).ino) = some reply ∧ reply.retval = 0

instance (fs : Fs) (v : State) (d : Nat) (name : Name) : Decidable (Finds fs v d name) :=
  match h : fs (v.dentry d).fsPid (.lookup name (v.dentry d).ino) with
  | none => .isFalse fun ⟨_, hr, _⟩ => nomatch h.symm.trans hr
  | some reply => decidable_of_iff (reply.retval = 0)
      ⟨fun hr => ⟨reply, h, hr⟩, fun ⟨_, hr, h0⟩ => Option.some.inj (h.symm.trans hr) ▸ h0⟩

/-- The copies of `lookupLoop`, up to the first one that does not fit. -/
def lookupCopies (fs : Fs) : List Name → Option Nat → State → List Copy
  | [], _, _ => []
  | filename :: rest, current, v =>
    .filename filename ::
      if filenameSize ≤ filename.length then []
      else if filename = dotdot then current.elim [] fun d => lookupCopies fs rest (v.dentry d).parent v
      else if filename = dot then lookupCopies fs rest current v
      else current.elim [] fun d =>
        (if v.cached d filename = none ∧ Finds fs v d filename then [.fName filename] else []) ++
          match child fs v d filename with
          | some (some next, v) => lookupCopies fs rest (some next) v
          | _ => []

/-- The lookup keeps to its buffers, and fails for a name that does not fit in a dentry. -/
def CopiesFit (fs : Fs) (v : State) (cwd : Nat) (path : Name) : Prop :=
  (∀ c ∈ lookupCopies fs (pathNames path) (some (v.start cwd path)) v, c.Ok) ∧
    ((∃ n ∈ pathNames path, nameSize ≤ n.length) → ∀ d w, vfsLookup fs v cwd path ≠ some (some d, w))

/-- The state, the directory and the path with which a request gets to `vfs_lookup`. -/
def State.lookups (v : State) (call : Call) : Option (State × Nat × CString) :=
  match call.request with
  | .open filepath _ => (v.needProcFile call.src).map fun r => (r.2, r.1.cwd, filepath)
  | .chdir pathname => (v.mapProcFile call.src).map fun fsp => (v, fsp.cwd, pathname)
  | .stat pathname => (v.mapProcFile call.src).map fun fsp => (v, fsp.cwd, pathname)
  | _ => none

/-! ## Components that are reached -/

/-- Where a component leads, if it leads on. -/
def advance (fs : Fs) (s : Option Nat × State) (n : Name) : Option (Option Nat × State) :=
  if n = dotdot then s.1.map fun d => ((s.2.dentry d).parent, s.2)
  else if n = dot then some s
  else s.1.bind fun d =>
    match child fs s.2 d n with
    | some (some e, w) => some (some e, w)
    | _ => none

/-- A component that is reached has less than 256 bytes, and less than 128 if it is a file not yet cached. -/
def Roomy (fs : Fs) (ns : List Name) (cur : Option Nat) (v : State) : Prop :=
  ∀ pre n post, ns = pre ++ n :: post → ∀ cur' w, pre.foldlM (advance fs) (cur, v) = some (cur', w) →
    n.length < 256 ∧ ∀ d, cur' = some d → w.cached d n = none → Finds fs w d n → n.length < 128

end FengOS.Vfs
