import FengOS.Vfs.Path
import FengOS.Vfs.Table

/-!
# The tree of dentries

Every dentry but the root hangs below an older one. `mount_dev` does not set `f_parent`, so the dentries it makes hang below
a dentry that they do not point to.
-/

namespace FengOS.Vfs

/-- Where `mount_dev` and `vfs_lookup_in_fs` link a dentry: 1 is `/dev`, 2 and 3 are the devices. -/
def State.home (v : State) (d : Nat) : Nat :=
  if d ≤ 1 then 0 else if d ≤ 3 then 1 else (v.dentry d).parent.getD 0

structure ChildName (n : Name) : Prop where
  no_slash : slash ∉ n
  no_nul : 0 ∉ n
  not_dot : n ≠ dot
  not_dotdot : n ≠ dotdot

structure State.Tree (v : State) : Prop where
  root : v.rootEntry = 0
  four_le : 4 ≤ v.nrDentry
  std : v.stdin = 3 ∧ v.stdout = 2 ∧ v.stderr = 2
  parent : ∀ d < v.nrDentry, (v.dentry d).parent = if 1 ≤ d ∧ d ≤ 3 then none else some (v.home d)
  home_lt : ∀ d < v.nrDentry, 0 < d → v.home d < d
  mem_children : ∀ e c, c ∈ (v.dentry e).children ↔ 0 < c ∧ c < v.nrDentry ∧ v.home c = e
  siblings : ∀ e, (v.dentry e).children.Pairwise fun c d => (v.dentry c).name ≠ (v.dentry d).name
  name : ∀ d < v.nrDentry, 0 < d → ChildName (v.dentry d).name
  name_lt : ∀ d < v.nrDentry, 0 < d → (v.dentry d).name.length < nameSize
  root_name : (v.dentry 0).name = [slash]
  dev_name : (v.dentry 1).name = devName

structure Table.Inside (t : Table) (n : Nat) : Prop where
  cwd : t.cwd < n
  file : ∀ fd f, t.files fd = some f → f.dentry < n

structure State.Inv (v : State) : Prop where
  tree : v.Tree
  owned : v.Owned
  inside : ∀ p t, v.table p = some t → t.Inside v.nrDentry

end FengOS.Vfs
