import FengOS.Core.Run

/-!
# The process tree

The list of the children of a process and the field `parent` of its children, and the two lists that hold all
processes: `proc_head` and the hash map.
-/

namespace FengOS.Core

open FengOS.Lib

/-- `proc_head` holds the processes of the hash map, each once. -/
structure Kernel.Listed (k : Kernel) : Prop where
  nodup : k.procHead.Nodup
  mem : ∀ p, p ∈ k.procHead ↔ ∃ i, p ∈ k.hashMap i
  current : k.current ≠ 0 → k.current ∈ k.procHead
  idle : (k.proc 0).idle = true

/-- The lists of children and the fields `parent` agree; the first `n` processes, of the boot, are on no list. -/
structure Kernel.Tree (n : Nat) (k : Kernel) : Prop where
  linked : ∀ p c, n ≤ c → k.alive c = true → (k.proc c).parent = some p → (k.proc p).children.count c = 1
  unlinked : ∀ p c, c ∈ (k.proc p).children → n ≤ c ∧ k.alive c = true ∧ (k.proc c).parent = some p
  parent : ∀ p c, n ≤ c → k.alive c = true → (k.proc c).parent = some p → p < k.nextProc
  bound : n ≤ k.nextProc

/-- What holds between two steps; the tree is in order if all steps have been tidy. -/
structure Kernel.Kin (n : Nat) (tidy : Prop) (k : Kernel) : Prop where
  listed : k.Listed
  tree : tidy → k.Tree n

/-! ## Tidy steps -/

/-- Going on, the process reaps no child, and no fork fails because of the file server. -/
def Kernel.TidyKont (k : Kernel) : Kont → Prop
  | .wait => False
  | .send _ _ (.rpc dst (.fork _)) => ∀ q ∈ k.lookup dst, k.Linked q k.current → (k.proc q).msg.retval = 0
  | .recvFrom source _ (.rpc (.fork _)) => (k.proc source).msg.retval = 0
  | _ => True

/-- The step reaps no child, fails no fork with the child linked, and is not the exit of a process with children. -/
def Kernel.Tidy (k : Kernel) : Action → Prop
  | .call .wait => k.cur.children = [] ∨ k.cur.signal ≠ sigchld
  | .call (.exit _ _) => k.cur.children = []
  | .call (.fork env) => env.pages = true → env.pgd = true
  | .resume => k.TidyKont k.cur.kont
  | _ => True

/-! ## Runs -/

/-- The start of a run with `n` processes, the idle process among them. -/
structure Kernel.Booted (n : Nat) (k : Kernel) : Prop where
  quiet : k.Quiet
  listed : k.Listed
  childless : ∀ p, (k.proc p).children = []
  next : k.nextProc = n

abbrev Kernel.ReachBoot (n : Nat) : Kernel → Prop := Run Kernel.step Kernel.PidLeft (Kernel.Booted n)

abbrev Kernel.ReachTidy (n : Nat) : Kernel → Prop :=
  Run Kernel.step (fun k a => k.PidLeft a ∧ k.Tidy a) (Kernel.Booted n)

instance Kernel.decidableTidyKont (k : Kernel) : ∀ kont, Decidable (k.TidyKont kont)
  | .wait => .isFalse id
  | .send _ _ (.rpc dst (.fork _)) => inferInstanceAs (Decidable (∀ q ∈ k.lookup dst, _ → _))
  | .recvFrom source _ (.rpc (.fork _)) => inferInstanceAs (Decidable ((k.proc source).msg.retval = 0))
  | .user | .send _ _ .syscall | .send _ _ (.rpc _ .syscall) | .send _ _ (.rpc _ (.exit _)) | .recvAll _ _
  | .recvIntr _ _ | .recvFrom _ _ .syscall | .recvFrom _ _ (.rpc .syscall) | .recvFrom _ _ (.rpc (.exit _))
  | .forkTail _ | .dead => .isTrue trivial

instance Kernel.decidableTidy (k : Kernel) : ∀ a, Decidable (k.Tidy a)
  | .call .wait => inferInstanceAs (Decidable (k.cur.children = [] ∨ k.cur.signal ≠ sigchld))
  | .call (.exit _ _) => inferInstanceAs (Decidable (k.cur.children = []))
  | .call (.fork env) => inferInstanceAs (Decidable (env.pages = true → env.pgd = true))
  | .resume => inferInstanceAs (Decidable (k.TidyKont k.cur.kont))
  | .call (.send _ _) | .call (.recv _ _) | .call (.sendrecv _ _) | .call (.registerIrq _) | .call (.unregisterIrq _)
  | .call .other | .timer | .hwint _ | .signal _ _ => .isTrue trivial

end FengOS.Core
