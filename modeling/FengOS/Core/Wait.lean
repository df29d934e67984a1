import FengOS.Core.Kin

/-!
# Waiting for children

`do_exit` puts SIGCHLD into the one field `signal` of the parent, and `do_wait` clears the field and reaps one child.
-/

namespace FengOS.Core

open FengOS.Lib

/-- The process has exited and has not been reaped. -/
def Kernel.Zombie (k : Kernel) (c : Nat) : Prop := k.alive c = true ∧ (k.proc c).phase = .stopped

instance (k : Kernel) (c : Nat) : Decidable (k.Zombie c) := inferInstanceAs (Decidable (_ ∧ _))

def Proc.Woken (P : Proc) : Prop := P.kont = .wait ∧ P.phase = .ready

/-- `signal` tells of the children that have exited; the first `n` processes are of the boot. -/
structure Kernel.Nursery (n : Nat) (k : Kernel) : Prop where
  owned : ∀ p c, c ∈ (k.proc p).children → n ≤ c ∧ c < k.nextProc ∧ (k.proc c).parent = some p
  listed : ∀ p c, n ≤ c → k.alive c = true → (k.proc c).parent = some p → c ∈ (k.proc p).children
  boot : ∀ p c, c < n → (k.proc c).parent = some p → p = 0
  parent : ∀ p c, n ≤ c → k.alive c = true → (k.proc c).parent = some p → p < k.nextProc
  told : ∀ p, ∀ c ∈ (k.proc p).children, k.Zombie c → (k.proc p).signal = sigchld
  zombie : ∀ p, p ≠ 0 → (k.proc p).signal = sigchld → ∃ c ∈ (k.proc p).children, k.Zombie c
  woken : ∀ p, (k.proc p).Woken → (k.proc p).signal = sigchld
  bound : n ≤ k.nextProc

/-! ## Timely steps -/

/-- At most one child of the process is to be reaped, and no freed process is linked in front of it. -/
def Kernel.Reapable (k : Kernel) : Prop :=
  (∀ c ∈ k.cur.children, ∀ d ∈ k.cur.children, k.Zombie c → k.Zombie d → c = d) ∧
    ∀ d ∈ k.cur.children.takeWhile fun c => ¬ k.Zombie c, k.alive d = true

/-- Going on, `do_wait` reaps the only child to reap, and no fork fails because of the file server. -/
def Kernel.TimelyKont (k : Kernel) : Kont → Prop
  | .wait => k.Reapable
  | kont => k.TidyKont kont

/-- The step reaps none of several children, links no child to a freed one, fails no fork late, is no exit with children, and
only `do_exit` signals. -/
def Kernel.Timely (k : Kernel) : Action → Prop
  | .call .wait => k.cur.children ≠ [] → k.cur.signal = sigchld → k.Reapable
  | .call (.exit _ _) => k.cur.children = []
  | .call (.fork env) => env.pages = true → k.CanLink ∧ env.pgd = true
  | .signal _ _ => False
  | .resume => k.TimelyKont k.cur.kont
  | _ => True

def Kernel.PastWait (k : Kernel) : Action → Prop
  | .call .wait => k.cur.children ≠ [] ∧ k.cur.signal = sigchld
  | .resume => k.cur.kont = .wait
  | _ => False

/-! ## Runs -/

/-- No process has a signal, and the processes of the boot have the idle process as parent. -/
structure Kernel.Unsignalled (k : Kernel) : Prop where
  signal : ∀ p, (k.proc p).signal = 0
  parent : ∀ p q, (k.proc q).parent = some p → p = 0

abbrev Kernel.ReachTimely (n : Nat) : Kernel → Prop :=
  Run Kernel.step (fun k a => k.PidLeft a ∧ k.Timely a) fun k => k.Booted n ∧ k.Unsignalled

instance (k : Kernel) : Decidable k.Reapable := inferInstanceAs (Decidable (_ ∧ _))

instance Kernel.decidableTimelyKont (k : Kernel) : ∀ kont, Decidable (k.TimelyKont kont)
  | .wait => inferInstanceAs (Decidable k.Reapable)
  | .user => inferInstanceAs (Decidable (k.TidyKont .user))
  | .send dest msg caller => inferInstanceAs (Decidable (k.TidyKont (.send dest msg caller)))
  | .recvAll msg caller => inferInstanceAs (Decidable (k.TidyKont (.recvAll msg caller)))
  | .recvIntr msg caller => inferInstanceAs (Decidable (k.TidyKont (.recvIntr msg caller)))
  | .recvFrom source msg caller => inferInstanceAs (Decidable (k.TidyKont (.recvFrom source msg caller)))
  | .forkTail child => inferInstanceAs (Decidable (k.TidyKont (.forkTail child)))
  | .dead => inferInstanceAs (Decidable (k.TidyKont .dead))

instance Kernel.decidableTimely (k : Kernel) : ∀ a, Decidable (k.Timely a)
  | .call .wait => inferInstanceAs (Decidable (k.cur.children ≠ [] → k.cur.signal = sigchld → k.Reapable))
  | .call (.exit _ _) => inferInstanceAs (Decidable (k.cur.children = []))
  | .call (.fork env) => inferInstanceAs (Decidable (env.pages = true → k.CanLink ∧ env.pgd = true))
  | .signal _ _ => .isFalse id
  | .resume => inferInstanceAs (Decidable (k.TimelyKont k.cur.kont))
  | .call (.send _ _) | .call (.recv _ _) | .call (.sendrecv _ _) | .call (.registerIrq _) | .call (.unregisterIrq _)
  | .call .other | .timer | .hwint _ => .isTrue trivial

end FengOS.Core
