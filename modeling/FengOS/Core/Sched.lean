import FengOS.Core.Proc

/-!
# The process table and the scheduler (`core/sched.c`)
-/

namespace FengOS.Core

/-! ## The hash map of processes -/

/-- `pid % PROC_HASH_MAP_SIZE` as an index; C's remainder has the sign of the pid. -/
def hashIndex (pid : Int) : Except Fault Nat :=
  let i := pid.tmod procHashMapSize
  if i < 0 then .error .badIndex else .ok i.toNat

/-- `map_proc`; the option is the pointer, which may be NULL. -/
def mapProc (k : Kernel) (pid : Int) : Except Fault (Option Nat) := do
  let i ← hashIndex pid
  return (k.hashMap i).find? fun p => (k.proc p).pid = pid

/-- `map_proc` where the result is used without a test. -/
def findProc (k : Kernel) (pid : Int) : Except Fault Nat := do
  match ← mapProc k pid with
  | none => .error .noProc
  | some p =>
    k.deref p
    return p

def hashProc (k : Kernel) (p : Nat) : Except Fault Kernel := do
  let i ← hashIndex (k.proc p).pid
  return { k with hashMap := Function.update k.hashMap i (k.hashMap i ++ [p]) }

def unmapProc (k : Kernel) (pid : Int) : Except Fault Kernel := do
  match ← mapProc k pid with
  | none => return k
  | some p => return { k with hashMap := fun i => (k.hashMap i).erase p }

/-! ## Scheduling -/

def tickAlarm (P : Proc) : Proc :=
  if P.alarm = 0 then P
  else { P with alarm := P.alarm - 1, state := if P.alarm - 1 = 0 then .running else P.state }

def updateAlarm (k : Kernel) : Kernel := k.procHead.foldl (fun k p => k.set p (tickAlarm (k.proc p))) k

/-- The first half of `schedule`: the running process gives the CPU up and goes to the end of `proc_head`. -/
def yieldCur (k : Kernel) : Kernel :=
  let prev := k.cur
  let k := k.setCur
    { prev with needSchedule := false, state := if prev.state = .running then .runnable else prev.state }
  if prev.idle then k else { k with procHead := k.procHead.erase k.current ++ [k.current] }

/-- The second half of `schedule`: the first process that can run, or the idle process. -/
def pickNext (k : Kernel) : Kernel :=
  match k.procHead.find? fun p => (k.proc p).state = .runnable with
  | some next => { k.set next { k.proc next with state := .running } with current := next }
  | none => { k with current := 0 }

/-- `schedule`. The field `counter` it sets is not read by any code. -/
def schedule (k : Kernel) : Kernel := pickNext (yieldCur k)

end FengOS.Core
