import FengOS.Core.Lemmas.Wait
import Mathlib.Logic.Function.Iterate

/-!
# The pids of forked processes (`core/fork.c`)
-/

namespace FengOS.Core

open FengOS.Lib

variable {k k' : Kernel} {α β : Type} {msg : Message} {caller : RecvCaller} {f : α → Except Fault β}

/-! ## What a pid must be -/

/-- The pids of the services, and the numbers that stand for no process. -/
def reservedPids : List Int := [1, 2, 3, 4, 5, 6, 7, ipcSignal, ipcIntr, ipcAll, ipcKernel]

/-- What `alloc_pid` returns now is a pid for a new process. -/
structure Kernel.GivesPid (k : Kernel) : Prop where
  pos : 0 < (allocPid k).1
  new : ∀ p, (k.proc p).pid ≠ (allocPid k).1
  free : (allocPid k).1 ∉ reservedPids

/-- After `proc_init`, with different pids of boot modules below those of forks. -/
def Kernel.Started (k : Kernel) : Prop :=
  ∃ maxIntr pids, procInit maxIntr pids = .ok k ∧ pids.Nodup ∧ ∀ pid ∈ pids, 0 < pid ∧ pid ≤ 128

abbrev Kernel.ReachStarted : Kernel → Prop := Run Kernel.step Kernel.PidLeft Kernel.Started

/-! ## The counter is left alone -/

/-- If the computation returns, then with such a value. -/
def Returns (P : α → Prop) (x : Except Fault α) : Prop := ∀ a, x = .ok a → P a

theorem returns_ok {P : α → Prop} {a : α} (h : P a) : Returns P (.ok a) := by
  rintro _ ⟨⟩
  exact h

theorem returns_error {P : α → Prop} {e : Fault} : Returns P (.error e) := nofun

theorem Returns.bind {P : β → Prop} {Q : α → Prop} {x : Except Fault α} (hx : Returns Q x)
    (hf : ∀ a, Q a → Returns P (f a)) : Returns P (x >>= f) := by
  intro b hb
  obtain ⟨a, ha, hb⟩ := bind_eq_ok hb
  exact hf a (hx a ha) b hb

theorem returns_bind {P : β → Prop} {x : Except Fault α} (hf : ∀ a, Returns P (f a)) : Returns P (x >>= f) :=
  Returns.bind (Q := fun _ => True) (fun _ _ => trivial) fun a _ => hf a

abbrev Kernel.Counts (k k' : Kernel) : Prop := k'.globalPid = k.globalPid

@[simp] theorem setCur_globalPid (k : Kernel) (P : Proc) : (k.setCur P).globalPid = k.globalPid := rfl

@[simp] theorem emit_globalPid (k : Kernel) (e : Rendezvous.Event Nat Message) : (k.emit e).globalPid = k.globalPid := rfl

@[simp] theorem schedule_globalPid (k : Kernel) : (schedule k).globalPid = k.globalPid := (schedule_alike k).globalPid

@[simp] theorem toUser_globalPid (k : Kernel) : (toUser k).globalPid = k.globalPid := rfl

@[simp] theorem wakeReceiver_globalPid (k : Kernel) (dest : Nat) (waits : List Int) :
    (wakeReceiver k dest waits).globalPid = k.globalPid := by
  unfold wakeReceiver
  split <;> rfl

@[simp] theorem enqueue_globalPid (k : Kernel) (dest : Nat) (dst : Int) (msg : Message) (caller : SendCaller) :
    (enqueue k dest dst msg caller).globalPid = k.globalPid := rfl

@[simp] theorem copyMessage_globalPid (k : Kernel) (source : Nat) : (copyMessage k source).globalPid = k.globalPid := rfl

@[simp] theorem takeIntr_globalPid (k : Kernel) (msg : Message) : (takeIntr k msg).kernel.globalPid = k.globalPid := rfl

@[simp] theorem blockReceiving_globalPid (k : Kernel) (wait : Int) (kont : Kont) :
    (blockReceiving k wait kont).globalPid = k.globalPid := schedule_globalPid _

@[simp] theorem sendSignal_globalPid (k : Kernel) (p : Nat) (signal : Int) :
    (sendSignal k p signal).globalPid = k.globalPid := wakeReceiver_globalPid ..

theorem doSend_counts {dst : Int} {caller : SendCaller} :
    Returns (fun f => k.Counts f.kernel) (doSend k dst msg caller) := by
  refine returns_bind fun dest => ?_
  split
  · exact returns_ok (wakeReceiver_globalPid ..)
  · exact returns_ok (by simp [Kernel.Counts, Flow.kernel])

theorem takeMessage_counts {source : Nat} : Returns (fun f => k.Counts f.kernel) (takeMessage k source) :=
  returns_bind fun _ => returns_ok (copyMessage_globalPid ..)

theorem recvAll_counts : Returns (fun f => k.Counts f.kernel) (recvAll k msg caller) := by
  unfold recvAll
  split
  · exact returns_ok (takeIntr_globalPid ..)
  · split
    · exact takeMessage_counts
    · exact returns_ok (blockReceiving_globalPid ..)

theorem doRecv_counts {src : Int} : Returns (fun f => k.Counts f.kernel) (doRecv k src msg caller) := by
  unfold doRecv
  split
  · exact recvAll_counts
  · split
    · split
      · exact returns_ok (takeIntr_globalPid ..)
      · exact returns_ok (blockReceiving_globalPid ..)
    · refine returns_bind fun source => ?_
      split
      · exact takeMessage_counts
      · exact returns_ok (blockReceiving_globalPid ..)

theorem doSendrecv_counts {dst : Int} {caller : RpcCaller} :
    Returns (fun f => k.Counts f.kernel) (doSendrecv k dst msg caller) := by
  refine doSend_counts.bind fun f hf => ?_
  cases f with
  | switched k₁ => exact returns_ok hf
  | returned k₁ msg => exact fun f' hf' => (doRecv_counts f' hf').trans hf

theorem adopt_counts : Returns k.Counts (adopt k) := by
  unfold adopt
  split
  · exact returns_ok rfl
  · exact returns_error
  · exact returns_bind fun _ => returns_ok rfl

theorem exitTail_counts {status : BitVec 32} : Returns k.Counts (exitTail k status) := by
  unfold exitTail
  dsimp only
  split
  · exact returns_error
  · exact returns_bind fun _ => returns_ok (by simp [Kernel.Counts])

theorem doExit_counts {status : BitVec 32} {env : Env} : Returns k.Counts (doExit k status env) := by
  refine adopt_counts.bind fun k₁ h₁ => doSendrecv_counts.bind fun f hf => ?_
  cases f with
  | switched k₂ => exact returns_ok (hf.trans h₁)
  | returned k₂ msg => exact fun k' hk' => (exitTail_counts k' hk').trans (hf.trans h₁)

theorem unmapProc_counts {pid : Int} : Returns k.Counts (unmapProc k pid) := by
  refine returns_bind fun found => ?_
  cases found with
  | none => exact returns_ok rfl
  | some p => exact returns_ok rfl

theorem waitTail_counts : Returns k.Counts (waitTail k) := by
  refine returns_bind fun found => ?_
  cases found with
  | none => exact returns_error
  | some child =>
    refine Returns.bind (Q := k.Counts) (unmapProc_counts.bind fun k₁ h₁ => returns_ok h₁) fun k₁ h₁ => ?_
    exact returns_ok h₁

theorem doWait_counts : Returns k.Counts (doWait k) := by
  unfold doWait
  split
  · exact returns_ok rfl
  · split
    · exact returns_ok (blockReceiving_globalPid ..)
    · exact waitTail_counts

theorem forkLink_counts {child : Nat} : Returns k.Counts (forkLink k child msg) := by
  unfold forkLink
  split
  · exact returns_ok rfl
  · exact Returns.bind (Q := k.Counts) (returns_bind fun _ => returns_ok rfl) fun k₁ h₁ => returns_ok h₁

theorem rpcReturn_counts {caller : RpcCaller} : Returns k.Counts (rpcReturn k msg caller) := by
  cases caller with
  | syscall => exact returns_ok rfl
  | exit status => exact exitTail_counts
  | fork child => exact forkLink_counts

theorem recvReturn_counts {f : Flow} (hf : k.Counts f.kernel) : Returns k.Counts (recvReturn caller f) := by
  cases f with
  | switched k₁ => exact returns_ok hf
  | returned k₁ msg =>
    cases caller with
    | syscall => exact returns_ok hf
    | rpc caller => exact fun k' hk' => (rpcReturn_counts k' hk').trans hf

theorem sendReturn_counts {caller : SendCaller} : Returns k.Counts (sendReturn k msg caller) := by
  cases caller with
  | syscall => exact returns_ok rfl
  | rpc dst caller => exact doRecv_counts.bind fun f hf => recvReturn_counts hf

theorem resume_counts : Returns k.Counts (resume k) := by
  unfold resume
  split
  · exact returns_ok rfl
  · exact sendReturn_counts
  · exact recvAll_counts.bind fun f hf => recvReturn_counts hf
  · exact recvReturn_counts (takeIntr_globalPid ..)
  · exact takeMessage_counts.bind fun f hf => recvReturn_counts hf
  · exact waitTail_counts
  · exact returns_ok rfl
  · exact returns_error

@[simp] theorem retFromInt_globalPid (k : Kernel) : (retFromInt k).globalPid = k.globalPid := by
  unfold retFromInt
  split
  · exact schedule_globalPid k
  · rfl

@[simp] theorem updateAlarm_globalPid (k : Kernel) : (updateAlarm k).globalPid = k.globalPid := by
  unfold updateAlarm
  induction k.procHead generalizing k with
  | nil => rfl
  | cons p ps ih => exact ih _

theorem hwint_counts {ind : Nat} : Returns k.Counts (hwint k ind) := by
  unfold hwint
  split
  · exact returns_ok (retFromInt_globalPid k)
  · refine doSend_counts.bind fun f hf => ?_
    cases f with
    | switched k₁ => exact returns_ok hf
    | returned k₁ msg => exact returns_ok ((retFromInt_globalPid k₁).trans hf)

/-! ## A step -/

theorem doFork_counter {env : Env} (hglobal : 0 ≤ k.globalPid) (hpid : k.globalPid + 1 < ipcSignal) :
    Returns (fun k' => k.globalPid ≤ k'.globalPid) (doFork k env) := by
  unfold doFork
  split
  · exact returns_ok (Int.le_refl _)
  · refine Returns.bind (Q := fun r => r.2.globalPid = k.globalPid + 1) ?_ fun r hr => ?_
    · rintro ⟨child, k₁⟩ h₁
      rw [(newProc_ok h₁ hglobal hpid).2]
      rfl
    · have hle : k.globalPid ≤ r.2.globalPid := by omega
      dsimp only
      split
      · exact returns_ok hle
      · refine doSendrecv_counts.bind fun f hf => ?_
        cases f with
        | switched k₂ => exact returns_ok (hf ▸ hle)
        | returned k₂ msg => exact fun k' hk' => Int.le_trans hle (Int.le_of_eq ((forkLink_counts k' hk').trans hf).symm)

theorem call_counter {c : Call} (hglobal : 0 ≤ k.globalPid) (hpid : k.PidLeft (.call c)) :
    Returns (fun k' => k.globalPid ≤ k'.globalPid) (call k c) := by
  cases c with
  | fork env => exact doFork_counter hglobal hpid
  | exit status env => exact fun k' hk' => Int.le_of_eq (doExit_counts k' hk').symm
  | wait => exact fun k' hk' => Int.le_of_eq (doWait_counts k' hk').symm
  | other => exact returns_ok (Int.le_refl _)
  | send dst msg =>
    refine doSend_counts.bind fun f hf => ?_
    cases f <;> exact returns_ok (Int.le_of_eq hf.symm)
  | recv src msg =>
    exact doRecv_counts.bind fun f hf k' hk' => Int.le_of_eq (recvReturn_counts hf k' hk').symm
  | sendrecv dst msg =>
    exact doSendrecv_counts.bind fun f hf k' hk' => Int.le_of_eq (recvReturn_counts hf k' hk').symm
  | registerIrq vector =>
    refine returns_ok (Int.le_of_eq ?_)
    unfold registerIrq
    split <;> rfl
  | unregisterIrq vector =>
    refine returns_ok (Int.le_of_eq ?_)
    unfold unregisterIrq
    split <;> rfl

theorem Kernel.step_counter {a : Action} (h : k.step a = some k') (hglobal : 0 ≤ k.globalPid) (hpid : k.PidLeft a) :
    k.globalPid ≤ k'.globalPid := by
  have hact : act k a = .ok k' := by
    unfold Kernel.step at h
    split at h
    · cases hx : act k a with
      | error e =>
        rw [hx] at h
        cases h
      | ok k₁ =>
        rw [hx] at h
        exact congrArg _ (Option.some.inj h)
    · cases h
  cases a with
  | call c => exact call_counter hglobal hpid k' hact
  | timer =>
    cases hact
    exact Int.le_of_eq (by simp [timer])
  | hwint ind => exact Int.le_of_eq (hwint_counts k' hact).symm
  | signal p signal =>
    obtain ⟨_, -, hact⟩ := bind_eq_ok hact
    cases hact
    exact Int.le_of_eq (sendSignal_globalPid ..).symm
  | resume => exact Int.le_of_eq (resume_counts k' hact).symm

/-! ## Runs -/

theorem addModules_globalPid {pids : List Int} (h : pids.foldlM addModule k = .ok k') : k'.globalPid = k.globalPid := by
  induction pids generalizing k with
  | nil =>
    cases h
    rfl
  | cons pid pids ih =>
    rw [List.foldlM_cons] at h
    obtain ⟨k₁, h₁, h⟩ := bind_eq_ok h
    have hk₁ : k₁.globalPid = k.globalPid := by
      obtain ⟨i, -, h₁⟩ := bind_eq_ok h₁
      cases h₁
      rfl
    exact (ih h).trans hk₁

theorem Kernel.Started.quiet (h : k.Started) : k.Quiet ∧ k.globalPid = 128 := by
  obtain ⟨maxIntr, pids, hk, hnodup, hpids⟩ := h
  exact ⟨(procInit_booted hk hnodup hpids).quiet, addModules_globalPid hk⟩

theorem Kernel.ReachStarted.counter (h : k.ReachStarted) : k.Base ∧ 128 ≤ k.globalPid := by
  have hinv : (∃ s₀, k.Inv s₀ False) ∧ 128 ≤ k.globalPid := by
    apply Run.invariant (Q := fun k : Kernel => (∃ s₀, k.Inv s₀ False) ∧ 128 ≤ k.globalPid) _ _ h
    · intro k hk
      exact ⟨⟨k.protocol, hk.quiet.1.inv⟩, Int.le_of_eq hk.quiet.2.symm⟩
    · rintro k a k' ⟨⟨s₀, hinv⟩, hge⟩ hpid hstep
      exact ⟨⟨s₀, hinv.step hstep hpid False.elim⟩, Int.le_trans hge (k.step_counter hstep (by omega) hpid)⟩
  obtain ⟨⟨s₀, hinv⟩, hge⟩ := hinv
  exact ⟨hinv.base, hge⟩

theorem allocPid_fst (k : Kernel) : (allocPid k).1 = Int.bmod (k.globalPid + 1) (2 ^ 32) := rfl

/-- From the boot on, the next pid is new exactly if the counter is not at its end, and no process has a special number. -/
theorem givesPid_iff (h : k.ReachStarted) :
    (k.GivesPid ↔ k.globalPid + 1 < ipcSignal) ∧
      ∀ p, (k.proc p).pid ∉ [ipcSignal, ipcIntr, ipcAll, ipcKernel] := by
  obtain ⟨hbase, hge⟩ := h.counter
  have hlt := hbase.global.2
  refine ⟨⟨fun hgives => ?_, fun hleft => ?_⟩, fun p => ?_⟩
  · -- the counter is below `IPC_SIGNAL`, so it can only be right before it
    by_contra hend
    have hpid : (allocPid k).1 = ipcSignal := by
      unfold ipcSignal at hlt hend
      have hglobal : k.globalPid = 0x0ffffffb := by omega
      rw [allocPid_fst, hglobal]
      decide
    exact hgives.free (by rw [hpid]; decide)
  · have halloc : (allocPid k).1 = k.globalPid + 1 := by rw [allocPid_eq hbase.global.1 hleft]
    refine ⟨by omega, fun p => ?_, ?_⟩
    · have := hbase.pid_le p
      omega
    · rw [halloc]
      unfold ipcSignal at hleft
      simp only [reservedPids, ipcSignal, ipcIntr, ipcAll, ipcKernel, List.mem_cons, List.not_mem_nil, or_false]
      omega
  · have := hbase.pid_le p
    unfold ipcSignal at hlt
    simp only [ipcSignal, ipcIntr, ipcAll, ipcKernel, List.mem_cons, List.not_mem_nil, or_false]
    omega

theorem givesPid_after_fork : ∃ k : Kernel, k.ReachStarted ∧ k.globalPid = 129 ∧ k.GivesPid := by
  have hexec : (procInit 24 [2, 3]).toOption.any (fun k => (exec Kernel.step Kernel.PidLeft k
      [.timer, .call (.recv ipcAll default), .call (.fork ⟨true, true, default⟩)]).any fun k =>
        decide (k.globalPid = 129)) = true := by decide
  have hinit : ∀ k, procInit 24 [2, 3] = .ok k → Kernel.Started k := fun k hk => ⟨24, [2, 3], hk, by decide, by decide⟩
  obtain ⟨k, hk, hpid⟩ := exists_of_procInit hinit hexec
  exact ⟨k, hk, hpid, (givesPid_iff hk).1.mpr (by rw [hpid]; decide)⟩

theorem allocPid_iterate (maxIntr : Nat) {n : Nat} (h : 128 + n < 0x0ffffffc) :
    ((fun k => (allocPid k).2)^[n] (Kernel.empty maxIntr)).globalPid = 128 + n := by
  induction n with
  | zero => rfl
  | succ n ih =>
    have hn := ih (by omega)
    rw [Function.iterate_succ_apply', allocPid_eq (by omega) (by unfold ipcSignal; omega)]
    show ((fun k => (allocPid k).2)^[n] (Kernel.empty maxIntr)).globalPid + 1 = 128 + (n + 1 : Nat)
    omega

/-- The pid that follows the first 268435323 is `IPC_SIGNAL`. -/
theorem pid_is_signal :
    (allocPid ((fun k => (allocPid k).2)^[268435323] (Kernel.empty 24))).1 = ipcSignal ∧
      ¬ ((fun k => (allocPid k).2)^[268435323] (Kernel.empty 24)).GivesPid := by
  have hcount := allocPid_iterate 24 (n := 268435323) (by decide)
  have hpid : (allocPid ((fun k => (allocPid k).2)^[268435323] (Kernel.empty 24))).1 = ipcSignal := by
    rw [allocPid_fst, hcount]
    decide
  exact ⟨hpid, fun hgives => hgives.free (by rw [hpid]; decide)⟩

end FengOS.Core
