import FengOS.Core.Queue
import FengOS.Core.Lemmas.Step

/-!
# The calm part of a step
-/

namespace FengOS.Core

open FengOS.Lib.Rendezvous (Event)

variable {k k' k₁ : Kernel} {p dest source child : Nat} {P P' : Proc} {dst src : Int} {msg : Message} {flow : Flow}
  {caller : RpcCaller} {a : Action}

/-! ## Changes of one record -/

theorem Proc.Calm.refl (P : Proc) : P.Calm P := ⟨rfl, rfl, rfl, id, id⟩

theorem Proc.Calm.trans {P'' : Proc} (h : P.Calm P') (h' : P'.Calm P'') : P.Calm P'' :=
  ⟨h'.pid.trans h.pid, h'.idle.trans h.idle, h'.alarm.trans h.alarm, h.running ∘ h'.running, h.stopped ∘ h'.stopped⟩

theorem Proc.Calm.of_state (hpid : P'.pid = P.pid) (hidle : P'.idle = P.idle) (halarm : P'.alarm = P.alarm)
    (hstate : P'.state = P.state ∨ P'.state = .runnable ∨ P'.state = .sending ∨ P'.state = .receiving) : P.Calm P' := by
  refine ⟨hpid, hidle, halarm, fun h => ?_, fun h => ?_⟩ <;> rcases hstate with hs | hs | hs | hs <;> simp_all

theorem Kernel.Calm.refl (k : Kernel) : k.Calm k :=
  ⟨rfl, rfl, rfl, rfl, ⟨rfl, rfl⟩, fun _ => .refl _, fun _ _ => rfl, fun _ _ => id⟩

theorem Kernel.Calm.trans {k'' : Kernel} (h : k.Calm k') (h' : k'.Calm k'') : k.Calm k'' where
  current := h'.current.trans h.current
  procHead := h'.procHead.trans h.procHead
  nextProc := h'.nextProc.trans h.nextProc
  alive := h'.alive.trans h.alive
  irq := ⟨h'.irq.1.trans h.irq.1, h'.irq.2.trans h.irq.2⟩
  proc p := (h.proc p).trans (h'.proc p)
  kont p hp := (h'.kont p (h.current ▸ hp)).trans (h.kont p hp)
  runnable p hp hr := h'.runnable p (h.current ▸ hp) (h.runnable p hp hr)

theorem Kernel.Calm.set (h : k.Calm k₁) (hP : (k₁.proc p).Calm P) (hkont : p ≠ k₁.current → P.kont = (k₁.proc p).kont)
    (hrun : p ≠ k₁.current → (k₁.proc p).state = .runnable → P.state = .runnable) : k.Calm (k₁.set p P) := by
  refine h.trans ⟨rfl, rfl, rfl, rfl, ⟨rfl, rfl⟩, fun q => ?_, fun q hq => ?_, fun q hq hr => ?_⟩
  · rcases eq_or_ne q p with rfl | hne
    · rwa [set_proc_self]
    · rw [set_proc_of_ne hne]
      exact .refl _
  · rcases eq_or_ne q p with rfl | hne
    · rw [set_proc_self, hkont hq]
    · rw [set_proc_of_ne hne]
  · rcases eq_or_ne q p with rfl | hne
    · rw [set_proc_self, hrun hq hr]
    · rwa [set_proc_of_ne hne]

theorem Kernel.Calm.setCur (h : k.Calm k₁) (hP : k₁.cur.Calm P) : k.Calm (k₁.setCur P) :=
  h.set hP (fun hne => absurd rfl hne) fun hne => absurd rfl hne

theorem Kernel.Calm.setCurSame (h : k.Calm k₁) (hpid : P.pid = k₁.cur.pid) (hidle : P.idle = k₁.cur.idle) (halarm : P.alarm = k₁.cur.alarm)
    (hstate : P.state = k₁.cur.state) : k.Calm (k₁.setCur P) :=
  h.setCur (.of_state hpid hidle halarm (.inl hstate))

theorem Kernel.Calm.setSame (h : k.Calm k₁) (hpid : P.pid = (k₁.proc p).pid) (hidle : P.idle = (k₁.proc p).idle) (halarm : P.alarm = (k₁.proc p).alarm)
    (hstate : P.state = (k₁.proc p).state) (hkont : P.kont = (k₁.proc p).kont) : k.Calm (k₁.set p P) :=
  h.set (.of_state hpid hidle halarm (.inl hstate)) (fun _ => hkont) fun _ hr => hstate.trans hr

theorem Kernel.Calm.wake (h : k.Calm k₁) : k.Calm (k₁.set p { k₁.proc p with state := .runnable }) :=
  h.set (.of_state rfl rfl rfl (.inr (.inl rfl))) (fun _ => rfl) fun _ _ => rfl

theorem Kernel.Calm.emit (h : k.Calm k₁) (e : Event Nat Message) : k.Calm (k₁.emit e) :=
  ⟨h.current, h.procHead, h.nextProc, h.alive, h.irq, h.proc, h.kont, h.runnable⟩

theorem Kernel.Calm.toUser (h : k.Calm k₁) : k.Calm (toUser k₁) := h.setCurSame rfl rfl rfl rfl

@[simp]
theorem toUser_doing (k : Kernel) : (toUser k).cur.kont.doing = .syscall := by
  rw [toUser, setCur_cur]
  rfl

/-! ## Sending and receiving -/

theorem Kernel.Calm.wakeReceiver (h : k.Calm k₁) (waits : List Int) : k.Calm (wakeReceiver k₁ dest waits) := by
  rw [Core.wakeReceiver]
  split
  · exact h.wake
  · exact h

theorem sendIntr_calm (k : Kernel) (dest : Nat) : k.Calm (sendIntr k dest) := by
  rw [sendIntr]
  refine .wakeReceiver (.emit (.setSame (.refl k) ?_ ?_ ?_ ?_ ?_) _) _ <;> rfl

theorem Kernel.Calm.sendSignal (h : k.Calm k₁) (p : Nat) (signal : Int) : k.Calm (sendSignal k₁ p signal) := by
  rw [Core.sendSignal]
  refine .wakeReceiver (h.setSame ?_ ?_ ?_ ?_ ?_) _ <;> rfl

theorem enqueue_calm (k : Kernel) (dest : Nat) (dst : Int) (msg : Message) (caller : SendCaller) :
    k.Calm (enqueue k dest dst msg caller) := by
  rw [enqueue]
  refine .emit (.setSame (.setCur (.refl k) ?_) ?_ ?_ ?_ ?_ ?_) _
  · exact .of_state rfl rfl rfl (.inr (.inr (.inl rfl)))
  all_goals rfl

theorem unlinkWait_calm (k : Kernel) (p : Nat) : k.Calm (unlinkWait k p) :=
  ⟨rfl, rfl, rfl, rfl, ⟨rfl, rfl⟩, fun _ => .of_state rfl rfl rfl (.inl rfl), fun _ _ => rfl, fun _ _ => id⟩

theorem copyMessage_calm (k : Kernel) (source : Nat) : k.Calm (copyMessage k source) := by
  rw [copyMessage]
  refine .emit (.wake (.setCurSame (unlinkWait_calm k source) ?_ ?_ ?_ ?_)) _ <;> rfl

theorem takeMessage_calm (h : takeMessage k source = .ok flow) : flow.Calm k caller := by
  simp only [takeMessage, bind, Except.bind, pure, Except.pure] at h
  split at h
  · cases h
  · cases h
    exact copyMessage_calm k source

theorem takeIntr_calm (k : Kernel) (msg : Message) : (takeIntr k msg).Calm k caller := by
  rw [takeIntr]
  refine Kernel.Calm.emit (.setCurSame (.refl k) ?_ ?_ ?_ ?_) _ <;> rfl

theorem blockReceiving_calm (k : Kernel) (wait : Int) (kont : Kont) :
    (Flow.switched (blockReceiving k wait kont)).Calm k kont.doing := by
  refine ⟨_, (Kernel.Calm.refl k).setCur ?_, ?_, rfl⟩
  · exact .of_state rfl rfl rfl (.inr (.inr (.inr rfl)))
  · rw [setCur_cur]

theorem doSend_calm {caller : SendCaller} (h : doSend k dst msg caller = .ok flow) : flow.Calm k caller.doing := by
  obtain ⟨dest, -, h⟩ := bind_eq_ok h
  split at h
  · cases h
    exact sendIntr_calm k dest
  · cases h
    refine ⟨_, (enqueue_calm k dest dst msg caller).wakeReceiver _, ?_, rfl⟩
    rw [Kernel.cur, wakeReceiver_kont, wakeReceiver_current, (enqueue_calm k dest dst msg caller).current,
      enqueue_proc_current]
    rfl

theorem recvAll_calm {caller : RecvCaller} (h : recvAll k msg caller = .ok flow) : flow.Calm k caller.doing := by
  rw [recvAll] at h
  split at h
  · cases h
    exact takeIntr_calm k msg
  · split at h
    · exact takeMessage_calm h
    · cases h
      exact blockReceiving_calm k ipcAll (.recvAll msg caller)

theorem doRecv_calm {caller : RecvCaller} (h : doRecv k src msg caller = .ok flow) : flow.Calm k caller.doing := by
  rw [doRecv] at h
  split at h
  · exact recvAll_calm h
  · split at h
    · split at h <;> cases h
      · exact takeIntr_calm k msg
      · exact blockReceiving_calm k ipcIntr (.recvIntr msg caller)
    · obtain ⟨source, -, h⟩ := bind_eq_ok h
      split at h
      · exact takeMessage_calm h
      · cases h
        exact blockReceiving_calm k src (.recvFrom source msg caller)

theorem Flow.Calm.of_calm (hk : k.Calm k₁) (h : flow.Calm k₁ caller) : flow.Calm k caller := by
  cases flow with
  | switched k' =>
    obtain ⟨k₀, hcalm, hchild, rfl⟩ := h
    exact ⟨k₀, hk.trans hcalm, hchild, rfl⟩
  | returned k' msg => exact hk.trans h

theorem doSendrecv_calm (h : doSendrecv k dst msg caller = .ok flow) : flow.Calm k caller := by
  obtain ⟨flow', hsend, h⟩ := bind_eq_ok h
  have hcalm := doSend_calm hsend
  cases flow' with
  | switched k' =>
    cases h
    exact hcalm
  | returned k' msg => exact (doRecv_calm h).of_calm hcalm

/-! ## The end of a step -/

theorem Kernel.Outcome.of_calm (hk : k.Calm k₁) (h : k₁.Outcome caller k') : k.Outcome caller k' := by
  cases h with
  | calm h hc => exact .calm (hk.trans h) hc
  | switch h hc => exact .switch (hk.trans h) hc
  | stop hc h => exact .stop hc (hk.trans h)
  | failed hc h => exact .failed hc (hk.trans h)
  | linked hc h => exact .linked hc (hk.trans h)
  | reaped k₁ hc h hs => exact .reaped k₁ hc (hk.trans h) hs

theorem toUser_outcome (k : Kernel) : k.Outcome .syscall (toUser k) := .calm (.toUser (.refl k)) (toUser_doing k)

theorem exitTail_outcome {status : BitVec 32} (h : exitTail k status = .ok k') : k.Outcome (.exit status) k' := by
  rw [exitTail] at h
  split at h
  · cases h
  · obtain ⟨-, -, h⟩ := bind_eq_ok h
    cases h
    refine .stop rfl (.sendSignal (.setCurSame (.refl k) ?_ ?_ ?_ ?_) _ _) <;> rfl

theorem forkLink_outcome (h : forkLink k child msg = .ok k') : k.Outcome (.fork child) k' := by
  rw [forkLink] at h
  split at h
  · cases h
    exact .failed rfl (.refl k)
  · obtain ⟨k₁, hhash, h⟩ := bind_eq_ok h
    obtain ⟨i, -, hhash⟩ := bind_eq_ok hhash
    cases hhash
    cases h
    exact .linked rfl (.refl k)

theorem rpcReturn_outcome (h : rpcReturn k msg caller = .ok k') : k.Outcome caller k' := by
  refine .of_calm (.emit (.refl k) (.reply k.current msg)) ?_
  cases caller with
  | syscall =>
    cases h
    exact toUser_outcome _
  | exit status => exact exitTail_outcome h
  | fork child => exact forkLink_outcome h

theorem Flow.Calm.outcome {caller : RecvCaller} (hflow : flow.Calm k caller.doing)
    (h : recvReturn caller flow = .ok k') : k.Outcome caller.doing k' := by
  cases flow with
  | switched k₁ =>
    cases h
    obtain ⟨k₀, hcalm, hcaller, rfl⟩ := hflow
    exact .switch hcalm hcaller
  | returned k₁ msg =>
    cases caller with
    | syscall =>
      cases h
      exact .of_calm hflow (toUser_outcome _)
    | rpc caller => exact .of_calm hflow (rpcReturn_outcome h)

theorem sendReturn_outcome {caller : SendCaller} (h : sendReturn k msg caller = .ok k') : k.Outcome caller.doing k' := by
  refine .of_calm (.emit (.refl k) (.sent k.current)) ?_
  cases caller with
  | syscall =>
    cases h
    exact toUser_outcome _
  | rpc dst caller =>
    obtain ⟨flow, hrecv, h⟩ := bind_eq_ok h
    exact Flow.Calm.outcome (doRecv_calm hrecv) h

theorem adopt_calm (h : adopt k = .ok k') : k.Calm k' := by
  rw [adopt] at h
  split at h
  · cases h
    exact .refl k
  · cases h
  · obtain ⟨-, -, h⟩ := bind_eq_ok h
    cases h
    refine .setSame (.refl k) ?_ ?_ ?_ ?_ ?_ <;> rfl

theorem doExit_outcome {status : BitVec 32} {env : Env} (h : doExit k status env = .ok k') :
    k.Outcome (.exit status) k' := by
  obtain ⟨k₁, hadopt, h⟩ := bind_eq_ok h
  obtain ⟨flow, hrpc, h⟩ := bind_eq_ok h
  refine .of_calm (adopt_calm hadopt) ?_
  have hcalm := doSendrecv_calm hrpc
  cases flow with
  | switched k₂ =>
    cases h
    obtain ⟨k₀, hcalm, hchild, rfl⟩ := hcalm
    exact .switch hcalm hchild
  | returned k₂ msg => exact .of_calm hcalm (exitTail_outcome h)

theorem reap_outcome (hs : (k.proc child).state = .stopped) (h : reap k child = .ok k') :
    k.Outcome .syscall (toUser k') := by
  obtain ⟨k₁, hunmap, h⟩ := bind_eq_ok h
  obtain ⟨q, -, hunmap⟩ := bind_eq_ok hunmap
  cases h
  cases q with
  | none =>
    cases hunmap
    exact .reaped k rfl (.refl k) hs
  | some q =>
    cases hunmap
    exact .reaped k rfl (.refl k) hs

theorem waitTail_outcome (h : waitTail k = .ok k') : k.Outcome .syscall k' := by
  obtain ⟨found, hfind, h⟩ := bind_eq_ok h
  cases found with
  | none => cases h
  | some child =>
    obtain ⟨k₁, hreap, h⟩ := bind_eq_ok h
    cases h
    refine .of_calm ?_ (reap_outcome (findStopped_some hfind).2.1 hreap)
    refine .setCurSame (.refl k) ?_ ?_ ?_ ?_ <;> rfl

theorem doWait_outcome (h : doWait k = .ok k') : k.Outcome .syscall k' := by
  rw [doWait] at h
  split at h
  · cases h
    exact toUser_outcome k
  · split at h
    · cases h
      obtain ⟨k₀, hcalm, hchild, heq⟩ := blockReceiving_calm k ipcSignal .wait
      rw [heq]
      exact .switch hcalm hchild
    · exact waitTail_outcome h

theorem forkTail_outcome (k : Kernel) (child : Nat) : k.Outcome .syscall (forkTail k child) :=
  .of_calm (.wake (.refl k)) (toUser_outcome _)

theorem doFork_outcome {env : Env} (hk : k.cur.kont = .user) (h : doFork k env = .ok k') :
    ∃ caller k₁, k.Start (.call (.fork env)) caller k₁ ∧ k₁.Outcome caller k' := by
  have hnone : k.cur.kont.doing = .syscall := by
    rw [hk]
    rfl
  rw [doFork] at h
  split at h
  · cases h
    refine ⟨_, k, .same, ?_⟩
    rw [hnone]
    exact toUser_outcome k
  · obtain ⟨⟨child, k₁⟩, hnew, h⟩ := bind_eq_ok h
    refine ⟨.fork child, k₁, .new hnone hnew, ?_⟩
    dsimp only at h
    split at h
    · cases h
      exact .failed rfl (.refl k₁)
    · obtain ⟨flow, hrpc, h⟩ := bind_eq_ok h
      have hcalm := doSendrecv_calm hrpc
      cases flow with
      | switched k₂ =>
        cases h
        obtain ⟨k₀, hcalm, hchild, rfl⟩ := hcalm
        exact .switch hcalm hchild
      | returned k₂ msg => exact .of_calm hcalm (forkLink_outcome h)

/-! ## Steps -/

theorem Kernel.Interrupted.outcome (h : k.Interrupted k') : k.Outcome k.cur.kont.doing k' := by
  obtain ⟨k₀, hcalm, hkont, rfl | rfl⟩ := h
  · exact .calm hcalm (by rw [hkont])
  · exact .switch hcalm (by rw [hkont])

theorem retFromInt_interrupted (h : k.Calm k₁) (hkont : k₁.cur.kont = k.cur.kont) : k.Interrupted (retFromInt k₁) := by
  refine ⟨k₁, h, hkont, ?_⟩
  rw [retFromInt]
  split
  · exact .inr rfl
  · exact .inl rfl

theorem hwint_interrupted {ind : Nat} (h : hwint k ind = .ok k') : k.Interrupted k' := by
  rw [hwint] at h
  split at h
  · cases h
    exact retFromInt_interrupted (.refl k) rfl
  · obtain ⟨flow, hsend, h⟩ := bind_eq_ok h
    obtain ⟨dest, -, hsend⟩ := bind_eq_ok hsend
    cases hsend
    cases h
    refine retFromInt_interrupted (sendIntr_calm k dest) ?_
    rw [Kernel.cur, sendIntr, wakeReceiver_kont, wakeReceiver_current, emit_proc, emit_current, set_current]
    refine set_field Proc.kont ?_ _
    rfl

theorem timer_interrupted (halarm : ∀ p, (k.proc p).alarm = 0) : k.Interrupted (timer k) := by
  rw [timer, updateAlarm_eq halarm]
  refine retFromInt_interrupted (.setCurSame (.refl k) rfl rfl rfl rfl) ?_
  rw [setCur_cur]

theorem sendSignal_interrupted (k : Kernel) (p : Nat) (signal : Int) : k.Interrupted (sendSignal k p signal) := by
  refine ⟨_, .sendSignal (.refl k) p signal, ?_, .inl rfl⟩
  rw [Kernel.cur, sendSignal, wakeReceiver_kont, wakeReceiver_current, set_current]
  refine set_field Proc.kont ?_ _
  rfl

theorem resume_outcome (h : resume k = .ok k') : k.Outcome k.cur.kont.doing k' := by
  unfold resume at h
  cases hk : k.cur.kont with
  | user =>
    rw [hk] at h
    cases h
    exact .calm (.refl k) (by rw [hk])
  | send dest msg caller =>
    rw [hk] at h
    exact sendReturn_outcome h
  | recvAll msg caller =>
    rw [hk] at h
    obtain ⟨flow, hrecv, h⟩ := bind_eq_ok h
    exact Flow.Calm.outcome (recvAll_calm hrecv) h
  | recvIntr msg caller =>
    rw [hk] at h
    exact Flow.Calm.outcome (takeIntr_calm k msg) h
  | recvFrom source msg caller =>
    rw [hk] at h
    obtain ⟨flow, htake, h⟩ := bind_eq_ok h
    exact Flow.Calm.outcome (takeMessage_calm htake) h
  | wait =>
    rw [hk] at h
    exact waitTail_outcome h
  | forkTail child =>
    rw [hk] at h
    cases h
    exact forkTail_outcome k child
  | dead =>
    rw [hk] at h
    cases h

theorem call_outcome {call : Call} (hk : k.cur.kont = .user) (h : Core.call k call = .ok k')
    (hroutes : ¬ (Action.call call).Routes) : ∃ caller k₁, k.Start (.call call) caller k₁ ∧ k₁.Outcome caller k' := by
  have hnone : k.cur.kont.doing = .syscall := by
    rw [hk]
    rfl
  have hsame : k.Outcome .syscall k' → ∃ caller k₁, k.Start (.call call) caller k₁ ∧ k₁.Outcome caller k' :=
    fun ho => ⟨_, k, .same, hnone ▸ ho⟩
  cases call with
  | send dst msg =>
    obtain ⟨flow, hsend, h⟩ := bind_eq_ok h
    have hcalm := doSend_calm hsend
    cases flow with
    | switched k₁ =>
      cases h
      obtain ⟨k₀, hcalm, hcaller, rfl⟩ := hcalm
      exact hsame (.switch hcalm hcaller)
    | returned k₁ msg =>
      cases h
      exact hsame (.of_calm hcalm (toUser_outcome _))
  | recv src msg =>
    obtain ⟨flow, hrecv, h⟩ := bind_eq_ok h
    exact hsame (Flow.Calm.outcome (doRecv_calm hrecv) h)
  | sendrecv dst msg =>
    obtain ⟨flow, hrpc, h⟩ := bind_eq_ok h
    have hflow : flow.Calm k (RecvCaller.rpc .syscall).doing := doSendrecv_calm hrpc
    exact hsame (hflow.outcome h)
  | registerIrq vector => exact absurd ⟨vector, .inl rfl⟩ hroutes
  | unregisterIrq vector => exact absurd ⟨vector, .inr rfl⟩ hroutes
  | exit status env =>
    have hexit : doExit k status env = .ok k' := h
    exact ⟨.exit status, k, .exit hnone, doExit_outcome hexit⟩
  | wait =>
    have hwait : doWait k = .ok k' := h
    exact hsame (doWait_outcome hwait)
  | fork env => exact doFork_outcome hk h
  | other =>
    cases h
    exact hsame (.calm (.refl k) hnone)

theorem step_outcome (halarm : ∀ p, (k.proc p).alarm = 0) (hroutes : ¬ a.Routes) (h : k.step a = some k') :
    ∃ caller k₁, k.Start a caller k₁ ∧ k₁.Outcome caller k' := by
  obtain ⟨hen, h⟩ := step_ok h
  cases a with
  | call call =>
    simp only [Kernel.enabled, Bool.and_eq_true, decide_eq_true_eq] at hen
    exact call_outcome hen.1 h hroutes
  | timer =>
    cases h
    exact ⟨_, k, .same, (timer_interrupted halarm).outcome⟩
  | hwint ind => exact ⟨_, k, .same, (hwint_interrupted h).outcome⟩
  | signal p signal =>
    obtain ⟨-, -, h⟩ := bind_eq_ok h
    cases h
    exact ⟨_, k, .same, (sendSignal_interrupted k p signal).outcome⟩
  | resume => exact ⟨_, k, .same, resume_outcome h⟩

theorem routes_step (hroutes : a.Routes) (h : k.step a = some k') :
    ∃ hwProc, k' = { k with hwProc := hwProc } := by
  obtain ⟨-, h⟩ := step_ok h
  obtain ⟨vector, rfl | rfl⟩ := hroutes
  · cases h
    rw [registerIrq]
    split
    · exact ⟨_, rfl⟩
    · exact ⟨k.hwProc, rfl⟩
  · cases h
    rw [unregisterIrq]
    split
    · exact ⟨_, rfl⟩
    · exact ⟨k.hwProc, rfl⟩

theorem idle_step (halarm : ∀ p, (k.proc p).alarm = 0) (hcur : k.current = 0) (hk : k.cur.kont = .user)
    (h : k.step a = some k') : k.Interrupted k' := by
  obtain ⟨hen, h⟩ := step_ok h
  cases a with
  | call call => simp [Kernel.enabled, hcur] at hen
  | timer =>
    cases h
    exact timer_interrupted halarm
  | hwint ind => exact hwint_interrupted h
  | signal p signal =>
    obtain ⟨-, -, h⟩ := bind_eq_ok h
    cases h
    exact sendSignal_interrupted k p signal
  | resume => simp [Kernel.enabled, hk] at hen

end FengOS.Core
