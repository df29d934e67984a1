import FengOS.Core.Lemmas.Tree

/-!
# Every step keeps the invariant
-/

namespace FengOS.Core

open FengOS.Lib.Rendezvous

variable {strict : Prop} {k k' : Kernel} {p q source dest : Nat} {msg m : Message} {flow : Flow}
  {s₀ : State Nat Message} {a : Status Nat Message} {caller : RpcCaller}

/-! ## Entering and leaving the kernel -/

theorem Kernel.Inv.busy (h : k.Inv s₀ strict) (h₀ : k.current ≠ 0) : k.Busy s₀ strict k.cur.status where
  base := h.base
  kont p _ := h.kont p
  ready := h.ready
  user := h₀
  trace := by
    have hset : k.protocol.set k.current k.cur.status = k.protocol :=
      congrArg (State.mk · _) (Function.update_eq_self k.current _)
    rw [hset]
    exact h.trace

theorem Kernel.Inv.current_ne (h : k.Inv s₀ strict) (hkont : k.cur.kont ≠ .user) : k.current ≠ 0 := by
  intro h₀
  rw [Kernel.cur, h₀] at hkont
  exact hkont h.base.idle.2.1

theorem Kernel.Busy.emit {b : Status Nat Message} {e : Event Nat Message} (h : k.Busy s₀ strict a)
    (hstep : Step (k.protocol.set k.current a) e ((k.protocol.set k.current a).set k.current b)) :
    (k.emit e).Busy s₀ strict b where
  base := (emit_alike _ _).base h.base
  kont p hp := (emit_alike _ _).kontOk (h.kont p hp)
  ready := h.ready
  user := h.user
  trace := by
    rw [emit_log, (emit_alike _ _).protocol, emit_current, ← set_set _ _ a]
    exact h.trace.snoc hstep

theorem Kernel.Busy.sent {call : Bool} (h : k.Busy s₀ strict (.copied dest call)) :
    (k.emit (.sent k.current)).Busy s₀ strict (afterSend dest call) := h.emit (.sent (set_status_self _))

theorem Kernel.Busy.reply (h : k.Busy s₀ strict (.replied m)) : (k.emit (.reply k.current m)).Busy s₀ strict .ready :=
  h.emit (.reply (set_status_self _))

theorem Kernel.Busy.inv_rpcReturn (h : k.Busy s₀ strict (.replied m)) (hr : rpcReturn k m caller = .ok k')
    (hfork : ∀ child, caller = .fork child → k.Pending k.current child ∧ ∀ i, child ∉ k.hashMap i)
    (hquiet : strict → ∀ status, caller = .exit status → ∀ p, p ≠ k.current → ¬ k.Awaits p k.current) :
    k'.Inv s₀ strict := by
  cases caller with
  | syscall =>
    cases hr
    exact h.reply.inv_toUser
  | exit status => exact h.reply.inv_exitTail hr fun hs => hquiet hs status rfl
  | fork child =>
    obtain ⟨hchild, hhash⟩ := hfork child rfl
    exact h.reply.inv_forkLink hr ((emit_alike _ _).pending hchild) hhash

theorem Flow.Ok.inv (h : flow.Ok s₀ strict fun _ => .ready) (hr : recvReturn .syscall flow = .ok k') : k'.Inv s₀ strict := by
  cases flow with
  | switched k₁ =>
    cases hr
    exact h
  | returned k₁ m =>
    cases hr
    exact Kernel.Busy.inv_toUser h

/-! ## Going on after `schedule` -/

theorem Kernel.Busy.copy_awaits (h : k.Busy s₀ strict a) (hl : k.Linked source k.current) (hp : p ≠ k.current)
    (ha : (copyMessage k source).Awaits p k.current) : p ≠ source ∧ k.Awaits p k.current := by
  have hne := h.ne_of_linked hl
  have hs : p ≠ source := by
    rintro rfl
    rw [Kernel.Awaits, copyMessage_proc_source hne] at ha
    rcases ha.1 with ha | ha <;> cases ha
  refine ⟨hs, awaits_of_phase ha (Or.inl ?_) ?_ (copyMessage_pid _)⟩ <;> rw [copyMessage_proc_of_ne hs hp]
  rfl

theorem Kernel.Busy.unawaited_copy (h : k.Busy s₀ strict a) (hl : k.Linked source k.current)
    (hpid : 0 < (k.proc source).pid) (hu : k.Unawaited (k.proc source).pid) (hp : p ≠ k.current) :
    ¬ (copyMessage k source).Awaits p k.current := by
  intro ha
  obtain ⟨hs, ha⟩ := h.copy_awaits hl hp ha
  have hlt : p < k.nextProc := h.base.lt_of_phase (by rcases ha.1 with hw | hw <;> rw [hw] <;> nofun)
  exact hu p hlt hp (fun he => hs (h.base.pid_inj p source he (he ▸ hpid))) ha

theorem Kernel.Busy.inv_answered (h : k.Busy s₀ strict (.awaiting source))
    (hl : k.Linked source k.current) (hpid : 0 < (k.proc source).pid)
    (hr : rpcReturn (copyMessage k source) (k.proc source).msg caller = .ok k')
    (hfork : ∀ child, caller = .fork child → k.Pending k.current child ∧ ∀ i, child ∉ k.hashMap i)
    (hquiet : strict → ∀ status, caller = .exit status → k.Unawaited (k.proc source).pid) : k'.Inv s₀ strict := by
  apply (h.copy hl (Or.inr ⟨rfl, rfl⟩)).inv_rpcReturn hr
  · intro child hc
    obtain ⟨hchild, hhash⟩ := hfork child hc
    refine ⟨?_, hhash⟩
    have hforking : k.Forking k.current (.forkTail child) := ⟨fun c hc => by cases hc; exact hchild, nofun⟩
    exact (h.copy_forking hl hforking).pending child rfl
  · exact fun hs status hx p hp => h.unawaited_copy hl hpid (hquiet hs status hx) hp

theorem Kernel.Forking.child {kont : Kont} {child : Nat} (h : k.Forking p kont) (hc : kont.copyChild = some child) :
    k.Pending p child ∧ ∀ i, child ∉ k.hashMap i :=
  ⟨h.pending child (Kont.forkChild_of_copyChild hc), h.unhashed child hc⟩

theorem Kernel.Busy.inv_secondHalf (h : k.Busy s₀ strict (.awaiting dest))
    (hrecv : doRecv k (k.proc dest).pid msg (.rpc caller) = .ok flow)
    (hr : recvReturn (.rpc caller) flow = .ok k') (hpid : 0 < (k.proc dest).pid)
    (hchild : ∀ child, caller = .fork child → k.Pending k.current child ∧ ∀ i, child ∉ k.hashMap i)
    (hlive : strict → k.LivePid (k.proc dest).pid)
    (hquiet : strict → ∀ status, caller = .exit status → k.Linked dest k.current → k.Unawaited (k.proc dest).pid) :
    k'.Inv s₀ strict := by
  have hreserved : ∀ w, ipcSignal ≤ w → (k.proc dest).pid ≠ w := fun w hw he =>
    absurd (h.base.pid_lt_signal dest) (Int.not_lt.mpr (he ▸ hw))
  have hsource : ∀ source, findProc k (k.proc dest).pid = .ok source → source = dest := by
    intro source hfind
    obtain ⟨hs, hpos⟩ := h.base.pid_of_findProc hfind
    exact h.base.pid_inj source dest hs hpos
  have hfork : ∀ source, k.Forking k.current (.recvFrom source msg (.rpc caller)) := by
    intro source
    cases caller with
    | syscall => exact .of_none rfl
    | exit status => exact .of_none rfl
    | fork child =>
      obtain ⟨hpending, hhash⟩ := hchild child rfl
      exact ⟨fun c hc => by cases hc; exact hpending, fun c hc => by cases hc; exact hhash⟩
  obtain ⟨hok, hreturned⟩ := h.ok_recvFrom hrecv (hreserved _ (by decide)) (hreserved _ (by decide))
    (fun source hfind => by rw [hsource source hfind]; exact .rpc caller) hlive hfork
  cases flow with
  | switched k₁ =>
    cases hr
    exact hok
  | returned k₁ m =>
    obtain ⟨source, hfind, hl, rfl, rfl⟩ := hreturned k₁ m rfl
    obtain rfl := hsource source hfind
    exact h.inv_answered hl hpid hr hchild fun hs status hx => hquiet hs status hx hl

theorem Kernel.Busy.inv_sendReturn {caller : SendCaller}
    (h : k.Busy s₀ strict (.copied dest (caller ≠ .syscall))) (hr : sendReturn k msg caller = .ok k')
    (hpid : 0 < (k.proc dest).pid) (hdst : ∀ dst c, caller = .rpc dst c → dst = (k.proc dest).pid)
    (hfork : k.Forking k.current (.send dest msg caller)) (hlive : strict → ∀ dst c, caller = .rpc dst c → k.LivePid dst)
    (hquiet : strict → ∀ dst status, caller = .rpc dst (.exit status) → k.Linked dest k.current → k.Unawaited dst) :
    k'.Inv s₀ strict := by
  cases caller with
  | syscall =>
    cases hr
    exact h.sent.inv_toUser
  | rpc dst caller =>
    obtain rfl := hdst dst caller rfl
    obtain ⟨flow, hrecv, hr⟩ := bind_eq_ok hr
    apply h.sent.inv_secondHalf hrecv hr hpid
    · rintro child rfl
      obtain ⟨hpending, hhash⟩ := hfork.child rfl
      exact ⟨(emit_alike _ _).pending hpending, hhash⟩
    · exact fun hs => (emit_alike _ _).livePid (hlive hs _ caller rfl)
    · rintro hs status rfl hl
      exact hquiet hs _ status rfl hl

theorem Kernel.Careful.send {dst : Int} (h : k.Careful .resume) (hk : k.cur.kont = .send dest msg (.rpc dst caller)) :
    k.LiveTarget dst ∧ ∀ status, caller = .exit status → k.Answers dst → k.Unawaited dst := by
  unfold Kernel.Careful at h
  rw [hk] at h
  cases caller with
  | syscall => exact ⟨h, nofun⟩
  | exit status => exact ⟨h.1, fun _ _ => h.2⟩
  | fork child => exact ⟨h, nofun⟩

theorem Kernel.LiveTarget.answers {dst : Int} (h : k.LiveTarget dst) (hb : k.Base)
    (hdst : dst = (k.proc dest).pid) (hpid : 0 < (k.proc dest).pid) (hl : k.Linked dest k.current) : k.Answers dst := by
  obtain ⟨q, hq, -⟩ := h
  obtain rfl := hb.pid_inj dest q (hdst.symm.trans (mapProc_some (mem_lookup hq)).2.symm) hpid
  exact ⟨dest, hq, hl⟩

theorem Kernel.Inv.resume_send {caller : SendCaller} (h : k.Inv s₀ strict) (hk : k.cur.kont = .send dest msg caller)
    (hr : sendReturn k msg caller = .ok k') (hcare : strict → k.Careful .resume) : k'.Inv s₀ strict := by
  have hbusy := h.busy (h.current_ne (by simp [hk]))
  have hok : k.KontOk strict k.current k.cur.kont := h.kont k.current
  have hfork : k.Forking k.current k.cur.kont := h.base.fork k.current
  have hstatus : k.cur.status = .copied dest (caller ≠ .syscall) := by
    rw [Proc.status, hk]
    exact if_neg (by simp [h.ready])
  rw [hk] at hok hfork
  rw [hstatus] at hbusy
  obtain ⟨hpid, hdst, -⟩ := hok
  apply hbusy.inv_sendReturn hr hpid hdst hfork
  · rintro hs dst c rfl
    exact ((hcare hs).send hk).1.livePid
  · rintro hs dst status rfl hl
    obtain ⟨hlive, hquiet⟩ := (hcare hs).send hk
    exact hquiet status rfl (hlive.answers h.base (hdst dst _ rfl) hpid hl)

theorem Kernel.Inv.resume_recvFrom {caller : RecvCaller} (h : k.Inv s₀ strict)
    (hk : k.cur.kont = .recvFrom source msg caller) (ht : takeMessage k source = .ok flow)
    (hr : recvReturn caller flow = .ok k') (hcare : strict → k.Careful .resume) : k'.Inv s₀ strict := by
  have hbusy := h.busy (h.current_ne (by simp [hk]))
  have hok : k.KontOk strict k.current k.cur.kont := h.kont k.current
  have hfork : k.Forking k.current k.cur.kont := h.base.fork k.current
  rw [hk] at hok hfork
  obtain ⟨hpid, ⟨-, hl⟩ | ⟨hphase, -⟩⟩ := hok
  · cases caller with
    | syscall =>
      have hstatus : k.cur.status = .ready := by rw [Proc.status, hk]
      rw [hstatus] at hbusy
      exact (hbusy.ok_takeMessage .syscall hl ht).2.inv hr
    | rpc caller =>
      have hstatus : k.cur.status = .awaiting source := by rw [Proc.status, hk]
      rw [hstatus] at hbusy
      obtain ⟨rfl, -⟩ := hbusy.ok_takeMessage (.rpc caller) hl ht
      apply hbusy.inv_answered hl hpid hr
      · rintro child rfl
        exact hfork.child rfl
      · rintro hs status rfl
        have hc := hcare hs
        unfold Kernel.Careful at hc
        rw [hk] at hc
        exact hc
  · cases h.ready.symm.trans hphase

theorem Kernel.Inv.inv_resume (h : k.Inv s₀ strict) (hr : resume k = .ok k') (hne : k.cur.kont ≠ .user)
    (hcare : strict → k.Careful .resume) : k'.Inv s₀ strict := by
  have hbusy := h.busy (h.current_ne hne)
  have hok : k.KontOk strict k.current k.cur.kont := h.kont k.current
  unfold resume at hr
  cases hk : k.cur.kont with
  | user => exact absurd hk hne
  | send dest msg caller =>
    rw [hk] at hr
    exact h.resume_send hk hr hcare
  | recvAll msg caller =>
    rw [hk] at hr hok
    obtain ⟨rfl, -⟩ := hok
    have hstatus : k.cur.status = .ready := by rw [Proc.status, hk]
    rw [hstatus] at hbusy
    obtain ⟨flow, hall, hr⟩ := bind_eq_ok hr
    exact (hbusy.ok_recvAll hall).inv hr
  | recvIntr msg caller =>
    rw [hk] at hr hok
    obtain ⟨rfl, ⟨-, hintr⟩ | ⟨hphase, -⟩⟩ := hok
    · have hstatus : k.cur.status = .ready := by rw [Proc.status, hk]
      rw [hstatus] at hbusy
      cases hr
      exact (hbusy.take hintr).inv_toUser
    · cases h.ready.symm.trans hphase
  | recvFrom source msg caller =>
    rw [hk] at hr
    obtain ⟨flow, ht, hr⟩ := bind_eq_ok hr
    exact h.resume_recvFrom hk ht hr hcare
  | wait =>
    rw [hk] at hr
    have hstatus : k.cur.status = .ready := by rw [Proc.status, hk]
    rw [hstatus] at hbusy
    exact hbusy.inv_waitTail hr
  | forkTail child =>
    rw [hk] at hr
    have hstatus : k.cur.status = .ready := by rw [Proc.status, hk]
    have hfork : k.Forking k.current k.cur.kont := h.base.fork k.current
    rw [hk] at hfork
    rw [hstatus] at hbusy
    cases hr
    exact hbusy.inv_forkTail (hfork.pending child rfl)
  | dead =>
    rw [hk] at hr
    cases hr

/-! ## System calls -/

theorem hwProc_alike (k : Kernel) (hwProc : Nat → Int) : { k with hwProc := hwProc }.Alike k :=
  ⟨fun _ => .refl _, rfl, rfl, rfl, rfl⟩

theorem Kernel.Inv.inv_call {c : Call} (h : k.Inv s₀ strict) (hk : k.cur.kont = .user) (h₀ : k.current ≠ 0)
    (hc : call k c = .ok k') (hpid : k.PidLeft (.call c)) (hcare : strict → k.Careful (.call c)) : k'.Inv s₀ strict := by
  have hbusy := h.busy h₀
  have hstatus : k.cur.status = .ready := by rw [Proc.status, hk]
  rw [hstatus] at hbusy
  cases c with
  | send dst msg =>
    obtain ⟨flow, hsend, hc⟩ := bind_eq_ok hc
    obtain ⟨k₁, rfl, hinv⟩ := hbusy.switched_doSend hsend rfl (fun hs => (hcare hs).livePid) (by simp)
      fun _ => .of_none rfl
    cases hc
    exact hinv
  | recv src msg =>
    obtain ⟨flow, hrecv, hc⟩ := bind_eq_ok hc
    have hlive : strict → src = ipcAll ∨ src = ipcIntr ∨ k.LivePid src := fun hs =>
      (hcare hs).imp_right (Or.imp_right Kernel.LiveTarget.livePid)
    exact (hbusy.ok_doRecv hrecv hlive).inv hc
  | sendrecv dst msg =>
    obtain ⟨flow, hrpc, hc⟩ := bind_eq_ok hc
    obtain ⟨k₁, rfl, hinv⟩ := hbusy.switched_doSendrecv hrpc rfl (fun hs => (hcare hs).livePid) fun _ => .of_none rfl
    cases hc
    exact hinv
  | registerIrq vector =>
    cases hc
    unfold registerIrq
    split
    · exact (hwProc_alike k _).inv rfl rfl h
    · exact h
  | unregisterIrq vector =>
    cases hc
    unfold unregisterIrq
    split
    · exact (hwProc_alike k _).inv rfl rfl h
    · exact h
  | exit status env => exact hbusy.inv_doExit hc fun hs => (hcare hs).livePid
  | wait => exact hbusy.inv_doWait hc
  | fork env => exact hbusy.inv_doFork hc hpid fun hs hpages hpgd => (hcare hs hpages hpgd).livePid
  | other =>
    cases hc
    exact h

/-! ## Interrupts -/

theorem set_proc_eq (k : Kernel) (p : Nat) : k.set p (k.proc p) = k := by
  unfold Kernel.set
  rw [Function.update_eq_self]

theorem updateAlarm_eq (h : ∀ p, (k.proc p).alarm = 0) : updateAlarm k = k := by
  unfold updateAlarm
  induction k.procHead with
  | nil => rfl
  | cons p ps ih =>
    have htick : tickAlarm (k.proc p) = k.proc p := if_pos (h p)
    rw [List.foldl_cons, htick, set_proc_eq]
    exact ih

theorem Kernel.Inv.inv_retFromInt (h : k.Inv s₀ strict) : (retFromInt k).Inv s₀ strict := by
  unfold retFromInt
  split
  · exact inv_schedule h.base h.kont h.trace
  · exact h

theorem Kernel.Inv.inv_timer (h : k.Inv s₀ strict) : (timer k).Inv s₀ strict := by
  have halike : (k.setCur { k.cur with needSchedule := true }).Alike k :=
    Kernel.Alike.set ⟨rfl, rfl, rfl, rfl, rfl, rfl, rfl, rfl, rfl, rfl⟩
  unfold timer
  rw [updateAlarm_eq h.base.alarm]
  exact (halike.inv rfl rfl h).inv_retFromInt

theorem Kernel.Inv.inv_hwint {ind : Nat} (h : k.Inv s₀ strict) (hi : hwint k ind = .ok k') : k'.Inv s₀ strict := by
  unfold hwint at hi
  split at hi
  · cases hi
    exact h.inv_retFromInt
  · obtain ⟨flow, hsend, hi⟩ := bind_eq_ok hi
    obtain ⟨dest, hfind, rfl⟩ := doSend_intr hsend rfl
    cases hi
    exact (h.inv_sendIntr (h.base.lt_of_pid (h.base.pid_of_findProc hfind).2)).inv_retFromInt

/-! ## The step -/

theorem toOption_eq_some {α : Type} {x : Except Fault α} {b : α} (h : x.toOption = some b) : x = .ok b := by
  cases x with
  | error e => cases h
  | ok a =>
    cases h
    rfl

theorem step_ok {a : Action} (h : k.step a = some k') : k.enabled a = true ∧ act k a = .ok k' := by
  unfold Kernel.step at h
  split at h
  · exact ⟨by assumption, toOption_eq_some h⟩
  · cases h

theorem Kernel.Inv.step {a : Action} (h : k.Inv s₀ strict) (hstep : k.step a = some k') (hpid : k.PidLeft a)
    (hcare : strict → k.Careful a) : k'.Inv s₀ strict := by
  obtain ⟨henabled, hact⟩ := step_ok hstep
  cases a with
  | call c =>
    have hen : k.cur.kont = .user ∧ k.current ≠ 0 := by simpa [Kernel.enabled] using henabled
    exact h.inv_call hen.1 hen.2 hact hpid hcare
  | timer =>
    cases hact
    exact h.inv_timer
  | hwint ind => exact h.inv_hwint hact
  | signal p signal =>
    obtain ⟨⟨⟩, halive, hact⟩ := bind_eq_ok hact
    cases hact
    exact h.inv_sendSignal (h.base.alive_lt p (deref_ok halive)) signal
  | resume =>
    have hen : k.cur.kont ≠ .user := by simpa [Kernel.enabled] using henabled
    exact h.inv_resume hact hen hcare

end FengOS.Core
