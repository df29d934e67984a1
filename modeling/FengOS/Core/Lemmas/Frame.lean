import FengOS.Core.Inv

/-!
# What an update leaves alone
-/

namespace FengOS.Core

open FengOS.Lib.Rendezvous

variable {strict : Prop} {k k' : Kernel} {p q : Nat} {P : Proc} {s₀ : State Nat Message} {a : Status Nat Message}
  {kont : Kont}

/-! ## Records -/

@[simp] theorem set_proc_self (k : Kernel) (p : Nat) (P : Proc) : (k.set p P).proc p = P := Function.update_self ..

@[simp] theorem set_proc_of_ne (h : q ≠ p) (P : Proc) : (k.set p P).proc q = k.proc q := Function.update_of_ne h ..

@[simp] theorem set_current (k : Kernel) (p : Nat) (P : Proc) : (k.set p P).current = k.current := rfl

@[simp] theorem set_log (k : Kernel) (p : Nat) (P : Proc) : (k.set p P).log = k.log := rfl

@[simp] theorem set_hashMap (k : Kernel) (p : Nat) (P : Proc) : (k.set p P).hashMap = k.hashMap := rfl

@[simp] theorem set_alive (k : Kernel) (p : Nat) (P : Proc) : (k.set p P).alive = k.alive := rfl

@[simp] theorem set_nextProc (k : Kernel) (p : Nat) (P : Proc) : (k.set p P).nextProc = k.nextProc := rfl

@[simp] theorem set_globalPid (k : Kernel) (p : Nat) (P : Proc) : (k.set p P).globalPid = k.globalPid := rfl

@[simp] theorem set_procHead (k : Kernel) (p : Nat) (P : Proc) : (k.set p P).procHead = k.procHead := rfl

@[simp] theorem emit_proc (k : Kernel) (e : Event Nat Message) : (k.emit e).proc = k.proc := rfl

@[simp] theorem emit_current (k : Kernel) (e : Event Nat Message) : (k.emit e).current = k.current := rfl

@[simp] theorem emit_log (k : Kernel) (e : Event Nat Message) : (k.emit e).log = k.log ++ [e] := rfl

@[simp] theorem emit_cur (k : Kernel) (e : Event Nat Message) : (k.emit e).cur = k.cur := rfl

@[simp] theorem setCur_cur (k : Kernel) (P : Proc) : (k.setCur P).cur = P := set_proc_self ..

@[simp] theorem setCur_current (k : Kernel) (P : Proc) : (k.setCur P).current = k.current := rfl

theorem set_field {β : Type} (f : Proc → β) (h : f P = f (k.proc p)) (q : Nat) : f ((k.set p P).proc q) = f (k.proc q) := by
  rcases eq_or_ne q p with rfl | hne
  · rw [set_proc_self, h]
  · rw [set_proc_of_ne hne]

theorem set_pid (h : P.pid = (k.proc p).pid) (q : Nat) : ((k.set p P).proc q).pid = (k.proc q).pid :=
  set_field Proc.pid h q

theorem linked_congr (hphase : (k'.proc p).phase = (k.proc p).phase) (hwait : (k'.proc p).wait = (k.proc p).wait)
    (hpid : (k'.proc q).pid = (k.proc q).pid) : k'.Linked p q ↔ k.Linked p q := by
  rw [Kernel.Linked, Kernel.Linked, hphase, hwait, hpid]

theorem awaits_of_phase (h : k'.Awaits p q) (hphase : (k'.proc p).phase = (k.proc p).phase ∨ (k'.proc p).phase = .ready)
    (hwait : (k'.proc p).wait = (k.proc p).wait) (hpid : (k'.proc q).pid = (k.proc q).pid) : k.Awaits p q := by
  rw [Kernel.Awaits, hwait, hpid] at h
  rcases hphase with hphase | hphase <;> rw [hphase] at h
  · exact h
  · rcases h.1 with h | h <;> cases h

theorem set_linked_of_ne {x : Nat} (hne : p ≠ x) (hpid : P.pid = (k.proc x).pid) : (k.set x P).Linked p q ↔ k.Linked p q :=
  linked_congr (by rw [set_proc_of_ne hne]) (by rw [set_proc_of_ne hne]) (set_pid hpid q)

theorem linked_of_not_sending (h : (k.proc p).phase ≠ .sending) : ¬ k.Linked p q := fun hl => h hl.1

/-! ## Where a process goes on -/

theorem Kernel.KontOk.mono (h : k.KontOk strict p kont)
    (hphase : (k'.proc p).phase = (k.proc p).phase) (hwait : (k'.proc p).wait = (k.proc p).wait)
    (hintr : (k'.proc p).hasIntr = (k.proc p).hasIntr) (hsignal : (k'.proc p).signal = (k.proc p).signal)
    (hqueue : (k.proc p).waitProc = [] → (k'.proc p).waitProc = [])
    (hpid : ∀ q, 0 < (k.proc q).pid → (k'.proc q).pid = (k.proc q).pid)
    (hlink : ∀ q, 0 < (k.proc q).pid → (k'.Linked q p ↔ k.Linked q p))
    (hlive : strict → ∀ q, k.Awaits p q → k.Live q → k'.Live q) : k'.KontOk strict p kont := by
  cases kont with
  | user => simpa only [Kernel.KontOk, hphase, hwait] using h
  | send dest msg caller =>
    have hdest := hpid dest h.1
    simp only [Kernel.KontOk, hphase, hwait, hdest] at h ⊢
    obtain ⟨h₁, h₂, h₃ | ⟨h₃, h₄, h₅⟩⟩ := h
    · exact ⟨h₁, h₂, Or.inl h₃⟩
    · exact ⟨h₁, h₂, Or.inr ⟨h₃, h₄, fun hs => hlive hs dest ⟨Or.inl h₃, h₄, h₁⟩ (h₅ hs)⟩⟩
  | recvAll msg caller =>
    simp only [Kernel.KontOk, hphase, hwait, hintr] at h ⊢
    obtain ⟨h₁, h₂ | ⟨h₂, h₃, h₄, h₅⟩⟩ := h
    · exact ⟨h₁, Or.inl h₂⟩
    · exact ⟨h₁, Or.inr ⟨h₂, h₃, hqueue h₄, h₅⟩⟩
  | recvIntr msg caller => simpa only [Kernel.KontOk, hphase, hwait, hintr] using h
  | recvFrom source msg caller =>
    have hsource := hpid source h.1
    simp only [Kernel.KontOk, hphase, hwait, hsource, hlink source h.1] at h ⊢
    obtain ⟨h₁, h₂ | ⟨h₂, h₃, h₄, h₅⟩⟩ := h
    · exact ⟨h₁, Or.inl h₂⟩
    · exact ⟨h₁, Or.inr ⟨h₂, h₃, h₄, fun hs => hlive hs source ⟨Or.inr h₂, h₃, h₁⟩ (h₅ hs)⟩⟩
  | wait => simpa only [Kernel.KontOk, hphase, hwait, hsignal] using h
  | forkTail child => simpa only [Kernel.KontOk, hphase] using h
  | dead => simpa only [Kernel.KontOk, hphase] using h

theorem Kernel.KontOk.sending (h : k.KontOk strict p kont) (hp : (k.proc p).phase = .sending) :
    kont = .user ∧ (k.proc p).wait = ipcNowait ∨ ∃ dest msg caller, kont = .send dest msg caller ∧
      (k.proc p).wait = (k.proc dest).pid ∧ 0 < (k.proc dest).pid ∧ (strict → k.Live dest) := by
  cases kont with
  | user =>
    rcases h with h | h
    · rw [hp] at h
      cases h
    · exact Or.inl ⟨rfl, h.2⟩
  | send dest msg caller =>
    obtain ⟨h₁, -, h | ⟨-, h₂, h₃⟩⟩ := h
    · rw [hp] at h
      cases h
    · exact Or.inr ⟨dest, msg, caller, rfl, h₂, h₁, h₃⟩
  | recvAll msg caller => obtain ⟨-, h | ⟨h, -⟩⟩ := h <;> rw [hp] at h <;> cases h
  | recvIntr msg caller => obtain ⟨-, ⟨h, -⟩ | ⟨h, -⟩⟩ := h <;> rw [hp] at h <;> cases h
  | recvFrom source msg caller => obtain ⟨-, ⟨h, -⟩ | ⟨h, -⟩⟩ := h <;> rw [hp] at h <;> cases h
  | wait => obtain h | ⟨h, -⟩ := h <;> rw [hp] at h <;> cases h
  | forkTail child => rw [Kernel.KontOk, hp] at h; cases h
  | dead => rw [Kernel.KontOk, hp] at h; cases h

theorem Kernel.KontOk.receiving (h : k.KontOk strict p kont) (hp : (k.proc p).phase = .receiving) :
    (k.proc p).wait = ipcAll ∧ (k.proc p).waitProc = [] ∧ (k.proc p).hasIntr = false ∨
    (k.proc p).wait = ipcIntr ∧ (k.proc p).hasIntr = false ∨
    (∃ source, (k.proc p).wait = (k.proc source).pid ∧ 0 < (k.proc source).pid ∧ ¬ k.Linked source p ∧
      (strict → k.Live source)) ∨ (k.proc p).wait = ipcSignal ∧ (k.proc p).signal ≠ sigchld := by
  cases kont with
  | user => obtain h | ⟨h, -⟩ := h <;> rw [hp] at h <;> cases h
  | send dest msg caller => obtain ⟨-, -, h | ⟨h, -⟩⟩ := h <;> rw [hp] at h <;> cases h
  | recvAll msg caller =>
    obtain ⟨-, h | ⟨-, h⟩⟩ := h
    · rw [hp] at h
      cases h
    · exact Or.inl h
  | recvIntr msg caller =>
    obtain ⟨-, ⟨h, -⟩ | ⟨-, h⟩⟩ := h
    · rw [hp] at h
      cases h
    · exact Or.inr (Or.inl h)
  | recvFrom source msg caller =>
    obtain ⟨hpid, ⟨h, -⟩ | ⟨-, hwait, hlink, hlive⟩⟩ := h
    · rw [hp] at h
      cases h
    · exact Or.inr (Or.inr (Or.inl ⟨source, hwait, hpid, hlink, hlive⟩))
  | wait =>
    obtain h | ⟨-, h⟩ := h
    · rw [hp] at h
      cases h
    · exact Or.inr (Or.inr (Or.inr h))
  | forkTail child => rw [Kernel.KontOk, hp] at h; cases h
  | dead => rw [Kernel.KontOk, hp] at h; cases h

theorem Kont.forkChild_of_copyChild {child : Nat} (h : kont.copyChild = some child) : kont.forkChild = some child := by
  cases kont with
  | forkTail c => cases h
  | _ => exact h

theorem Kernel.Forking.of_none (h : kont.forkChild = none) : k.Forking p kont where
  pending child hc := by rw [h] at hc; cases hc
  unhashed child hc := by rw [Kont.forkChild_of_copyChild hc] at h; cases h

/-! ## Changes that concern the scheduler and the tree only -/

structure Proc.Alike (P' P : Proc) : Prop where
  phase : P'.phase = P.phase
  wait : P'.wait = P.wait
  kont : P'.kont = P.kont
  hasIntr : P'.hasIntr = P.hasIntr
  waitProc : P'.waitProc = P.waitProc
  signal : P'.signal = P.signal
  pid : P'.pid = P.pid
  parent : P'.parent = P.parent
  msg : P'.msg = P.msg
  alarm : P'.alarm = P.alarm

structure Kernel.Alike (k' k : Kernel) : Prop where
  proc : ∀ p, (k'.proc p).Alike (k.proc p)
  hashMap : k'.hashMap = k.hashMap
  alive : k'.alive = k.alive
  nextProc : k'.nextProc = k.nextProc
  globalPid : k'.globalPid = k.globalPid

theorem Proc.Alike.refl (P : Proc) : P.Alike P := ⟨rfl, rfl, rfl, rfl, rfl, rfl, rfl, rfl, rfl, rfl⟩

theorem Proc.Alike.trans {P Q R : Proc} (h : P.Alike Q) (h' : Q.Alike R) : P.Alike R :=
  ⟨h.phase.trans h'.phase, h.wait.trans h'.wait, h.kont.trans h'.kont, h.hasIntr.trans h'.hasIntr,
    h.waitProc.trans h'.waitProc, h.signal.trans h'.signal, h.pid.trans h'.pid, h.parent.trans h'.parent,
    h.msg.trans h'.msg, h.alarm.trans h'.alarm⟩

theorem Kernel.Alike.refl (k : Kernel) : k.Alike k := ⟨fun _ => .refl _, rfl, rfl, rfl, rfl⟩

theorem Kernel.Alike.trans {k'' : Kernel} (h : k''.Alike k') (h' : k'.Alike k) : k''.Alike k :=
  ⟨fun p => (h.proc p).trans (h'.proc p), h.hashMap.trans h'.hashMap, h.alive.trans h'.alive,
    h.nextProc.trans h'.nextProc, h.globalPid.trans h'.globalPid⟩

theorem Kernel.Alike.set (h : P.Alike (k.proc p)) : (k.set p P).Alike k := by
  refine ⟨fun q => ?_, rfl, rfl, rfl, rfl⟩
  rcases eq_or_ne q p with rfl | hne
  · rw [set_proc_self]
    exact h
  · rw [set_proc_of_ne hne]
    exact .refl _

theorem emit_alike (k : Kernel) (e : Event Nat Message) : (k.emit e).Alike k := ⟨fun _ => .refl _, rfl, rfl, rfl, rfl⟩

theorem Kernel.Alike.linked (h : k'.Alike k) : k'.Linked p q ↔ k.Linked p q :=
  linked_congr (h.proc p).phase (h.proc p).wait (h.proc q).pid

theorem Kernel.Alike.live (h : k'.Alike k) (hq : k.Live q) : k'.Live q := by
  rw [Kernel.Live, h.hashMap, h.alive, (h.proc q).phase]
  exact hq

theorem Kernel.Alike.kontOk (h : k'.Alike k) (hk : k.KontOk strict p kont) : k'.KontOk strict p kont :=
  hk.mono (h.proc p).phase (h.proc p).wait (h.proc p).hasIntr (h.proc p).signal
    (fun hq => (h.proc p).waitProc.trans hq) (fun q _ => (h.proc q).pid) (fun _ _ => h.linked) fun _ _ _ => h.live

theorem Kernel.Alike.pending {child : Nat} (h : k'.Alike k) (hp : k.Pending p child) : k'.Pending p child :=
  ⟨(h.proc _).phase.trans hp.phase, (h.proc _).wait.trans hp.wait, (h.proc _).kont.trans hp.kont,
    (h.proc _).parent.trans hp.parent, (h.proc _).pid ▸ hp.pid, h.alive ▸ hp.alive⟩

theorem Kernel.Alike.forking (h : k'.Alike k) (hp : k.Forking p kont) : k'.Forking p kont :=
  ⟨fun child hc => h.pending (hp.pending child hc), fun child hc => h.hashMap ▸ hp.unhashed child hc⟩

theorem Kernel.Alike.base (h : k'.Alike k) (hb : k.Base) : k'.Base where
  idle := by rw [(h.proc 0).pid, (h.proc 0).kont, (h.proc 0).phase, h.alive]; exact hb.idle
  unused p hp := by
    rw [(h.proc p).pid, (h.proc p).kont, (h.proc p).phase, (h.proc p).hasIntr]
    exact hb.unused p (h.nextProc ▸ hp)
  alive_lt p := by rw [h.alive, h.nextProc]; exact hb.alive_lt p
  pid_pos p h₀ hp := by rw [(h.proc p).pid]; exact hb.pid_pos p h₀ (h.nextProc ▸ hp)
  pid_le p := by rw [(h.proc p).pid, h.globalPid]; exact hb.pid_le p
  global := by rw [h.globalPid]; exact hb.global
  pid_inj p q := by rw [(h.proc p).pid, (h.proc q).pid]; exact hb.pid_inj p q
  hash i p := by rw [h.hashMap, (h.proc p).pid]; exact hb.hash i p
  hash_alive i p := by rw [h.hashMap, h.alive]; exact hb.hash_alive i p
  hash_nodup := by rw [h.hashMap]; exact hb.hash_nodup
  linked p q hl := by rw [(h.proc q).waitProc]; exact hb.linked p q (h.linked.mp hl)
  unlinked p q hl := by rw [(h.proc q).waitProc]; exact hb.unlinked p q fun hl' => hl (h.linked.mpr hl')
  alarm p := by rw [(h.proc p).alarm]; exact hb.alarm p
  freed p := by rw [h.alive, (h.proc p).phase, (h.proc p).wait]; exact hb.freed p
  fork p := by rw [(h.proc p).kont]; exact h.forking (hb.fork p)

theorem Proc.Alike.status {P' : Proc} (h : P'.Alike P) : P'.status = P.status := by
  simp only [Proc.status, h.kont, h.phase, h.msg]

theorem Kernel.Alike.protocol (h : k'.Alike k) : k'.protocol = k.protocol := by
  simp only [Kernel.protocol, (h.proc _).status, (h.proc _).hasIntr]

theorem Kernel.Alike.busy (h : k'.Alike k) (hcur : k'.current = k.current) (hlog : k'.log = k.log)
    (hb : k.Busy s₀ strict a) : k'.Busy s₀ strict a where
  base := h.base hb.base
  kont p hp := by
    rw [(h.proc p).kont]
    exact h.kontOk (hb.kont p (hcur ▸ hp))
  ready := by rw [Kernel.cur, (h.proc _).phase, hcur]; exact hb.ready
  user := hcur ▸ hb.user
  trace := by rw [hlog, h.protocol, hcur]; exact hb.trace

theorem Kernel.Alike.inv (h : k'.Alike k) (hcur : k'.current = k.current) (hlog : k'.log = k.log)
    (hi : k.Inv s₀ strict) : k'.Inv s₀ strict where
  base := h.base hi.base
  kont p := by
    rw [(h.proc p).kont]
    exact h.kontOk (hi.kont p)
  ready := by rw [Kernel.cur, (h.proc _).phase, hcur]; exact hi.ready
  trace := by rw [hlog, h.protocol]; exact hi.trace

/-! ## `schedule` -/

theorem yieldCur_alike (k : Kernel) : (yieldCur k).Alike k := by
  have hset : (k.setCur { k.cur with
      needSchedule := false, state := if k.cur.state = .running then .runnable else k.cur.state }).Alike k := by
    refine Kernel.Alike.set ⟨?_, rfl, rfl, rfl, rfl, rfl, rfl, rfl, rfl, rfl⟩
    show ProcState.phase _ = k.cur.state.phase
    split
    · rename_i hrun
      rw [hrun]
      rfl
    · rfl
  rw [yieldCur]
  split
  · exact hset
  · exact ⟨hset.proc, rfl, rfl, rfl, rfl⟩

theorem yieldCur_log (k : Kernel) : (yieldCur k).log = k.log := by
  rw [yieldCur]
  split <;> rfl

theorem pickNext_alike (k : Kernel) : (pickNext k).Alike k := by
  rw [pickNext]
  split
  · rename_i next hnext
    have hrun : (k.proc next).state = .runnable := by simpa using List.find?_some hnext
    have hset : (k.set next { k.proc next with state := .running }).Alike k := by
      refine Kernel.Alike.set ⟨?_, rfl, rfl, rfl, rfl, rfl, rfl, rfl, rfl, rfl⟩
      rw [Proc.phase, Proc.phase, hrun]
      rfl
    exact ⟨hset.proc, rfl, rfl, rfl, rfl⟩
  · exact ⟨fun p => .refl _, rfl, rfl, rfl, rfl⟩

theorem pickNext_log (k : Kernel) : (pickNext k).log = k.log := by
  rw [pickNext]
  split <;> rfl

theorem schedule_alike (k : Kernel) : (schedule k).Alike k := (pickNext_alike _).trans (yieldCur_alike k)

theorem schedule_log (k : Kernel) : (schedule k).log = k.log := (pickNext_log _).trans (yieldCur_log k)

theorem schedule_ready (h : k.Base) : (schedule k).cur.phase = .ready := by
  have hidle := ((schedule_alike k).base h).idle.2.2.1
  rw [schedule, pickNext] at hidle ⊢
  split
  · simp [Kernel.cur, Proc.phase, ProcState.phase]
  · rename_i hnone
    rw [hnone] at hidle
    exact hidle

theorem inv_schedule (hbase : k.Base) (hkont : ∀ p, k.KontOk strict p (k.proc p).kont)
    (htrace : Trace s₀ k.log k.protocol) : (schedule k).Inv s₀ strict where
  base := (schedule_alike k).base hbase
  kont p := by
    rw [((schedule_alike k).proc p).kont]
    exact (schedule_alike k).kontOk (hkont p)
  ready := schedule_ready hbase
  trace := by rw [schedule_log, (schedule_alike k).protocol]; exact htrace

end FengOS.Core
