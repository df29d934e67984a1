import FengOS.Core.Lemmas.Ipc

/-!
# `do_send` and `do_recv`
-/

namespace FengOS.Core

open FengOS.Lib.Rendezvous

variable {strict : Prop} {k k' : Kernel} {p q dest source : Nat} {dst src pid : Int} {msg : Message} {flow : Flow}
  {caller : SendCaller} {s₀ : State Nat Message} {a : Status Nat Message}

theorem bind_eq_ok {α β : Type} {x : Except Fault α} {f : α → Except Fault β} {b : β} (h : x >>= f = .ok b) :
    ∃ a, x = .ok a ∧ f a = .ok b := by
  cases x with
  | error e => cases h
  | ok a => exact ⟨a, rfl, h⟩

theorem deref_ok (h : k.deref p = .ok ()) : k.alive p = true := by
  unfold Kernel.deref at h
  split at h
  · assumption
  · cases h

theorem hashIndex_ok {i : Nat} (h : hashIndex pid = .ok i) (hpid : 0 < pid) : (i : Int) = pid % procHashMapSize := by
  unfold hashIndex at h
  rw [Int.tmod_eq_emod_of_nonneg (Int.le_of_lt hpid)] at h
  have hnonneg : 0 ≤ pid % procHashMapSize := Int.emod_nonneg _ (by decide)
  rw [if_neg (Int.not_lt.mpr hnonneg)] at h
  cases h
  exact Int.toNat_of_nonneg hnonneg

theorem hashIndex_of_pos (h : 0 < pid) : ∃ i : Nat, hashIndex pid = .ok i ∧ (i : Int) = pid % procHashMapSize := by
  have hnonneg : ¬ pid.tmod procHashMapSize < 0 := Int.not_lt.mpr (Int.tmod_nonneg _ (Int.le_of_lt h))
  have hi : hashIndex pid = .ok (pid.tmod procHashMapSize).toNat := if_neg hnonneg
  exact ⟨_, hi, hashIndex_ok hi h⟩

theorem mapProc_some (h : mapProc k pid = .ok (some p)) : (∃ i, p ∈ k.hashMap i) ∧ (k.proc p).pid = pid := by
  obtain ⟨i, -, hi⟩ := bind_eq_ok h
  have hfind : (k.hashMap i).find? (fun p => (k.proc p).pid = pid) = some p := Except.ok.inj hi
  exact ⟨⟨i, List.mem_of_find?_eq_some hfind⟩, by simpa using List.find?_some hfind⟩

theorem findProc_ok (h : findProc k pid = .ok p) : mapProc k pid = .ok (some p) ∧ k.alive p = true := by
  obtain ⟨o, ho, h⟩ := bind_eq_ok h
  cases o with
  | none => cases h
  | some q =>
    obtain ⟨⟨⟩, halive, h⟩ := bind_eq_ok h
    cases h
    exact ⟨ho, deref_ok halive⟩

theorem Kernel.Base.pid_of_findProc (hb : k.Base) (h : findProc k pid = .ok p) :
    (k.proc p).pid = pid ∧ 0 < (k.proc p).pid := by
  obtain ⟨⟨i, hi⟩, hpid⟩ := mapProc_some (findProc_ok h).1
  exact ⟨hpid, (hb.hash i p hi).1⟩

theorem mem_lookup (h : p ∈ k.lookup pid) : mapProc k pid = .ok (some p) := by
  unfold Kernel.lookup at h
  cases hm : mapProc k pid with
  | error e =>
    rw [hm] at h
    cases h
  | ok o =>
    rw [hm] at h
    cases h
    rfl

theorem Kernel.LiveTarget.livePid (h : k.LiveTarget pid) : k.LivePid pid := by
  obtain ⟨q, hq, hlive⟩ := h
  obtain ⟨hhash, hpid⟩ := mapProc_some (mem_lookup hq)
  exact ⟨q, hpid, hhash, hlive⟩

theorem Kernel.LivePid.live (h : k.LivePid pid) (hb : k.Base) (hfind : findProc k pid = .ok p) : k.Live p := by
  obtain ⟨q, hq, hlive⟩ := h
  obtain ⟨hp, hpos⟩ := hb.pid_of_findProc hfind
  rw [hb.pid_inj p q (hp.trans hq.symm) hpos]
  exact hlive

theorem doSend_intr (h : doSend k dst msg caller = .ok flow) (hsrc : msg.src = ipcIntr) :
    ∃ dest, findProc k dst = .ok dest ∧ flow = .returned (sendIntr k dest) msg := by
  obtain ⟨dest, hdest, h⟩ := bind_eq_ok h
  rw [if_pos hsrc] at h
  cases h
  exact ⟨dest, hdest, rfl⟩

theorem Kernel.Base.pid_ne_intr (h : k.Base) (p : Nat) : (k.proc p).pid ≠ ipcIntr :=
  Int.ne_of_lt (Int.lt_trans (h.pid_lt_signal p) (by decide))

theorem doSend_switched (h : doSend k dst msg caller = .ok flow) (hsrc : msg.src ≠ ipcIntr) : ∃ k', flow = .switched k' := by
  obtain ⟨dest, -, h⟩ := bind_eq_ok h
  rw [if_neg hsrc] at h
  cases h
  exact ⟨_, rfl⟩

theorem doSendrecv_switched {caller : RpcCaller} (h : doSendrecv k dst msg caller = .ok flow)
    (hsrc : msg.src ≠ ipcIntr) : ∃ k', flow = .switched k' := by
  obtain ⟨flow', hs, h⟩ := bind_eq_ok h
  obtain ⟨k', rfl⟩ := doSend_switched hs hsrc
  cases h
  exact ⟨k', rfl⟩

theorem Kernel.Busy.switched_doSend (h : k.Busy s₀ strict .ready)
    (hs : doSend k dst msg caller = .ok flow) (hsrc : msg.src = k.cur.pid) (hlive : strict → k.LivePid dst)
    (hcaller : ∀ d c, caller = .rpc d c → d = dst) (hfork : ∀ dest, k.Forking k.current (.send dest msg caller)) :
    ∃ k', flow = .switched k' ∧ k'.Inv s₀ strict := by
  obtain ⟨dest, hdest, hs⟩ := bind_eq_ok hs
  obtain ⟨rfl, hpos⟩ := h.base.pid_of_findProc hdest
  have hintr : msg.src ≠ ipcIntr := by
    rw [hsrc]
    exact h.base.pid_ne_intr k.current
  rw [if_neg hintr] at hs
  cases hs
  have hpid : (enqueue k dest (k.proc dest).pid msg caller).cur.pid = k.cur.pid := enqueue_pid k.current
  rw [hpid]
  exact ⟨_, rfl, h.send hpos (fun hstrict => (hlive hstrict).live h.base hdest) hcaller (hfork dest)⟩

section Cases

variable {caller : RecvCaller}

theorem takeMessage_ok (h : takeMessage k source = .ok flow) :
    flow = .returned (copyMessage k source) (k.proc source).msg := by
  obtain ⟨⟨⟩, -, h⟩ := bind_eq_ok h
  cases h
  rfl

theorem recvAll_cases (h : recvAll k msg caller = .ok flow) : flow = takeIntr k msg ∨
    (∃ source ∈ k.cur.waitProc, flow = .returned (copyMessage k source) (k.proc source).msg) ∨
    ∃ wait kont, flow = .switched (blockReceiving k wait kont) ∧ kont ≠ .wait := by
  unfold recvAll at h
  split at h
  · cases h
    exact Or.inl rfl
  · split at h
    · rename_i source sources hqueue
      exact Or.inr (Or.inl ⟨source, hqueue ▸ List.mem_cons_self, takeMessage_ok h⟩)
    · cases h
      exact Or.inr (Or.inr ⟨_, _, rfl, nofun⟩)

theorem doRecv_cases (h : doRecv k src msg caller = .ok flow) : flow = takeIntr k msg ∧ (src = ipcAll ∨ src = ipcIntr) ∨
    (∃ source, flow = .returned (copyMessage k source) (k.proc source).msg ∧ (src = ipcAll ∧ source ∈ k.cur.waitProc ∨
        findProc k src = .ok source ∧ (k.proc source).state = .sending ∧ (k.proc source).wait = k.cur.pid)) ∨
    ∃ wait kont, flow = .switched (blockReceiving k wait kont) ∧ kont ≠ .wait := by
  unfold doRecv at h
  split at h
  · rename_i hall
    rcases recvAll_cases h with he | ⟨source, hs, he⟩ | he
    · exact Or.inl ⟨he, Or.inl hall⟩
    · exact Or.inr (Or.inl ⟨source, he, Or.inl ⟨hall, hs⟩⟩)
    · exact Or.inr (Or.inr he)
  · split at h
    · rename_i hintr
      split at h
      · cases h
        exact Or.inl ⟨rfl, Or.inr hintr⟩
      · cases h
        exact Or.inr (Or.inr ⟨_, _, rfl, nofun⟩)
    · obtain ⟨source, hfind, h⟩ := bind_eq_ok h
      split at h
      · rename_i hs
        exact Or.inr (Or.inl ⟨source, takeMessage_ok h, Or.inr ⟨hfind, hs⟩⟩)
      · cases h
        exact Or.inr (Or.inr ⟨_, _, rfl, nofun⟩)

end Cases

def Flow.Ok (s₀ : State Nat Message) (strict : Prop) (b : Message → Status Nat Message) : Flow → Prop
  | .switched k => k.Inv s₀ strict
  | .returned k msg => k.Busy s₀ strict (b msg)

theorem Kernel.Busy.ok_recvAll (h : k.Busy s₀ strict .ready) (hr : recvAll k msg .syscall = .ok flow) :
    flow.Ok s₀ strict fun _ => .ready := by
  unfold recvAll at hr
  split at hr
  · rename_i hintr
    cases hr
    exact h.take hintr
  · rename_i hintr
    split at hr
    · rename_i source _ hqueue
      obtain rfl := takeMessage_ok hr
      have hl : k.Linked source k.current := by
        by_contra hl
        have hmem : source ∈ k.cur.waitProc := by rw [hqueue]; exact List.mem_cons_self
        exact h.base.unlinked _ _ hl hmem
      exact h.copy hl (Or.inl ⟨rfl, rfl⟩)
    · rename_i hqueue
      cases hr
      refine h.block ?_ rfl (.of_none rfl)
      refine ⟨rfl, Or.inr ?_⟩
      rw [Kernel.setCur, set_proc_self]
      exact ⟨rfl, rfl, hqueue, by simpa using hintr⟩

theorem Kernel.Busy.inv_recvIntr (h : k.Busy s₀ strict .ready) (hintr : ¬ k.cur.hasIntr = true) :
    (blockReceiving k ipcIntr (.recvIntr msg .syscall)).Inv s₀ strict := by
  refine h.block ?_ rfl (.of_none rfl)
  refine ⟨rfl, Or.inr ?_⟩
  rw [Kernel.setCur, set_proc_self]
  exact ⟨rfl, rfl, by simpa using hintr⟩

inductive RecvStatus (source : Nat) : RecvCaller → Status Nat Message → (Message → Status Nat Message) → Prop
  | syscall : RecvStatus source .syscall .ready fun _ => .ready
  | rpc (caller : RpcCaller) : RecvStatus source (.rpc caller) (.awaiting source) .replied

theorem Kernel.Busy.ok_takeMessage {caller : RecvCaller} {b : Message → Status Nat Message} (h : k.Busy s₀ strict a)
    (hab : RecvStatus source caller a b) (hl : k.Linked source k.current)
    (hr : takeMessage k source = .ok flow) : flow = .returned (copyMessage k source) (k.proc source).msg ∧
      flow.Ok s₀ strict b := by
  obtain rfl := takeMessage_ok hr
  refine ⟨rfl, h.copy hl ?_⟩
  cases hab with
  | syscall => exact Or.inl ⟨rfl, rfl⟩
  | rpc => exact Or.inr ⟨rfl, rfl⟩

theorem Kernel.Busy.blockFrom {caller : RecvCaller} {b : Message → Status Nat Message} (h : k.Busy s₀ strict a)
    (hab : RecvStatus source caller a b) (hpid : 0 < (k.proc source).pid) (hl : ¬ k.Linked source k.current)
    (hlive : strict → k.Live source) (hfork : k.Forking k.current (.recvFrom source msg caller)) :
    (blockReceiving k (k.proc source).pid (.recvFrom source msg caller)).Inv s₀ strict := by
  have hpid' := set_pid (k := k) (p := k.current)
    (P := { k.cur with wait := (k.proc source).pid, state := .receiving, kont := .recvFrom source msg caller }) rfl
  refine h.block ?_ ?_ hfork
  · refine ⟨by rw [Kernel.setCur, hpid']; exact hpid, Or.inr ⟨?_, ?_, fun hl' => hl ?_, fun hs => ?_⟩⟩
    · rw [Kernel.setCur, set_proc_self]
      rfl
    · rw [Kernel.setCur, set_proc_self, hpid']
    · rcases eq_or_ne source k.current with he | hne
      · rw [he] at hl'
        exact absurd hl'.1 (by rw [Kernel.setCur, set_proc_self]; simp [Proc.phase, ProcState.phase])
      · refine (set_linked_of_ne hne ?_).mp hl'
        rfl
    · refine ⟨(hlive hs).1, ?_, (hlive hs).2.2⟩
      rcases eq_or_ne source k.current with he | hne
      · rw [he, Kernel.setCur, set_proc_self]
        simp [Proc.phase, ProcState.phase]
      · rw [Kernel.setCur, set_proc_of_ne hne]
        exact (hlive hs).2.1
  · cases hab with
    | syscall => rfl
    | rpc => rfl

theorem Kernel.Busy.linked_iff (h : k.Busy s₀ strict a) :
    k.Linked source k.current ↔ (k.proc source).state = .sending ∧ (k.proc source).wait = k.cur.pid :=
  ⟨fun hl => ⟨phase_eq_sending.mp hl.1, hl.2.1⟩, fun hl => ⟨phase_eq_sending.mpr hl.1, hl.2, h.pid_pos⟩⟩

theorem Kernel.Busy.ok_recvFrom {caller : RecvCaller} {b : Message → Status Nat Message} (h : k.Busy s₀ strict a)
    (hr : doRecv k src msg caller = .ok flow) (hall : src ≠ ipcAll) (hintr : src ≠ ipcIntr)
    (hab : ∀ source, findProc k src = .ok source → RecvStatus source caller a b) (hlive : strict → k.LivePid src)
    (hfork : ∀ source, k.Forking k.current (.recvFrom source msg caller)) :
    flow.Ok s₀ strict b ∧ ∀ k' m, flow = .returned k' m →
      ∃ source, findProc k src = .ok source ∧ k.Linked source k.current ∧ k' = copyMessage k source ∧
        m = (k.proc source).msg := by
  unfold doRecv at hr
  rw [if_neg hall, if_neg hintr] at hr
  obtain ⟨source, hfind, hr⟩ := bind_eq_ok hr
  obtain ⟨rfl, hpid⟩ := h.base.pid_of_findProc hfind
  split at hr
  · rename_i hs
    have hl := h.linked_iff.mpr hs
    obtain ⟨rfl, hok⟩ := h.ok_takeMessage (hab source hfind) hl hr
    refine ⟨hok, fun k' m he => ?_⟩
    cases he
    exact ⟨source, hfind, hl, rfl, rfl⟩
  · rename_i hs
    cases hr
    have hl : ¬ k.Linked source k.current := fun hl => hs (h.linked_iff.mp hl)
    exact ⟨h.blockFrom (hab source hfind) hpid hl (fun hs => (hlive hs).live h.base hfind) (hfork source), nofun⟩

theorem Kernel.Busy.ok_doRecv (h : k.Busy s₀ strict .ready) (hr : doRecv k src msg .syscall = .ok flow)
    (hlive : strict → src = ipcAll ∨ src = ipcIntr ∨ k.LivePid src) : flow.Ok s₀ strict fun _ => .ready := by
  by_cases hall : src = ipcAll
  · rw [doRecv, if_pos hall] at hr
    exact h.ok_recvAll hr
  by_cases hintr : src = ipcIntr
  · rw [doRecv, if_neg hall, if_pos hintr] at hr
    split at hr
    · rename_i hset
      cases hr
      exact h.take hset
    · rename_i hset
      cases hr
      exact h.inv_recvIntr hset
  · have hlive' : strict → k.LivePid src := fun hs => ((hlive hs).resolve_left hall).resolve_left hintr
    exact (h.ok_recvFrom hr hall hintr (fun _ _ => .syscall) hlive' fun _ => .of_none rfl).1

end FengOS.Core
