import Mathlib.Data.List.Basic
import FengOS.Core.Lemmas.Boot

/-!
# Messages over whole runs
-/

namespace FengOS.Core

open FengOS.Lib FengOS.Lib.Rendezvous

variable {strict : Prop} {k : Kernel} {p q : Nat} {m : Message} {s₀ : State Nat Message}

/-! ## Exactly-once delivery -/

theorem Kernel.Base.mem_waitProc_iff (h : k.Base) : p ∈ (k.proc q).waitProc ↔ k.Linked p q := by
  constructor
  · intro hm
    by_contra hl
    exact h.unlinked p q hl hm
  · intro hl
    exact List.count_pos_iff.mp (by rw [h.linked p q hl]; exact Nat.one_pos)

theorem Kernel.Base.count_waitProc_le (h : k.Base) (p q : Nat) : (k.proc q).waitProc.count p ≤ 1 := by
  by_cases hl : k.Linked p q
  · exact Nat.le_of_eq (h.linked p q hl)
  · rw [List.count_eq_zero.mpr (h.unlinked p q hl)]
    exact Nat.zero_le 1

theorem Kernel.Base.count_waitProc_iff (h : k.Base) (hq : q ≠ 0) (hlt : q < k.nextProc) :
    (k.proc q).waitProc.count p = 1 ↔ (k.proc p).state = .sending ∧ (k.proc p).wait = (k.proc q).pid := by
  have hlink : k.Linked p q ↔ (k.proc p).state = .sending ∧ (k.proc p).wait = (k.proc q).pid := by
    rw [Kernel.Linked, phase_eq_sending]
    exact and_congr_right fun _ => and_iff_left (h.pid_pos q hq hlt)
  rw [← hlink]
  exact ⟨fun hc => h.mem_waitProc_iff.mp (List.count_pos_iff.mp (by rw [hc]; exact Nat.one_pos)), h.linked p q⟩

theorem Kernel.Inv.of_status_sending {call : Bool} (h : k.Inv s₀ strict) (hs : (k.proc p).status = .sending q m call) :
    (k.proc p).state = .sending ∧ (k.proc p).msg = m ∧ (k.proc q).waitProc.count p = 1 := by
  have hok := h.kont p
  unfold Proc.status at hs
  split at hs
  · rename_i dest msg caller hk
    split at hs
    · rename_i hphase
      cases hs
      rw [hk] at hok
      obtain ⟨hpid, -, hr | ⟨-, hwait, -⟩⟩ := hok
      · rw [hphase] at hr
        cases hr
      · exact ⟨phase_eq_sending.mp hphase, rfl, h.base.linked p q ⟨hphase, hwait, hpid⟩⟩
    · cases hs
  · cases hs
  · cases hs

/-- The queues hold the senders, each once, and the sends of a process are its messages in turn, each copied once and
unchanged by its destination before the call returns. -/
theorem rendezvous_exactly_once (h : k.Reach) :
    (∀ p q, q ≠ 0 → q < k.nextProc →
      ((k.proc q).waitProc.count p = 1 ↔ (k.proc p).state = .sending ∧ (k.proc p).wait = (k.proc q).pid)) ∧
    (∀ p q, (k.proc q).waitProc.count p ≤ 1) ∧
    (∀ p q r, p ∈ (k.proc q).waitProc → p ∈ (k.proc r).waitProc → q = r) ∧
    (∀ p, sends p k.log ++ rest p (k.proc p).status = (messages p k.log).flatMap (delivery p)) ∧
    ∀ p q m call, (k.proc p).status = .sending q m call →
      (k.proc p).state = .sending ∧ (k.proc p).msg = m ∧ (k.proc q).waitProc.count p = 1 := by
  obtain ⟨s₀, hidle, hinv⟩ := h.inv
  refine ⟨fun p q => hinv.base.count_waitProc_iff, hinv.base.count_waitProc_le, fun p q r hq hr => ?_,
    hinv.trace.delivery hidle, fun p q m call => hinv.of_status_sending⟩
  exact hinv.base.linked_unique (hinv.base.mem_waitProc_iff.mp hq) (hinv.base.mem_waitProc_iff.mp hr)

/-- The second of three modules has sent to the first, which has copied, and the third is queued on the second. -/
def Kernel.Midway (k : Kernel) : Prop :=
  k.nextProc = 4 ∧ sends 2 k.log = [.send 2 1 ⟨3, 0, default⟩ false, .copy 2 1 ⟨3, 0, default⟩] ∧
    (k.proc 3).state = .sending ∧ (k.proc 2).waitProc = [3]

instance : DecidablePred Kernel.Midway := fun _ => inferInstanceAs (Decidable (_ ∧ _))

theorem rendezvous_exactly_once_midway : ∃ k : Kernel, k.Reach ∧ k.Midway ∧
    ((k.proc 2).waitProc.count 3 = 1 ↔ (k.proc 3).state = .sending ∧ (k.proc 3).wait = (k.proc 2).pid) ∧
    sends 2 k.log ++ rest 2 (k.proc 2).status = (messages 2 k.log).flatMap (delivery 2) := by
  have hexec : (procInit 24 [2, 3, 4]).toOption.any (fun k => (exec Kernel.step Kernel.PidLeft k
      [.timer, .call (.recv ipcAll default), .call (.send 2 default), .call (.send 3 default), .resume]).any
        fun k => decide k.Midway) = true := by decide
  obtain ⟨k, hk, hmid⟩ := exists_run_of_exec (by decide) (by decide) hexec
  obtain ⟨hqueue, -, -, hdelivery, -⟩ := rendezvous_exactly_once hk
  exact ⟨k, hk, hmid, hqueue 3 2 (by decide) (by rw [hmid.1]; decide), hdelivery 2⟩

/-! ## No missed wake-up -/

theorem Kernel.Inv.receiving_cases (h : k.Inv s₀ strict) (hp : (k.proc p).state = .receiving) :
    ((k.proc p).wait = ipcAll → (k.proc p).waitProc = [] ∧ (k.proc p).hasIntr = false) ∧
    ((k.proc p).wait = ipcIntr → (k.proc p).hasIntr = false) ∧
    (∀ q, 0 < (k.proc q).pid → (k.proc p).wait = (k.proc q).pid → ¬ k.Linked q p) ∧
    ((k.proc p).wait = ipcSignal → (k.proc p).signal ≠ sigchld) := by
  have hreserved : ∀ q w, ipcSignal ≤ w → w ≠ (k.proc q).pid := fun q w hw he =>
    absurd (h.base.pid_lt_signal q) (Int.not_lt.mpr (he ▸ hw))
  rcases (h.kont p).receiving (phase_eq_receiving.mpr hp) with ⟨hw, hq⟩ | ⟨hw, hi⟩ | ⟨x, hw, hx, hl, -⟩ | ⟨hw, hs⟩ <;>
    rw [hw]
  · exact ⟨fun _ => hq, fun he => absurd he (by decide), fun q _ he => absurd he (hreserved q _ (by decide)),
      fun he => absurd he (by decide)⟩
  · exact ⟨fun he => absurd he (by decide), fun _ => hi, fun q _ he => absurd he (hreserved q _ (by decide)),
      fun he => absurd he (by decide)⟩
  · refine ⟨fun he => absurd he.symm (hreserved x _ (by decide)), fun he => absurd he.symm (hreserved x _ (by decide)),
      fun q hq he => ?_, fun he => absurd he.symm (hreserved x _ (by decide))⟩
    rw [← h.base.pid_inj x q he hx]
    exact hl
  · exact ⟨fun he => absurd he (by decide), fun he => absurd he (by decide),
      fun q _ he => absurd he (hreserved q _ (by decide)), fun _ => hs⟩

/-- A process that is receiving is not waiting for what is already there. -/
theorem no_missed_wakeup (h : k.Reach) (hp : (k.proc p).state = .receiving) :
    ((k.proc p).wait = ipcAll → (k.proc p).waitProc = [] ∧ (k.proc p).hasIntr = false) ∧
    ((k.proc p).wait = ipcIntr → (k.proc p).hasIntr = false) ∧
    (∀ f, f ≠ 0 → f < k.nextProc → (k.proc p).wait = (k.proc f).pid →
      ¬ ((k.proc f).state = .sending ∧ (k.proc f).wait = (k.proc p).pid)) ∧
    ((k.proc p).wait = ipcSignal → (k.proc p).signal ≠ sigchld) := by
  obtain ⟨s₀, -, hinv⟩ := h.inv
  have hphase := phase_eq_receiving.mpr hp
  have hzero : p ≠ 0 := by
    rintro rfl
    rw [hinv.base.idle.2.2.1] at hphase
    cases hphase
  have hpid := hinv.base.pid_pos p hzero (hinv.base.lt_of_phase (by rw [hphase]; nofun))
  obtain ⟨hall, hintr, hfrom, hsignal⟩ := hinv.receiving_cases hp
  refine ⟨hall, hintr, fun f hf hlt hw hs => ?_, hsignal⟩
  exact hfrom f (hinv.base.pid_pos f hf hlt) hw ⟨phase_eq_sending.mpr hs.1, hs.2, hpid⟩

/-- Of three boot modules the second waits for the third, which is sending to the first. -/
def Kernel.Waiting (k : Kernel) : Prop :=
  (k.proc 2).state = .receiving ∧ (k.proc 2).wait = (k.proc 3).pid ∧ (k.proc 3).state = .sending ∧ k.nextProc = 4

instance : DecidablePred Kernel.Waiting := fun _ => inferInstanceAs (Decidable (_ ∧ _))

theorem no_missed_wakeup_waiting : ∃ k : Kernel, k.Reach ∧ k.Waiting ∧
    ¬ ((k.proc 3).state = .sending ∧ (k.proc 3).wait = (k.proc 2).pid) := by
  have hexec : (procInit 24 [2, 3, 4]).toOption.any (fun k => (exec Kernel.step Kernel.PidLeft k
      [.timer, .call (.recv ipcAll default), .call (.recv 4 default), .call (.send 2 default)]).any
        fun k => decide k.Waiting) = true := by decide
  obtain ⟨k, hk, hwaiting⟩ := exists_run_of_exec (by decide) (by decide) hexec
  have hfrom := (no_missed_wakeup hk hwaiting.1).2.2.1
  exact ⟨k, hk, hwaiting, hfrom 3 (by decide) (by rw [hwaiting.2.2.2]; decide) hwaiting.2.1⟩

/-! ## Replies to calls -/

/-- A call returns what the process called has sent after it had received the request, and nothing is received or lost
meanwhile. -/
theorem rpc_reply_safe (h : k.Reach) :
    (∀ p m l l', k.log = l ++ .reply p m :: l' → Answered l p m) ∧
    (∀ x p m call a b, k.log = a ++ .send x p m call :: b → .copy x p m ∉ b →
      (k.proc x).state = .sending ∧ (k.proc x).msg = m ∧ (k.proc p).waitProc.count x = 1) ∧
    ∀ p a b, k.log = a ++ .notify p :: b → .take p ∉ b → (k.proc p).hasIntr = true := by
  obtain ⟨s₀, hidle, hinv⟩ := h.inv
  have htrace := hinv.trace
  refine ⟨fun p m l l' hlog => ?_, fun x p m call a b hlog hcopy => ?_, fun p a b hlog htake => ?_⟩ <;>
    rw [hlog] at htrace
  · exact htrace.answered hidle
  · exact hinv.of_status_sending (htrace.sending hcopy)
  · exact htrace.flagged htake

/-- The first boot module has answered a call of the second, to which the third is still sending. -/
def Kernel.Served (k : Kernel) : Prop :=
  k.log.getLast? = some (.reply 2 ⟨2, 7, default⟩) ∧ (k.proc 2).waitProc = [3]

instance : DecidablePred Kernel.Served := fun _ => inferInstanceAs (Decidable (_ ∧ _))

theorem rpc_reply_safe_served : ∃ k : Kernel, k.Reach ∧ k.Served ∧ Answered k.log.dropLast 2 ⟨2, 7, default⟩ := by
  have hexec : (procInit 24 [2, 3, 4]).toOption.any (fun k => (exec Kernel.step Kernel.PidLeft k
      [.timer, .call (.recv ipcAll default), .call (.sendrecv 2 default), .call (.send 3 default), .resume,
        .call (.send 3 ⟨0, 7, default⟩), .resume]).any fun k => decide k.Served) = true := by decide
  obtain ⟨k, hk, hserved⟩ := exists_run_of_exec (by decide) (by decide) hexec
  have hlog : k.log = k.log.dropLast ++ .reply 2 ⟨2, 7, default⟩ :: [] :=
    (List.dropLast_append_getLast? _ hserved.1).symm
  exact ⟨k, hk, hserved, (rpc_reply_safe hk).1 _ _ _ _ hlog⟩

end FengOS.Core
