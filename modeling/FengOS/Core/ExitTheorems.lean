import FengOS.Core.Lemmas.Boot

/-!
# Messages and processes that exit
-/

namespace FengOS.Core

open FengOS.Lib FengOS.Lib.Rendezvous

variable {k : Kernel} {p q : Nat} {s₀ : State Nat Message}

theorem Kernel.Inv.live_of_sending (h : k.Inv s₀ True) (hp : (k.proc p).phase = .sending)
    (hw : (k.proc p).wait ≠ ipcNowait) : ∃ q, (k.proc q).pid = (k.proc p).wait ∧ 0 < (k.proc q).pid ∧ k.Live q := by
  rcases (h.kont p).sending hp with ⟨-, he⟩ | ⟨dest, -, -, -, he, hpid, hlive⟩
  · exact absurd he hw
  · exact ⟨dest, he.symm, hpid, hlive trivial⟩

theorem Kernel.Inv.live_of_queued (h : k.Inv s₀ True) (hp : p ∈ (k.proc q).waitProc) : k.alive p = true ∧ k.Live q := by
  have hl : k.Linked p q := by
    by_contra hl
    exact h.base.unlinked p q hl hp
  have hw : (k.proc p).wait ≠ ipcNowait := by
    rw [hl.2.1]
    exact Int.ne_of_gt hl.2.2
  constructor
  · by_contra hf
    rcases h.base.freed p (by simpa using hf) with hs | ⟨-, hs⟩
    · rw [hl.1] at hs
      cases hs
    · exact hw hs
  · obtain ⟨dest, he, hpid, hlive⟩ := h.live_of_sending hl.1 hw
    rw [← h.base.pid_inj dest q (he.trans hl.2.1) hpid]
    exact hlive

/-- In careful runs nobody is queued on or receives from a process that has exited, and no queue holds a freed one. -/
theorem waits_for_live (h : k.ReachCareful) :
    (∀ p, (k.proc p).state = .sending → (k.proc p).wait ≠ ipcNowait →
      ∃ q, (k.proc q).pid = (k.proc p).wait ∧ (k.proc q).state ≠ .stopped ∧ k.alive q = true) ∧
    (∀ p, (k.proc p).state = .receiving → (k.proc p).wait ∉ [ipcAll, ipcIntr, ipcSignal] →
      ∃ q, (k.proc q).pid = (k.proc p).wait ∧ (k.proc q).state ≠ .stopped ∧ k.alive q = true) ∧
    ∀ p q, p ∈ (k.proc q).waitProc → k.alive p = true ∧ k.alive q = true ∧ (k.proc q).state ≠ .stopped := by
  obtain ⟨s₀, -, hinv⟩ := h.inv
  have hstopped : ∀ q, k.Live q → (k.proc q).state ≠ .stopped ∧ k.alive q = true := by
    intro q hq
    refine ⟨fun hs => hq.2.1 ?_, hq.2.2⟩
    rw [Proc.phase, hs]
    rfl
  refine ⟨fun p hp hw => ?_, fun p hp hw => ?_, fun p q hp => ?_⟩
  · obtain ⟨q, hq, -, hlive⟩ := hinv.live_of_sending (phase_eq_sending.mpr hp) hw
    exact ⟨q, hq, hstopped q hlive⟩
  · rcases (hinv.kont p).receiving (phase_eq_receiving.mpr hp) with ⟨he, -⟩ | ⟨he, -⟩ | ⟨q, he, -, -, hlive⟩ | ⟨he, -⟩
    · exact absurd (by rw [he]; decide) hw
    · exact absurd (by rw [he]; decide) hw
    · exact ⟨q, he.symm, hstopped q (hlive trivial)⟩
    · exact absurd (by rw [he]; decide) hw
  · obtain ⟨hp, hq⟩ := hinv.live_of_queued hp
    exact ⟨hp, hq.2.2, (hstopped q hq).1⟩

/-- Of three modules the second has exited, and the third is sending to the first, the file server. -/
def Kernel.Orderly (k : Kernel) : Prop :=
  (k.proc 2).state = .stopped ∧ (k.proc 3).state = .sending ∧ (k.proc 3).wait ≠ ipcNowait

instance : DecidablePred Kernel.Orderly := fun _ => inferInstanceAs (Decidable (_ ∧ _))

theorem waits_for_live_orderly : ∃ k : Kernel, k.ReachCareful ∧ k.Orderly ∧
    ∃ q, (k.proc q).pid = (k.proc 3).wait ∧ (k.proc q).state ≠ .stopped ∧ k.alive q = true := by
  have hexec : (procInit 24 [2, 3, 4]).toOption.any (fun k =>
      (exec Kernel.step (fun k a => k.PidLeft a ∧ k.Careful a) k [.timer, .call (.recv ipcAll default),
        .call (.exit 0 default), .call (.send 2 default), .resume, .call (.send 3 default), .resume]).any
        fun k => decide k.Orderly) = true := by decide +kernel
  obtain ⟨k, hk, horderly⟩ := exists_run_of_exec (by decide) (by decide) hexec
  exact ⟨k, hk, horderly, (waits_for_live hk).1 3 horderly.2.1 horderly.2.2⟩

/-- The second boot module is sending to the third, which has exited. -/
def Kernel.Stuck (k : Kernel) : Prop :=
  (k.proc 2).state = .sending ∧ (k.proc 2).wait = (k.proc 3).pid ∧ (k.proc 3).waitProc = [2] ∧
    (k.proc 3).state = .stopped

instance : DecidablePred Kernel.Stuck := fun _ => inferInstanceAs (Decidable (_ ∧ _))

/-- The file server waits for messages, the second module sends to the third, and the third exits. -/
theorem queued_on_exited : ∃ k : Kernel, k.Reach ∧ k.Stuck := by
  have hexec : (procInit 24 [2, 3, 4]).toOption.any (fun k => (exec Kernel.step Kernel.PidLeft k
      [.timer, .call (.recv ipcAll default), .call (.send 4 default), .call (.exit 0 default), .resume,
        .call (.send 4 default), .resume]).any fun k => decide k.Stuck) = true := by decide +kernel
  exact exists_run_of_exec (by decide) (by decide) hexec

end FengOS.Core
