import FengOS.Vfs.Lemmas.Tree

/-!
# Isolation of processes
-/

namespace FengOS.Vfs

open FengOS.Lib

variable {v w : State} {q c : Nat} {t : Table} {call : Call}

/-- A request of another process leaves a table, or it is the fork that makes it. -/
theorem State.Inv.others (hv : v.Inv) (h : v.step call = some w) (hq : q ≠ call.src) :
    w.table q = v.table q ∨ v.table q = none ∧ call.request = .forkfs q := by
  obtain ⟨⟨r, w⟩, hw, rfl⟩ := Option.map_eq_some_iff.mp h
  by_cases hfork : ∃ pid, call.request = .forkfs pid
  · obtain ⟨pid, hpid⟩ := hfork
    simp only [State.process, hpid] at hw
    obtain ⟨u, hu, hk, -, hc⟩ := hv.forkfs hw
    have htu := hu.others q hq
    rcases eq_or_ne q pid with rfl | hne
    · cases ht : v.table q with
      | none => exact .inr ⟨rfl, hpid⟩
      | some t =>
        rw [htu, ht, Option.getD_some] at hc
        exact .inl hc
    · exact .inl ((hk.others q hne).trans htu)
  · exact .inl ((hv.process (fun pid hpid => hfork ⟨pid, hpid⟩) hw).others q hq)

theorem State.Inv.forked (hv : v.Inv) (h : v.step call = some w) (hcall : call.request = .forkfs c) :
    w.table call.src = some ((v.table call.src).getD v.stdTable) ∧
      (c ≠ call.src → v.table c = none → w.table c = w.table call.src) := by
  obtain ⟨⟨r, w⟩, hw, rfl⟩ := Option.map_eq_some_iff.mp h
  simp only [State.process, hcall] at hw
  obtain ⟨u, hu, hk, hsrc, hc⟩ := hv.forkfs hw
  rcases eq_or_ne c call.src with rfl | hne
  · rw [hsrc, Option.getD_some] at hc
    exact ⟨hc, fun h => absurd rfl h⟩
  · have hsrc' := (hk.others call.src (Ne.symm hne)).trans hsrc
    refine ⟨hsrc', fun _ hnone => ?_⟩
    rw [(hu.others c hne).trans hnone, Option.getD_none] at hc
    exact hc.trans hsrc'.symm

/-- No process has two tables, requests of others leave its files and directory, and a fork copies them. -/
theorem process_isolation {v : State} (hv : Reach v) :
    (v.procFiles.map ProcFile.pid).Nodup ∧
    (∀ q t w, v.table q = some t → Run State.step (fun _ call => call.src ≠ q) (· = v) w → w.table q = some t) ∧
    (∀ call w q, v.step call = some w → q ≠ call.src → v.table q = none →
      w.table q = none ∨ call.request = .forkfs q) ∧
    ∀ call w c, v.step call = some w → call.request = .forkfs c →
      w.table call.src = some ((v.table call.src).getD v.stdTable) ∧
        (c ≠ call.src → v.table c = none → w.table c = w.table call.src) := by
  refine ⟨hv.inv.owned.chains.nodup, fun q t w ht hw => ?_, fun call w q h hq ht => ?_,
    fun call w c h hcall => hv.inv.forked h hcall⟩
  · have hrun : w.Inv ∧ w.table q = some t :=
      Run.invariant (Q := fun w => w.Inv ∧ w.table q = some t) (fun _ he => he ▸ ⟨hv.inv, ht⟩)
        (fun _ call _ ⟨hi, ht⟩ hne hs => ⟨hi.step hs, by rcases hi.others hs (Ne.symm hne) with h | h <;> simp_all⟩) hw
    exact hrun.2
  · exact (hv.inv.others h hq).imp (·.trans ht) And.right

def silent : Fs := fun _ _ => none

theorem process_isolation_same_chain : ∃ v, Reach v ∧ ((v.table 5).isSome ∧ (v.table 1029).isSome) ∧
    (v.procFiles.map ProcFile.pid).Nodup ∧
    ∀ t w, v.table 5 = some t → Run State.step (fun _ call => call.src ≠ 5) (· = v) w → w.table 5 = some t := by
  have hrun : Reach (mounted ⟨2, 0, 0⟩) := .init ⟨_, rfl⟩
  have hexec : (exec State.step (fun _ _ => True) (mounted ⟨2, 0, 0⟩) [⟨5, .read 0 1, silent⟩, ⟨5, .forkfs 1029, silent⟩]).any
      (fun v => decide ((v.table 5).isSome ∧ (v.table 1029).isSome)) = true := by decide
  obtain ⟨v, hv, htables⟩ := Run.exists_of_exec hrun hexec
  exact ⟨v, hv, htables, (process_isolation hv).1, (process_isolation hv).2.1 5⟩

end FengOS.Vfs
