import FengOS.Core.Lemmas.Boot
import FengOS.Core.Lemmas.Queue
import Mathlib.Data.List.Perm.Subperm

/-!
# The scheduler
-/

namespace FengOS.Core

open FengOS.Lib FengOS.Lib.RoundRobin

variable {k k' k₀ k₁ : Kernel} {p next : Nat} {a : Action}

/-! ## Calls of `schedule` -/

/-- A step calls `schedule`, or `current` stays and at most one process comes to the end of `proc_head` or leaves it. -/
inductive Kernel.Moves (k : Kernel) : Kernel → Prop
  | stay {k' : Kernel} : k'.current = k.current →
      (k'.procHead = k.procHead ∨ ∃ c, k'.procHead = k.procHead ++ [c] ∨ k'.procHead = k.procHead.erase c) → Moves k k'
  | call {k₀ : Kernel} : k.AtCall k₀ →
      (∀ p ∈ k.procHead, p ≠ k.current → (k.proc p).state = .runnable → (k₀.proc p).state = .runnable) →
      Moves k (schedule k₀)

theorem Kernel.Calm.atCall (h : k.Calm k₀) : k.AtCall k₀ := ⟨h.current, h.procHead, fun p => (h.proc p).idle⟩

theorem Kernel.Outcome.moves {caller : RpcCaller} (h : k.Outcome caller k') : k.Moves k' := by
  cases h with
  | calm h _ => exact .stay h.current (.inl h.procHead)
  | switch h _ => exact .call h.atCall fun p _ => h.runnable p
  | @stop k₁ _ _ h =>
    refine .call ⟨h.current, h.procHead, fun p => ?_⟩ fun p _ hne hr => ?_
    · rw [← (h.proc p).idle]
      exact set_field Proc.idle (by rfl) p
    · rw [Kernel.setCur, set_proc_of_ne (h.current ▸ hne)]
      exact h.runnable p hne hr
  | failed _ h => exact .stay h.current (.inl h.procHead)
  | @linked k₁ c _ _ h => exact .stay h.current (.inr ⟨c, .inl (congrArg (· ++ [c]) h.procHead)⟩)
  | @reaped k₁ c _ _ h _ => exact .stay h.current (.inr ⟨c, .inr (congrArg (List.erase · c) h.procHead)⟩)

theorem Kernel.Settled.moves (h : k.Settled) (hstep : k.step a = some k') : k.Moves k' := by
  by_cases hroutes : a.Routes
  · obtain ⟨hwProc, rfl⟩ := routes_step hroutes hstep
    exact .stay rfl (.inl rfl)
  obtain ⟨caller, k₁, hstart, hout⟩ := step_outcome h.ordered.alarm hroutes hstep
  cases hstart with
  | same => exact hout.moves
  | exit _ => exact hout.moves
  | new _ hnew =>
    have hspec := newProc_spec hnew (Nat.ne_of_lt h.ordered.current_lt)
    have hold : ∀ p ∈ k.procHead, p ≠ k.nextProc := fun p hp =>
      Nat.ne_of_lt (h.ordered.tables.alive_lt p ((h.ordered.tables.mem p).mp hp).1)
    cases hout.moves with
    | stay hcur hhead =>
      rw [hspec.procHead] at hhead
      exact .stay (hcur.trans hspec.current) hhead
    | call hcall hready =>
      refine .call ⟨hcall.current.trans hspec.current, hcall.procHead.trans hspec.procHead, fun p => ?_⟩
        fun p hp hne hr => hready p (hspec.procHead ▸ hp) (hspec.current ▸ hne) ?_
      · rw [hcall.idle]
        rcases eq_or_ne p k.nextProc with rfl | hp
        · have hpos := h.ordered.tables.pos
          rw [hspec.new.2.1, eq_comm, Bool.eq_false_iff]
          exact fun hidle => Nat.ne_of_gt hpos ((h.ordered.idle _).mp hidle)
        · exact (hspec.old p hp).2.1.idle
      · rw [(hspec.old p (hold p hp)).1, hr]

/-! ## One process runs -/

theorem Kernel.Settled.disciplined (h : k.Settled) : k.Disciplined where
  listed p hp := by
    obtain ⟨hne, halive, hforked⟩ := hp
    exact List.count_eq_one_of_mem h.ordered.tables.nodup
      ((h.ordered.tables.mem p).mpr ⟨halive, hne, fun q => (hforked q).2⟩)
  single := by
    rw [List.countP_eq_length_filter]
    have hsub : k.procHead.filter (fun p => (k.proc p).state = .running) ⊆ [k.current] := by
      intro p hp
      obtain ⟨hp, hr⟩ := List.mem_filter.mp hp
      exact List.mem_singleton.mpr (h.ordered.running p hp (of_decide_eq_true hr))
    exact (List.Nodup.subperm (h.ordered.tables.nodup.filter _) hsub).length_le
  current := h.ordered.running
  idle h₀ p hp hr := by
    have hcur := h.ordered.running p hp hr
    exact h.ordered.tables.not_mem_idle (h₀ ▸ hcur ▸ hp)

theorem mem_yieldCur (hp : p ∈ k.procHead) : p ∈ (yieldCur k).procHead := by
  rw [yieldCur_procHead]
  split
  · exact hp
  · rcases eq_or_ne p k.current with rfl | hne
    · exact List.mem_append_right _ (List.mem_singleton_self _)
    · exact List.mem_append_left _ ((List.mem_erase_of_ne hne).mpr hp)

theorem Kernel.Settled.not_mem_yieldCur (h : k.Settled) (hcall : k.AtCall k₀) : 0 ∉ (yieldCur k₀).procHead := by
  have hmem : 0 ∉ k₀.procHead := hcall.procHead ▸ h.ordered.tables.not_mem_idle
  rw [yieldCur_procHead]
  split
  · exact hmem
  · rename_i hidle
    intro h₀
    rcases List.mem_append.mp h₀ with h₀ | h₀
    · exact hmem (List.mem_of_mem_erase h₀)
    · refine hidle ?_
      rw [Kernel.cur, hcall.idle]
      exact (h.ordered.idle _).mpr (List.mem_singleton.mp h₀).symm

theorem Kernel.Settled.choosesReady (h : k.Settled) (hcall : k.AtCall k₀) : k₀.ChoosesReady := by
  obtain ⟨next, hnext, hpick⟩ | ⟨hnone, hpick⟩ := pickNext_cases (yieldCur k₀)
  · have hcur : (schedule k₀).current = next := by rw [schedule, hpick]
    constructor
    case switch =>
      intro hne
      rw [hcur] at hne ⊢
      rw [← yieldCur_proc_of_ne hne]
      exact .inr (by simpa using List.find?_some hnext)
    case idle =>
      intro h₀
      obtain rfl : next = 0 := hcur.symm.trans h₀
      exact absurd (List.mem_of_find?_eq_some hnext) (h.not_mem_yieldCur hcall)
  · have hcur : (schedule k₀).current = 0 := by rw [schedule, hpick]
    refine ⟨fun _ => .inl hcur, fun _ p hp => ?_⟩
    have hready : ((yieldCur k₀).proc p).state ≠ .runnable :=
      fun hr => List.find?_eq_none.mp hnone p (mem_yieldCur hp) (decide_eq_true hr)
    rcases eq_or_ne p k₀.current with rfl | hne
    · rw [yieldCur_proc_current] at hready
      by_cases hr : k₀.cur.state = .running
      · simp [hr] at hready
      · rw [if_neg hr] at hready
        exact ⟨hready, fun _ => hr⟩
    · rw [yieldCur_proc_of_ne hne] at hready
      exact ⟨hready, fun heq => absurd heq hne⟩

abbrev Kernel.ReachInit : Kernel → Prop := Run Kernel.step (fun _ _ => True) Kernel.Initial

theorem Kernel.ReachInit.settled (h : k.ReachInit) : k.Settled :=
  h.invariant (fun _ => Kernel.Initial.settled) fun _ _ _ hs _ hstep => hs.step hstep

/-- Only the current process runs, and `schedule` gives the CPU to one that can. -/
theorem scheduler_discipline (h : k.ReachInit) :
    k.Disciplined ∧ (∀ k₀, k.AtCall k₀ → k₀.ChoosesReady) ∧
      ∀ a k', k.step a = some k' → k'.current ≠ k.current → ∃ k₀, k.AtCall k₀ ∧ k' = schedule k₀ := by
  refine ⟨h.settled.disciplined, fun k₀ hcall => h.settled.choosesReady hcall, fun a k' hstep hne => ?_⟩
  cases h.settled.moves hstep with
  | stay hcur _ => exact absurd hcur hne
  | call hcall _ => exact ⟨_, hcall, rfl⟩

theorem scheduler_discipline_tick : ∃ k : Kernel, k.current = 1 ∧ k.Disciplined ∧ (∀ k₀, k.AtCall k₀ → k₀.ChoosesReady) ∧
    ∀ a k', k.step a = some k' → k'.current ≠ k.current → ∃ k₀, k.AtCall k₀ ∧ k' = schedule k₀ := by
  have hrun : (procInit 24 [1, 2]).toOption.any (fun k => (exec Kernel.step (fun _ _ => True) k [.timer]).any fun k =>
      decide (k.current = 1)) = true := by decide
  have hex : ∃ k : Kernel, k.ReachInit ∧ k.current = 1 := exists_of_procInit (fun _ h => ⟨_, _, h⟩) hrun
  obtain ⟨k, hk, hcur⟩ := hex
  exact ⟨k, hcur, scheduler_discipline hk⟩

/-! ## No overtaking -/

theorem Kernel.Settled.ahead_yieldCur (h : k.Settled) (hcall : k.AtCall k₀) (hp : k₀.Awaiting p) :
    ∀ q ∈ ahead p (yieldCur k₀).procHead, q ∈ ahead p k.procHead ∧ q ≠ k.current := by
  intro q hq
  obtain ⟨hmem, -, hne⟩ := hp
  rw [hcall.procHead] at hmem
  rw [hcall.current] at hne
  rw [yieldCur_procHead, hcall.procHead, hcall.current] at hq
  split at hq
  · rename_i hidle
    refine ⟨hq, ?_⟩
    rintro rfl
    rw [Kernel.cur, hcall.idle, hcall.current, h.ordered.idle] at hidle
    exact h.ordered.tables.not_mem_idle (hidle ▸ List.takeWhile_subset _ hq)
  · exact mem_ahead_rotate h.ordered.tables.nodup hmem hne hq

theorem Kernel.Awaiting.schedule (hp : k₀.Awaiting p) :
    (schedule k₀).current = p ∨ (schedule k₀).current ∈ ahead p (yieldCur k₀).procHead := by
  obtain ⟨hmem, hready, hne⟩ := hp
  have hmem' := mem_yieldCur hmem
  rw [← yieldCur_proc_of_ne hne.symm] at hready
  obtain ⟨next, hnext, hpick⟩ | ⟨hnone, -⟩ := pickNext_cases (yieldCur k₀)
  · have hcur : (Core.schedule k₀).current = next := by rw [Core.schedule, hpick]
    rw [hcur]
    by_cases heq : next = p
    · exact .inl heq
    · exact .inr (mem_ahead_of_find? hmem' (decide_eq_true hready) hnext heq)
  · exact absurd (decide_eq_true hready) (List.find?_eq_none.mp hnone p hmem')

theorem Kernel.Settled.schedule_ne (h : k.Settled) (hcall : k.AtCall k₀) (hp : k₀.Awaiting p) :
    (schedule k₀).current ≠ k.current := by
  rcases hp.schedule with hcur | hcur
  · rw [hcur, ← hcall.current]
    exact hp.2.2.symm
  · exact (h.ahead_yieldCur hcall hp _ hcur).2

theorem Kernel.Awaiting.atCall (hp : k.Awaiting p) (hcall : k.AtCall k₀)
    (hready : ∀ p ∈ k.procHead, p ≠ k.current → (k.proc p).state = .runnable → (k₀.proc p).state = .runnable) :
    k₀.Awaiting p := by
  obtain ⟨hmem, hrun, hne⟩ := hp
  exact ⟨hcall.procHead ▸ hmem, hready p hmem hne.symm hrun, hcall.current ▸ hne⟩

theorem Kernel.Stretch.awaiting {selected : List Nat} (h : k.Stretch p selected k') : k'.Awaiting p := by
  cases h <;> assumption

theorem Kernel.Settled.ahead_stay (h : k.Settled) (hp : k.Awaiting p) (hp' : k'.Awaiting p)
    (hhead : k'.procHead = k.procHead ∨ ∃ c, k'.procHead = k.procHead ++ [c] ∨ k'.procHead = k.procHead.erase c) :
    ∀ q ∈ ahead p k'.procHead, q ∈ ahead p k.procHead := by
  intro q hq
  rcases hhead with heq | ⟨c, heq | heq⟩
  · rwa [heq] at hq
  · rwa [heq, ahead_append hp.1] at hq
  · rw [heq] at hq
    refine mem_ahead_erase ?_ hq
    rintro rfl
    exact h.ordered.tables.nodup.not_mem_erase (heq ▸ hp'.1)

theorem Kernel.Stretch.behind {selected : List Nat} (h : k.Stretch p selected k') (hk : k.Settled) :
    k'.Settled ∧ Behind p k'.procHead k'.current (k.current :: selected) ∧ (k.current :: selected).Nodup ∧ 0 ∉ selected := by
  induction h with
  | start _ => exact ⟨hk, .start, List.nodup_singleton _, List.not_mem_nil⟩
  | stay hs hstep hcur hp ih =>
    obtain ⟨hsettled, hbehind, hnodup, hidle⟩ := ih
    refine ⟨hsettled.step hstep, ?_, hnodup, hidle⟩
    rw [hcur]
    cases hsettled.moves hstep with
    | stay _ hhead => exact hbehind.mono (hsettled.ahead_stay hs.awaiting hp hhead)
    | call hcall hready => exact absurd hcur (hsettled.schedule_ne hcall (hs.awaiting.atCall hcall hready))
  | @select selected k₁ k₂ a hs hstep hne hp ih =>
    obtain ⟨hsettled, hbehind, hnodup, hidle⟩ := ih
    refine ⟨hsettled.step hstep, ?_⟩
    cases hsettled.moves hstep with
    | stay hcur _ => exact absurd hcur hne
    | call hcall hready =>
      have hawaits := hs.awaiting.atCall hcall hready
      have hnext := hawaits.schedule.resolve_left hp.2.2
      obtain ⟨hnew, hbehind⟩ := hbehind.turn (hsettled.ahead_yieldCur hcall hawaits) hnext
      refine ⟨?_, ?_, ?_⟩
      · rw [schedule_procHead]
        exact hbehind
      · exact (List.perm_append_singleton _ (k.current :: selected)).nodup_iff.mpr (List.nodup_cons.mpr ⟨hnew, hnodup⟩)
      · intro h₀
        rcases List.mem_append.mp h₀ with h₀ | h₀
        · exact hidle h₀
        · rw [← List.mem_singleton.mp h₀] at hnext
          exact hsettled.not_mem_yieldCur hcall (List.takeWhile_subset _ hnext)

/-- While a process waits for the CPU, no other gets it twice, nor does the first one; every `schedule` passes it on. -/
theorem no_overtaking {selected : List Nat} (h : k.ReachInit) (hs : k.Stretch p selected k') :
    (k.current :: selected).Nodup ∧ 0 ∉ selected ∧
      ∀ k₀, k'.AtCall k₀ → k₀.Awaiting p → (schedule k₀).current ≠ k'.current := by
  obtain ⟨hsettled, -, hnodup, hidle⟩ := hs.behind h.settled
  exact ⟨hnodup, hidle, fun k₀ hcall hp => hsettled.schedule_ne hcall hp⟩

theorem no_overtaking_third : ∃ k k' : Kernel, k.current = 1 ∧ k.Stretch 3 [2] k' ∧ (k.current :: [2]).Nodup := by
  have hrun : (procInit 24 [1, 2, 3]).toOption.any (fun k₀ => (k₀.step .timer).any fun k => (k.step .timer).any fun k' =>
      decide ((k.current = 1 ∧ 3 ∈ k.procHead ∧ (k.proc 3).state = .runnable) ∧
        k'.current = 2 ∧ 3 ∈ k'.procHead ∧ (k'.proc 3).state = .runnable)) = true := by decide
  obtain ⟨k₀, hinit, hrun⟩ := (Option.any_eq_true _ _).mp hrun
  obtain ⟨k, hk, hrun⟩ := (Option.any_eq_true _ _).mp hrun
  obtain ⟨k', hk', hrun⟩ := (Option.any_eq_true _ _).mp hrun
  obtain ⟨⟨hcur, hmem, hready⟩, hcur', hmem', hready'⟩ := of_decide_eq_true hrun
  have hreach : k.ReachInit := .step (.init ⟨_, _, toOption_eq_some hinit⟩) trivial hk
  have hstart : k.Stretch 3 [] k := .start ⟨hmem, hready, by omega⟩
  have hselect : k.Stretch 3 ([] ++ [k'.current]) k' := .select hstart hk' (by omega) ⟨hmem', hready', by omega⟩
  rw [hcur', List.nil_append] at hselect
  exact ⟨k, k', hcur, hselect, (no_overtaking hreach hselect).1⟩

end FengOS.Core
