import FengOS.Core.Irq
import FengOS.Core.Lemmas.Boot
import FengOS.Core.Lemmas.Queue

/-!
# The interrupt table names live processes
-/

namespace FengOS.Core

open FengOS.Lib FengOS.Lib.Rendezvous

variable {k k' k₁ : Kernel} {caller : RpcCaller} {a : Action} {s₀ : State Nat Message} {n : Nat}
  {copying : Nat → Option Nat} {pid : Int}

/-! ## Steps -/

theorem stopped_iff_phase (P : Proc) : P.state = .stopped ↔ P.phase = .stopped := by
  rw [Proc.phase]
  cases P.state <;> simp [ProcState.phase]

theorem Kernel.Calm.keeps (h : k.Calm k') (hcaller : k'.cur.kont.doing.exits = true → caller.exits = true) :
    k.Keeps caller k' where
  hwProc := h.irq.1
  stays q hq hs _ := ⟨h.procHead ▸ hq, fun hs' => hs ((h.proc q).stopped hs')⟩
  pid q _ := (h.proc q).pid
  exiting q hq := by
    rcases eq_or_ne q k.current with rfl | hne
    · rw [← h.current] at hq
      exact .inr ⟨rfl, hcaller hq⟩
    · rw [h.kont q hne] at hq
      exact .inl ⟨hne, hq⟩

theorem schedule_irq (k : Kernel) : (schedule k).hwProc = k.hwProc := by
  have hyield : (yieldCur k).hwProc = k.hwProc := by
    rw [yieldCur]
    split <;> rfl
  obtain ⟨next, -, hpick⟩ | ⟨-, hpick⟩ := pickNext_cases (yieldCur k) <;> rw [schedule, hpick]
  · exact hyield
  · exact hyield

theorem Kernel.Keeps.schedule (h : k.Keeps caller k₁) (hk : k₁.Ordered copying) : k.Keeps caller (schedule k₁) where
  hwProc := (schedule_irq k₁).trans h.hwProc
  stays q hq hs hcaller := by
    obtain ⟨hmem, hs⟩ := h.stays q hq hs hcaller
    refine ⟨?_, ?_⟩
    · rw [schedule_procHead, hk.yieldCur_perm.mem_iff]
      exact hmem
    · rwa [Ne, stopped_iff_phase, ((schedule_alike k₁).proc q).phase, ← stopped_iff_phase]
  pid q hq := ((schedule_alike k₁).proc q).pid.trans (h.pid q hq)
  exiting q hq := h.exiting q (by rwa [schedule_kont] at hq)

theorem Kernel.Calm.keeps_tables {procHead : List Nat} {hashMap : Nat → List Nat} {alive : Nat → Bool} {P : Proc}
    (h : k.Calm k₁) (hP : k₁.cur.Calm P) (hkont : P.kont.doing = .syscall)
    (hmem : ∀ q ∈ k₁.procHead, (k₁.proc q).state ≠ .stopped → q ∈ procHead) :
    k.Keeps caller ({ k₁ with procHead := procHead, hashMap := hashMap, alive := alive }.setCur P) := by
  have hcalm : k.Calm (k₁.setCur P) := h.setCur hP
  have hkeeps : k.Keeps caller (k₁.setCur P) := hcalm.keeps (by rw [setCur_cur, hkont]; nofun)
  refine ⟨hkeeps.hwProc, fun q hq hs hcaller => ?_, hkeeps.pid, hkeeps.exiting⟩
  refine ⟨hmem q (h.procHead ▸ hq) fun hs' => hs ((h.proc q).stopped hs'), (hkeeps.stays q hq hs hcaller).2⟩

theorem Kernel.Outcome.keeps (ho : k.Outcome caller k') (h : k.Ordered copying)
    (h₀ : k.current ≠ 0) : k.Keeps caller k' := by
  cases ho with
  | calm hk hcaller => exact hk.keeps fun he => hcaller ▸ he
  | switch hk hcaller => exact (hk.keeps fun he => hcaller ▸ he).schedule (h.calm_of_ne hk h₀)
  | @stop k₁ status hcaller hk =>
    have hne : k₁.current ≠ 0 := hk.current ▸ h₀
    refine Kernel.Keeps.schedule ?_ ((h.calm_of_ne hk h₀).stop hne)
    refine ⟨hk.irq.1, fun q hq hs hexits => ?_, fun q _ => ?_, fun q hq => ?_⟩
    · have hq' : q ≠ k₁.current := by
        rw [hk.current]
        rintro rfl
        have := hexits rfl
        rw [hcaller] at this
        cases this
      rw [Kernel.setCur, set_proc_of_ne hq']
      exact ⟨hk.procHead ▸ hq, fun hs' => hs ((hk.proc q).stopped hs')⟩
    · rw [← (hk.proc q).pid]
      exact set_field Proc.pid (by rfl) q
    · rcases eq_or_ne q k₁.current with rfl | hne
      · rw [show (k₁.setCur _).proc k₁.current = _ from setCur_cur ..] at hq
        cases hq
      · rw [Kernel.setCur, set_proc_of_ne hne, hk.kont q (hk.current ▸ hne)] at hq
        exact .inl ⟨hk.current ▸ hne, hq⟩
  | failed hcaller hk =>
    exact hk.keeps_tables (.of_state rfl rfl rfl (.inl rfl)) rfl fun q hq _ => hq
  | linked hcaller hk =>
    exact hk.keeps_tables (.of_state rfl rfl rfl (.inl rfl)) rfl fun q hq _ => List.mem_append_left _ hq
  | @reaped k₁ c hashMap hcaller hk hstopped =>
    refine hk.keeps_tables (.of_state rfl rfl rfl (.inl rfl)) rfl fun q hq hs => (List.mem_erase_of_ne ?_).mpr hq
    rintro rfl
    exact hs hstopped

theorem Kernel.Interrupted.keeps (hi : k.Interrupted k') (h : k.Settled) : k.Keeps k.cur.kont.doing k' := by
  obtain ⟨k₀, hk, hkont, hordered, rfl | rfl⟩ := hi.ordered h
  · exact hk.keeps fun he => hkont ▸ he
  · exact (hk.keeps fun he => hkont ▸ he).schedule hordered

theorem Kernel.Routed.keeps (h : k.Routed) (hk : k.Ordered copying)
    (hkeeps : k.Keeps caller k') (hlt : ∀ q, (k.proc q).kont.doing.exits = true → q < k.nextProc)
    (hexits : caller.exits = true → ∀ i < nrHwIrq, k.hwProc i ≠ 0 → k.hwProc i ≠ k.cur.pid) : k'.Routed := by
  refine ⟨fun i hi hne => ?_, fun q hq i hi hne => ?_⟩
  · rw [hkeeps.hwProc] at hne ⊢
    obtain ⟨q, hmem, hpid, hs⟩ := h.owner i hi hne
    have hstays := hkeeps.stays q hmem hs fun hcur => by
      cases he : caller.exits with
      | false => rfl
      | true => exact absurd (hcur ▸ hpid).symm (hexits he i hi hne)
    refine ⟨q, hstays.1, ?_, hstays.2⟩
    rw [hkeeps.pid q (hk.tables.alive_lt q ((hk.tables.mem q).mp hmem).1), hpid]
  · rw [hkeeps.hwProc] at hne ⊢
    rcases hkeeps.exiting q hq with ⟨-, hq⟩ | ⟨rfl, hcaller⟩
    · rw [hkeeps.pid q (hlt q hq)]
      exact h.exiting q hq i hi hne
    · rw [hkeeps.pid _ hk.current_lt]
      exact hexits hcaller i hi hne

theorem NewProc.routed {c : Nat} (hn : NewProc k c k') (h : k.Routed) (hk : k.Settled) : k'.Routed := by
  have hold : ∀ p ∈ k.procHead, p ≠ k.nextProc := fun p hp =>
    Nat.ne_of_lt (hk.ordered.tables.alive_lt p ((hk.ordered.tables.mem p).mp hp).1)
  refine ⟨fun i hi hne => ?_, fun q hq i hi hne => ?_⟩
  · rw [hn.irq.1] at hne ⊢
    obtain ⟨q, hmem, hpid, hs⟩ := h.owner i hi hne
    obtain ⟨hstate, hcalm, -⟩ := hn.old q (hold q hmem)
    exact ⟨q, hn.procHead ▸ hmem, hcalm.pid.trans hpid, hstate ▸ hs⟩
  · rw [hn.irq.1] at hne ⊢
    rcases eq_or_ne q k.nextProc with rfl | hne'
    · rw [hn.new.2.2.2] at hq
      cases hq
    · obtain ⟨-, hcalm, hkont⟩ := hn.old q hne'
      rw [hkont] at hq
      rw [hcalm.pid]
      exact h.exiting q hq i hi hne

theorem Kernel.Routed.update {ind : Nat} (h : k.Routed)
    (howner : pid ≠ 0 → ∃ q ∈ k.procHead, (k.proc q).pid = pid ∧ (k.proc q).state ≠ .stopped)
    (hexiting : ∀ q, (k.proc q).kont.doing.exits = true → pid ≠ 0 → pid ≠ (k.proc q).pid) :
    { k with hwProc := Function.update k.hwProc ind pid }.Routed := by
  refine ⟨fun i hi => ?_, fun q hq i hi => ?_⟩
  · rcases eq_or_ne i ind with rfl | hne
    · simpa using howner
    · simpa [Function.update_of_ne hne] using h.owner i hi
  · rcases eq_or_ne i ind with rfl | hne
    · simpa using hexiting q hq
    · simpa [Function.update_of_ne hne] using h.exiting q hq i hi

theorem Kernel.Routed.registerIrq {vector : Nat} (h : k.Routed) (hk : k.Settled) (hbase : k.Base) (h₀ : k.current ≠ 0)
    (huser : k.cur.kont = .user) : (registerIrq k vector k.cur.pid).Routed := by
  rw [Core.registerIrq]
  split
  · refine h.update (fun _ => ⟨k.current, hk.ordered.current h₀, rfl, hk.ready⟩) fun q hq hne hpid => ?_
    have hpos : 0 < k.cur.pid := hbase.pid_pos _ h₀ hk.ordered.current_lt
    obtain rfl := hbase.pid_inj k.current q hpid hpos
    rw [← Kernel.cur, huser] at hq
    cases hq
  · exact h

theorem Kernel.Routed.unregisterIrq {vector : Nat} (h : k.Routed) : (unregisterIrq k vector).Routed := by
  rw [Core.unregisterIrq]
  split
  · exact h.update (fun hne => absurd rfl hne) fun _ _ hne => absurd rfl hne
  · exact h

theorem Kernel.Base.exits_lt (h : k.Base) {q : Nat} (hq : (k.proc q).kont.doing.exits = true) : q < k.nextProc := by
  by_contra hge
  rw [(h.unused q (Nat.le_of_not_lt hge)).2.1] at hq
  cases hq

theorem Kernel.Routed.step (h : k.Routed) (hk : k.Settled) (hbase : k.Base) (hstep : k.step a = some k')
    (hsafe : k.IrqSafe a) : k'.Routed := by
  by_cases h₀ : k.current = 0
  · have huser : k.cur.kont = .user := by
      rw [Kernel.cur, h₀]
      exact hk.ordered.init.1
    refine h.keeps hk.ordered ((idle_step hk.ordered.alarm h₀ huser hstep).keeps hk) (fun q => hbase.exits_lt) fun he => ?_
    rw [huser] at he
    cases he
  by_cases hroutes : a.Routes
  · obtain ⟨hen, hact⟩ := step_ok hstep
    obtain ⟨vector, rfl | rfl⟩ := hroutes
    · cases hact
      have huser : k.cur.kont = .user := by
        simp only [Kernel.enabled, Bool.and_eq_true, decide_eq_true_eq] at hen
        exact hen.1
      exact h.registerIrq hk hbase h₀ huser
    · cases hact
      exact h.unregisterIrq
  obtain ⟨caller, k₁, hstart, hout⟩ := step_outcome hk.ordered.alarm hroutes hstep
  obtain ⟨hordered, hcur, -⟩ := hk.start hstart
  have hkeeps := hout.keeps hordered (hcur ▸ h₀)
  cases hstart with
  | same => exact h.keeps hordered hkeeps (fun q => hbase.exits_lt) fun he => h.exiting k.current he
  | exit _ => exact h.keeps hordered hkeeps (fun q => hbase.exits_lt) fun _ i hi _ => hsafe i hi
  | new _ hnew =>
    have hspec := newProc_spec hnew (Nat.ne_of_lt hk.ordered.current_lt)
    refine (hspec.routed h hk).keeps hordered hkeeps (fun q hq => ?_) fun he => by cases he
    rw [hspec.nextProc]
    rcases eq_or_ne q k.nextProc with rfl | hne
    · exact Nat.lt_succ_self _
    · rw [(hspec.old q hne).2.2] at hq
      exact Nat.lt_succ_of_lt (hbase.exits_lt hq)

/-! ## Runs -/

theorem addModule_hwProc (h : addModule k pid = .ok k') : k'.hwProc = k.hwProc := by
  obtain ⟨i, -, h⟩ := bind_eq_ok h
  cases h
  rfl

theorem addModules_hwProc {pids : List Int} (h : pids.foldlM addModule k = .ok k') : k'.hwProc = k.hwProc := by
  induction pids generalizing k with
  | nil =>
    cases h
    rfl
  | cons pid pids ih =>
    rw [List.foldlM_cons] at h
    obtain ⟨k₁, hadd, h⟩ := bind_eq_ok h
    exact (ih h).trans (addModule_hwProc hadd)

theorem Kernel.ReachIrq.inv (h : k.ReachIrq) : k.Settled ∧ k.Routed ∧ k.Base ∧ k.Listed := by
  have hall : ∃ n, k.Settled ∧ k.Routed ∧ k.Kin n False ∧ ∃ s₀ : State Nat Message, k.Inv s₀ False := by
    apply Run.invariant _ _ h
    · rintro k ⟨maxIntr, pids, hnodup, hpids, hinit⟩
      have hbooted := procInit_booted hinit hnodup hpids
      have hzero : ∀ i, k.hwProc i = 0 := fun i => by rw [addModules_hwProc hinit]; rfl
      refine ⟨_, Kernel.Initial.settled ⟨_, _, hinit⟩, ?_, hbooted.kin, k.protocol, hbooted.quiet.inv⟩
      exact ⟨fun i _ hne => absurd (hzero i) hne, fun _ _ i _ hne => absurd (hzero i) hne⟩
    · rintro k a k' ⟨n, hsettled, hrouted, hkin, s₀, hinv⟩ ⟨hpid, -, hsafe⟩ hstep
      exact ⟨n, hsettled.step hstep, hrouted.step hsettled hinv.base hstep hsafe,
        hkin.step hinv hstep hpid False.elim, s₀, hinv.step hstep hpid False.elim⟩
  obtain ⟨n, hsettled, hrouted, hkin, s₀, hinv⟩ := hall
  exact ⟨hsettled, hrouted, hinv.base, hkin.listed⟩

theorem Kernel.LivePid.findProc (h : k.LivePid pid) (hbase : k.Base) : ∃ p, findProc k pid = .ok p := by
  obtain ⟨q, rfl, ⟨i, hi⟩, -, halive⟩ := h
  obtain ⟨hpos, hindex⟩ := hbase.hash i q hi
  obtain ⟨j, hj, hindex'⟩ := hashIndex_of_pos hpos
  obtain rfl : i = j := by omega
  cases hfind : (k.hashMap i).find? fun p => (k.proc p).pid = (k.proc q).pid with
  | none => exact absurd (decide_eq_true rfl) (List.find?_eq_none.mp hfind q hi)
  | some p =>
    have hp := hbase.hash_alive i p (List.mem_of_find?_eq_some hfind)
    refine ⟨p, ?_⟩
    simp [Core.findProc, mapProc, hj, hfind, Kernel.deref, hp, bind, Except.bind, pure, Except.pure]

theorem hwint_ok {i : Nat} (h : k.hwProc i ≠ 0 → ∃ p, findProc k (k.hwProc i) = .ok p) : ∃ k', hwint k i = .ok k' := by
  by_cases h₀ : k.hwProc i = 0
  · exact ⟨_, if_pos h₀⟩
  · obtain ⟨p, hp⟩ := h h₀
    refine ⟨retFromInt (sendIntr k p), ?_⟩
    simp only [hwint, if_neg h₀, doSend, hp, bind, Except.bind, pure, Except.pure]
    rfl

theorem irqIndices_lt (hvec : a.Vectored) (hsafe : k.IrqSafe a) : ∀ i ∈ k.irqIndices a, i < nrHwIrq := by
  intro i hi
  have hvalid : ∀ vector, (validIrq k vector → vector < 0x20 + nrHwIrq) →
      i ∈ (if validIrq k vector then [vector - 0x20] else []) → i < nrHwIrq := by
    intro vector hlt hi
    split at hi
    · rename_i hv
      have := hlt hv
      simp only [validIrq, Bool.and_eq_true, decide_eq_true_eq] at hv
      rw [List.mem_singleton.mp hi]
      omega
    · cases hi
  cases a with
  | call c =>
    cases c with
    | registerIrq vector => exact hvalid vector hsafe hi
    | unregisterIrq vector => exact hvalid vector hsafe hi
    | send | recv | sendrecv | exit | wait | fork | other => cases hi
  | hwint ind =>
    rw [List.mem_singleton.mp hi]
    exact Nat.lt_succ_of_le hvec.2
  | timer | signal | resume => cases hi

/-- In safe runs every use of `hw_proc` is inside the table, and every entry names a process that has not exited. -/
theorem irq_table_live (h : k.ReachIrq) :
    k.IrqTable ∧ ∀ a : Action, a.Vectored → k.IrqSafe a → ∀ i ∈ k.irqIndices a, i < nrHwIrq := by
  obtain ⟨hsettled, hrouted, hbase, hlisted⟩ := h.inv
  have hlive : ∀ i < nrHwIrq, k.hwProc i ≠ 0 → k.LivePid (k.hwProc i) := by
    intro i hi hne
    obtain ⟨q, hmem, hpid, hs⟩ := hrouted.owner i hi hne
    refine ⟨q, hpid, (hlisted.mem q).mp hmem, ?_, ((hsettled.ordered.tables.mem q).mp hmem).1⟩
    exact fun hphase => hs ((stopped_iff_phase _).mpr hphase)
  exact ⟨⟨hlive, fun i hi => hwint_ok fun hne => (hlive i hi hne).findProc hbase⟩, fun a => irqIndices_lt⟩

theorem irq_table_live_keyboard : ∃ k : Kernel, k.ReachIrq ∧ k.hwProc 1 = 2 ∧ k.IrqTable := by
  have hrun : (procInit 24 [2, 3]).toOption.any (fun k => (exec Kernel.step
      (fun k a => k.PidLeft a ∧ a.Vectored ∧ k.IrqSafe a) k [.timer, .call (.registerIrq 0x21)]).any fun k =>
        decide (k.hwProc 1 = 2)) = true := by decide
  have hex : ∃ k : Kernel, k.ReachIrq ∧ k.hwProc 1 = 2 :=
    exists_of_procInit (fun _ h => ⟨_, _, by decide, by decide, h⟩) hrun
  obtain ⟨k, hk, hirq⟩ := hex
  exact ⟨k, hk, hirq, (irq_table_live hk).1⟩

/-- The child of the second module registers the vector 0x21 before it exits. -/
def forkAndLeave : List Action :=
  [.timer, .call (.recv ipcAll default), .call (.fork ⟨true, true, default⟩), .resume, .call (.send 3 default), .resume,
    .resume, .call .wait, .resume, .call (.recv ipcAll default), .call (.registerIrq 0x21), .call (.exit 0 default), .resume,
    .call (.send 129 default), .resume, .resume]

abbrev Kernel.ReachVectored : Kernel → Prop :=
  Run Kernel.step (fun k a => k.PidLeft a ∧ a.Vectored) Kernel.FromBoot

/-- With 24 lines the vector 0x30 is admitted, which `hw_proc` does not have; and `do_hwint` uses a reaped process. -/
theorem irq_table_overrun :
    (∃ k : Kernel, k.ReachVectored ∧ (k.step (.call (.registerIrq 0x30))).isSome ∧
      k.irqIndices (.call (.registerIrq 0x30)) = [nrHwIrq]) ∧
    ∃ k : Kernel, k.ReachVectored ∧ k.hwProc 1 = 129 ∧ k.lookup 129 = none ∧ (hwint k 1).toOption.isNone := by
  have hregister : (procInit 24 [2, 3]).toOption.any (fun k => (exec Kernel.step (fun k a => k.PidLeft a ∧ a.Vectored) k
      [.timer]).any fun k => decide ((k.step (.call (.registerIrq 0x30))).isSome ∧
        k.irqIndices (.call (.registerIrq 0x30)) = [nrHwIrq])) = true := by decide
  have hreaped : (procInit 24 [2, 3]).toOption.any (fun k => (exec Kernel.step (fun k a => k.PidLeft a ∧ a.Vectored) k
      forkAndLeave).any fun k => decide (k.hwProc 1 = 129 ∧ k.lookup 129 = none ∧ (hwint k 1).toOption.isNone)) = true := by
    decide +kernel
  exact ⟨exists_of_procInit (fun _ h => ⟨_, _, by decide, by decide, h⟩) hregister,
    exists_of_procInit (fun _ h => ⟨_, _, by decide, by decide, h⟩) hreaped⟩

end FengOS.Core
