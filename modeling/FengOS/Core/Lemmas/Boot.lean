import FengOS.Core.Lemmas.Kin

/-!
# The invariant in every run
-/

namespace FengOS.Core

open FengOS.Lib FengOS.Lib.Rendezvous

variable {strict tidy : Prop} {k k' : Kernel} {n p : Nat} {pid : Int} {pids : List Int} {maxIntr : Nat}
  {ok : Kernel → Action → Prop} {Q : Kernel → Prop} {as : List Action}

theorem Kernel.Quiet.idle (h : k.Quiet) : k.protocol.Idle := by
  intro p
  show (k.proc p).status = .ready
  rcases Nat.lt_or_ge p k.nextProc with hp | hp
  · rw [Proc.status, (h.user p hp).1]
  · rw [Proc.status, (h.base.unused p hp).2.1]

theorem Kernel.Quiet.inv (h : k.Quiet) : k.Inv k.protocol strict where
  base := h.base
  kont p := by
    rcases Nat.lt_or_ge p k.nextProc with hp | hp
    · rw [(h.user p hp).1]
      exact Or.inl (h.user p hp).2
    · rw [(h.base.unused p hp).2.1]
      exact (h.base.unused p hp).2.2.1
  ready := (h.user k.current h.current).2
  trace := by
    rw [h.log]
    exact .nil

theorem Kernel.Quiet.not_sending (h : k.Quiet) (p : Nat) : (k.proc p).phase ≠ .sending := by
  rcases Nat.lt_or_ge p k.nextProc with hp | hp
  · rw [(h.user p hp).2]
    nofun
  · rw [(h.base.unused p hp).2.2.1]
    nofun

theorem Kernel.Quiet.fresh (h : k.Quiet) (hpos : 0 < pid) (hle : pid ≤ k.globalPid)
    (hnew : ∀ p, (k.proc p).pid ≠ pid) : k.Fresh k.globalPid (moduleProc pid) where
  pid_pos := hpos
  pid_le := hle
  global := ⟨Int.le_refl _, h.base.global.2⟩
  unused := hnew
  unawaited p hp := absurd hp (h.not_sending p)
  wait := rfl
  waitProc := rfl
  alarm := rfl
  kont := rfl
  hasIntr := rfl

theorem Kernel.Booted.kin (h : k.Booted n) : k.Kin n tidy := by
  have hborn : ∀ c, n ≤ c → k.alive c ≠ true := fun c hn ha =>
    absurd (h.quiet.base.alive_lt c ha) (Nat.not_lt.mpr (h.next ▸ hn))
  refine ⟨h.listed, fun _ => ⟨fun p c hn ha => absurd ha (hborn c hn), fun p c hc => ?_, fun p c hn ha =>
    absurd ha (hborn c hn), Nat.le_of_eq h.next.symm⟩⟩
  rw [h.childless] at hc
  cases hc

theorem Kernel.Quiet.addModule_ok (h : k.Quiet) (ha : addModule k pid = .ok k') (hpos : 0 < pid)
    (hle : pid ≤ k.globalPid) (hnew : ∀ p, (k.proc p).pid ≠ pid) : k'.Quiet ∧ k'.globalPid = k.globalPid ∧
      ∀ p, (k'.proc p).pid = pid ∨ (k'.proc p).pid = (k.proc p).pid := by
  have hfresh := h.fresh hpos hle hnew
  have hbase := hfresh.base h.base
  have hself : (k.withProc k.globalPid (moduleProc pid)).proc k.nextProc = moduleProc pid := withProc_proc_self
  have hcopy : ∀ p, ((k.withProc k.globalPid (moduleProc pid)).proc p).kont.copyChild ≠ some k.nextProc := by
    intro p
    rcases eq_or_ne p k.nextProc with rfl | hne
    · rw [hself]
      nofun
    · rw [withProc_proc_of_ne hne]
      rcases Nat.lt_or_ge p k.nextProc with hp | hp
      · rw [(h.user p hp).1]
        nofun
      · rw [(h.base.unused p hp).2.1]
        nofun
  obtain ⟨i, hi, rfl⟩ := hashProc_ok ha (by show 0 < ((k.withProc _ _).proc k.nextProc).pid; rw [hself]; exact hpos)
  refine ⟨⟨?_, fun p hp => ?_, Nat.lt_succ_of_lt h.current, h.log⟩, rfl, fun p => ?_⟩
  · apply hbase.linkChild (k.procHead ++ [k.nextProc]) _ hi (Function.update_self ..) _ hcopy
    · rw [hself]
      exact hpos
    · exact fun hm => h.base.ne_nextProc (h.base.hash i _ hm).1 rfl
  · show ((k.withProc k.globalPid (moduleProc pid)).proc p).kont = .user ∧
      ((k.withProc k.globalPid (moduleProc pid)).proc p).phase = .ready
    rcases eq_or_ne p k.nextProc with rfl | hne
    · rw [hself]
      exact ⟨rfl, rfl⟩
    · rw [withProc_proc_of_ne hne]
      exact h.user p (Nat.lt_of_le_of_ne (Nat.le_of_lt_succ hp) hne)
  · show ((k.withProc k.globalPid (moduleProc pid)).proc p).pid = pid ∨
      ((k.withProc k.globalPid (moduleProc pid)).proc p).pid = (k.proc p).pid
    rcases eq_or_ne p k.nextProc with rfl | hne
    · rw [hself]
      exact Or.inl rfl
    · rw [withProc_proc_of_ne hne]
      exact Or.inr rfl

theorem Kernel.Booted.addModule_ok (h : k.Booted n) (ha : addModule k pid = .ok k') (hpos : 0 < pid)
    (hle : pid ≤ k.globalPid) (hnew : ∀ p, (k.proc p).pid ≠ pid) : k'.Booted (n + 1) ∧ k'.globalPid = k.globalPid ∧
      ∀ p, (k'.proc p).pid = pid ∨ (k'.proc p).pid = (k.proc p).pid := by
  obtain ⟨hquiet, hglobal, hproc⟩ := h.quiet.addModule_ok ha hpos hle hnew
  refine ⟨⟨hquiet, ?_, fun p => ?_, ?_⟩, hglobal, hproc⟩ <;>
    obtain ⟨i, -, rfl⟩ := hashProc_ok ha
      (by show 0 < ((k.withProc _ _).proc k.nextProc).pid; rw [withProc_proc_self]; exact hpos)
  · have hbase := h.quiet.base
    have hzero : 0 ≠ k.nextProc := Nat.ne_of_lt (hbase.alive_lt 0 hbase.idle.2.2.2)
    have hkin : (k.withProc k.globalPid (moduleProc pid)).Kin n False :=
      ⟨{ h.listed with idle := by rw [withProc_proc_of_ne hzero]; exact h.listed.idle }, False.elim⟩
    have hhash : ∀ i, k.nextProc ∉ k.hashMap i := fun i hi => hbase.ne_nextProc (hbase.hash i _ hi).1 rfl
    exact (hkin.kin_link hhash i).listed
  · show ((k.withProc k.globalPid (moduleProc pid)).proc p).children = []
    rcases eq_or_ne p k.nextProc with rfl | hne
    · rw [withProc_proc_self]
      rfl
    · rw [withProc_proc_of_ne hne]
      exact h.childless p
  · exact congrArg (· + 1) h.next

theorem empty_proc_of_ne (h : p ≠ 0) : (Kernel.empty maxIntr).proc p = Proc.unused := by
  show Function.update (fun _ => Proc.unused) 0 Proc.init p = Proc.unused
  rw [Function.update_of_ne h]

theorem empty_pid (maxIntr p : Nat) : ((Kernel.empty maxIntr).proc p).pid = 0 := by
  rcases eq_or_ne p 0 with rfl | hne
  · rfl
  · rw [empty_proc_of_ne hne]
    rfl

theorem empty_not_linked (maxIntr p q : Nat) : ¬ (Kernel.empty maxIntr).Linked p q := by
  rw [Kernel.Linked, empty_pid maxIntr q]
  exact fun h => absurd h.2.2 (by decide)

theorem empty_base (maxIntr : Nat) : (Kernel.empty maxIntr).Base where
  idle := ⟨rfl, rfl, rfl, rfl⟩
  unused p hp := by
    rw [empty_proc_of_ne (Nat.ne_of_gt hp)]
    exact ⟨rfl, rfl, rfl, rfl⟩
  alive_lt p hp := by
    have hzero : p = 0 := by simpa [Kernel.empty] using hp
    rw [hzero]
    exact Nat.one_pos
  pid_pos p h₀ hp := absurd (Nat.lt_one_iff.mp hp) h₀
  pid_le p := by
    rw [empty_pid]
    exact (by decide : (0 : Int) ≤ 128)
  global := (by decide : (0 : Int) ≤ 128 ∧ 128 < ipcSignal)
  pid_inj p q _ hpos := by
    rw [empty_pid] at hpos
    exact absurd hpos (by decide)
  hash i p hp := by cases hp
  hash_alive i p hp := by cases hp
  hash_nodup i := .nil
  linked p q hl := absurd hl (empty_not_linked maxIntr p q)
  unlinked p q _ := by
    rcases eq_or_ne q 0 with rfl | hne
    · nofun
    · rw [empty_proc_of_ne hne]
      nofun
  alarm p := by
    rcases eq_or_ne p 0 with rfl | hne
    · rfl
    · rw [empty_proc_of_ne hne]
      rfl
  freed p hp := by
    have hne : p ≠ 0 := by simpa [Kernel.empty] using hp
    rw [empty_proc_of_ne hne]
    exact Or.inl rfl
  fork p := by
    rcases eq_or_ne p 0 with rfl | hne
    · exact .of_none rfl
    · rw [empty_proc_of_ne hne]
      exact .of_none rfl

theorem empty_quiet (maxIntr : Nat) : (Kernel.empty maxIntr).Quiet where
  base := empty_base maxIntr
  user p hp := by
    rw [Nat.lt_one_iff.mp hp]
    exact ⟨rfl, rfl⟩
  current := Nat.one_pos
  log := rfl

theorem empty_booted (maxIntr : Nat) : (Kernel.empty maxIntr).Booted 1 where
  quiet := empty_quiet maxIntr
  listed := ⟨.nil, fun p => iff_of_false nofun nofun, fun h => absurd rfl h, rfl⟩
  childless p := by
    rcases eq_or_ne p 0 with rfl | hne
    · rfl
    · rw [empty_proc_of_ne hne]
      rfl
  next := rfl

theorem Kernel.Booted.addModules (h : k.Booted n) (ha : pids.foldlM addModule k = .ok k') (hnodup : pids.Nodup)
    (hpids : ∀ pid ∈ pids, 0 < pid ∧ pid ≤ k.globalPid) (hnew : ∀ pid ∈ pids, ∀ p, (k.proc p).pid ≠ pid) :
    k'.Booted (n + pids.length) := by
  induction pids generalizing k n with
  | nil =>
    cases ha
    exact h
  | cons pid pids ih =>
    rw [List.foldlM_cons] at ha
    obtain ⟨k₁, h₁, ha⟩ := bind_eq_ok ha
    obtain ⟨hpid, hpids⟩ := List.forall_mem_cons.mp hpids
    obtain ⟨hpidnew, hnew⟩ := List.forall_mem_cons.mp hnew
    obtain ⟨hnotin, hnodup⟩ := List.nodup_cons.mp hnodup
    obtain ⟨hbooted, hglobal, hproc⟩ := h.addModule_ok h₁ hpid.1 hpid.2 hpidnew
    rw [List.length_cons, Nat.add_comm pids.length, ← Nat.add_assoc]
    apply ih hbooted ha hnodup
    · rw [hglobal]
      exact hpids
    · intro pid' hmem p
      rcases hproc p with hp | hp <;> rw [hp]
      · exact (ne_of_mem_of_not_mem hmem hnotin).symm
      · exact hnew pid' hmem p

theorem procInit_booted (h : procInit maxIntr pids = .ok k) (hnodup : pids.Nodup)
    (hpids : ∀ pid ∈ pids, 0 < pid ∧ pid ≤ 128) : k.Booted (1 + pids.length) := by
  apply (empty_booted maxIntr).addModules h hnodup hpids
  intro pid hmem p
  rw [empty_pid]
  exact Int.ne_of_lt (hpids pid hmem).1

theorem Kernel.Reach.inv (h : k.Reach) : ∃ s₀ : State Nat Message, s₀.Idle ∧ k.Inv s₀ False := by
  apply Run.invariant (Q := fun k => ∃ s₀ : State Nat Message, s₀.Idle ∧ k.Inv s₀ False) _ _ h
  · exact fun k hk => ⟨k.protocol, hk.idle, hk.inv⟩
  · rintro k a k' ⟨s₀, hidle, hinv⟩ hpid hstep
    exact ⟨s₀, hidle, hinv.step hstep hpid False.elim⟩

theorem Kernel.ReachCareful.inv (h : k.ReachCareful) : ∃ s₀ : State Nat Message, s₀.Idle ∧ k.Inv s₀ True := by
  apply Run.invariant (Q := fun k => ∃ s₀ : State Nat Message, s₀.Idle ∧ k.Inv s₀ True) _ _ h
  · exact fun k hk => ⟨k.protocol, hk.idle, hk.inv⟩
  · rintro k a k' ⟨s₀, hidle, hinv⟩ ⟨hpid, hcare⟩ hstep
    exact ⟨s₀, hidle, hinv.step hstep hpid fun _ => hcare⟩

theorem kin_of_run (hok : ∀ k a, ok k a → k.PidLeft a ∧ (tidy → k.Tidy a))
    (h : Run Kernel.step ok (Kernel.Booted n) k) : k.Kin n tidy ∧ ∃ s₀ : State Nat Message, k.Inv s₀ False := by
  apply Run.invariant (Q := fun k => k.Kin n tidy ∧ ∃ s₀ : State Nat Message, k.Inv s₀ False) _ _ h
  · exact fun k hk => ⟨hk.kin, k.protocol, hk.quiet.inv⟩
  · rintro k a k' ⟨hkin, s₀, hinv⟩ ha hstep
    obtain ⟨hpid, htidy⟩ := hok k a ha
    exact ⟨hkin.step hinv hstep hpid htidy, s₀, hinv.step hstep hpid False.elim⟩

theorem Kernel.ReachBoot.kin (h : k.ReachBoot n) : k.Kin n False ∧ ∃ s₀ : State Nat Message, k.Inv s₀ False :=
  kin_of_run (fun _ _ h => ⟨h, False.elim⟩) h

theorem Kernel.ReachTidy.kin (h : k.ReachTidy n) : k.Kin n True ∧ ∃ s₀ : State Nat Message, k.Inv s₀ False :=
  kin_of_run (fun _ _ h => ⟨h.1, fun _ => h.2⟩) h

theorem exists_of_procInit {init : Kernel → Prop} [∀ k a, Decidable (ok k a)] [DecidablePred Q]
    (hinit : ∀ k, procInit maxIntr pids = .ok k → init k)
    (he : (procInit maxIntr pids).toOption.any (fun k => (exec Kernel.step ok k as).any fun k => decide (Q k)) = true) :
    ∃ k, Run Kernel.step ok init k ∧ Q k := by
  cases hk : procInit maxIntr pids with
  | error e =>
    rw [hk] at he
    cases he
  | ok k =>
    rw [hk] at he
    exact Run.exists_of_exec (.init (hinit k hk)) he

theorem exists_boot_of_exec [∀ k a, Decidable (ok k a)] [DecidablePred Q] (hnodup : pids.Nodup)
    (hpids : ∀ pid ∈ pids, 0 < pid ∧ pid ≤ 128)
    (he : (procInit maxIntr pids).toOption.any (fun k => (exec Kernel.step ok k as).any fun k => decide (Q k)) = true) :
    ∃ k, Run Kernel.step ok (Kernel.Booted (1 + pids.length)) k ∧ Q k :=
  exists_of_procInit (fun _ hk => procInit_booted hk hnodup hpids) he

theorem exists_run_of_exec [∀ k a, Decidable (ok k a)] [DecidablePred Q] (hnodup : pids.Nodup)
    (hpids : ∀ pid ∈ pids, 0 < pid ∧ pid ≤ 128)
    (he : (procInit maxIntr pids).toOption.any (fun k => (exec Kernel.step ok k as).any fun k => decide (Q k)) = true) :
    ∃ k, Run Kernel.step ok Kernel.Quiet k ∧ Q k := by
  obtain ⟨k, hk, hq⟩ := exists_boot_of_exec hnodup hpids he
  exact ⟨k, hk.mono (fun _ _ => id) fun _ h => h.quiet, hq⟩

end FengOS.Core
