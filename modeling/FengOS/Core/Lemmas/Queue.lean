import FengOS.Core.Lemmas.Calm

/-!
# The run queue stays in order
-/

namespace FengOS.Core

open FengOS.Lib

variable {k k' k₁ : Kernel} {p q c : Nat} {copying copying' : Nat → Option Nat}

/-! ## `schedule` -/

theorem yieldCur_proc_of_ne (h : p ≠ k.current) : (yieldCur k).proc p = k.proc p := by
  rw [yieldCur]
  split <;> exact set_proc_of_ne h _

theorem yieldCur_proc_current : (yieldCur k).proc k.current =
    { k.cur with needSchedule := false, state := if k.cur.state = .running then .runnable else k.cur.state } := by
  rw [yieldCur]
  split <;> exact set_proc_self ..

theorem yieldCur_procHead : (yieldCur k).procHead =
    if k.cur.idle then k.procHead else k.procHead.erase k.current ++ [k.current] := by
  rw [yieldCur]
  split <;> rfl

theorem yieldCur_current : (yieldCur k).current = k.current := by
  rw [yieldCur]
  split <;> rfl

theorem yieldCur_keeps (k : Kernel) : (yieldCur k).nextProc = k.nextProc ∧ (yieldCur k).alive = k.alive ∧
    ∀ p, (k.proc p).Calm ((yieldCur k).proc p) ∧ ((yieldCur k).proc p).kont = (k.proc p).kont := by
  refine ⟨?_, ?_, fun p => ?_⟩
  · rw [yieldCur]
    split <;> rfl
  · rw [yieldCur]
    split <;> rfl
  · rcases eq_or_ne p k.current with rfl | hne
    · rw [yieldCur_proc_current]
      refine ⟨.of_state rfl rfl rfl ?_, rfl⟩
      dsimp only
      split
      · exact .inr (.inl rfl)
      · exact .inl rfl
    · rw [yieldCur_proc_of_ne hne]
      exact ⟨.refl _, rfl⟩

theorem pickNext_cases (k : Kernel) : (∃ next, k.procHead.find? (fun p => (k.proc p).state = .runnable) = some next ∧
      pickNext k = { k.set next { k.proc next with state := .running } with current := next }) ∨
    k.procHead.find? (fun p => (k.proc p).state = .runnable) = none ∧ pickNext k = { k with current := 0 } := by
  cases h : k.procHead.find? fun p => (k.proc p).state = .runnable with
  | none => exact .inr ⟨rfl, by rw [pickNext, h]⟩
  | some next => exact .inl ⟨next, rfl, by rw [pickNext, h]⟩

theorem schedule_kont (k : Kernel) (p : Nat) : ((schedule k).proc p).kont = (k.proc p).kont := by
  rw [← ((yieldCur_keeps k).2.2 p).2, schedule]
  obtain ⟨next, -, hpick⟩ | ⟨-, hpick⟩ := pickNext_cases (yieldCur k)
  · rw [hpick]
    refine set_field Proc.kont ?_ p
    rfl
  · rw [hpick]

theorem schedule_procHead (k : Kernel) : (schedule k).procHead = (yieldCur k).procHead := by
  obtain ⟨next, -, hpick⟩ | ⟨-, hpick⟩ := pickNext_cases (yieldCur k) <;> rw [schedule, hpick]
  rfl

/-! ## The tables -/

namespace Tables

variable {procHead : List Nat} {alive : Nat → Bool} {nextProc : Nat}

theorem not_mem_idle (h : Tables procHead alive nextProc copying) : 0 ∉ procHead := fun h₀ => ((h.mem 0).mp h₀).2.1 rfl

theorem copied_not_mem (h : Tables procHead alive nextProc copying) (hq : copying q = some p) : p ∉ procHead :=
  fun hp => ((h.mem p).mp hp).2.2 q hq

theorem perm {procHead' : List Nat} (h : Tables procHead alive nextProc copying) (hperm : procHead'.Perm procHead) :
    Tables procHead' alive nextProc copying :=
  ⟨hperm.nodup_iff.mpr h.nodup, fun p => hperm.mem_iff.trans (h.mem p), h.alive_lt, h.pos, h.unused, h.copied, h.inj⟩

theorem copying_of_update (h : Function.update copying q none p = some c) : p ≠ q ∧ copying p = some c := by
  rcases eq_or_ne p q with rfl | hne
  · simp at h
  · exact ⟨hne, by rwa [Function.update_of_ne hne] at h⟩

theorem copying_update_iff (hc : copying q = some c) (hp : p ≠ c) :
    (∀ x, Function.update copying q none x ≠ some p) ↔ ∀ x, copying x ≠ some p := by
  refine ⟨fun hall x hx => hall x ?_, fun hall x hx => hall x (copying_of_update hx).2⟩
  rw [Function.update_of_ne, hx]
  rintro rfl
  exact hp (Option.some.inj (hx.symm.trans hc))

theorem free (h : Tables procHead alive nextProc copying) (hc : copying q = some c) :
    Tables procHead (Function.update alive c false) nextProc (Function.update copying q none) := by
  refine ⟨h.nodup, fun p => ?_, fun p hp => ?_, h.pos, fun x hx => ?_, fun x p hx => ?_, fun x y p hx hy => ?_⟩
  · rcases eq_or_ne p c with rfl | hne
    · simp [h.copied_not_mem hc]
    · rw [h.mem, Function.update_of_ne hne, copying_update_iff hc hne]
  · rcases eq_or_ne p c with rfl | hne
    · simp at hp
    · exact h.alive_lt p (by rwa [Function.update_of_ne hne] at hp)
  · rcases eq_or_ne x q with rfl | hne
    · exact Function.update_self ..
    · rw [Function.update_of_ne hne]
      exact h.unused x hx
  · obtain ⟨hne, hx⟩ := copying_of_update hx
    have hp : p ≠ c := by
      rintro rfl
      exact hne (h.inj x q p hx hc)
    rw [Function.update_of_ne hp]
    exact h.copied x p hx
  · exact h.inj x y p (copying_of_update hx).2 (copying_of_update hy).2

theorem link (h : Tables procHead alive nextProc copying) (hc : copying q = some c) :
    Tables (procHead ++ [c]) alive nextProc (Function.update copying q none) := by
  obtain ⟨halive, hc₀⟩ := h.copied q c hc
  refine ⟨?_, fun p => ?_, h.alive_lt, h.pos, fun x hx => ?_, fun x p hx => ?_, fun x y p hx hy => ?_⟩
  · exact (List.perm_append_singleton c procHead).nodup_iff.mpr (List.nodup_cons.mpr ⟨h.copied_not_mem hc, h.nodup⟩)
  · rcases eq_or_ne p c with rfl | hne
    · refine ⟨fun _ => ⟨halive, hc₀, fun x hx => ?_⟩, fun _ => List.mem_append_right _ (List.mem_singleton_self p)⟩
      obtain ⟨hne, hx⟩ := copying_of_update hx
      exact hne (h.inj x q p hx hc)
    · rw [copying_update_iff hc hne, List.mem_append, List.mem_singleton, ← h.mem, or_iff_left hne]
  · rcases eq_or_ne x q with rfl | hne
    · exact Function.update_self ..
    · rw [Function.update_of_ne hne]
      exact h.unused x hx
  · exact h.copied x p (copying_of_update hx).2
  · exact h.inj x y p (copying_of_update hx).2 (copying_of_update hy).2

theorem reap (h : Tables procHead alive nextProc copying) (hc : ∀ q, copying q ≠ some c) :
    Tables (procHead.erase c) (Function.update alive c false) nextProc copying := by
  refine ⟨h.nodup.erase c, fun p => ?_, fun p hp => ?_, h.pos, h.unused, fun q p hq => ?_, h.inj⟩
  · rw [h.nodup.mem_erase_iff]
    rcases eq_or_ne p c with rfl | hne
    · simp
    · rw [Function.update_of_ne hne, h.mem]
      exact and_iff_right hne
  · rcases eq_or_ne p c with rfl | hne
    · simp at hp
    · exact h.alive_lt p (by rwa [Function.update_of_ne hne] at hp)
  · have hne : p ≠ c := by
      rintro rfl
      exact hc q hq
    rw [Function.update_of_ne hne]
    exact h.copied q p hq

theorem new (h : Tables procHead alive nextProc copying) (hq : q < nextProc) (hnone : copying q = none) :
    Tables procHead (Function.update alive nextProc true) (nextProc + 1) (Function.update copying q (some nextProc)) := by
  have hold : ∀ x, copying x ≠ some nextProc := fun x hx => Nat.lt_irrefl _ (h.alive_lt _ (h.copied x _ hx).1)
  have hcopied : ∀ {x p}, Function.update copying q (some nextProc) x = some p →
      x = q ∧ p = nextProc ∨ x ≠ q ∧ copying x = some p := by
    intro x p hx
    rcases eq_or_ne x q with rfl | hne
    · rw [Function.update_self] at hx
      exact .inl ⟨rfl, (Option.some.inj hx).symm⟩
    · rw [Function.update_of_ne hne] at hx
      exact .inr ⟨hne, hx⟩
  refine ⟨h.nodup, fun p => ?_, fun p hp => ?_, Nat.succ_pos _, fun x hx => ?_, fun x p hx => ?_, fun x y p hx hy => ?_⟩
  · rcases eq_or_ne p nextProc with rfl | hne
    · refine ⟨fun hp => ?_, fun hp => absurd (Function.update_self ..) (hp.2.2 q)⟩
      exact absurd (h.alive_lt _ ((h.mem _).mp hp).1) (Nat.lt_irrefl _)
    · rw [h.mem, Function.update_of_ne hne]
      refine and_congr_right fun _ => and_congr_right fun _ => ⟨fun hall x hx => ?_, fun hall x hx => hall x ?_⟩
      · rcases hcopied hx with ⟨-, hp⟩ | ⟨-, hx⟩
        · exact hne hp
        · exact hall x hx
      · rw [Function.update_of_ne, hx]
        rintro rfl
        rw [hnone] at hx
        cases hx
  · rcases eq_or_ne p nextProc with rfl | hne
    · exact Nat.lt_succ_self _
    · rw [Function.update_of_ne hne] at hp
      exact Nat.lt_succ_of_lt (h.alive_lt p hp)
  · rw [Function.update_of_ne (by omega)]
    exact h.unused x (by omega)
  · rcases hcopied hx with ⟨-, rfl⟩ | ⟨-, hx'⟩
    · exact ⟨Function.update_self .., Nat.ne_of_gt h.pos⟩
    · have hne : p ≠ nextProc := by
        rintro rfl
        exact hold x hx'
      rw [Function.update_of_ne hne]
      exact h.copied x p hx'
  · rcases hcopied hx with ⟨rfl, rfl⟩ | ⟨-, hx'⟩ <;> rcases hcopied hy with ⟨rfl, hp⟩ | ⟨-, hy'⟩
    · rfl
    · exact absurd hy' (hold y)
    · exact absurd (hp ▸ hx') (hold x)
    · exact h.inj x y p hx' hy'

end Tables

/-! ## The parts of a step -/

namespace Kernel.Ordered

theorem current_lt (h : k.Ordered copying) : k.current < k.nextProc := by
  by_cases h₀ : k.current = 0
  · rw [h₀]
    exact h.tables.pos
  · exact h.tables.alive_lt _ ((h.tables.mem _).mp (h.current h₀)).1

theorem copied_ne_current (h : k.Ordered copying) (hq : copying q = some p) : p ≠ k.current := by
  rintro rfl
  by_cases h₀ : k.current = 0
  · exact (h.tables.copied q _ hq).2 h₀
  · exact h.tables.copied_not_mem hq (h.current h₀)

theorem records (h : k.Ordered copying) (hcur : k'.current = k.current)
    (htables : Tables k'.procHead k'.alive k'.nextProc copying) (hmem : ∀ p, p ∈ k'.procHead ↔ p ∈ k.procHead)
    (hproc : ∀ p, (k.proc p).Calm (k'.proc p)) (h₀ : (k'.proc 0).kont = .user) : k'.Ordered copying where
  tables := htables
  current hne := (hmem _).mpr (hcur ▸ h.current (hcur ▸ hne))
  idle p := by
    rw [(hproc p).idle]
    exact h.idle p
  alarm p := by
    rw [(hproc p).alarm]
    exact h.alarm p
  running p hp hr := hcur ▸ h.running p ((hmem p).mp hp) ((hproc p).running hr)
  init := ⟨h₀, fun hs => h.init.2 ((hproc 0).stopped hs)⟩
  copied q p hq := (h.copied q p hq).imp (fun hs h' => hs ((hproc p).stopped h')) fun hr h' => hr ((hproc p).running h')

theorem calm (h : k.Ordered copying) (hk : k.Calm k') (h₀ : (k'.proc 0).kont = .user) : k'.Ordered copying := by
  refine h.records hk.current ?_ (fun p => by rw [hk.procHead]) hk.proc h₀
  rw [hk.procHead, hk.alive, hk.nextProc]
  exact h.tables

theorem calm_of_ne (h : k.Ordered copying) (hk : k.Calm k') (hne : k.current ≠ 0) : k'.Ordered copying :=
  h.calm hk (by rw [hk.kont 0 hne.symm]; exact h.init.1)

theorem yieldCur_perm (h : k.Ordered copying) : (yieldCur k).procHead.Perm k.procHead := by
  rw [yieldCur_procHead]
  split
  · exact .refl _
  · rename_i hidle
    have hne : k.current ≠ 0 := fun h₀ => hidle ((h.idle _).mpr h₀)
    exact (List.perm_append_singleton ..).trans (List.perm_cons_erase (h.current hne)).symm

theorem yieldCur (h : k.Ordered copying) : (yieldCur k).Ordered copying := by
  obtain ⟨hnext, halive, hproc⟩ := yieldCur_keeps k
  refine h.records yieldCur_current ?_ (fun p => h.yieldCur_perm.mem_iff) (fun p => (hproc p).1) ?_
  · rw [hnext, halive]
    exact h.tables.perm h.yieldCur_perm
  · rw [(hproc 0).2]
    exact h.init.1

theorem yieldCur_not_running (h : k.Ordered copying) (hp : p ∈ (Core.yieldCur k).procHead) :
    ((Core.yieldCur k).proc p).state ≠ .running := by
  intro hr
  have hcur := h.yieldCur.running p hp hr
  rw [yieldCur_current] at hcur
  subst hcur
  rw [yieldCur_proc_current] at hr
  dsimp only at hr
  split at hr
  · cases hr
  · contradiction

theorem choose (h : k.Ordered copying) (hnone : ∀ p ∈ k.procHead, (k.proc p).state ≠ .running) (hp : p ∈ k.procHead) :
    { k.set p { k.proc p with state := .running } with current := p }.Ordered copying := by
  have hother : ∀ q, q ≠ p → (k.set p { k.proc p with state := .running }).proc q = k.proc q :=
    fun q hq => set_proc_of_ne hq _
  have hne : p ≠ 0 := ((h.tables.mem p).mp hp).2.1
  refine ⟨h.tables, fun _ => hp, fun q => ?_, fun q => ?_, fun q hq hr => ?_, ?_, fun x q hx => ?_⟩
  · rw [← h.idle q]
    exact Eq.congr_left (set_field Proc.idle (by rfl) q)
  · rw [← h.alarm q]
    exact set_field Proc.alarm (by rfl) q
  · by_contra hqp
    exact hnone q hq (hother q hqp ▸ hr)
  · rw [hother 0 hne.symm]
    exact h.init
  · rw [hother q fun hqp => h.tables.copied_not_mem hx (hqp ▸ hp)]
    exact h.copied x q hx

theorem schedule (h : k.Ordered copying) : (schedule k).Ordered copying ∧ (schedule k).cur.state ≠ .stopped := by
  have hyield := h.yieldCur
  rw [Core.schedule]
  obtain ⟨next, hnext, hpick⟩ | ⟨-, hpick⟩ := pickNext_cases (Core.yieldCur k)
  · have hmem := List.mem_of_find?_eq_some hnext
    rw [hpick]
    refine ⟨hyield.choose (fun _ => h.yieldCur_not_running) hmem, ?_⟩
    simp [Kernel.cur]
  · rw [hpick]
    refine ⟨⟨hyield.tables, fun h₀ => absurd rfl h₀, hyield.idle, hyield.alarm, fun p hp hr => ?_, hyield.init,
      hyield.copied⟩, hyield.init.2⟩
    exact absurd hr (h.yieldCur_not_running hp)

theorem stop (h : k.Ordered copying) (h₀ : k.current ≠ 0) :
    (k.setCur { k.cur with state := .stopped, kont := .dead }).Ordered copying := by
  have hother : ∀ p, p ≠ k.current → (k.setCur { k.cur with state := .stopped, kont := .dead }).proc p = k.proc p :=
    fun p hp => set_proc_of_ne hp _
  refine ⟨h.tables, h.current, fun p => ?_, fun p => ?_, fun p hp hr => ?_, ?_, fun q p hq => ?_⟩
  · rw [← h.idle p]
    exact Eq.congr_left (set_field Proc.idle (by rfl) p)
  · rw [← h.alarm p]
    exact set_field Proc.alarm (by rfl) p
  · by_contra hne
    exact hne (h.running p hp (hother p hne ▸ hr))
  · rw [hother 0 h₀.symm]
    exact h.init
  · rw [hother p (h.copied_ne_current hq)]
    exact h.copied q p hq

end Kernel.Ordered

/-! ## Steps -/

theorem setCur_copying (k : Kernel) (P : Proc) :
    (k.setCur P).copying = Function.update k.copying k.current P.kont.doing.child := by
  funext p
  rcases eq_or_ne p k.current with rfl | hne
  · rw [Function.update_self, Kernel.copying]
    exact congrArg (·.kont.doing.child) (setCur_cur k P)
  · rw [Function.update_of_ne hne, Kernel.copying]
    exact congrArg (·.kont.doing.child) (set_proc_of_ne hne P)

theorem schedule_copying (k : Kernel) : (schedule k).copying = k.copying :=
  funext fun p => congrArg (·.doing.child) (schedule_kont k p)

theorem Kernel.Calm.copying_eq (h : k.Calm k') :
    k'.copying = Function.update k.copying k.current k'.cur.kont.doing.child := by
  funext p
  rcases eq_or_ne p k.current with rfl | hne
  · rw [Function.update_self, Kernel.copying, Kernel.cur, h.current]
  · rw [Function.update_of_ne hne, Kernel.copying, h.kont p hne]
    rfl

namespace Kernel.Ordered

variable {child : Option Nat} {hashMap : Nat → List Nat}

theorem settled_schedule (h : k.Ordered k.copying) : (Core.schedule k).Settled := by
  obtain ⟨hordered, hready⟩ := h.schedule
  refine ⟨?_, hready⟩
  rw [schedule_copying]
  exact hordered

theorem settled_setCur {P : Proc} (h : k.Ordered (Function.update k.copying k.current none))
    (h₀ : k.current ≠ 0) (hP : k.cur.Calm P) (hkont : P.kont.doing = .syscall) (hready : k.cur.state ≠ .stopped) :
    (k.setCur P).Settled := by
  refine ⟨?_, ?_⟩
  · rw [setCur_copying, hkont]
    exact h.calm_of_ne (.setCur (.refl k) hP) h₀
  · rw [setCur_cur]
    exact fun hs => hready (hP.stopped hs)

theorem tabled {procHead : List Nat} {alive : Nat → Bool} (h : k.Ordered copying)
    (htables : Tables procHead alive k.nextProc copying') (hcur : k.current ≠ 0 → k.current ∈ procHead)
    (hmem : ∀ p ∈ procHead, p ∈ k.procHead ∨ (k.proc p).state ≠ .running)
    (hcopied : ∀ q p, copying' q = some p → copying q = some p) (hashMap : Nat → List Nat) :
    { k with procHead := procHead, hashMap := hashMap, alive := alive }.Ordered copying' := by
  refine ⟨htables, hcur, h.idle, h.alarm, fun p hp hr => ?_, h.init, fun q p hq => h.copied q p (hcopied q p hq)⟩
  rcases hmem p hp with hp | hnot
  · exact h.running p hp hr
  · exact absurd hr hnot

theorem settled_stop (h : k.Ordered (Function.update k.copying k.current none)) (h₀ : k.current ≠ 0) :
    (Core.schedule (k.setCur { k.cur with state := .stopped, kont := .dead })).Settled := by
  apply settled_schedule
  rw [setCur_copying]
  exact h.stop h₀

theorem settled_forkFailed (h : k.Ordered (Function.update k.copying k.current (some c))) (h₀ : k.current ≠ 0)
    (hready : k.cur.state ≠ .stopped) : (forkFailed k c).Settled := by
  have htables := h.tables.free (Function.update_self ..)
  have hfree := h.tabled htables h.current (fun p hp => .inl hp) (fun q p hq => (Tables.copying_of_update hq).2) k.hashMap
  rw [Function.update_idem] at hfree
  exact hfree.settled_setCur h₀ (.of_state rfl rfl rfl (.inl rfl)) rfl hready

theorem settled_linked (h : k.Ordered (Function.update k.copying k.current (some c))) (h₀ : k.current ≠ 0)
    (hready : k.cur.state ≠ .stopped) (hashMap : Nat → List Nat) :
    ({ k with procHead := k.procHead ++ [c], hashMap := hashMap }.setCur { k.cur with kont := .forkTail c }).Settled := by
  have htables := h.tables.link (Function.update_self ..)
  have hmem : ∀ p ∈ k.procHead ++ [c], p ∈ k.procHead ∨ (k.proc p).state ≠ .running := by
    intro p hp
    refine (List.mem_append.mp hp).imp_right fun hp => ?_
    rw [List.mem_singleton.mp hp]
    exact (h.copied k.current c (Function.update_self ..)).2
  have hlink := h.tabled htables (fun hne => List.mem_append_left _ (h.current hne)) hmem
    (fun q p hq => (Tables.copying_of_update hq).2) hashMap
  rw [Function.update_idem] at hlink
  exact hlink.settled_setCur h₀ (.of_state rfl rfl rfl (.inl rfl)) rfl hready

theorem settled_reaped (h : k.Ordered (Function.update k.copying k.current none)) (h₀ : k.current ≠ 0)
    (hready : k.cur.state ≠ .stopped) (hs : (k.proc c).state = .stopped) (hashMap : Nat → List Nat) :
    (toUser { k with
      hashMap := hashMap, procHead := k.procHead.erase c, alive := Function.update k.alive c false }).Settled := by
  have hne : k.current ≠ c := by
    rintro rfl
    exact hready hs
  have htables := h.tables.reap fun q hq => (h.copied q c hq).1 hs
  have hreap := h.tabled htables (fun h₀ => (List.mem_erase_of_ne hne).mpr (h.current h₀))
    (fun p hp => .inl (List.mem_of_mem_erase hp)) (fun _ _ => id) hashMap
  exact hreap.settled_setCur h₀ (.of_state rfl rfl rfl (.inl rfl)) rfl hready

end Kernel.Ordered

theorem Kernel.Outcome.settled {caller : RpcCaller} (ho : k.Outcome caller k')
    (h : k.Ordered (Function.update k.copying k.current caller.child)) (h₀ : k.current ≠ 0)
    (hready : k.cur.state ≠ .stopped) : k'.Settled := by
  have hcalm : ∀ {k₁ : Kernel}, k.Calm k₁ → k₁.Ordered (Function.update k₁.copying k₁.current caller.child) ∧
      k₁.current ≠ 0 ∧ k₁.cur.state ≠ .stopped := by
    intro k₁ hk
    refine ⟨?_, hk.current ▸ h₀, fun hs => hready ?_⟩
    · rw [hk.copying_eq, hk.current, Function.update_idem]
      exact h.calm_of_ne hk h₀
    · rw [Kernel.cur, hk.current] at hs
      exact (hk.proc _).stopped hs
  have hsame : ∀ {k₁ : Kernel}, k.Calm k₁ → k₁.cur.kont.doing = caller → k₁.Ordered k₁.copying := by
    intro k₁ hk hcur
    rw [hk.copying_eq, hcur]
    exact h.calm_of_ne hk h₀
  cases ho with
  | calm hk hcur => exact ⟨hsame hk hcur, (hcalm hk).2.2⟩
  | switch hk hcur => exact (hsame hk hcur).settled_schedule
  | stop hcaller hk =>
    subst hcaller
    exact (hcalm hk).1.settled_stop (hcalm hk).2.1
  | failed hcaller hk =>
    subst hcaller
    exact (hcalm hk).1.settled_forkFailed (hcalm hk).2.1 (hcalm hk).2.2
  | linked hcaller hk =>
    subst hcaller
    exact (hcalm hk).1.settled_linked (hcalm hk).2.1 (hcalm hk).2.2 _
  | reaped k₁ hcaller hk hs =>
    subst hcaller
    exact (hcalm hk).1.settled_reaped (hcalm hk).2.1 (hcalm hk).2.2 hs _

/-! ## `do_fork` -/

structure NewProc (k : Kernel) (c : Nat) (k' : Kernel) : Prop where
  child : c = k.nextProc
  current : k'.current = k.current
  procHead : k'.procHead = k.procHead
  nextProc : k'.nextProc = k.nextProc + 1
  alive : k'.alive = Function.update k.alive k.nextProc true
  irq : k'.hwProc = k.hwProc ∧ k'.maxIntr = k.maxIntr
  new : (k'.proc k.nextProc).state = .sending ∧ (k'.proc k.nextProc).idle = false ∧
    (k'.proc k.nextProc).alarm = 0 ∧ (k'.proc k.nextProc).kont = .user
  old : ∀ p, p ≠ k.nextProc → (k'.proc p).state = (k.proc p).state ∧ (k.proc p).Calm (k'.proc p) ∧
    (k'.proc p).kont = (k.proc p).kont

theorem newProc_spec (h : newProc k = .ok (c, k')) (hne : k.current ≠ k.nextProc) : NewProc k c k' := by
  obtain ⟨-, -, h⟩ := bind_eq_ok h
  cases h
  refine ⟨rfl, rfl, rfl, rfl, rfl, ⟨rfl, rfl⟩, ?_, fun p hp => ?_⟩
  · simp [Kernel.setCur, Kernel.set, Function.update_of_ne hne.symm, Proc.unused]
  · rcases eq_or_ne p k.current with rfl | hcur
    · simp only [Kernel.setCur, Kernel.set, Kernel.cur, Function.update_self, Function.update_of_ne hp, true_and, and_true]
      exact .of_state rfl rfl rfl (.inl rfl)
    · simp only [Kernel.setCur, Kernel.set, Function.update_of_ne hp, Function.update_of_ne hcur, true_and, and_true]
      exact .refl _

theorem NewProc.ordered (hn : NewProc k c k') (h : k.Ordered k.copying) (hnone : k.copying k.current = none) :
    k'.Ordered (Function.update k'.copying k'.current (some c)) := by
  have hlt := h.current_lt
  have hcopying : Function.update k'.copying k'.current (some c) = Function.update k.copying k.current (some c) := by
    rw [hn.current]
    funext p
    rcases eq_or_ne p k.current with rfl | hp
    · rw [Function.update_self, Function.update_self]
    · rw [Function.update_of_ne hp, Function.update_of_ne hp]
      rcases eq_or_ne p k.nextProc with rfl | hnew
      · rw [Kernel.copying, hn.new.2.2.2, h.tables.unused _ (Nat.le_refl _)]
        rfl
      · rw [Kernel.copying, (hn.old p hnew).2.2]
        rfl
  rw [hcopying, hn.child]
  have htables := h.tables.new hlt hnone
  have hold : ∀ p ∈ k.procHead, p ≠ k.nextProc := fun p hp =>
    Nat.ne_of_lt (h.tables.alive_lt p ((h.tables.mem p).mp hp).1)
  have h₀ : 0 ≠ k.nextProc := Nat.ne_of_lt h.tables.pos
  refine ⟨?_, ?_, fun p => ?_, fun p => ?_, fun p hp hr => ?_, ?_, fun q p hq => ?_⟩
  · rw [hn.procHead, hn.nextProc, hn.alive]
    exact htables
  · rw [hn.current, hn.procHead]
    exact h.current
  · rcases eq_or_ne p k.nextProc with rfl | hp
    · simp [hn.new.2.1, h₀.symm]
    · rw [(hn.old p hp).2.1.idle]
      exact h.idle p
  · rcases eq_or_ne p k.nextProc with rfl | hp
    · exact hn.new.2.2.1
    · rw [(hn.old p hp).2.1.alarm]
      exact h.alarm p
  · rw [hn.procHead] at hp
    rw [hn.current]
    exact h.running p hp ((hn.old p (hold p hp)).1 ▸ hr)
  · rw [(hn.old 0 h₀).1, (hn.old 0 h₀).2.2]
    exact h.init
  · rcases eq_or_ne p k.nextProc with rfl | hp
    · rw [hn.new.1]
      exact ⟨nofun, nofun⟩
    · rw [(hn.old p hp).1]
      rcases eq_or_ne q k.current with rfl | hqc
      · rw [Function.update_self] at hq
        exact absurd (Option.some.inj hq).symm hp
      · rw [Function.update_of_ne hqc] at hq
        exact h.copied q p hq

theorem Kernel.Settled.start {a : Action} {caller : RpcCaller} (h : k.Settled) (hs : k.Start a caller k₁) :
    k₁.Ordered (Function.update k₁.copying k₁.current caller.child) ∧ k₁.current = k.current ∧ k₁.cur.state ≠ .stopped := by
  have hsame : Function.update k.copying k.current k.cur.kont.doing.child = k.copying := Function.update_eq_self ..
  cases hs with
  | same =>
    refine ⟨?_, rfl, h.ready⟩
    rw [hsame]
    exact h.ordered
  | exit hnone =>
    refine ⟨?_, rfl, h.ready⟩
    rw [hnone] at hsame
    rw [show (RpcCaller.exit _).child = RpcCaller.syscall.child from rfl, hsame]
    exact h.ordered
  | new hnone hnew =>
    have hne := Nat.ne_of_lt h.ordered.current_lt
    have hspec := newProc_spec hnew hne
    refine ⟨hspec.ordered h.ordered (congrArg RpcCaller.child hnone), hspec.current, ?_⟩
    rw [Kernel.cur, hspec.current, (hspec.old _ hne).1]
    exact h.ready

theorem Kernel.Interrupted.ordered (hi : k.Interrupted k') (h : k.Settled) :
    ∃ k₀, k.Calm k₀ ∧ k₀.cur.kont = k.cur.kont ∧ k₀.Ordered k₀.copying ∧ (k' = k₀ ∨ k' = schedule k₀) := by
  obtain ⟨k₀, hk, hkont, hk'⟩ := hi
  refine ⟨k₀, hk, hkont, ?_, hk'⟩
  have hcopying : k₀.copying = k.copying := by
    rw [hk.copying_eq, hkont]
    exact Function.update_eq_self ..
  have hidle : (k₀.proc 0).kont = .user := by
    by_cases h₀ : 0 = k.current
    · rw [← h.ordered.init.1, h₀, ← Kernel.cur, ← hkont, Kernel.cur, hk.current]
    · rw [hk.kont 0 h₀]
      exact h.ordered.init.1
  rw [hcopying]
  exact h.ordered.calm hk hidle

theorem Kernel.Interrupted.settled (hi : k.Interrupted k') (h : k.Settled) : k'.Settled := by
  obtain ⟨k₀, hk, -, hordered, rfl | rfl⟩ := hi.ordered h
  · refine ⟨hordered, fun hs => h.ready ?_⟩
    rw [Kernel.cur, hk.current] at hs
    exact (hk.proc _).stopped hs
  · exact hordered.settled_schedule

theorem Kernel.Settled.step {a : Action} (h : k.Settled) (hstep : k.step a = some k') : k'.Settled := by
  by_cases h₀ : k.current = 0
  · have hk : k.cur.kont = .user := by
      rw [Kernel.cur, h₀]
      exact h.ordered.init.1
    exact (idle_step h.ordered.alarm h₀ hk hstep).settled h
  · by_cases hroutes : a.Routes
    · obtain ⟨hwProc, rfl⟩ := routes_step hroutes hstep
      exact ⟨⟨h.ordered.tables, h.ordered.current, h.ordered.idle, h.ordered.alarm, h.ordered.running, h.ordered.init,
        h.ordered.copied⟩, h.ready⟩
    · obtain ⟨caller, k₁, hstart, hout⟩ := step_outcome h.ordered.alarm hroutes hstep
      obtain ⟨hordered, hcur, hready⟩ := h.start hstart
      exact hout.settled hordered (hcur ▸ h₀) hready

/-! ## `proc_init` -/

structure Kernel.Starting (k : Kernel) : Prop where
  ordered : k.Ordered fun _ => none
  copying : ∀ p, k.copying p = none
  current : k.current = 0

theorem Kernel.Starting.addModule {pid : Int} (h : k.Starting) (hadd : addModule k pid = .ok k') : k'.Starting := by
  obtain ⟨i, -, hadd⟩ := bind_eq_ok hadd
  cases hadd
  have h₀ : 0 ≠ k.nextProc := Nat.ne_of_lt h.ordered.tables.pos
  have htables := (h.ordered.tables.new h.ordered.tables.pos rfl).link (Function.update_self ..)
  rw [Function.update_idem, Function.update_eq_self] at htables
  have hproc : ∀ {p}, p ≠ k.nextProc → Function.update k.proc k.nextProc (moduleProc pid) p = k.proc p :=
    fun hp => Function.update_of_ne hp ..
  have hold : ∀ p ∈ k.procHead, p ≠ k.nextProc := fun p hp =>
    Nat.ne_of_lt (h.ordered.tables.alive_lt p ((h.ordered.tables.mem p).mp hp).1)
  refine ⟨⟨htables, fun hne => absurd h.current hne, fun p => ?_, fun p => ?_, fun p hp hr => ?_, ?_, nofun⟩, fun p => ?_,
    h.current⟩
  · rcases eq_or_ne p k.nextProc with rfl | hp
    · simp [Kernel.set, moduleProc, Proc.unused, h₀.symm]
    · simp only [Kernel.set, hproc hp]
      exact h.ordered.idle p
  · rcases eq_or_ne p k.nextProc with rfl | hp
    · simp [Kernel.set, moduleProc, Proc.unused]
    · simp only [Kernel.set, hproc hp]
      exact h.ordered.alarm p
  · rcases List.mem_append.mp hp with hp | hp
    · simp only [Kernel.set, hproc (hold p hp)] at hr
      exact h.ordered.running p hp hr
    · obtain rfl := List.mem_singleton.mp hp
      simp [Kernel.set, moduleProc] at hr
  · simp only [Kernel.set, hproc h₀]
    exact h.ordered.init
  · rcases eq_or_ne p k.nextProc with rfl | hp
    · simp [Kernel.copying, Kernel.set, moduleProc, Kont.doing, RpcCaller.child]
    · simp only [Kernel.copying, Kernel.set, hproc hp]
      exact h.copying p

theorem starting_empty (maxIntr : Nat) : (Kernel.empty maxIntr).Starting := by
  have hproc : ∀ {p}, p ≠ 0 → (Kernel.empty maxIntr).proc p = Proc.unused := fun hp => by simp [Kernel.empty, hp]
  refine ⟨⟨⟨List.nodup_nil, fun p => ?_, fun p hp => ?_, Nat.one_pos, fun _ _ => rfl, nofun, nofun⟩, fun hne => absurd rfl hne,
    fun p => ?_, fun p => ?_, nofun, ⟨rfl, nofun⟩, nofun⟩, fun p => ?_, rfl⟩
  · simp [Kernel.empty]
  · simp [Kernel.empty] at hp
    simp [Kernel.empty, hp]
  · rcases eq_or_ne p 0 with rfl | hp
    · simp [Kernel.empty, Proc.init]
    · simp [hproc hp, Proc.unused, hp]
  · rcases eq_or_ne p 0 with rfl | hp
    · simp [Kernel.empty, Proc.init, Proc.unused]
    · simp [hproc hp, Proc.unused]
  · rcases eq_or_ne p 0 with rfl | hp
    · simp [Kernel.copying, Kernel.empty, Proc.init, Kont.doing, RpcCaller.child]
    · simp [Kernel.copying, hproc hp, Proc.unused, Kont.doing, RpcCaller.child]

theorem Kernel.Starting.addModules {pids : List Int} (h : k.Starting) (hadd : pids.foldlM Core.addModule k = .ok k') :
    k'.Starting := by
  induction pids generalizing k with
  | nil =>
    cases hadd
    exact h
  | cons pid pids ih =>
    rw [List.foldlM_cons] at hadd
    obtain ⟨k₁, hadd₁, hadd⟩ := bind_eq_ok hadd
    exact ih (h.addModule hadd₁) hadd

theorem Kernel.Initial.settled (h : k.Initial) : k.Settled := by
  obtain ⟨maxIntr, pids, hinit⟩ := h
  have hstart := (starting_empty maxIntr).addModules hinit
  refine ⟨?_, ?_⟩
  · rw [show k.copying = fun _ => none from funext hstart.copying]
    exact hstart.ordered
  · rw [Kernel.cur, hstart.current]
    exact hstart.ordered.init.2

end FengOS.Core
