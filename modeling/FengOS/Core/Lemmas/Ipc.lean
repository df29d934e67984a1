import FengOS.Core.Lemmas.Wake

/-!
# Sending and receiving
-/

namespace FengOS.Core

open FengOS.Lib.Rendezvous

variable {strict : Prop} {k k' : Kernel} {p q dest source : Nat} {dst src : Int} {msg : Message}
  {caller : SendCaller} {s₀ : State Nat Message} {a : Status Nat Message} {kont : Kont}

/-! ## `enqueue` -/

theorem enqueue_proc_current : (enqueue k dest dst msg caller).proc k.current = { k.cur with
      msg := msg, wait := dst, state := .sending, kont := .send dest msg caller
      waitProc := k.cur.waitProc ++ if k.current = dest then [k.current] else [] } := by
  unfold enqueue
  rcases eq_or_ne k.current dest with he | hne
  · rw [emit_proc, if_pos he, ← he, set_proc_self, Kernel.setCur, set_proc_self]
    rfl
  · rw [emit_proc, set_proc_of_ne hne, Kernel.setCur, set_proc_self, if_neg hne, List.append_nil]

theorem enqueue_proc_of_ne (h : q ≠ k.current) : (enqueue k dest dst msg caller).proc q =
    { k.proc q with waitProc := (k.proc q).waitProc ++ if q = dest then [k.current] else [] } := by
  unfold enqueue
  rcases eq_or_ne q dest with rfl | hne
  · rw [emit_proc, if_pos rfl, set_proc_self, Kernel.setCur, set_proc_of_ne h]
    rfl
  · rw [emit_proc, set_proc_of_ne hne, Kernel.setCur, set_proc_of_ne h, if_neg hne, List.append_nil]

theorem enqueue_waitProc (q : Nat) : ((enqueue k dest dst msg caller).proc q).waitProc =
    (k.proc q).waitProc ++ if q = dest then [k.current] else [] := by
  rcases eq_or_ne q k.current with rfl | hne
  · rw [enqueue_proc_current]
    rfl
  · rw [enqueue_proc_of_ne hne]

theorem enqueue_pid (q : Nat) : ((enqueue k dest dst msg caller).proc q).pid = (k.proc q).pid := by
  rcases eq_or_ne q k.current with rfl | hne
  · rw [enqueue_proc_current]
    rfl
  · rw [enqueue_proc_of_ne hne]

theorem Kernel.Busy.enqueue_linked (h : k.Busy s₀ strict a) (hdest : 0 < (k.proc dest).pid) :
    (enqueue k dest (k.proc dest).pid msg caller).Linked p q ↔ k.Linked p q ∨ p = k.current ∧ q = dest := by
  rcases eq_or_ne p k.current with rfl | hne
  · rw [Kernel.Linked, enqueue_proc_current, enqueue_pid]
    constructor
    · rintro ⟨-, hpid, -⟩
      exact Or.inr ⟨rfl, (h.base.pid_inj dest q hpid hdest).symm⟩
    · rintro (hl | ⟨-, rfl⟩)
      · exact absurd hl h.not_linked
      · exact ⟨rfl, rfl, hdest⟩
  · rw [linked_congr (by rw [enqueue_proc_of_ne hne]; rfl) (by rw [enqueue_proc_of_ne hne]) (enqueue_pid q)]
    exact ⟨Or.inl, fun hl => hl.resolve_right fun hr => hne hr.1⟩

theorem Kernel.Busy.ne_of_pending (h : k.Busy s₀ strict a) (hp : k.Pending p q) : q ≠ k.current := by
  rintro rfl
  have hphase := hp.phase
  rw [show (k.proc k.current).phase = .ready from h.ready] at hphase
  cases hphase

theorem Kernel.Busy.enqueue_forking (h : k.Busy s₀ strict a) (hf : k.Forking p kont) :
    (enqueue k dest dst msg caller).Forking p kont where
  pending child hc := by
    have hp := hf.pending child hc
    refine ⟨?_, ?_, ?_, ?_, ?_, hp.alive⟩ <;> rw [enqueue_proc_of_ne (h.ne_of_pending hp)]
    · exact hp.phase
    · exact hp.wait
    · exact hp.kont
    · exact hp.parent
    · exact hp.pid
  unhashed := hf.unhashed

theorem Kernel.Busy.enqueue_base (h : k.Busy s₀ strict a) (hdest : 0 < (k.proc dest).pid)
    (hfork : k.Forking k.current (.send dest msg caller)) : (enqueue k dest (k.proc dest).pid msg caller).Base := by
  constructor
  case idle =>
    rw [enqueue_proc_of_ne h.user.symm]
    exact h.base.idle
  case unused =>
    intro p hp
    rw [enqueue_proc_of_ne (Nat.ne_of_gt (Nat.lt_of_lt_of_le h.lt hp))]
    exact h.base.unused p hp
  case alive_lt => exact h.base.alive_lt
  case pid_pos =>
    intro p
    rw [enqueue_pid]
    exact h.base.pid_pos p
  case pid_le =>
    intro p
    rw [enqueue_pid]
    exact h.base.pid_le p
  case global => exact h.base.global
  case pid_inj =>
    intro p q
    rw [enqueue_pid, enqueue_pid]
    exact h.base.pid_inj p q
  case hash =>
    intro i p
    rw [enqueue_pid]
    exact h.base.hash i p
  case hash_alive => exact h.base.hash_alive
  case hash_nodup => exact h.base.hash_nodup
  case linked =>
    intro p q hl
    rw [enqueue_waitProc, List.count_append]
    rcases (h.enqueue_linked hdest).mp hl with hl | ⟨rfl, rfl⟩
    · have hne : p ≠ k.current := fun he => h.not_linked (he ▸ hl)
      have hzero : (if q = dest then [k.current] else []).count p = 0 := by
        split
        · exact List.count_eq_zero.mpr (by simpa using hne)
        · rfl
      rw [h.base.linked p q hl, hzero]
    · rw [List.count_eq_zero.mpr (h.base.unlinked _ _ h.not_linked), if_pos rfl, List.count_singleton_self]
  case unlinked =>
    intro p q hl hm
    rw [h.enqueue_linked hdest, not_or] at hl
    rw [enqueue_waitProc, List.mem_append] at hm
    rcases hm with hm | hm
    · exact h.base.unlinked p q hl.1 hm
    · split at hm
      · rename_i hq
        exact hl.2 ⟨List.mem_singleton.mp hm, hq⟩
      · cases hm
  case alarm =>
    intro p
    rcases eq_or_ne p k.current with rfl | hne
    · rw [enqueue_proc_current]
      exact h.base.alarm _
    · rw [enqueue_proc_of_ne hne]
      exact h.base.alarm p
  case freed =>
    intro p hp
    rcases eq_or_ne p k.current with rfl | hne
    · rcases h.base.freed _ hp with hf | ⟨hf, -⟩ <;>
        rw [show (k.proc k.current).phase = .ready from h.ready] at hf <;> cases hf
    · rw [enqueue_proc_of_ne hne]
      exact h.base.freed p hp
  case fork =>
    intro p
    rcases eq_or_ne p k.current with rfl | hne
    · rw [enqueue_proc_current]
      exact h.enqueue_forking hfork
    · rw [enqueue_proc_of_ne hne]
      exact h.enqueue_forking (h.base.fork p)

theorem enqueue_live (h : k.Live q) : (enqueue k dest dst msg caller).Live q := by
  refine ⟨h.1, ?_, h.2.2⟩
  rcases eq_or_ne q k.current with rfl | hne
  · rw [enqueue_proc_current]
    nofun
  · rw [enqueue_proc_of_ne hne]
    exact h.2.1

theorem Kernel.Busy.enqueue_wakes (h : k.Busy s₀ strict a) (hdest : 0 < (k.proc dest).pid) (hne : dest ≠ k.current) :
    k.Wakes (wakeReceiver (enqueue k dest (k.proc dest).pid msg caller) dest [k.cur.pid, ipcAll]) dest
      [k.cur.pid, ipcAll] := by
  have hreserved : ∀ q w, ipcSignal ≤ w → w ≠ (k.proc q).pid := fun q w hw he =>
    absurd (h.base.pid_lt_signal q) (Int.not_lt.mpr (he ▸ hw))
  apply wakeReceiver_wakes
  case hphase =>
    rw [enqueue_proc_of_ne hne]
    rfl
  case hwait => rw [enqueue_proc_of_ne hne]
  case hpid => exact enqueue_pid
  case hintr =>
    rw [enqueue_proc_of_ne hne]
    refine Or.inl ⟨rfl, fun hm => ?_⟩
    rcases List.mem_cons.mp hm with hm | hm
    · exact hreserved k.current ipcIntr (by decide) hm
    · exact absurd hm (by decide)
  case hsignal =>
    rw [enqueue_proc_of_ne hne]
    exact Or.inl rfl
  case hqueue => exact Or.inr (by simp)
  case hlinked =>
    intro q hq
    rw [h.enqueue_linked hdest]
    refine or_congr_right ⟨?_, fun hm => ?_⟩
    · rintro ⟨rfl, -⟩
      exact List.mem_cons_self
    · rcases List.mem_cons.mp hm with hm | hm
      · exact ⟨h.base.pid_inj q k.current hm hq, rfl⟩
      · exact absurd (List.mem_singleton.mp hm).symm (hreserved q ipcAll (by decide))
  case hlive => exact fun q => enqueue_live

theorem Kernel.Busy.enqueue_kontOk (h : k.Busy s₀ strict a) (hdest : 0 < (k.proc dest).pid)
    (hne : p ≠ k.current) (hk : k.KontOk strict p kont) :
    (wakeReceiver (enqueue k dest (k.proc dest).pid msg caller) dest [k.cur.pid, ipcAll]).KontOk strict p kont := by
  rcases eq_or_ne p dest with rfl | hd
  · exact (h.enqueue_wakes hdest hne).kontOk hk
  · apply Kernel.KontOk.wake_of_ne _ hd
    apply hk.mono
    case hpid => exact fun q _ => enqueue_pid q
    case hlink =>
      intro q _
      rw [h.enqueue_linked hdest]
      exact ⟨fun hl => hl.resolve_right fun hr => hd hr.2, Or.inl⟩
    case hlive => exact fun _ q _ => enqueue_live
    case hqueue =>
      rw [enqueue_waitProc, if_neg hd, List.append_nil]
      exact id
    all_goals rw [enqueue_proc_of_ne hne]
    rfl

theorem enqueue_kontOk_current (hdest : 0 < (k.proc dest).pid) (hlive : strict → k.Live dest)
    (hcaller : ∀ dst c, caller = .rpc dst c → dst = (k.proc dest).pid) :
    (wakeReceiver (enqueue k dest (k.proc dest).pid msg caller) dest [k.cur.pid, ipcAll]).KontOk strict k.current
      (.send dest msg caller) := by
  have hphase : ((enqueue k dest (k.proc dest).pid msg caller).proc k.current).phase = .sending := by
    rw [enqueue_proc_current]
    rfl
  obtain ⟨state, hcur⟩ := wakeReceiver_proc (enqueue k dest (k.proc dest).pid msg caller) dest [k.cur.pid, ipcAll]
    k.current
  obtain ⟨state', hd⟩ := wakeReceiver_proc (enqueue k dest (k.proc dest).pid msg caller) dest [k.cur.pid, ipcAll] dest
  have hpid : ((wakeReceiver (enqueue k dest (k.proc dest).pid msg caller) dest [k.cur.pid, ipcAll]).proc dest).pid =
      (k.proc dest).pid := by
    rw [hd]
    exact enqueue_pid dest
  simp only [Kernel.KontOk, hpid]
  refine ⟨hdest, hcaller, Or.inr ⟨?_, ?_, fun hs => (enqueue_live (hlive hs)).wake⟩⟩
  · rw [wakeReceiver_phase (by simp [hphase]), hphase]
  · rw [hcur]
    show ((enqueue k dest (k.proc dest).pid msg caller).proc k.current).wait = _
    rw [enqueue_proc_current]

theorem enqueue_protocol : (enqueue k dest dst msg caller).protocol =
    k.protocol.set k.current (.sending dest msg (caller ≠ .syscall)) := by
  apply protocol_eq_set
  case hp =>
    rw [enqueue_proc_current]
    rfl
  case hne =>
    intro q hq
    rw [enqueue_proc_of_ne hq]
    rfl
  case hintr =>
    intro q
    rcases eq_or_ne q k.current with rfl | hne
    · rw [enqueue_proc_current]
      rfl
    · rw [enqueue_proc_of_ne hne]

theorem Kernel.Busy.send (h : k.Busy s₀ strict .ready) (hdest : 0 < (k.proc dest).pid)
    (hlive : strict → k.Live dest) (hcaller : ∀ dst c, caller = .rpc dst c → dst = (k.proc dest).pid)
    (hfork : k.Forking k.current (.send dest msg caller)) :
    (schedule (wakeReceiver (enqueue k dest (k.proc dest).pid msg caller) dest [k.cur.pid, ipcAll])).Inv s₀ strict := by
  apply inv_schedule (h.enqueue_base hdest hfork).wake
  case hkont =>
    intro p
    rw [wakeReceiver_kont]
    rcases eq_or_ne p k.current with rfl | hne
    · rw [enqueue_proc_current]
      exact enqueue_kontOk_current hdest hlive hcaller
    · rw [enqueue_proc_of_ne hne]
      exact h.enqueue_kontOk hdest hne (h.kont p hne)
  case htrace =>
    rw [wakeReceiver_log, wakeReceiver_protocol, enqueue_protocol, ← set_set]
    exact h.trace.snoc (.send (set_status_self _))

/-! ## `copyMessage` -/

@[simp] theorem unlinkWait_current (k : Kernel) (p : Nat) : (unlinkWait k p).current = k.current := rfl

theorem copyMessage_proc_current (h : source ≠ k.current) : (copyMessage k source).proc k.current =
    { k.cur with wait := ipcNowait, waitProc := k.cur.waitProc.erase source } := by
  unfold copyMessage
  rw [emit_proc, set_proc_of_ne h.symm]
  exact set_proc_self ..

theorem copyMessage_proc_source (h : source ≠ k.current) : (copyMessage k source).proc source =
    { k.proc source with state := .runnable, waitProc := (k.proc source).waitProc.erase source } := by
  unfold copyMessage
  rw [emit_proc, set_proc_self, Kernel.setCur, unlinkWait_current, set_proc_of_ne h]
  rfl

theorem copyMessage_proc_of_ne (h : q ≠ source) (hq : q ≠ k.current) : (copyMessage k source).proc q =
    { k.proc q with waitProc := (k.proc q).waitProc.erase source } := by
  unfold copyMessage
  rw [emit_proc, set_proc_of_ne h, Kernel.setCur, unlinkWait_current, set_proc_of_ne hq]
  rfl

theorem copyMessage_proc_cases {Q : Nat → Proc → Prop} (h : source ≠ k.current)
    (hcur : Q k.current { k.cur with wait := ipcNowait, waitProc := k.cur.waitProc.erase source })
    (hsource : Q source
      { k.proc source with state := .runnable, waitProc := (k.proc source).waitProc.erase source })
    (hother : ∀ q, q ≠ source → q ≠ k.current →
      Q q { k.proc q with waitProc := (k.proc q).waitProc.erase source }) (q : Nat) :
    Q q ((copyMessage k source).proc q) := by
  rcases eq_or_ne q source with rfl | hs
  · rw [copyMessage_proc_source h]
    exact hsource
  · rcases eq_or_ne q k.current with rfl | hc
    · rw [copyMessage_proc_current h]
      exact hcur
    · rw [copyMessage_proc_of_ne hs hc]
      exact hother q hs hc

theorem copyMessage_pid (q : Nat) : ((copyMessage k source).proc q).pid = (k.proc q).pid := by
  unfold copyMessage
  rw [emit_proc]
  refine (set_pid ?_ q).trans (set_pid ?_ q) <;> rfl

theorem copyMessage_waitProc (h : source ≠ k.current) (q : Nat) :
    ((copyMessage k source).proc q).waitProc = (k.proc q).waitProc.erase source :=
  copyMessage_proc_cases (Q := fun q P => P.waitProc = (k.proc q).waitProc.erase source) h rfl rfl (fun _ _ _ => rfl) q

theorem Kernel.Busy.ne_of_linked (h : k.Busy s₀ strict a) (hl : k.Linked source q) : source ≠ k.current :=
  fun he => h.not_linked (he ▸ hl)

theorem Kernel.Busy.copy_linked (h : k.Busy s₀ strict a) (hl : k.Linked source k.current) :
    (copyMessage k source).Linked p q ↔ k.Linked p q ∧ p ≠ source := by
  have hne := h.ne_of_linked hl
  have hpid : ((copyMessage k source).proc q).pid = (k.proc q).pid := copyMessage_pid q
  rcases eq_or_ne p source with rfl | hs
  · refine iff_of_false (linked_of_not_sending ?_) fun hp => hp.2 rfl
    rw [copyMessage_proc_source hne]
    nofun
  · rcases eq_or_ne p k.current with rfl | hc
    · refine iff_of_false (linked_of_not_sending ?_) fun hp => h.not_linked hp.1
      have hphase : k.cur.phase ≠ .sending := by rw [h.ready]; nofun
      rw [copyMessage_proc_current hne]
      exact hphase
    · rw [linked_congr (by rw [copyMessage_proc_of_ne hs hc]; rfl) (by rw [copyMessage_proc_of_ne hs hc]) hpid]
      exact ⟨fun hp => ⟨hp, hs⟩, And.left⟩

theorem Kernel.Base.linked_unique (h : k.Base) {r : Nat} (hq : k.Linked p q) (hr : k.Linked p r) : q = r :=
  h.pid_inj q r (hq.2.1.symm.trans hr.2.1) hq.2.2

theorem Kernel.Busy.copy_forking (h : k.Busy s₀ strict a) (hl : k.Linked source k.current)
    (hf : k.Forking p kont) : (copyMessage k source).Forking p kont where
  pending child hc := by
    have hp := hf.pending child hc
    have hs : child ≠ source := by
      rintro rfl
      have hwait := hl.2.1
      rw [hp.wait] at hwait
      exact absurd (hwait ▸ hl.2.2) (by decide)
    refine ⟨?_, ?_, ?_, ?_, ?_, hp.alive⟩ <;> rw [copyMessage_proc_of_ne hs (h.ne_of_pending hp)]
    · exact hp.phase
    · exact hp.wait
    · exact hp.kont
    · exact hp.parent
    · exact hp.pid
  unhashed := hf.unhashed

theorem Kernel.Busy.copy_base (h : k.Busy s₀ strict a) (hl : k.Linked source k.current) : (copyMessage k source).Base := by
  have hne := h.ne_of_linked hl
  have hsource : (k.proc source).phase ≠ .ready := by rw [hl.1]; nofun
  have hlt : source < k.nextProc := h.base.lt_of_phase (by rw [hl.1]; nofun)
  constructor
  case idle =>
    have hidle : 0 ≠ source := fun he => hsource (he ▸ h.base.idle.2.2.1)
    rw [copyMessage_proc_of_ne hidle h.user.symm]
    exact h.base.idle
  case unused =>
    intro p hp
    rw [copyMessage_proc_of_ne (Nat.ne_of_gt (Nat.lt_of_lt_of_le hlt hp))
      (Nat.ne_of_gt (Nat.lt_of_lt_of_le h.lt hp))]
    exact h.base.unused p hp
  case alive_lt => exact h.base.alive_lt
  case pid_pos =>
    intro p
    rw [copyMessage_pid]
    exact h.base.pid_pos p
  case pid_le =>
    intro p
    rw [copyMessage_pid]
    exact h.base.pid_le p
  case global => exact h.base.global
  case pid_inj =>
    intro p q
    rw [copyMessage_pid, copyMessage_pid]
    exact h.base.pid_inj p q
  case hash =>
    intro i p
    rw [copyMessage_pid]
    exact h.base.hash i p
  case hash_alive => exact h.base.hash_alive
  case hash_nodup => exact h.base.hash_nodup
  case linked =>
    intro p q hp
    obtain ⟨hp, hs⟩ := (h.copy_linked hl).mp hp
    rw [copyMessage_waitProc hne, List.count_erase_of_ne hs]
    exact h.base.linked p q hp
  case unlinked =>
    intro p q hp hm
    rw [copyMessage_waitProc hne] at hm
    have hp' : k.Linked p q := by
      by_contra hp'
      exact h.base.unlinked p q hp' (List.mem_of_mem_erase hm)
    -- the source was in the queue once only
    obtain rfl : p = source := by
      by_contra hs
      exact hp ((h.copy_linked hl).mpr ⟨hp', hs⟩)
    have hcount := List.count_pos_iff.mpr hm
    rw [List.count_erase_self, h.base.linked p q hp'] at hcount
    exact absurd hcount (by decide)
  case alarm =>
    exact copyMessage_proc_cases (Q := fun _ P => P.alarm = 0) hne (h.base.alarm _) (h.base.alarm _)
      fun q _ _ => h.base.alarm q
  case freed =>
    apply copyMessage_proc_cases (Q := fun q P => k.alive q = false → P.phase = .stopped ∨ P.phase = .sending ∧ P.wait =
      ipcNowait) hne
    case hcur =>
      intro hp
      rcases h.base.freed _ hp with hf | ⟨hf, -⟩ <;>
        rw [show (k.proc k.current).phase = .ready from h.ready] at hf <;> cases hf
    case hsource =>
      intro hp
      rcases h.base.freed _ hp with hf | ⟨-, hf⟩
      · rw [hl.1] at hf
        cases hf
      · rw [hl.2.1] at hf
        exact absurd (hf ▸ hl.2.2) (by decide)
    case hother => exact fun q _ _ => h.base.freed q
  case fork =>
    exact copyMessage_proc_cases (Q := fun q P => (copyMessage k source).Forking q P.kont) hne
      (h.copy_forking hl (h.base.fork _)) (h.copy_forking hl (h.base.fork _))
      fun q _ _ => h.copy_forking hl (h.base.fork q)

theorem copyMessage_live (hne : source ≠ k.current) (h : k.Live q) : (copyMessage k source).Live q := by
  refine ⟨h.1, ?_, h.2.2⟩
  have hphase := h.2.1
  revert hphase
  exact copyMessage_proc_cases (Q := fun q P => (k.proc q).phase ≠ .stopped → P.phase ≠ .stopped) hne id
    (fun _ => nofun) (fun _ _ _ => id) q

theorem Kernel.Busy.kont_of_linked (h : k.Busy s₀ strict a) (hl : k.Linked source k.current) : ∃ msg caller,
    (k.proc source).kont = .send k.current msg caller ∧ (∀ dst c, caller = .rpc dst c → dst = k.cur.pid) := by
  have hk := h.kont source (h.ne_of_linked hl)
  rcases hk.sending hl.1 with ⟨-, hwait⟩ | ⟨dest, msg, caller, hkont, hwait, hpid, -⟩
  · rw [hl.2.1] at hwait
    exact absurd (hwait ▸ hl.2.2) (by decide)
  · obtain rfl := h.base.pid_inj dest k.current (hwait.symm.trans hl.2.1) hpid
    rw [hkont] at hk
    exact ⟨msg, caller, hkont, hk.2.1⟩

theorem Kernel.Busy.copy_kontOk (h : k.Busy s₀ strict a) (hl : k.Linked source k.current) (hp : p ≠ k.current) :
    (copyMessage k source).KontOk strict p ((copyMessage k source).proc p).kont := by
  have hne := h.ne_of_linked hl
  rcases eq_or_ne p source with rfl | hs
  · obtain ⟨msg, caller, hkont, hcaller⟩ := h.kont_of_linked hl
    rw [copyMessage_proc_source hne]
    show (copyMessage k p).KontOk strict p (k.proc p).kont
    rw [hkont]
    simp only [Kernel.KontOk, copyMessage_pid, copyMessage_proc_source hne]
    exact ⟨h.pid_pos, hcaller, Or.inl rfl⟩
  · have hk := h.kont p hp
    rw [copyMessage_proc_of_ne hs hp]
    apply hk.mono
    case hpid => exact fun q _ => copyMessage_pid q
    case hlink =>
      intro q _
      rw [h.copy_linked hl]
      refine ⟨And.left, fun hq => ⟨hq, ?_⟩⟩
      rintro rfl
      exact hp (h.base.linked_unique hq hl)
    case hlive => exact fun _ q _ => copyMessage_live hne
    case hqueue =>
      intro hq
      rw [copyMessage_waitProc hne, hq]
      rfl
    all_goals rw [copyMessage_proc_of_ne hs hp]
    rfl

theorem Kernel.Busy.copy_protocol (h : k.Busy s₀ strict a) (hl : k.Linked source k.current) : ∃ call,
    (k.proc source).status = .sending k.current (k.proc source).msg call ∧
      (copyMessage k source).protocol = k.protocol.set source (.copied k.current call) := by
  have hne := h.ne_of_linked hl
  obtain ⟨msg, caller, hkont, -⟩ := h.kont_of_linked hl
  refine ⟨caller ≠ .syscall, ?_, protocol_eq_set ?_ ?_ ?_⟩
  · rw [Proc.status, hkont]
    exact if_pos hl.1
  · rw [copyMessage_proc_source hne, Proc.status]
    dsimp only
    rw [hkont]
    rfl
  · intro q hq
    rcases eq_or_ne q k.current with rfl | hc
    · rw [copyMessage_proc_current hne]
      rfl
    · rw [copyMessage_proc_of_ne hq hc]
      rfl
  · exact copyMessage_proc_cases (Q := fun q P => P.hasIntr = (k.proc q).hasIntr) hne rfl rfl fun _ _ _ => rfl

theorem Kernel.Busy.copy {b : Status Nat Message} (h : k.Busy s₀ strict a) (hl : k.Linked source k.current)
    (hab : a = .ready ∧ b = .ready ∨ a = .awaiting source ∧ b = .replied (k.proc source).msg) :
    (copyMessage k source).Busy s₀ strict b := by
  have hne := h.ne_of_linked hl
  obtain ⟨call, hstatus, hprotocol⟩ := h.copy_protocol hl
  have hsending : (k.protocol.set k.current a).status source = .sending k.current (k.proc source).msg call :=
    (set_status_of_ne hne a).trans hstatus
  constructor
  case base => exact h.copy_base hl
  case kont => exact fun p hp => h.copy_kontOk hl hp
  case ready =>
    show ((copyMessage k source).proc k.current).phase = .ready
    rw [copyMessage_proc_current hne]
    exact h.ready
  case user => exact h.user
  case trace =>
    show Trace s₀ (k.log ++ [.copy source k.current (k.proc source).msg]) ((copyMessage k source).protocol.set k.current b)
    rw [hprotocol]
    rcases hab with ⟨rfl, rfl⟩ | ⟨rfl, rfl⟩
    · rw [set_comm _ hne]
      exact h.trace.snoc (.copy hsending (set_status_self _))
    · have hset : (k.protocol.set source (.copied k.current call)).set k.current (.replied (k.proc source).msg) =
          ((k.protocol.set k.current (.awaiting source)).set source (.copied k.current call)).set k.current
            (.replied (k.proc source).msg) := by
        rw [set_comm _ hne.symm, set_set]
      rw [hset]
      exact h.trace.snoc (.answer hsending (set_status_self _))

/-! ## Interrupts -/

theorem Kernel.Busy.take (h : k.Busy s₀ strict .ready) (hintr : k.cur.hasIntr = true) :
    ((k.setCur { k.cur with hasIntr := false }).emit (.take k.current)).Busy s₀ strict .ready := by
  have hready : ({ k.cur with hasIntr := false } : Proc).phase = .ready := h.ready
  have hphase : ({ k.cur with hasIntr := false } : Proc).phase ≠ .sending := by rw [hready]; nofun
  constructor
  case base => exact (emit_alike _ _).base (h.base_setCur rfl rfl rfl hphase (h.base.fork k.current))
  case kont =>
    exact fun p hp => (emit_alike _ _).kontOk (h.kont_setCur rfl hphase (fun _ _ => by rw [hready]; nofun) hp)
  case ready =>
    rw [emit_cur, setCur_cur]
    exact hready
  case user => exact h.user
  case trace =>
    rw [emit_log, (emit_alike _ _).protocol, Kernel.setCur, protocol_set_flag (P := { k.cur with hasIntr := false }) rfl]
    exact h.trace.snoc (.take (set_status_self _) hintr)

end FengOS.Core
