import FengOS.Core.Lemmas.Update

/-!
# Waking a process
-/

namespace FengOS.Core

open FengOS.Lib.Rendezvous

variable {strict : Prop} {k k' : Kernel} {p q dest : Nat} {waits : List Int} {s₀ : State Nat Message}
  {a : Status Nat Message}

/-! ## `wakeReceiver` -/

theorem phase_eq_receiving {P : Proc} : P.phase = .receiving ↔ P.state = .receiving := by
  rw [Proc.phase]
  cases P.state <;> simp [ProcState.phase]

theorem phase_eq_sending {P : Proc} : P.phase = .sending ↔ P.state = .sending := by
  rw [Proc.phase]
  cases P.state <;> simp [ProcState.phase]

theorem wakeReceiver_of_not (h : ¬ ((k.proc dest).phase = .receiving ∧ (k.proc dest).wait ∈ waits)) :
    wakeReceiver k dest waits = k := by
  rw [phase_eq_receiving] at h
  rw [wakeReceiver, if_neg h]

theorem wakeReceiver_of_receiving (h : (k.proc dest).phase = .receiving) (hw : (k.proc dest).wait ∈ waits) :
    wakeReceiver k dest waits = k.set dest { k.proc dest with state := .runnable } := by
  rw [wakeReceiver, if_pos ⟨phase_eq_receiving.mp h, hw⟩]

theorem wakeReceiver_cases (k : Kernel) (dest : Nat) (waits : List Int) : wakeReceiver k dest waits = k ∨
    (k.proc dest).phase = .receiving ∧ (k.proc dest).wait ∈ waits ∧
      wakeReceiver k dest waits = k.set dest { k.proc dest with state := .runnable } := by
  by_cases h : (k.proc dest).phase = .receiving ∧ (k.proc dest).wait ∈ waits
  · exact Or.inr ⟨h.1, h.2, wakeReceiver_of_receiving h.1 h.2⟩
  · exact Or.inl (wakeReceiver_of_not h)

theorem wakeReceiver_proc (k : Kernel) (dest : Nat) (waits : List Int) (q : Nat) :
    ∃ state, (wakeReceiver k dest waits).proc q = { k.proc q with state := state } := by
  rcases wakeReceiver_cases k dest waits with h | ⟨-, -, h⟩
  · exact ⟨(k.proc q).state, by rw [h]⟩
  · rw [h]
    rcases eq_or_ne q dest with rfl | hne
    · exact ⟨.runnable, set_proc_self ..⟩
    · exact ⟨(k.proc q).state, set_proc_of_ne hne _⟩

theorem wakeReceiver_kont (k : Kernel) (dest : Nat) (waits : List Int) (q : Nat) :
    ((wakeReceiver k dest waits).proc q).kont = (k.proc q).kont := by
  obtain ⟨state, hq⟩ := wakeReceiver_proc k dest waits q
  rw [hq]

theorem wakeReceiver_current (k : Kernel) (dest : Nat) (waits : List Int) :
    (wakeReceiver k dest waits).current = k.current := by
  rcases wakeReceiver_cases k dest waits with h | ⟨-, -, h⟩ <;> rw [h]
  rfl

theorem wakeReceiver_log (k : Kernel) (dest : Nat) (waits : List Int) : (wakeReceiver k dest waits).log = k.log := by
  rcases wakeReceiver_cases k dest waits with h | ⟨-, -, h⟩ <;> rw [h]
  rfl

theorem wakeReceiver_phase (h : (k.proc q).phase ≠ .receiving) :
    ((wakeReceiver k dest waits).proc q).phase = (k.proc q).phase := by
  rcases wakeReceiver_cases k dest waits with he | ⟨hr, -, he⟩ <;> rw [he]
  have hne : q ≠ dest := fun heq => h (heq ▸ hr)
  rw [set_proc_of_ne hne]

theorem wakeReceiver_awaits (h : (wakeReceiver k dest waits).Awaits p q) : k.Awaits p q := by
  obtain ⟨state, hp⟩ := wakeReceiver_proc k dest waits p
  obtain ⟨state', hq⟩ := wakeReceiver_proc k dest waits q
  refine awaits_of_phase h ?_ (by rw [hp]) (by rw [hq])
  rcases wakeReceiver_cases k dest waits with he | ⟨-, -, he⟩ <;> rw [he]
  · exact Or.inl rfl
  · rcases eq_or_ne p dest with rfl | hne
    · rw [set_proc_self]
      exact Or.inr rfl
    · rw [set_proc_of_ne hne]
      exact Or.inl rfl

theorem wakeReceiver_linked : (wakeReceiver k dest waits).Linked p q ↔ k.Linked p q := by
  rcases wakeReceiver_cases k dest waits with he | ⟨hr, -, he⟩ <;> rw [he]
  rcases eq_or_ne p dest with rfl | hne
  · refine iff_of_false (linked_of_not_sending ?_) (linked_of_not_sending ?_)
    · rw [set_proc_self]
      nofun
    · rw [hr]
      nofun
  · exact set_linked_of_ne hne rfl

theorem Kernel.Base.wake (h : k.Base) : (wakeReceiver k dest waits).Base := by
  rcases wakeReceiver_cases k dest waits with he | ⟨hr, hw, he⟩
  · rw [he]
    exact h
  have hlink : ∀ q, (wakeReceiver k dest waits).Linked dest q ↔ k.Linked dest q := fun q => wakeReceiver_linked
  rw [he] at hlink ⊢
  refine h.set (h.lt_of_phase ?_) rfl rfl rfl hlink ?_ ?_ (h.fork dest) ?_
  · rw [hr]
    nofun
  · rintro rfl
    exact ⟨h.idle.2.1, rfl⟩
  · intro hf
    rcases h.freed dest hf with hf | ⟨hf, -⟩ <;> rw [hr] at hf <;> cases hf
  · intro x hx
    rw [← he, wakeReceiver_kont] at hx
    have hphase := ((h.fork x).pending dest hx).phase
    rw [hr] at hphase
    cases hphase

theorem wakeReceiver_protocol : (wakeReceiver k dest waits).protocol = k.protocol := by
  rcases wakeReceiver_cases k dest waits with he | ⟨hr, -, he⟩ <;> rw [he]
  have hstatus : ({ k.proc dest with state := .runnable } : Proc).status = (k.proc dest).status := by
    have hready : ({ k.proc dest with state := .runnable } : Proc).phase = .ready := rfl
    unfold Proc.status
    rw [hready, hr]
    rfl
  exact protocol_set_of_status hstatus rfl

theorem Kernel.KontOk.wake_of_ne {kont : Kont} (h : k.KontOk strict p kont) (hne : p ≠ dest) :
    (wakeReceiver k dest waits).KontOk strict p kont := by
  have hlink : (wakeReceiver k dest waits).Linked dest p ↔ k.Linked dest p := wakeReceiver_linked
  rcases wakeReceiver_cases k dest waits with he | ⟨-, -, he⟩ <;> rw [he] at hlink ⊢
  · exact h
  · exact h.set hne rfl hlink fun _ _ _ => nofun

theorem Kernel.Live.wake (h : k.Live q) : (wakeReceiver k dest waits).Live q := by
  rcases wakeReceiver_cases k dest waits with he | ⟨-, -, he⟩ <;> rw [he]
  · exact h
  · refine ⟨h.1, ?_, h.2.2⟩
    rcases eq_or_ne q dest with rfl | hne
    · rw [set_proc_self]
      nofun
    · rw [set_proc_of_ne hne]
      exact h.2.1

/-! ## No missed wake-up -/

/-- What `p` may wait for under one of the numbers has happened; if it does, it is runnable. -/
structure Kernel.Wakes (k k' : Kernel) (p : Nat) (waits : List Int) : Prop where
  wait : (k'.proc p).wait = (k.proc p).wait
  pid : ∀ q, (k'.proc q).pid = (k.proc q).pid
  stay : ¬ ((k.proc p).phase = .receiving ∧ (k.proc p).wait ∈ waits) → (k'.proc p).phase = (k.proc p).phase
  wake : (k.proc p).phase = .receiving → (k.proc p).wait ∈ waits → (k'.proc p).phase = .ready
  intr : (k'.proc p).hasIntr = (k.proc p).hasIntr ∧ ipcIntr ∉ waits ∨
    (k'.proc p).hasIntr = true ∧ ipcIntr ∈ waits ∧ ipcAll ∈ waits
  signal : (k'.proc p).signal = (k.proc p).signal ∨ ipcSignal ∈ waits
  queue : (k'.proc p).waitProc = (k.proc p).waitProc ∨ ipcAll ∈ waits
  linked : ∀ q, 0 < (k.proc q).pid → (k'.Linked q p ↔ k.Linked q p ∨ (k.proc q).pid ∈ waits)
  live : ∀ q, k.Live q → k'.Live q

theorem wakeReceiver_wakes (hphase : (k'.proc p).phase = (k.proc p).phase)
    (hwait : (k'.proc p).wait = (k.proc p).wait) (hpid : ∀ q, (k'.proc q).pid = (k.proc q).pid)
    (hintr : (k'.proc p).hasIntr = (k.proc p).hasIntr ∧ ipcIntr ∉ waits ∨
      (k'.proc p).hasIntr = true ∧ ipcIntr ∈ waits ∧ ipcAll ∈ waits)
    (hsignal : (k'.proc p).signal = (k.proc p).signal ∨ ipcSignal ∈ waits)
    (hqueue : (k'.proc p).waitProc = (k.proc p).waitProc ∨ ipcAll ∈ waits)
    (hlinked : ∀ q, 0 < (k.proc q).pid → (k'.Linked q p ↔ k.Linked q p ∨ (k.proc q).pid ∈ waits))
    (hlive : ∀ q, k.Live q → k'.Live q) : k.Wakes (wakeReceiver k' p waits) p waits := by
  obtain ⟨state, hp⟩ := wakeReceiver_proc k' p waits p
  constructor
  case wait => rw [hp]; exact hwait
  case pid =>
    intro q
    obtain ⟨state, hq⟩ := wakeReceiver_proc k' p waits q
    rw [hq]
    exact hpid q
  case stay =>
    intro hn
    rw [← hphase, ← hwait] at hn
    rw [wakeReceiver_of_not hn, hphase]
  case wake =>
    intro hr hw
    rw [← hphase] at hr
    rw [← hwait] at hw
    rw [wakeReceiver_of_receiving hr hw, set_proc_self]
    rfl
  case intr => rw [hp]; exact hintr
  case signal => rw [hp]; exact hsignal
  case queue => rw [hp]; exact hqueue
  case linked =>
    intro q hq
    rw [wakeReceiver_linked]
    exact hlinked q hq
  case live => exact fun q hq => (hlive q hq).wake

theorem Kernel.Wakes.phase (h : k.Wakes k' p waits) (hp : (k.proc p).phase ≠ .receiving) :
    (k'.proc p).phase = (k.proc p).phase := h.stay fun hr => hp hr.1

theorem Kernel.Wakes.ready (h : k.Wakes k' p waits) (hp : (k.proc p).phase = .ready) : (k'.proc p).phase = .ready :=
  (h.phase (by rw [hp]; nofun)).trans hp

theorem Kernel.Wakes.sending (h : k.Wakes k' p waits) (hp : (k.proc p).phase = .sending) : (k'.proc p).phase = .sending :=
  (h.phase (by rw [hp]; nofun)).trans hp

theorem Kernel.Wakes.receiving (h : k.Wakes k' p waits) (hp : (k.proc p).phase = .receiving)
    (hw : (k.proc p).wait ∉ waits) : (k'.proc p).phase = .receiving :=
  (h.stay fun hr => hw hr.2).trans hp

theorem Kernel.Wakes.kontOk {kont : Kont} (h : k.Wakes k' p waits) (hk : k.KontOk strict p kont) :
    k'.KontOk strict p kont := by
  cases kont with
  | user =>
    rcases hk with hr | ⟨hs, hw⟩
    · exact Or.inl (h.ready hr)
    · exact Or.inr ⟨h.sending hs, h.wait.trans hw⟩
  | send dest msg caller =>
    simp only [Kernel.KontOk, h.pid, h.wait] at hk ⊢
    obtain ⟨hpid, hdst, hr | ⟨hs, hw, hl⟩⟩ := hk
    · exact ⟨hpid, hdst, Or.inl (h.ready hr)⟩
    · exact ⟨hpid, hdst, Or.inr ⟨h.sending hs, hw, fun hstrict => h.live dest (hl hstrict)⟩⟩
  | recvAll msg caller =>
    obtain ⟨hcaller, hr | ⟨hr, hw, hqueue, hintr⟩⟩ := hk
    · exact ⟨hcaller, Or.inl (h.ready hr)⟩
    · by_cases hall : ipcAll ∈ waits
      · exact ⟨hcaller, Or.inl (h.wake hr (hw ▸ hall))⟩
      · have hintr' : (k'.proc p).hasIntr = false := by
          rcases h.intr with ⟨he, -⟩ | ⟨-, -, hmem⟩
          · exact he.trans hintr
          · exact absurd hmem hall
        have hqueue' := h.queue.resolve_right hall
        exact ⟨hcaller, Or.inr ⟨h.receiving hr (hw ▸ hall), h.wait.trans hw, hqueue'.trans hqueue, hintr'⟩⟩
  | recvIntr msg caller =>
    obtain ⟨hcaller, ⟨hr, hintr⟩ | ⟨hr, hw, hintr⟩⟩ := hk
    · have hintr' : (k'.proc p).hasIntr = true := by
        rcases h.intr with ⟨he, -⟩ | ⟨he, -⟩
        · exact he.trans hintr
        · exact he
      exact ⟨hcaller, Or.inl ⟨h.ready hr, hintr'⟩⟩
    · rcases h.intr with ⟨he, hmem⟩ | ⟨he, hmem, -⟩
      · exact ⟨hcaller, Or.inr ⟨h.receiving hr (hw ▸ hmem), h.wait.trans hw, he.trans hintr⟩⟩
      · exact ⟨hcaller, Or.inl ⟨h.wake hr (hw ▸ hmem), he⟩⟩
  | recvFrom source msg caller =>
    obtain ⟨hpid, ⟨hr, hl⟩ | ⟨hr, hw, hl, hlive⟩⟩ := hk
    · exact ⟨h.pid source ▸ hpid, Or.inl ⟨h.ready hr, (h.linked source hpid).mpr (Or.inl hl)⟩⟩
    · refine ⟨h.pid source ▸ hpid, ?_⟩
      by_cases hmem : (k.proc source).pid ∈ waits
      · exact Or.inl ⟨h.wake hr (hw ▸ hmem), (h.linked source hpid).mpr (Or.inr hmem)⟩
      · have hl' : ¬ k'.Linked source p := fun hl' => ((h.linked source hpid).mp hl').elim hl hmem
        exact Or.inr ⟨h.receiving hr (hw ▸ hmem), by rw [h.wait, h.pid, hw], hl',
          fun hstrict => h.live source (hlive hstrict)⟩
  | wait =>
    rcases hk with hr | ⟨hr, hw, hsignal⟩
    · exact Or.inl (h.ready hr)
    · by_cases hmem : ipcSignal ∈ waits
      · exact Or.inl (h.wake hr (hw ▸ hmem))
      · exact Or.inr ⟨h.receiving hr (hw ▸ hmem), h.wait.trans hw, (h.signal.resolve_right hmem) ▸ hsignal⟩
  | forkTail child => exact h.ready hk
  | dead =>
    refine (h.phase ?_).trans hk
    rw [show (k.proc p).phase = .stopped from hk]
    simp

/-! ## Interrupts and signals -/

theorem Kernel.Base.pid_not_mem (h : k.Base) (hw : ∀ w ∈ waits, ipcSignal ≤ w) : (k.proc p).pid ∉ waits :=
  fun hm => absurd (h.pid_lt_signal p) (Int.not_lt.mpr (hw _ hm))

section Notice

variable {P : Proc}

structure Proc.Noticed (P' P : Proc) : Prop where
  phase : P'.phase = P.phase
  wait : P'.wait = P.wait
  kont : P'.kont = P.kont
  waitProc : P'.waitProc = P.waitProc
  pid : P'.pid = P.pid
  parent : P'.parent = P.parent
  msg : P'.msg = P.msg
  alarm : P'.alarm = P.alarm

theorem Proc.Noticed.linked (h : P.Noticed (k.proc dest)) : (k.set dest P).Linked p q ↔ k.Linked p q := by
  rcases eq_or_ne p dest with rfl | hne
  · exact linked_congr (by rw [set_proc_self, h.phase]) (by rw [set_proc_self, h.wait]) (set_pid h.pid q)
  · exact set_linked_of_ne hne h.pid

theorem Proc.Noticed.live (h : P.Noticed (k.proc dest)) (hq : k.Live q) : (k.set dest P).Live q := by
  refine ⟨hq.1, ?_, hq.2.2⟩
  rcases eq_or_ne q dest with rfl | hne
  · rw [set_proc_self, h.phase]
    exact hq.2.1
  · rw [set_proc_of_ne hne]
    exact hq.2.1

theorem Proc.Noticed.awaits (h : P.Noticed (k.proc dest)) (hp : (k.set dest P).Awaits p q) : k.Awaits p q := by
  refine awaits_of_phase hp ?_ ?_ (set_pid h.pid q)
  · rcases eq_or_ne p dest with rfl | hne
    · exact Or.inl (by rw [set_proc_self, h.phase])
    · exact Or.inl (by rw [set_proc_of_ne hne])
  · rcases eq_or_ne p dest with rfl | hne
    · rw [set_proc_self, h.wait]
    · rw [set_proc_of_ne hne]

theorem Proc.Noticed.base (h : P.Noticed (k.proc dest)) (hb : k.Base) (hd : dest < k.nextProc) : (k.set dest P).Base := by
  apply hb.set hd h.pid h.waitProc h.alarm (fun q => h.linked)
  case hidle =>
    rintro rfl
    rw [h.kont, h.phase]
    exact ⟨hb.idle.2.1, hb.idle.2.2.1⟩
  case hfreed =>
    rw [h.phase, h.wait]
    exact hb.freed dest
  case hfork =>
    rw [h.kont]
    exact hb.fork dest
  case hchild =>
    intro x hx
    have hkont : ((k.set dest P).proc x).kont = (k.proc x).kont := by
      rcases eq_or_ne x dest with rfl | hne
      · rw [set_proc_self, h.kont]
      · rw [set_proc_of_ne hne]
    rw [hkont] at hx
    have hpending := (hb.fork x).pending dest hx
    rw [h.phase, h.wait, h.kont]
    exact ⟨hpending.phase, hpending.wait, hpending.kont, h.parent⟩

theorem Proc.Noticed.status (h : P.Noticed (k.proc dest)) : P.status = (k.proc dest).status := by
  simp only [Proc.status, h.kont, h.phase, h.msg]

theorem Proc.Noticed.wakes (h : P.Noticed (k.proc dest)) (hb : k.Base) (hw : ∀ w ∈ waits, ipcSignal ≤ w)
    (hintr : P.hasIntr = (k.proc dest).hasIntr ∧ ipcIntr ∉ waits ∨ P.hasIntr = true ∧ ipcIntr ∈ waits ∧ ipcAll ∈ waits)
    (hsignal : P.signal = (k.proc dest).signal ∨ ipcSignal ∈ waits) :
    k.Wakes (wakeReceiver (k.set dest P) dest waits) dest waits := by
  apply wakeReceiver_wakes
  case hphase => rw [set_proc_self, h.phase]
  case hwait => rw [set_proc_self, h.wait]
  case hpid => exact set_pid h.pid
  case hintr => rw [set_proc_self]; exact hintr
  case hsignal => rw [set_proc_self]; exact hsignal
  case hqueue => rw [set_proc_self]; exact Or.inl h.waitProc
  case hlinked =>
    intro q _
    rw [h.linked]
    exact ⟨Or.inl, fun hl => hl.resolve_right (hb.pid_not_mem hw)⟩
  case hlive => exact fun q => h.live

theorem Proc.Noticed.kontOk {kont : Kont} (h : P.Noticed (k.proc dest))
    (hwakes : k.Wakes (wakeReceiver (k.set dest P) dest waits) dest waits) (hk : k.KontOk strict p kont) :
    (wakeReceiver (k.set dest P) dest waits).KontOk strict p kont := by
  rcases eq_or_ne p dest with rfl | hne
  · exact hwakes.kontOk hk
  · refine (hk.set hne h.pid h.linked fun _ _ hs => ?_).wake_of_ne hne
    rw [h.phase]
    exact hs

theorem Proc.Noticed.proc_kont (h : P.Noticed (k.proc dest)) (p : Nat) :
    ((wakeReceiver (k.set dest P) dest waits).proc p).kont = (k.proc p).kont := by
  rw [wakeReceiver_kont]
  rcases eq_or_ne p dest with rfl | hne
  · rw [set_proc_self, h.kont]
  · rw [set_proc_of_ne hne]

theorem Proc.Noticed.ready (h : P.Noticed (k.proc dest)) (hr : k.cur.phase = .ready) :
    (wakeReceiver (k.set dest P) dest waits).cur.phase = .ready := by
  have hphase : ((k.set dest P).proc k.current).phase = .ready := by
    rcases eq_or_ne k.current dest with he | hne
    · rw [he, set_proc_self, h.phase, ← he]
      exact hr
    · rw [set_proc_of_ne hne]
      exact hr
  rw [Kernel.cur, wakeReceiver_current, set_current, wakeReceiver_phase (by simp [hphase]), hphase]

end Notice

theorem sendIntr_noticed (k : Kernel) (dest : Nat) :
    ({ k.proc dest with hasIntr := true } : Proc).Noticed (k.proc dest) :=
  ⟨rfl, rfl, rfl, rfl, rfl, rfl, rfl, rfl⟩

theorem sendSignal_noticed (k : Kernel) (dest : Nat) (signal : Int) :
    ({ k.proc dest with signal := signal } : Proc).Noticed (k.proc dest) :=
  ⟨rfl, rfl, rfl, rfl, rfl, rfl, rfl, rfl⟩

theorem wakeReceiver_emit (k : Kernel) (e : Event Nat Message) (dest : Nat) (waits : List Int) :
    wakeReceiver (k.emit e) dest waits = (wakeReceiver k dest waits).emit e := by
  unfold wakeReceiver
  rw [apply_ite (Kernel.emit · e)]
  rfl

theorem Kernel.Inv.inv_sendIntr (h : k.Inv s₀ strict) (hd : dest < k.nextProc) : (sendIntr k dest).Inv s₀ strict := by
  have hn := sendIntr_noticed k dest
  have hwakes := hn.wakes h.base (by decide : ∀ w ∈ [ipcIntr, ipcAll], ipcSignal ≤ w)
    (Or.inr ⟨rfl, by decide, by decide⟩) (Or.inl rfl)
  unfold sendIntr
  rw [wakeReceiver_emit]
  constructor
  case base => exact (emit_alike _ _).base (hn.base h.base hd).wake
  case kont =>
    intro p
    rw [emit_proc, hn.proc_kont]
    exact (emit_alike _ _).kontOk (hn.kontOk hwakes (h.kont p))
  case ready => exact hn.ready h.ready
  case trace =>
    rw [emit_log, wakeReceiver_log, (emit_alike _ _).protocol, wakeReceiver_protocol, protocol_set_flag hn.status]
    exact h.trace.snoc .notify

theorem Kernel.Inv.inv_sendSignal (h : k.Inv s₀ strict) (hd : dest < k.nextProc) (signal : Int) :
    (sendSignal k dest signal).Inv s₀ strict := by
  have hn := sendSignal_noticed k dest signal
  have hwakes := hn.wakes h.base (by decide : ∀ w ∈ [ipcSignal], ipcSignal ≤ w) (Or.inl ⟨rfl, by decide⟩)
    (Or.inr (by decide))
  unfold sendSignal
  constructor
  case base => exact (hn.base h.base hd).wake
  case kont =>
    intro p
    rw [hn.proc_kont]
    exact hn.kontOk hwakes (h.kont p)
  case ready => exact hn.ready h.ready
  case trace =>
    rw [wakeReceiver_log, wakeReceiver_protocol, protocol_set_of_status hn.status rfl]
    exact h.trace

theorem Kernel.Busy.busy_sendSignal (h : k.Busy s₀ strict a) (hd : dest < k.nextProc) (signal : Int) :
    (sendSignal k dest signal).Busy s₀ strict a := by
  have hn := sendSignal_noticed k dest signal
  have hwakes := hn.wakes h.base (by decide : ∀ w ∈ [ipcSignal], ipcSignal ≤ w) (Or.inl ⟨rfl, by decide⟩)
    (Or.inr (by decide))
  unfold sendSignal
  constructor
  case base => exact (hn.base h.base hd).wake
  case kont =>
    intro p hp
    rw [wakeReceiver_current] at hp
    rw [hn.proc_kont]
    exact hn.kontOk hwakes (h.kont p hp)
  case ready => exact hn.ready h.ready
  case user =>
    rw [wakeReceiver_current]
    exact h.user
  case trace =>
    rw [wakeReceiver_log, wakeReceiver_current, wakeReceiver_protocol, protocol_set_of_status hn.status rfl]
    exact h.trace

end FengOS.Core
