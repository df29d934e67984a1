import FengOS.Core.Lemmas.Frame

/-!
# Updates of single records
-/

namespace FengOS.Core

open FengOS.Lib.Rendezvous

variable {strict : Prop} {k k' : Kernel} {p q : Nat} {P : Proc} {s₀ : State Nat Message} {a : Status Nat Message}

theorem Kernel.Base.lt_of_phase (h : k.Base) (hp : (k.proc p).phase ≠ .stopped) : p < k.nextProc := by
  by_contra hge
  exact hp (h.unused p (Nat.le_of_not_lt hge)).2.2.1

theorem Kernel.Base.lt_of_pid (h : k.Base) (hp : 0 < (k.proc p).pid) : p < k.nextProc := by
  by_contra hge
  rw [(h.unused p (Nat.le_of_not_lt hge)).1] at hp
  exact absurd hp (by decide)

theorem Kernel.Base.pid_lt_signal (h : k.Base) (p : Nat) : (k.proc p).pid < ipcSignal :=
  Int.lt_of_le_of_lt (h.pid_le p) h.global.2

theorem Kernel.Base.set (hb : k.Base) (hp : p < k.nextProc) (hpid : P.pid = (k.proc p).pid)
    (hqueue : P.waitProc = (k.proc p).waitProc) (halarm : P.alarm = (k.proc p).alarm)
    (hlink : ∀ q, (k.set p P).Linked p q ↔ k.Linked p q) (hidle : p = 0 → P.kont = .user ∧ P.phase = .ready)
    (hfreed : k.alive p = false → P.phase = .stopped ∨ P.phase = .sending ∧ P.wait = ipcNowait) (hfork : k.Forking p P.kont)
    (hchild : ∀ x, ((k.set p P).proc x).kont.forkChild = some p → P.phase = .sending ∧ P.wait = ipcNowait ∧
      P.kont = .user ∧ P.parent = (k.proc p).parent) : (k.set p P).Base := by
  have hpid' := set_pid hpid
  have hlink' : ∀ x q, (k.set p P).Linked x q ↔ k.Linked x q := by
    intro x q
    rcases eq_or_ne x p with rfl | hne
    · exact hlink q
    · exact set_linked_of_ne hne hpid
  have hqueue' : ∀ q, ((k.set p P).proc q).waitProc = (k.proc q).waitProc := by
    intro q
    rcases eq_or_ne q p with rfl | hne
    · rw [set_proc_self, hqueue]
    · rw [set_proc_of_ne hne]
  have hpending : ∀ x c, ((k.set p P).proc x).kont.forkChild = some c → k.Pending x c → (k.set p P).Pending x c := by
    intro x c hx hc
    rcases eq_or_ne c p with rfl | hne
    · obtain ⟨h₁, h₂, h₃, h₄⟩ := hchild x hx
      refine ⟨?_, ?_, ?_, ?_, by rw [hpid']; exact hc.pid, hc.alive⟩ <;> rw [set_proc_self]
      · exact h₁
      · exact h₂
      · exact h₃
      · rw [h₄, hc.parent]
    · refine ⟨?_, ?_, ?_, ?_, by rw [hpid']; exact hc.pid, hc.alive⟩ <;> rw [set_proc_of_ne hne]
      · exact hc.phase
      · exact hc.wait
      · exact hc.kont
      · exact hc.parent
  constructor
  case idle =>
    refine ⟨by rw [hpid']; exact hb.idle.1, ?_⟩
    rcases eq_or_ne 0 p with rfl | hne
    · rw [set_proc_self]
      exact ⟨(hidle rfl).1, (hidle rfl).2, hb.idle.2.2.2⟩
    · rw [set_proc_of_ne hne]
      exact hb.idle.2
  case unused =>
    intro q hq
    rw [set_proc_of_ne (Nat.ne_of_gt (Nat.lt_of_lt_of_le hp hq))]
    exact hb.unused q hq
  case alive_lt => exact hb.alive_lt
  case pid_pos => intro q hq; rw [hpid']; exact hb.pid_pos q hq
  case pid_le => intro q; rw [hpid']; exact hb.pid_le q
  case global => exact hb.global
  case pid_inj => intro x y; rw [hpid', hpid']; exact hb.pid_inj x y
  case hash => intro i q; rw [hpid']; exact hb.hash i q
  case hash_alive => exact hb.hash_alive
  case hash_nodup => exact hb.hash_nodup
  case linked => intro x q hl; rw [hqueue']; exact hb.linked x q ((hlink' x q).mp hl)
  case unlinked => intro x q hl; rw [hqueue']; exact hb.unlinked x q fun h => hl ((hlink' x q).mpr h)
  case alarm =>
    intro q
    rcases eq_or_ne q p with rfl | hne
    · rw [set_proc_self, halarm]
      exact hb.alarm q
    · rw [set_proc_of_ne hne]
      exact hb.alarm q
  case freed =>
    intro q hq
    rcases eq_or_ne q p with rfl | hne
    · rw [set_proc_self]
      exact hfreed hq
    · rw [set_proc_of_ne hne]
      exact hb.freed q hq
  case fork =>
    intro x
    have hx : k.Forking x ((k.set p P).proc x).kont := by
      rcases eq_or_ne x p with rfl | hne
      · rw [set_proc_self]
        exact hfork
      · rw [set_proc_of_ne hne]
        exact hb.fork x
    exact ⟨fun c hc => hpending x c hc (hx.pending c hc), hx.unhashed⟩

theorem Kernel.KontOk.set {kont : Kont} (h : k.KontOk strict q kont) (hne : q ≠ p)
    (hpid : P.pid = (k.proc p).pid) (hlink : (k.set p P).Linked p q ↔ k.Linked p q)
    (hlive : strict → k.Awaits q p → (k.proc p).phase ≠ .stopped → P.phase ≠ .stopped) :
    (k.set p P).KontOk strict q kont := by
  have hq : (k.set p P).proc q = k.proc q := set_proc_of_ne hne P
  refine h.mono ?_ ?_ ?_ ?_ ?_ (fun x _ => set_pid hpid x) ?_ ?_
  · rw [hq]
  · rw [hq]
  · rw [hq]
  · rw [hq]
  · rw [hq]
    exact id
  · intro x _
    rcases eq_or_ne x p with rfl | hx
    · exact hlink
    · exact set_linked_of_ne hx hpid
  · rintro hs x hawaits ⟨h₁, h₂, h₃⟩
    refine ⟨h₁, ?_, h₃⟩
    rcases eq_or_ne x p with rfl | hx
    · rw [set_proc_self]
      exact hlive hs hawaits h₂
    · rw [set_proc_of_ne hx]
      exact h₂

theorem protocol_eq_set (hp : (k'.proc p).status = a) (hne : ∀ q, q ≠ p → (k'.proc q).status = (k.proc q).status)
    (hintr : ∀ q, (k'.proc q).hasIntr = (k.proc q).hasIntr) : k'.protocol = k.protocol.set p a := by
  have hstatus : k'.protocol.status = Function.update k.protocol.status p a := by
    funext q
    rcases eq_or_ne q p with rfl | hq
    · rw [Function.update_self]
      exact hp
    · rw [Function.update_of_ne hq]
      exact hne q hq
  have hflag : k'.protocol.flag = k.protocol.flag := funext hintr
  exact congrArg₂ State.mk hstatus hflag

theorem protocol_set (hintr : P.hasIntr = (k.proc p).hasIntr) : (k.set p P).protocol = k.protocol.set p P.status := by
  apply protocol_eq_set
  case hp => rw [set_proc_self]
  case hne =>
    intro q hq
    rw [set_proc_of_ne hq]
  case hintr =>
    intro q
    rcases eq_or_ne q p with rfl | hq
    · rw [set_proc_self, hintr]
    · rw [set_proc_of_ne hq]

theorem protocol_set_of_status (hstatus : P.status = (k.proc p).status) (hintr : P.hasIntr = (k.proc p).hasIntr) :
    (k.set p P).protocol = k.protocol := by
  rw [protocol_set hintr, hstatus]
  exact congrArg (State.mk · _) (Function.update_eq_self p _)

theorem protocol_set_flag (hstatus : P.status = (k.proc p).status) :
    (k.set p P).protocol = { k.protocol with flag := Function.update k.protocol.flag p P.hasIntr } := by
  have hstatus' : (fun q => ((k.set p P).proc q).status) = k.protocol.status := by
    funext q
    rcases eq_or_ne q p with rfl | hne
    · rw [set_proc_self, hstatus]
      rfl
    · rw [set_proc_of_ne hne]
      rfl
  have hflag : (fun q => ((k.set p P).proc q).hasIntr) = Function.update k.protocol.flag p P.hasIntr := by
    funext q
    rcases eq_or_ne q p with rfl | hne
    · rw [set_proc_self, Function.update_self]
    · rw [set_proc_of_ne hne, Function.update_of_ne hne]
      rfl
  rw [Kernel.protocol, hstatus', hflag]

theorem set_set (s : State Nat Message) (p : Nat) (a b : Status Nat Message) : (s.set p a).set p b = s.set p b := by
  simp [State.set]

theorem set_comm (s : State Nat Message) {p q : Nat} (h : p ≠ q) (a b : Status Nat Message) :
    (s.set p a).set q b = (s.set q b).set p a := by
  simp [State.set, Function.update_comm h]

theorem Kernel.Busy.lt (h : k.Busy s₀ strict a) : k.current < k.nextProc :=
  h.base.lt_of_phase (by rw [show (k.proc k.current).phase = .ready from h.ready]; decide)

theorem Kernel.Busy.pid_pos (h : k.Busy s₀ strict a) : 0 < k.cur.pid := h.base.pid_pos _ h.user h.lt

theorem Kernel.Busy.not_linked (h : k.Busy s₀ strict a) : ¬ k.Linked k.current q :=
  linked_of_not_sending (by rw [show (k.proc k.current).phase = .ready from h.ready]; decide)

theorem Kernel.Busy.setCur_linked (h : k.Busy s₀ strict a) (hphase : P.phase ≠ .sending) :
    (k.setCur P).Linked k.current q ↔ k.Linked k.current q :=
  iff_of_false (linked_of_not_sending (by rw [Kernel.setCur, set_proc_self]; exact hphase)) h.not_linked

theorem Kernel.Busy.base_setCur (h : k.Busy s₀ strict a) (hpid : P.pid = k.cur.pid)
    (hqueue : P.waitProc = k.cur.waitProc) (halarm : P.alarm = k.cur.alarm) (hphase : P.phase ≠ .sending)
    (hfork : k.Forking k.current P.kont) : (k.setCur P).Base := by
  have hready : (k.proc k.current).phase = .ready := h.ready
  refine h.base.set h.lt hpid hqueue halarm (fun q => h.setCur_linked hphase) (fun h₀ => absurd h₀ h.user)
    (fun hf => ?_) hfork fun x hx => ?_
  · rcases h.base.freed _ hf with hf | ⟨hf, -⟩ <;> rw [hready] at hf <;> cases hf
  · have hpending : k.Pending x k.current := by
      rcases eq_or_ne x k.current with rfl | hne
      · rw [set_proc_self] at hx
        exact hfork.pending _ hx
      · rw [set_proc_of_ne hne] at hx
        exact (h.base.fork x).pending _ hx
    have hphase := hpending.phase
    rw [hready] at hphase
    cases hphase

theorem Kernel.Busy.kont_setCur (h : k.Busy s₀ strict a) (hpid : P.pid = k.cur.pid) (hphase : P.phase ≠ .sending)
    (hstop : strict → k.Awaits p k.current → P.phase ≠ .stopped) (hp : p ≠ k.current) :
    (k.setCur P).KontOk strict p ((k.setCur P).proc p).kont := by
  rw [Kernel.setCur, set_proc_of_ne hp]
  exact (h.kont p hp).set hp hpid (h.setCur_linked hphase) fun hs ha _ => hstop hs ha

theorem Kernel.Busy.setCur (h : k.Busy s₀ strict a) (hpid : P.pid = k.cur.pid) (hqueue : P.waitProc = k.cur.waitProc)
    (halarm : P.alarm = k.cur.alarm) (hphase : P.phase = k.cur.phase) (hintr : P.hasIntr = k.cur.hasIntr)
    (hfork : k.Forking k.current P.kont) : (k.setCur P).Busy s₀ strict a := by
  have hready : P.phase = .ready := hphase.trans h.ready
  refine ⟨h.base_setCur hpid hqueue halarm (by rw [hready]; decide) hfork, fun p hp => ?_, ?_, h.user, ?_⟩
  · exact h.kont_setCur hpid (by rw [hready]; decide) (fun _ _ => by rw [hready]; decide) hp
  · rw [setCur_cur]
    exact hready
  · rw [Kernel.setCur, protocol_set hintr, set_current, set_set]
    exact h.trace

theorem Kernel.Busy.inv (h : k.Busy s₀ strict a) (hkont : k.KontOk strict k.current k.cur.kont)
    (hstatus : k.cur.status = a) : k.Inv s₀ strict where
  base := h.base
  kont p := by
    rcases eq_or_ne p k.current with rfl | hne
    · exact hkont
    · exact h.kont p hne
  ready := h.ready
  trace := by
    have hset : k.protocol.set k.current a = k.protocol :=
      congrArg (State.mk · _) (by rw [← hstatus]; exact Function.update_eq_self k.current _)
    rw [← hset]
    exact h.trace

theorem Kernel.Busy.inv_of_user (h : k.Busy s₀ strict .ready) (hkont : k.cur.kont = .user) : k.Inv s₀ strict :=
  h.inv (by rw [hkont]; exact Or.inl h.ready) (by rw [Proc.status, hkont])

theorem Kernel.Busy.inv_toUser (h : k.Busy s₀ strict .ready) : (toUser k).Inv s₀ strict := by
  have hbusy := h.setCur (P := { k.cur with kont := .user }) rfl rfl rfl rfl rfl (.of_none rfl)
  exact hbusy.inv_of_user (by rw [setCur_cur])

theorem Kernel.Busy.block {wait : Int} {kont : Kont} (h : k.Busy s₀ strict a)
    (hkont : (k.setCur { k.cur with wait := wait, state := .receiving, kont := kont }).KontOk strict k.current kont)
    (hstatus : ({ k.cur with wait := wait, state := .receiving, kont := kont } : Proc).status = a)
    (hfork : k.Forking k.current kont) : (blockReceiving k wait kont).Inv s₀ strict := by
  apply inv_schedule
  case hbase => exact h.base_setCur rfl rfl rfl nofun hfork
  case hkont =>
    intro p
    rcases eq_or_ne p k.current with rfl | hne
    · rw [Kernel.setCur, set_proc_self]
      exact hkont
    · exact h.kont_setCur rfl nofun (fun _ _ => nofun) hne
  case htrace =>
    rw [Kernel.setCur, protocol_set (P := { k.cur with wait := wait, state := .receiving, kont := kont }) rfl, hstatus]
    exact h.trace

end FengOS.Core
