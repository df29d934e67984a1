import FengOS.Core.Wait
import FengOS.Core.Lemmas.Boot

/-!
# Children that have exited, in every run
-/

namespace FengOS.Core

open FengOS.Lib FengOS.Lib.Rendezvous

variable {strict : Prop} {k k' k'' : Kernel} {n p q c child source dest : Nat} {P : Proc} {dst src : Int}
  {msg m : Message} {flow : Flow} {s₀ : State Nat Message} {a : Status Nat Message}

/-! ## Steps that leave the children -/

/-- Children, signals and exited processes are the same, and nobody is woken in `do_wait`. -/
structure Kernel.Family (k' k : Kernel) : Prop where
  children : ∀ p, (k'.proc p).children = (k.proc p).children
  parent : ∀ p, (k'.proc p).parent = (k.proc p).parent
  signal : ∀ p, (k'.proc p).signal = (k.proc p).signal
  stopped : ∀ p, (k'.proc p).phase = .stopped ↔ (k.proc p).phase = .stopped
  woken : ∀ p, (k'.proc p).Woken → (k.proc p).Woken
  alive : k'.alive = k.alive
  nextProc : k'.nextProc = k.nextProc

theorem Kernel.Family.refl (k : Kernel) : k.Family k :=
  ⟨fun _ => rfl, fun _ => rfl, fun _ => rfl, fun _ => .rfl, fun _ => id, rfl, rfl⟩

theorem Kernel.Family.trans (h : k''.Family k') (h' : k'.Family k) : k''.Family k where
  children p := (h.children p).trans (h'.children p)
  parent p := (h.parent p).trans (h'.parent p)
  signal p := (h.signal p).trans (h'.signal p)
  stopped p := (h.stopped p).trans (h'.stopped p)
  woken p hp := h'.woken p (h.woken p hp)
  alive := h.alive.trans h'.alive
  nextProc := h.nextProc.trans h'.nextProc

theorem Kernel.Family.set (h : k'.Family k) (hchildren : P.children = (k'.proc p).children)
    (hparent : P.parent = (k'.proc p).parent) (hsignal : P.signal = (k'.proc p).signal)
    (hstopped : P.phase = .stopped ↔ (k'.proc p).phase = .stopped) (hwoken : P.Woken → (k'.proc p).Woken) :
    (k'.set p P).Family k := by
  have hset : (k'.set p P).Family k' := by
    refine ⟨set_field _ hchildren, set_field _ hparent, set_field _ hsignal, fun q => ?_, fun q => ?_, rfl, rfl⟩
    · rcases eq_or_ne q p with rfl | hne
      · simpa using hstopped
      · simp [hne]
    · rcases eq_or_ne q p with rfl | hne
      · simpa using hwoken
      · simp [hne]
  exact hset.trans h

theorem Kernel.Family.set_same (h : k'.Family k) (hchildren : P.children = (k'.proc p).children)
    (hparent : P.parent = (k'.proc p).parent) (hsignal : P.signal = (k'.proc p).signal)
    (hphase : P.phase = (k'.proc p).phase) (hkont : P.kont = (k'.proc p).kont) : (k'.set p P).Family k := by
  apply h.set hchildren hparent hsignal
  · rw [hphase]
  · rw [Proc.Woken, Proc.Woken, hphase, hkont]
    exact id

theorem Kernel.Family.emit {e : Event Nat Message} (h : k'.Family k) : (k'.emit e).Family k where
  __ := h

theorem toUser_family (k : Kernel) : (toUser k).Family k := .set (.refl k) rfl rfl rfl .rfl fun hw => nomatch hw.1

theorem Kernel.Family.zombie (h : k'.Family k) : k'.Zombie p ↔ k.Zombie p := by
  rw [Kernel.Zombie, Kernel.Zombie, h.alive, h.stopped]

theorem Kernel.Nursery.family (hn : k.Nursery n) (h : k'.Family k) : k'.Nursery n where
  owned p c := by
    rw [h.children, h.parent, h.nextProc]
    exact hn.owned p c
  listed p c := by
    rw [h.children, h.parent, h.alive]
    exact hn.listed p c
  boot p c := by
    rw [h.parent]
    exact hn.boot p c
  parent p c := by
    rw [h.parent, h.alive, h.nextProc]
    exact hn.parent p c
  told p c := by
    rw [h.children, h.zombie, h.signal]
    exact hn.told p c
  zombie p := by
    simp only [h.children, h.zombie, h.signal]
    exact hn.zombie p
  woken p hp := by
    rw [h.signal]
    exact hn.woken p (h.woken p hp)
  bound := by
    rw [h.nextProc]
    exact hn.bound

/-! ## The scheduler -/

theorem Kernel.Alike.family (h : k'.Alike k) (hchildren : ∀ p, (k'.proc p).children = (k.proc p).children) :
    k'.Family k where
  children := hchildren
  parent p := (h.proc p).parent
  signal p := (h.proc p).signal
  stopped p := by rw [(h.proc p).phase]
  woken p := by
    rw [Proc.Woken, Proc.Woken, (h.proc p).phase, (h.proc p).kont]
    exact id
  alive := h.alive
  nextProc := h.nextProc

theorem yieldCur_children (k : Kernel) (p : Nat) : ((yieldCur k).proc p).children = (k.proc p).children := by
  unfold yieldCur
  dsimp only
  split
  · refine set_field Proc.children ?_ p
    rfl
  · show ((k.setCur _).proc p).children = _
    refine set_field Proc.children ?_ p
    rfl

theorem pickNext_children (k : Kernel) (p : Nat) : ((pickNext k).proc p).children = (k.proc p).children := by
  unfold pickNext
  split
  · show ((k.set _ _).proc p).children = _
    refine set_field Proc.children ?_ p
    rfl
  · rfl

theorem schedule_family (k : Kernel) : (schedule k).Family k :=
  (schedule_alike k).family fun p => (pickNext_children _ p).trans (yieldCur_children k p)

theorem Kernel.Family.schedule (h : k'.Family k) : (schedule k').Family k :=
  (schedule_family k').trans h

/-! ## Messages -/

def Kernel.WaitOk (k : Kernel) : Prop :=
  ∀ p, (k.proc p).kont = .wait →
    (k.proc p).phase = .ready ∨ (k.proc p).phase = .receiving ∧ (k.proc p).wait = ipcSignal

theorem Kernel.Inv.waitOk (h : k.Inv s₀ strict) : k.WaitOk := by
  intro p hp
  have hok := h.kont p
  rw [hp] at hok
  exact hok.imp_right fun hr => ⟨hr.1, hr.2.1⟩

theorem Kernel.Busy.waitOk (h : k.Busy s₀ strict a) : k.WaitOk := by
  intro p hp
  rcases eq_or_ne p k.current with rfl | hne
  · exact Or.inl h.ready
  · have hok := h.kont p hne
    rw [hp] at hok
    exact hok.imp_right fun hr => ⟨hr.1, hr.2.1⟩

theorem Kernel.WaitOk.set (h : k.WaitOk)
    (hP : P.kont = .wait → P.phase = .ready ∨ P.phase = .receiving ∧ P.wait = ipcSignal) : (k.set p P).WaitOk := by
  intro q
  rcases eq_or_ne q p with rfl | hne
  · simpa using hP
  · simpa [hne] using h q

theorem Kernel.WaitOk.not_sending (h : k.WaitOk) (hp : (k.proc p).kont = .wait) : (k.proc p).phase ≠ .sending := by
  rcases h p hp with hphase | ⟨hphase, -⟩ <;> simp [hphase]

theorem Kernel.Family.wakeReceiver {waits : List Int} (h : k'.Family k) (hw : k'.WaitOk) (hs : ipcSignal ∉ waits) :
    (wakeReceiver k' dest waits).Family k := by
  rcases wakeReceiver_cases k' dest waits with he | ⟨hphase, hwait, he⟩
  · rw [he]
    exact h
  · rw [he]
    refine .set h rfl rfl rfl ⟨nofun, fun hstop => ?_⟩ fun hwoken => ?_
    · simp [hphase] at hstop
    · rcases hw dest hwoken.1 with hready | ⟨-, hsig⟩
      · simp [hphase] at hready
      · exact absurd (hsig ▸ hwait) hs

theorem sendIntr_family (h : k.WaitOk) : (sendIntr k dest).Family k := by
  have hset : (k.set dest { k.proc dest with hasIntr := true }).Family k := .set_same (.refl k) rfl rfl rfl rfl rfl
  have hok : (k.set dest { k.proc dest with hasIntr := true }).WaitOk := h.set (h dest)
  exact .wakeReceiver (.emit hset) hok (by decide)

def Flow.kernel : Flow → Kernel
  | .switched k => k
  | .returned k _ => k

theorem takeIntr_family : (takeIntr k msg).kernel.Family k := .emit (.set_same (.refl k) rfl rfl rfl rfl rfl)

section Busy

variable (hb : k.Busy s₀ strict a)

include hb

theorem Kernel.Busy.block_family {wait : Int} {kont : Kont} (hkont : kont ≠ .wait) : (blockReceiving k wait kont).Family k :=
  .schedule (.set (.refl k) rfl rfl rfl ⟨nofun, fun hs => nomatch hs.symm.trans hb.ready⟩ fun hw => absurd hw.1 hkont)

theorem Kernel.Busy.enqueue_family {caller : SendCaller} : (enqueue k dest dst msg caller).Family k :=
  .emit (.set_same (.set (.refl k) rfl rfl rfl ⟨nofun, fun hs => nomatch hs.symm.trans hb.ready⟩ fun hw => nomatch hw.1)
    rfl rfl rfl rfl rfl)

theorem Kernel.Busy.doSend_family {caller : SendCaller} (hs : doSend k dst msg caller = .ok flow) :
    flow.kernel.Family k := by
  obtain ⟨dest, -, hs⟩ := bind_eq_ok hs
  split at hs
  · cases hs
    exact sendIntr_family hb.waitOk
  · cases hs
    have hpid : (enqueue k dest dst msg caller).cur.pid ≠ ipcSignal := by
      have hcur : (enqueue k dest dst msg caller).cur.pid = k.cur.pid := enqueue_pid k.current
      rw [hcur]
      exact Int.ne_of_lt (hb.base.pid_lt_signal k.current)
    have hsent := hb.waitOk.set (p := k.current)
      (P := { k.cur with msg := msg, wait := dst, state := .sending, kont := .send dest msg caller }) nofun
    have hok : (enqueue k dest dst msg caller).WaitOk := Kernel.WaitOk.set hsent (hsent dest)
    refine .schedule (.wakeReceiver hb.enqueue_family hok ?_)
    simpa [hpid.symm] using (by decide : ipcSignal ≠ ipcAll)

theorem Kernel.Busy.copyMessage_family (hl : k.Linked source k.current) : (copyMessage k source).Family k := by
  have hcases := copyMessage_proc_cases (k := k) (Q := fun q P => P.children = (k.proc q).children ∧
    P.parent = (k.proc q).parent ∧ P.signal = (k.proc q).signal ∧
    (P.phase = .stopped ↔ (k.proc q).phase = .stopped) ∧ (P.Woken → (k.proc q).Woken)) (hb.ne_of_linked hl)
    ⟨rfl, rfl, rfl, .rfl, id⟩
    ⟨rfl, rfl, rfl, ⟨nofun, fun hs => nomatch hs.symm.trans hl.1⟩, fun hw => absurd hl.1 (hb.waitOk.not_sending hw.1)⟩
    (fun _ _ _ => ⟨rfl, rfl, rfl, .rfl, id⟩)
  exact ⟨fun p => (hcases p).1, fun p => (hcases p).2.1, fun p => (hcases p).2.2.1, fun p => (hcases p).2.2.2.1,
    fun p => (hcases p).2.2.2.2, rfl, rfl⟩

theorem Kernel.Busy.linked_of_mem (h : source ∈ k.cur.waitProc) : k.Linked source k.current := by
  by_contra hl
  exact hb.base.unlinked source k.current hl h

theorem Kernel.Busy.recvAll_family {caller : RecvCaller} (hr : recvAll k msg caller = .ok flow) : flow.kernel.Family k := by
  rcases recvAll_cases hr with rfl | ⟨source, hs, rfl⟩ | ⟨_, _, rfl, hkont⟩
  · exact takeIntr_family
  · exact hb.copyMessage_family (hb.linked_of_mem hs)
  · exact hb.block_family hkont

theorem Kernel.Busy.doRecv_family {caller : RecvCaller} (hr : doRecv k src msg caller = .ok flow) :
    flow.kernel.Family k := by
  rcases doRecv_cases hr with ⟨rfl, -⟩ | ⟨source, rfl, hs⟩ | ⟨_, _, rfl, hkont⟩
  · exact takeIntr_family
  · refine hb.copyMessage_family ?_
    rcases hs with ⟨-, hs⟩ | ⟨-, hs⟩
    · exact hb.linked_of_mem hs
    · exact hb.linked_iff.mpr hs
  · exact hb.block_family hkont

theorem Kernel.Busy.doSendrecv_family {caller : RpcCaller} (hr : doSendrecv k dst msg caller = .ok flow)
    (hsrc : msg.src ≠ ipcIntr) : flow.kernel.Family k := by
  obtain ⟨flow', hs, hr⟩ := bind_eq_ok hr
  have hfamily := hb.doSend_family hs
  obtain ⟨k', rfl⟩ := doSend_switched hs hsrc
  cases hr
  exact hfamily

end Busy

/-! ## Exit -/

theorem sendSignal_signal (k : Kernel) (p : Nat) (signal : Int) (q : Nat) :
    ((sendSignal k p signal).proc q).signal = if q = p then signal else (k.proc q).signal := by
  obtain ⟨state, hq⟩ := wakeReceiver_proc (k.set p { k.proc p with signal := signal }) p [ipcSignal] q
  rw [sendSignal, hq]
  rcases eq_or_ne q p with rfl | hne
  · simp
  · simp [hne]

theorem sendSignal_phase (k : Kernel) (p : Nat) (signal : Int) : ((sendSignal k p signal).proc q).phase = (k.proc q).phase ∨
      q = p ∧ (k.proc q).phase = .receiving ∧ ((sendSignal k p signal).proc q).phase = .ready := by
  have hphase : ((k.set p { k.proc p with signal := signal }).proc q).phase = (k.proc q).phase := by
    refine set_field Proc.phase ?_ q
    rfl
  unfold sendSignal
  rcases wakeReceiver_cases (k.set p { k.proc p with signal := signal }) p [ipcSignal] with he | ⟨hrecv, -, he⟩
  · rw [he]
    exact Or.inl hphase
  · rw [he]
    rcases eq_or_ne q p with rfl | hne
    · rw [set_proc_self, ← hphase]
      exact Or.inr ⟨rfl, hrecv, rfl⟩
    · rw [set_proc_of_ne hne]
      exact Or.inl hphase

theorem sendSignal_kont (k : Kernel) (p : Nat) (signal : Int) (q : Nat) :
    ((sendSignal k p signal).proc q).kont = (k.proc q).kont := by
  refine (wakeReceiver_kont ..).trans (set_field Proc.kont ?_ q)
  rfl

structure Kernel.Exited (k' k : Kernel) (parent : Nat) : Prop where
  kept : k'.Kept k
  signal : ∀ q, (k'.proc q).signal = if q = parent then sigchld else (k.proc q).signal
  stopped : ∀ q, (k'.proc q).phase = .stopped ↔ q = k.current ∨ (k.proc q).phase = .stopped
  woken : ∀ q, (k'.proc q).Woken → q = parent ∨ (k.proc q).Woken

theorem exited_stop (k : Kernel) (p : Nat) : ((sendSignal k p sigchld).setCur
    { (sendSignal k p sigchld).cur with state := .stopped, kont := .dead }).Exited k p := by
  have hcur : (sendSignal k p sigchld).current = k.current := wakeReceiver_current ..
  refine ⟨.set (.sendSignal (.refl k)) rfl rfl rfl, fun q => ?_, fun q => ?_, fun q => ?_⟩
  · rw [← sendSignal_signal]
    refine set_field Proc.signal ?_ q
    rfl
  · rcases eq_or_ne q k.current with rfl | hne
    · simp [Kernel.setCur, hcur, Proc.phase, ProcState.phase]
    · rw [Kernel.setCur, hcur, set_proc_of_ne hne]
      rcases sendSignal_phase (q := q) k p sigchld with he | ⟨-, hrecv, hready⟩
      · simp [he, hne]
      · simp [hrecv, hready, hne]
  · rcases eq_or_ne q k.current with rfl | hne
    · rw [Kernel.setCur, hcur, set_proc_self]
      exact fun hw => by cases hw.1
    · rw [Kernel.setCur, hcur, set_proc_of_ne hne, Proc.Woken, Proc.Woken, sendSignal_kont]
      rcases sendSignal_phase (q := q) k p sigchld with he | ⟨hq, -⟩
      · rw [he]
        exact Or.inr
      · exact fun _ => Or.inl hq

theorem Kernel.Exited.zombie (h : k'.Exited k p) : k'.Zombie q ↔ k.alive q = true ∧ q = k.current ∨ k.Zombie q := by
  rw [Kernel.Zombie, Kernel.Zombie, h.stopped, h.kept.alive]
  exact and_or_left

theorem Kernel.Nursery.exited (hn : k.Nursery n) (h : k'.Exited k p) (hparent : k.cur.parent = some p)
    (halive : k.alive k.current = true) : k'.Nursery n where
  owned q c := by
    rw [h.kept.children, h.kept.parent, h.kept.nextProc]
    exact hn.owned q c
  listed q c := by
    rw [h.kept.children, h.kept.parent, h.kept.alive]
    exact hn.listed q c
  boot q c := by
    rw [h.kept.parent]
    exact hn.boot q c
  parent q c := by
    rw [h.kept.parent, h.kept.alive, h.kept.nextProc]
    exact hn.parent q c
  told q c := by
    rw [h.kept.children, h.zombie, h.signal]
    rintro hc (⟨-, rfl⟩ | hz)
    · have hq : q = p := Option.some.inj ((hn.owned q _ hc).2.2.symm.trans hparent)
      rw [if_pos hq]
    · split
      · rfl
      · exact hn.told q c hc hz
  zombie q h₀ := by
    simp only [h.kept.children, h.zombie, h.signal]
    split
    · rename_i hq
      intro _
      subst hq
      have hcreated : n ≤ k.current := by
        by_contra hlt
        exact h₀ (hn.boot q _ (Nat.lt_of_not_le hlt) hparent)
      exact ⟨k.current, hn.listed q _ hcreated halive hparent, Or.inl ⟨halive, rfl⟩⟩
    · intro hs
      obtain ⟨c, hc, hz⟩ := hn.zombie q h₀ hs
      exact ⟨c, hc, Or.inr hz⟩
  woken q hw := by
    rw [h.signal]
    split
    · rfl
    · rename_i hq
      exact hn.woken q ((h.woken q hw).resolve_left hq)
  bound := by
    rw [h.kept.nextProc]
    exact hn.bound

theorem Kernel.Nursery.nursery_exitTail {status : BitVec 32} (hn : k.Nursery n) (hx : exitTail k status = .ok k')
    (halive : k.alive k.current = true) : k'.Nursery n := by
  have hset : (k.setCur { k.cur with exitStatus := status }).Family k := .set_same (.refl k) rfl rfl rfl rfl rfl
  unfold exitTail at hx
  dsimp only at hx
  split at hx
  · cases hx
  · rename_i parent hparent
    obtain ⟨⟨⟩, -, hx⟩ := bind_eq_ok hx
    cases hx
    exact ((hn.family hset).exited (exited_stop _ parent) hparent halive).family (schedule_family _)

/-! ## Wait -/

theorem Kernel.Nursery.nursery_blockWait (hn : k.Nursery n) (hb : k.Busy s₀ strict a) :
    (blockReceiving k ipcSignal .wait).Nursery n := by
  refine hn.family (.schedule (.set (.refl k) rfl rfl rfl ⟨nofun, fun hs => nomatch hs.symm.trans hb.ready⟩ fun hw => ?_))
  exact nomatch hw.2

theorem phase_eq_stopped : P.phase = .stopped ↔ P.state = .stopped := by
  rw [Proc.phase]
  cases P.state <;> simp [ProcState.phase]

theorem exists_findStopped {ps : List Nat} (hz : ∃ c ∈ ps, k.Zombie c)
    (ha : ∀ d ∈ ps.takeWhile fun c => ¬ k.Zombie c, k.alive d = true) :
    ∃ c ∈ ps, k.Zombie c ∧ findStopped k ps = .ok (some c) := by
  induction ps with
  | nil => simp at hz
  | cons p ps ih =>
    by_cases hp : k.Zombie p
    · refine ⟨p, List.mem_cons_self, hp, ?_⟩
      unfold findStopped
      rw [Kernel.deref, if_pos hp.1]
      exact if_pos (phase_eq_stopped.mp hp.2)
    · obtain ⟨hpa, hps⟩ : k.alive p = true ∧ ∀ d ∈ ps.takeWhile fun c => ¬ k.Zombie c, k.alive d = true := by
        simpa [hp] using ha
      have hrun : (k.proc p).state ≠ .stopped := fun hs => hp ⟨hpa, phase_eq_stopped.mpr hs⟩
      obtain ⟨c, hc, hzc, hfind⟩ := ih (by simpa [hp] using hz) hps
      refine ⟨c, List.mem_cons_of_mem p hc, hzc, ?_⟩
      unfold findStopped
      rw [Kernel.deref, if_pos hpa]
      exact (if_neg hrun).trans hfind

theorem setCur_signal_zombie {signal : Int} : (k.setCur { k.cur with signal := signal }).Zombie c ↔ k.Zombie c := by
  have hphase : ((k.setCur { k.cur with signal := signal }).proc c).phase = (k.proc c).phase := by
    refine set_field Proc.phase ?_ c
    rfl
  rw [Kernel.Zombie, Kernel.Zombie, hphase]
  rfl

theorem Kernel.Nursery.exists_findStopped (hn : k.Nursery n) (h₀ : k.current ≠ 0) (hs : k.cur.signal = sigchld)
    (hr : k.Reapable) : ∃ c ∈ k.cur.children, k.Zombie c ∧
      findStopped (k.setCur { k.cur with signal := 0 }) k.cur.children = .ok (some c) := by
  have hz : ∃ c ∈ k.cur.children, (k.setCur { k.cur with signal := 0 }).Zombie c := by
    simp only [setCur_signal_zombie]
    exact hn.zombie k.current h₀ hs
  have ha : ∀ d ∈ k.cur.children.takeWhile fun c => ¬ (k.setCur { k.cur with signal := 0 }).Zombie c,
      (k.setCur { k.cur with signal := 0 }).alive d = true := by
    simp only [setCur_signal_zombie]
    exact hr.2
  obtain ⟨c, hc, hzc, hfind⟩ := Core.exists_findStopped hz ha
  exact ⟨c, hc, setCur_signal_zombie.mp hzc, hfind⟩

structure Kernel.Reaped (k' k : Kernel) (child : Nat) : Prop where
  children : ∀ q, (k'.proc q).children = (k.proc q).children
  parent : ∀ q, (k'.proc q).parent = (k.proc q).parent
  signal : ∀ q, (k'.proc q).signal = if q = k.current then 0 else (k.proc q).signal
  phase : ∀ q, (k'.proc q).phase = (k.proc q).phase
  woken : ∀ q, (k'.proc q).Woken → q ≠ k.current ∧ (k.proc q).Woken
  alive : k'.alive = Function.update k.alive child false
  nextProc : k'.nextProc = k.nextProc

theorem reap_eq (h : reap k child = .ok k') : k'.proc = k.proc ∧ k'.current = k.current ∧
    k'.alive = Function.update k.alive child false ∧ k'.nextProc = k.nextProc := by
  obtain ⟨k₁, hunmap, h⟩ := bind_eq_ok h
  obtain ⟨o, -, hunmap⟩ := bind_eq_ok hunmap
  cases h
  cases o <;> cases hunmap <;> exact ⟨rfl, rfl, rfl, rfl⟩

theorem waitTail_reaped (h : waitTail k = .ok k') : ∃ child ∈ k.cur.children, k.Zombie child ∧ k'.Reaped k child := by
  obtain ⟨o, hfind, h⟩ := bind_eq_ok h
  cases o with
  | none => cases h
  | some child =>
    obtain ⟨k₁, hreap, h⟩ := bind_eq_ok h
    cases h
    obtain ⟨hmem, hstopped, halive⟩ := findStopped_some hfind
    obtain ⟨hproc, hcurrent, halive₁, hnext⟩ := reap_eq hreap
    rw [setCur_cur] at hmem
    refine ⟨child, hmem, setCur_signal_zombie.mp ⟨halive, phase_eq_stopped.mpr hstopped⟩, ?_⟩
    have hq : ∀ q, (toUser k₁).proc q =
        if q = k.current then { k.cur with signal := 0, kont := .user } else k.proc q := by
      intro q
      simp only [toUser, Kernel.setCur, Kernel.set, Kernel.cur, hproc, hcurrent, Function.update_apply]
      split <;> simp
    refine ⟨fun q => ?_, fun q => ?_, fun q => ?_, fun q => ?_, fun q => ?_, halive₁, hnext⟩ <;> rw [hq] <;> split
    case refine_5.isTrue => exact fun hw => by cases hw.1
    case refine_5.isFalse hne => exact fun hw => ⟨hne, hw⟩
    all_goals simp_all [Kernel.cur, Proc.phase]

theorem Kernel.Reaped.zombie (h : k'.Reaped k child) : k'.Zombie q ↔ q ≠ child ∧ k.Zombie q := by
  rw [Kernel.Zombie, Kernel.Zombie, h.phase, h.alive]
  rcases eq_or_ne q child with rfl | hne
  · simp
  · simp [hne]

theorem Kernel.Reaped.alive_of (h : k'.Reaped k child) (hq : k'.alive q = true) : k.alive q = true := by
  rw [h.alive] at hq
  rcases eq_or_ne q child with rfl | hne
  · simp at hq
  · simpa [hne] using hq

theorem Kernel.Nursery.reaped (hn : k.Nursery n) (h : k'.Reaped k child) (hc : child ∈ k.cur.children)
    (hz : k.Zombie child) (hr : k.Reapable) : k'.Nursery n where
  owned q c := by
    rw [h.children, h.parent, h.nextProc]
    exact hn.owned q c
  listed q c hnc ha := by
    rw [h.children, h.parent]
    exact hn.listed q c hnc (h.alive_of ha)
  boot q c := by
    rw [h.parent]
    exact hn.boot q c
  parent q c hnc ha := by
    rw [h.parent, h.nextProc]
    exact hn.parent q c hnc (h.alive_of ha)
  told q c := by
    rw [h.children, h.zombie, h.signal]
    rintro hcq ⟨hne, hzc⟩
    rcases eq_or_ne q k.current with rfl | hq
    · exact absurd (hr.1 c hcq child hc hzc hz) hne
    · rw [if_neg hq]
      exact hn.told q c hcq hzc
  zombie q h₀ := by
    simp only [h.children, h.zombie, h.signal]
    split
    · nofun
    · rename_i hq
      intro hs
      obtain ⟨c, hcq, hzc⟩ := hn.zombie q h₀ hs
      -- a process is on the list of its parent only
      have hne : c ≠ child := by
        rintro rfl
        exact hq (Option.some.inj ((hn.owned q c hcq).2.2.symm.trans (hn.owned _ c hc).2.2))
      exact ⟨c, hcq, hne, hzc⟩
  woken q hw := by
    obtain ⟨hq, hw⟩ := h.woken q hw
    rw [h.signal, if_neg hq]
    exact hn.woken q hw
  bound := by
    rw [h.nextProc]
    exact hn.bound

theorem Kernel.Nursery.nursery_waitTail (hn : k.Nursery n) (hw : waitTail k = .ok k') (hr : k.Reapable) : k'.Nursery n := by
  obtain ⟨child, hc, hz, hreaped⟩ := waitTail_reaped hw
  exact hn.reaped hreaped hc hz hr

theorem Kernel.Nursery.nursery_doWait (hn : k.Nursery n) (hb : k.Busy s₀ strict a) (hw : doWait k = .ok k')
    (hr : k.cur.children ≠ [] → k.cur.signal = sigchld → k.Reapable) : k'.Nursery n := by
  unfold doWait at hw
  split at hw
  · cases hw
    exact hn.family (toUser_family k)
  · rename_i hchildren
    split at hw
    · cases hw
      exact hn.nursery_blockWait hb
    · rename_i hsignal
      exact hn.nursery_waitTail hw (hr hchildren (not_not.mp hsignal))

/-! ## Fork -/

theorem newProcLinked_old (hne : k.current ≠ k.nextProc) (hp : p ≠ k.nextProc) :
    ∃ children, (newProcLinked k).proc p = { k.proc p with children := children } ∧
      ∀ c, c ∈ children ↔ c ∈ (k.proc p).children ∨ p = k.current ∧ c = k.nextProc := by
  rcases eq_or_ne p k.current with rfl | hc
  · refine ⟨_, newProcLinked_proc_current hne, fun c => ?_⟩
    rw [List.mem_cons, or_comm]
    simp [Kernel.cur]
  · exact ⟨(k.proc p).children, newProcLinked_proc_of_ne hc hp, fun c => by simp [hc]⟩

theorem Kernel.Base.newProcLinked_zombie (hb : k.Base) (hne : k.current ≠ k.nextProc) :
    (newProcLinked k).Zombie c ↔ k.Zombie c := by
  rcases eq_or_ne c k.nextProc with rfl | hc
  · have hdead : k.alive k.nextProc ≠ true := fun ha => absurd (hb.alive_lt _ ha) (Nat.lt_irrefl _)
    simp [Kernel.Zombie, newProcLinked_proc_child hne, hdead, Proc.phase, Proc.forked, ProcState.phase]
  · obtain ⟨children, he, -⟩ := newProcLinked_old hne hc
    have halive : (newProcLinked k).alive c = k.alive c := Function.update_of_ne hc ..
    rw [Kernel.Zombie, Kernel.Zombie, he, halive]
    rfl

theorem mem_newProcLinked_children (hne : k.current ≠ k.nextProc) (hc : c ∈ ((newProcLinked k).proc p).children) :
    p ≠ k.nextProc ∧ (c ∈ (k.proc p).children ∨ p = k.current ∧ c = k.nextProc) := by
  rcases eq_or_ne p k.nextProc with rfl | hp
  · rw [newProcLinked_proc_child hne] at hc
    cases hc
  · obtain ⟨children, he, hmem⟩ := newProcLinked_old hne hp
    rw [he] at hc
    exact ⟨hp, (hmem c).mp hc⟩

theorem Kernel.Nursery.newProcLinked_nursery (hn : k.Nursery n) (hb : k.Base) (h : k.current < k.nextProc) :
    (newProcLinked k).Nursery n := by
  have hne : k.current ≠ k.nextProc := Nat.ne_of_lt h
  have halive : ∀ {c}, c ≠ k.nextProc → (newProcLinked k).alive c = k.alive c := fun hc => Function.update_of_ne hc ..
  have hdead : ¬ k.Zombie k.nextProc := fun hz => absurd (hb.alive_lt _ hz.1) (Nat.lt_irrefl _)
  constructor
  case owned =>
    intro p c hc
    obtain ⟨-, hc | ⟨rfl, rfl⟩⟩ := mem_newProcLinked_children hne hc
    · obtain ⟨hnc, hlt, hp⟩ := hn.owned p c hc
      rw [newProcLinked_parent hne (Nat.ne_of_lt hlt)]
      exact ⟨hnc, Nat.lt_succ_of_lt hlt, hp⟩
    · rw [newProcLinked_proc_child hne]
      exact ⟨hn.bound, Nat.lt_succ_self _, rfl⟩
  case listed =>
    intro p c hnc ha hp
    rcases eq_or_ne c k.nextProc with rfl | hc
    · rw [newProcLinked_proc_child hne] at hp
      cases hp
      rw [newProcLinked_proc_current hne]
      exact List.mem_cons_self
    · rw [newProcLinked_parent hne hc] at hp
      rw [halive hc] at ha
      obtain ⟨children, he, hmem⟩ := newProcLinked_old hne (Nat.ne_of_lt (hn.parent p c hnc ha hp))
      rw [he]
      exact (hmem c).mpr (Or.inl (hn.listed p c hnc ha hp))
  case boot =>
    intro p c hc
    rw [newProcLinked_parent hne (Nat.ne_of_lt (Nat.lt_of_lt_of_le hc hn.bound))]
    exact hn.boot p c hc
  case parent =>
    intro p c hnc ha hp
    rcases eq_or_ne c k.nextProc with rfl | hc
    · rw [newProcLinked_proc_child hne] at hp
      cases hp
      exact Nat.lt_succ_of_lt h
    · rw [newProcLinked_parent hne hc] at hp
      rw [halive hc] at ha
      exact Nat.lt_succ_of_lt (hn.parent p c hnc ha hp)
  case told =>
    intro p c hc hz
    rw [hb.newProcLinked_zombie hne] at hz
    obtain ⟨hp, hc | ⟨-, rfl⟩⟩ := mem_newProcLinked_children hne hc
    · obtain ⟨children, he, -⟩ := newProcLinked_old hne hp
      rw [he]
      exact hn.told p c hc hz
    · exact absurd hz hdead
  case zombie =>
    intro p h₀ hs
    rcases eq_or_ne p k.nextProc with rfl | hp
    · rw [newProcLinked_proc_child hne] at hs
      cases hs
    · obtain ⟨children, he, hmem⟩ := newProcLinked_old hne hp
      rw [he] at hs
      obtain ⟨c, hc, hz⟩ := hn.zombie p h₀ hs
      rw [he]
      exact ⟨c, (hmem c).mpr (Or.inl hc), (hb.newProcLinked_zombie hne).mpr hz⟩
  case woken =>
    intro p hw
    rcases eq_or_ne p k.nextProc with rfl | hp
    · rw [newProcLinked_proc_child hne] at hw
      cases hw.1
    · obtain ⟨children, he, -⟩ := newProcLinked_old hne hp
      rw [he] at hw ⊢
      exact hn.woken p hw
  case bound => exact Nat.le_succ_of_le hn.bound

theorem Kernel.Nursery.nursery_forkLink (hn : k.Nursery n) (hl : forkLink k child m = .ok k') (hret : m.retval = 0) :
    k'.Nursery n := by
  unfold forkLink at hl
  rw [if_neg (not_not.mpr hret)] at hl
  obtain ⟨k₁, hhash, hl⟩ := bind_eq_ok hl
  obtain ⟨i, -, hhash⟩ := bind_eq_ok hhash
  cases hhash
  cases hl
  have hfamily : { k with
      procHead := k.procHead ++ [child]
      hashMap := Function.update k.hashMap i (k.hashMap i ++ [child]) }.Family k :=
    { Kernel.Family.refl k with }
  exact hn.family (.set hfamily rfl rfl rfl .rfl fun hw => nomatch hw.1)

theorem Kernel.Nursery.nursery_doFork {env : Env} (hn : k.Nursery n) (hb : k.Busy s₀ strict a)
    (hf : doFork k env = .ok k') (hpid : k.globalPid + 1 < ipcSignal) (hpgd : env.pages = true → env.pgd = true) :
    k'.Nursery n := by
  unfold doFork at hf
  split at hf
  · cases hf
    exact hn.family (toUser_family k)
  rename_i hpages
  obtain ⟨⟨child, k₁⟩, hnew, hf⟩ := bind_eq_ok hf
  obtain ⟨hbusy, -⟩ := hb.busy_newProc hpid hnew
  obtain ⟨rfl, rfl⟩ := newProc_ok hnew hb.base.global.1 hpid
  have hpgd' : (!env.pgd) = false := by simpa using hpgd (by simpa using hpages)
  dsimp only at hf
  rw [hpgd'] at hf
  obtain ⟨flow, hrpc, hf⟩ := bind_eq_ok hf
  have hsrc := hbusy.base.pid_ne_intr (newProcLinked k).current
  have hfamily := hbusy.doSendrecv_family hrpc hsrc
  obtain ⟨k₂, rfl⟩ := doSendrecv_switched hrpc hsrc
  cases hf
  exact (hn.newProcLinked_nursery hb.base hb.lt).family hfamily

/-! ## Steps -/

theorem Kernel.Busy.alive_current (hb : k.Busy s₀ strict a) : k.alive k.current = true := by
  by_contra ha
  rcases hb.base.freed k.current (by simpa using ha) with hs | ⟨hs, -⟩ <;> cases hs.symm.trans hb.ready

theorem Kernel.Nursery.nursery_doExit {status : BitVec 32} {env : Env} (hn : k.Nursery n) (hb : k.Busy s₀ strict a)
    (hx : doExit k status env = .ok k') (hchildren : k.cur.children = []) : k'.Nursery n := by
  have hadopt : adopt k = .ok k := by
    unfold adopt
    rw [hchildren]
  obtain ⟨k₀, hadopt', hx⟩ := bind_eq_ok hx
  obtain rfl : k = k₀ := Except.ok.inj (hadopt.symm.trans hadopt')
  obtain ⟨flow, hrpc, hx⟩ := bind_eq_ok hx
  have hsrc := hb.base.pid_ne_intr k.current
  have hfamily := hb.doSendrecv_family hrpc hsrc
  obtain ⟨k₁, rfl⟩ := doSendrecv_switched hrpc hsrc
  cases hx
  exact hn.family hfamily

theorem Kernel.Nursery.nursery_recvReturn {caller : RecvCaller} (hn : k.Nursery n) (hfamily : flow.kernel.Family k)
    (hr : recvReturn caller flow = .ok k')
    (hexit : ∀ status k₁ m, caller = .rpc (.exit status) → flow = .returned k₁ m → k₁.alive k₁.current = true)
    (hfork : ∀ child k₁ m, caller = .rpc (.fork child) → flow = .returned k₁ m → m.retval = 0) : k'.Nursery n := by
  have hn₁ := hn.family hfamily
  cases flow with
  | switched k₁ =>
    cases hr
    exact hn₁
  | returned k₁ m =>
    have hemit : (k₁.emit (.reply k₁.current m)).Nursery n := hn₁.family (.emit (.refl k₁))
    cases caller with
    | syscall =>
      cases hr
      exact hn₁.family (toUser_family k₁)
    | rpc caller =>
      cases caller with
      | syscall =>
        cases hr
        exact hemit.family (toUser_family _)
      | exit status => exact hemit.nursery_exitTail hr (hexit status k₁ m rfl rfl)
      | fork child => exact hemit.nursery_forkLink hr (hfork child k₁ m rfl rfl)

theorem Kernel.Nursery.nursery_call {call : Call} (hn : k.Nursery n) (hb : k.Busy s₀ strict a)
    (hc : Core.call k call = .ok k') (hpid : k.PidLeft (.call call)) (ht : k.Timely (.call call)) : k'.Nursery n := by
  have hsrc := hb.base.pid_ne_intr k.current
  cases call with
  | send dst msg =>
    obtain ⟨flow, hsend, hc⟩ := bind_eq_ok hc
    have hfamily := hb.doSend_family hsend
    obtain ⟨k₁, rfl⟩ := doSend_switched hsend hsrc
    cases hc
    exact hn.family hfamily
  | recv src msg =>
    obtain ⟨flow, hrecv, hc⟩ := bind_eq_ok hc
    exact hn.nursery_recvReturn (hb.doRecv_family hrecv) hc nofun nofun
  | sendrecv dst msg =>
    obtain ⟨flow, hrpc, hc⟩ := bind_eq_ok hc
    exact hn.nursery_recvReturn (hb.doSendrecv_family hrpc hsrc) hc nofun nofun
  | registerIrq vector =>
    cases hc
    unfold registerIrq
    split
    · exact { hn with }
    · exact hn
  | unregisterIrq vector =>
    cases hc
    unfold unregisterIrq
    split
    · exact { hn with }
    · exact hn
  | exit status env => exact hn.nursery_doExit hb hc ht
  | wait => exact hn.nursery_doWait hb hc ht
  | fork env => exact hn.nursery_doFork hb hc hpid fun hpages => (ht hpages).2
  | other =>
    cases hc
    exact hn

theorem Kernel.Inv.busy_sent {caller : SendCaller} (h : k.Inv s₀ strict) (hk : k.cur.kont = .send dest msg caller) :
    ∃ a, (k.emit (.sent k.current)).Busy s₀ strict a := by
  have hbusy := h.busy (h.current_ne (by simp [hk]))
  have hstatus : k.cur.status = .copied dest (caller ≠ .syscall) := by
    rw [Proc.status, hk]
    exact if_neg (by simp [h.ready])
  rw [hstatus] at hbusy
  exact ⟨_, hbusy.sent⟩

theorem Kernel.Nursery.nursery_resume (hn : k.Nursery n) (hi : k.Inv s₀ strict) (hr : resume k = .ok k')
    (hne : k.cur.kont ≠ .user) (ht : k.Timely .resume) : k'.Nursery n := by
  have hb := hi.busy (hi.current_ne hne)
  have hok : k.KontOk strict k.current k.cur.kont := hi.kont k.current
  have hfork : k.Forking k.current k.cur.kont := hi.base.fork k.current
  unfold Kernel.Timely at ht
  unfold resume at hr
  generalize hkont : k.cur.kont = kont at hr hne ht hok hfork
  cases kont with
  | user => exact absurd rfl hne
  | send dest msg caller =>
    have hemit : (k.emit (.sent k.current)).Nursery n := hn.family (.emit (.refl k))
    cases caller with
    | syscall =>
      cases hr
      exact hemit.family (toUser_family _)
    | rpc dst caller =>
      obtain ⟨flow, hrecv, hr⟩ := bind_eq_ok hr
      obtain ⟨-, hdst, -⟩ := hok
      obtain ⟨a, hsent⟩ := hi.busy_sent hkont
      apply hemit.nursery_recvReturn (hsent.doRecv_family hrecv) hr
      · rintro status k₁ m - rfl
        obtain ⟨source, rfl, -⟩ := hb.answer_of_doRecv hrecv (hdst dst _ rfl)
        exact hb.alive_current
      · rintro child k₁ m ⟨⟩ rfl
        obtain ⟨source, rfl, hmem, hl, rfl⟩ := hb.answer_of_doRecv hrecv (hdst dst _ rfl)
        exact ht source hmem hl
  | recvAll msg caller =>
    obtain ⟨rfl, -⟩ := hok
    obtain ⟨flow, hall, hr⟩ := bind_eq_ok hr
    exact hn.nursery_recvReturn (hb.recvAll_family hall) hr nofun nofun
  | recvIntr msg caller =>
    obtain ⟨rfl, -⟩ := hok
    exact hn.nursery_recvReturn takeIntr_family hr nofun nofun
  | recvFrom source msg caller =>
    obtain ⟨flow, htake, hr⟩ := bind_eq_ok hr
    obtain rfl := takeMessage_ok htake
    obtain ⟨-, ⟨-, hl⟩ | ⟨hphase, -⟩⟩ := hok
    · have hfamily : (Flow.returned (copyMessage k source) (k.proc source).msg).kernel.Family k :=
        hb.copyMessage_family hl
      apply hn.nursery_recvReturn hfamily hr
      · rintro status k₁ m - ⟨⟩
        exact hb.alive_current
      · rintro child k₁ m rfl ⟨⟩
        exact ht
    · cases hphase.symm.trans hi.ready
  | wait => exact hn.nursery_waitTail hr ht
  | forkTail child =>
    cases hr
    have hpending := hfork.pending child rfl
    have hset : (k.set child { k.proc child with state := .runnable }).Family k := by
      refine .set (.refl k) rfl rfl rfl ⟨nofun, fun hs => ?_⟩ fun hw => ?_
      · cases hs.symm.trans hpending.phase
      · cases hw.1.symm.trans hpending.kont
    exact (hn.family hset).family (toUser_family _)
  | dead => cases hr

theorem Kernel.Nursery.nursery_retFromInt (hn : k.Nursery n) : (retFromInt k).Nursery n := by
  unfold retFromInt
  split
  · exact hn.family (schedule_family k)
  · exact hn

theorem Kernel.Nursery.nursery_hwint {ind : Nat} (hn : k.Nursery n) (hw : k.WaitOk) (hi : hwint k ind = .ok k') :
    k'.Nursery n := by
  unfold hwint at hi
  split at hi
  · cases hi
    exact hn.nursery_retFromInt
  · obtain ⟨flow, hsend, hi⟩ := bind_eq_ok hi
    obtain ⟨dest, -, rfl⟩ := doSend_intr hsend rfl
    cases hi
    exact (hn.family (sendIntr_family hw)).nursery_retFromInt

theorem Kernel.Nursery.step {a : Action} (hn : k.Nursery n) (hi : k.Inv s₀ strict) (hstep : k.step a = some k')
    (hpid : k.PidLeft a) (ht : k.Timely a) : k'.Nursery n := by
  obtain ⟨henabled, hact⟩ := step_ok hstep
  cases a with
  | call c =>
    have hen : k.cur.kont = .user ∧ k.current ≠ 0 := by simpa [Kernel.enabled] using henabled
    exact hn.nursery_call (hi.busy hen.2) hact hpid ht
  | timer =>
    cases hact
    unfold timer
    rw [updateAlarm_eq hi.base.alarm]
    exact Kernel.Nursery.nursery_retFromInt (hn.family (.set_same (.refl k) rfl rfl rfl rfl rfl))
  | hwint ind => exact hn.nursery_hwint hi.waitOk hact
  | signal p signal => exact ht.elim
  | resume =>
    have hen : k.cur.kont ≠ .user := by simpa [Kernel.enabled] using henabled
    exact hn.nursery_resume hi hact hen ht

end FengOS.Core
