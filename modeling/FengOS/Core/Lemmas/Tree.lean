import FengOS.Core.Lemmas.Table

/-!
# Exit, wait and fork
-/

namespace FengOS.Core

open FengOS.Lib.Rendezvous

variable {strict : Prop} {k k' : Kernel} {p q child : Nat} {msg : Message} {status : BitVec 32}
  {s₀ : State Nat Message} {a : Status Nat Message}

/-! ## `do_exit` -/

theorem adopt_alike (h : adopt k = .ok k') : k'.Alike k ∧ k'.current = k.current ∧ k'.log = k.log := by
  unfold adopt at h
  split at h
  · cases h
    exact ⟨.refl k, rfl, rfl⟩
  · cases h
  · obtain ⟨⟨⟩, -, h⟩ := bind_eq_ok h
    cases h
    exact ⟨Kernel.Alike.set ⟨rfl, rfl, rfl, rfl, rfl, rfl, rfl, rfl, rfl, rfl⟩, rfl, rfl⟩

theorem Kernel.Busy.stop (h : k.Busy s₀ strict .ready) (hquiet : strict → ∀ p, p ≠ k.current → ¬ k.Awaits p k.current) :
    (schedule (k.setCur { k.cur with state := .stopped, kont := .dead })).Inv s₀ strict := by
  apply inv_schedule
  case hbase => exact h.base_setCur rfl rfl rfl nofun (.of_none rfl)
  case hkont =>
    intro p
    rcases eq_or_ne p k.current with rfl | hne
    · rw [Kernel.setCur, set_proc_self]
      show ((k.set k.current _).proc k.current).phase = .stopped
      rw [set_proc_self]
      rfl
    · exact h.kont_setCur rfl nofun (fun hs ha => absurd ha (hquiet hs p hne)) hne
  case htrace =>
    rw [Kernel.setCur, protocol_set (P := { k.cur with state := .stopped, kont := .dead }) rfl]
    exact h.trace

theorem Kernel.Busy.inv_exitTail (h : k.Busy s₀ strict .ready) (hx : exitTail k status = .ok k')
    (hquiet : strict → ∀ p, p ≠ k.current → ¬ k.Awaits p k.current) : k'.Inv s₀ strict := by
  unfold exitTail at hx
  have hbusy := h.setCur (P := { k.cur with exitStatus := status }) rfl rfl rfl rfl rfl (h.base.fork k.current)
  have halike : (k.setCur { k.cur with exitStatus := status }).Alike k :=
    Kernel.Alike.set ⟨rfl, rfl, rfl, rfl, rfl, rfl, rfl, rfl, rfl, rfl⟩
  generalize hk₁ : k.setCur { k.cur with exitStatus := status } = k₁ at hx hbusy halike
  have hcur : k₁.current = k.current := by rw [← hk₁]; rfl
  dsimp only at hx
  split at hx
  · cases hx
  · rename_i parent hparent
    obtain ⟨⟨⟩, halive, hx⟩ := bind_eq_ok hx
    cases hx
    have hsignal := hbusy.busy_sendSignal (hbusy.base.alive_lt parent (deref_ok halive)) sigchld
    refine hsignal.stop fun hs p hp ha => ?_
    have hcur' : (sendSignal k₁ parent sigchld).current = k.current := (wakeReceiver_current ..).trans hcur
    rw [hcur'] at hp ha
    have ha₁ : k₁.Awaits p k.current := (sendSignal_noticed k₁ parent sigchld).awaits (wakeReceiver_awaits ha)
    exact hquiet hs p hp
      (awaits_of_phase ha₁ (Or.inl (halike.proc p).phase) (halike.proc p).wait (halike.proc _).pid)

theorem Kernel.Alike.livePid {pid : Int} (h : k'.Alike k) (hk : k.LivePid pid) : k'.LivePid pid := by
  obtain ⟨q, hq, hlive⟩ := hk
  exact ⟨q, (h.proc q).pid.trans hq, h.live hlive⟩

theorem Kernel.Busy.switched_doSendrecv {caller : RpcCaller} {dst : Int} {flow : Flow} (h : k.Busy s₀ strict .ready)
    (hs : doSendrecv k dst msg caller = .ok flow) (hsrc : msg.src = k.cur.pid) (hlive : strict → k.LivePid dst)
    (hfork : ∀ dest, k.Forking k.current (.send dest msg (.rpc dst caller))) :
    ∃ k', flow = .switched k' ∧ k'.Inv s₀ strict := by
  obtain ⟨flow', hsend, hs⟩ := bind_eq_ok hs
  obtain ⟨k', rfl, hinv⟩ := h.switched_doSend hsend hsrc hlive (fun d c he => by cases he; rfl) hfork
  cases hs
  exact ⟨k', rfl, hinv⟩

theorem Kernel.Busy.inv_doExit {env : Env} (h : k.Busy s₀ strict .ready) (hx : doExit k status env = .ok k')
    (hlive : strict → k.LivePid ipcVfs) : k'.Inv s₀ strict := by
  obtain ⟨k₁, hadopt, hx⟩ := bind_eq_ok hx
  obtain ⟨halike, hcur, hlog⟩ := adopt_alike hadopt
  obtain ⟨flow, hrpc, hx⟩ := bind_eq_ok hx
  obtain ⟨k₂, rfl, hinv⟩ := (halike.busy hcur hlog h).switched_doSendrecv hrpc rfl (fun hs => halike.livePid (hlive hs))
    fun _ => .of_none rfl
  cases hx
  exact hinv

/-! ## `do_wait` -/

theorem findStopped_some {ps : List Nat} (h : findStopped k ps = .ok (some child)) :
    child ∈ ps ∧ (k.proc child).state = .stopped ∧ k.alive child = true := by
  induction ps with
  | nil => cases h
  | cons p ps ih =>
    obtain ⟨⟨⟩, halive, h⟩ := bind_eq_ok h
    split at h
    · rename_i hstopped
      cases h
      exact ⟨List.mem_cons_self, hstopped, deref_ok halive⟩
    · obtain ⟨hmem, hrest⟩ := ih h
      exact ⟨List.mem_cons_of_mem p hmem, hrest⟩

theorem Kernel.Base.pid_of_stopped (hb : k.Base) (hstopped : (k.proc p).phase = .stopped) (halive : k.alive p = true) :
    0 < (k.proc p).pid := by
  have hzero : p ≠ 0 := by
    rintro rfl
    rw [hb.idle.2.2.1] at hstopped
    cases hstopped
  exact hb.pid_pos p hzero (hb.alive_lt p halive)

theorem Kernel.Busy.ne_of_stopped (h : k.Busy s₀ strict a) (hstopped : (k.proc p).phase = .stopped) : k.current ≠ p := by
  rintro rfl
  exact absurd (h.ready.symm.trans hstopped) nofun

theorem Kernel.Busy.busy_reap (h : k.Busy s₀ strict a) (hr : reap k child = .ok k')
    (hstopped : (k.proc child).phase = .stopped) (halive : k.alive child = true) : k'.Busy s₀ strict a := by
  have hpid := h.base.pid_of_stopped hstopped halive
  obtain ⟨k₁, hunmap, hr⟩ := bind_eq_ok hr
  obtain ⟨hashMap, rfl, hsub, hgone, hkeep⟩ := h.base.unmapProc_ok hunmap hpid
  cases hr
  have hforked : ∀ p, (k.proc p).kont.forkChild ≠ some child := by
    intro p hp
    have hphase := ((h.base.fork p).pending child hp).phase
    rw [hstopped] at hphase
    cases hphase
  apply h.free (Or.inl hstopped) hforked hsub hgone
  rintro q ⟨⟨i, hi⟩, hphase, -⟩
  exact ⟨i, hkeep i q hi fun he => hphase (he ▸ hstopped)⟩

theorem Kernel.Busy.inv_waitTail (h : k.Busy s₀ strict .ready) (hw : waitTail k = .ok k') : k'.Inv s₀ strict := by
  have hbusy := h.setCur (P := { k.cur with signal := 0 }) rfl rfl rfl rfl rfl (h.base.fork k.current)
  obtain ⟨o, hfind, hw⟩ := bind_eq_ok hw
  cases o with
  | none => cases hw
  | some child =>
    obtain ⟨k₁, hreap, hw⟩ := bind_eq_ok hw
    cases hw
    obtain ⟨-, hstopped, halive⟩ := findStopped_some hfind
    exact (hbusy.busy_reap hreap (by rw [Proc.phase, hstopped]; rfl) halive).inv_toUser

theorem Kernel.Busy.inv_doWait (h : k.Busy s₀ strict .ready) (hw : doWait k = .ok k') : k'.Inv s₀ strict := by
  unfold doWait at hw
  split at hw
  · cases hw
    exact h.inv_toUser
  · split at hw
    · rename_i hsignal
      cases hw
      refine h.block (Or.inr ?_) rfl (.of_none rfl)
      rw [Kernel.setCur, set_proc_self]
      exact ⟨rfl, rfl, hsignal⟩
    · exact h.inv_waitTail hw

/-! ## `do_fork` -/

theorem Kernel.Base.forkChild_ne (hb : k.Base) (hchild : k.Pending q child) (hne : p ≠ q) :
    (k.proc p).kont.forkChild ≠ some child := by
  intro hp
  have hparent := ((hb.fork p).pending child hp).parent
  rw [hchild.parent] at hparent
  exact hne (Option.some.inj hparent).symm

theorem Kernel.Busy.inv_forkFailed (h : k.Busy s₀ strict .ready) (hchild : k.Pending k.current child)
    (hhash : ∀ i, child ∉ k.hashMap i) : (forkFailed k child).Inv s₀ strict := by
  have hne := h.ne_of_pending hchild
  -- the place where the process goes on still names the child, so this changes first
  have hbusy := h.setCur (P := { k.cur with kont := .user }) rfl rfl rfl rfl rfl (.of_none rfl)
  have hproc : (k.setCur { k.cur with kont := .user }).proc child = k.proc child := set_proc_of_ne hne _
  have hfree : { k.setCur { k.cur with kont := .user } with
      alive := Function.update k.alive child false }.Busy s₀ strict .ready := by
    apply hbusy.free
    case hchild =>
      rw [hproc]
      exact Or.inr ⟨hchild.phase, hchild.wait⟩
    case hforked =>
      intro p
      rcases eq_or_ne p k.current with rfl | hpc
      · rw [Kernel.setCur, set_proc_self]
        simp [Kont.forkChild, Kont.copyChild]
      · rw [Kernel.setCur, set_proc_of_ne hpc]
        exact h.base.forkChild_ne hchild hpc
    case hsub => exact fun _ => .refl _
    case hgone => exact hhash
    case hkeep => exact fun q hq => hq.1
  have hkont : (k.setCur { k.cur with kont := .user }).cur.kont = .user := by rw [setCur_cur]
  exact hfree.inv_of_user hkont

theorem Kernel.Busy.inv_of_forkTail (h : k.Busy s₀ strict .ready) (hkont : k.cur.kont = .forkTail child) : k.Inv s₀ strict :=
  h.inv (by rw [hkont]; exact h.ready) (by rw [Proc.status, hkont])

theorem Kernel.Busy.inv_forkLink (h : k.Busy s₀ strict .ready) (hl : forkLink k child msg = .ok k')
    (hchild : k.Pending k.current child) (hhash : ∀ i, child ∉ k.hashMap i) : k'.Inv s₀ strict := by
  unfold forkLink at hl
  split at hl
  · cases hl
    exact h.inv_forkFailed hchild hhash
  obtain ⟨k₁, hhashProc, hl⟩ := bind_eq_ok hl
  obtain ⟨i, hi, rfl⟩ := hashProc_ok hhashProc hchild.pid
  cases hl
  have hne := h.ne_of_pending hchild
  have hbusy := h.setCur (P := { k.cur with kont := .forkTail child }) rfl rfl rfl rfl rfl
    ⟨fun c hc => by cases hc; exact hchild, nofun⟩
  have hcopy : ∀ p, ((k.setCur { k.cur with kont := .forkTail child }).proc p).kont.copyChild ≠ some child := by
    intro p hp
    rcases eq_or_ne p k.current with rfl | hpc
    · rw [Kernel.setCur, set_proc_self] at hp
      cases hp
    · rw [Kernel.setCur, set_proc_of_ne hpc] at hp
      exact h.base.forkChild_ne hchild hpc (Kont.forkChild_of_copyChild hp)
  have hproc : (k.setCur { k.cur with kont := .forkTail child }).proc child = k.proc child := set_proc_of_ne hne _
  have hlink := hbusy.linkChild (k.procHead ++ [child]) (by rw [hproc]; exact hchild.pid) (by rw [hproc]; exact hi)
    hchild.alive (hhash i) hcopy
  have hkont : (k.setCur { k.cur with kont := .forkTail child }).cur.kont = .forkTail child := by rw [setCur_cur]
  exact hlink.inv_of_forkTail hkont

theorem Kernel.Inv.runChild (h : k.Inv s₀ strict) (hchild : k.Pending p child)
    (hforked : ∀ x, (k.proc x).kont.forkChild ≠ some child) (hne : child ≠ k.current) :
    (k.set child { k.proc child with state := .runnable }).Inv s₀ strict := by
  have hlink : ∀ q, (k.set child { k.proc child with state := .runnable }).Linked child q ↔ k.Linked child q := by
    intro q
    refine iff_of_false (linked_of_not_sending (by rw [set_proc_self]; nofun)) fun hl => ?_
    have hwait := hl.2.1
    rw [hchild.wait] at hwait
    exact absurd (hwait ▸ hl.2.2) (by decide)
  constructor
  case base =>
    apply Kernel.Base.set
    case hb => exact h.base
    case hp => exact h.base.lt_of_pid hchild.pid
    case hlink => exact hlink
    case hidle =>
      rintro rfl
      exact ⟨hchild.kont, rfl⟩
    case hfreed =>
      intro hf
      rw [hchild.alive] at hf
      cases hf
    case hfork => exact h.base.fork child
    case hchild =>
      intro x hx
      refine absurd hx ?_
      rcases eq_or_ne x child with rfl | hxc
      · rw [set_proc_self]
        exact hforked x
      · rw [set_proc_of_ne hxc]
        exact hforked x
    all_goals rfl
  case kont =>
    intro x
    rcases eq_or_ne x child with rfl | hxc
    · rw [set_proc_self]
      show Kernel.KontOk strict _ x (k.proc x).kont
      rw [hchild.kont]
      exact Or.inl (by rw [set_proc_self]; rfl)
    · rw [set_proc_of_ne hxc]
      exact (h.kont x).set hxc rfl (hlink x) fun _ _ _ => nofun
  case ready =>
    show ((k.set child _).proc k.current).phase = .ready
    rw [set_proc_of_ne hne.symm]
    exact h.ready
  case trace =>
    have hstatus : ({ k.proc child with state := .runnable } : Proc).status = (k.proc child).status := by
      simp only [Proc.status, hchild.kont]
    rw [protocol_set_of_status hstatus rfl]
    exact h.trace

theorem set_set_comm {P Q : Proc} (h : p ≠ q) : (k.set p P).set q Q = (k.set q Q).set p P := by
  unfold Kernel.set
  rw [Function.update_comm h]

theorem Kernel.Busy.inv_forkTail (h : k.Busy s₀ strict .ready) (hchild : k.Pending k.current child) :
    (forkTail k child).Inv s₀ strict := by
  have hne := h.ne_of_pending hchild
  have hproc : (toUser k).proc child = k.proc child := set_proc_of_ne hne _
  have hcur : (k.set child { k.proc child with state := .runnable }).cur = k.cur := set_proc_of_ne hne.symm _
  have hswap : forkTail k child =
      (toUser k).set child { (toUser k).proc child with state := .runnable } := by
    rw [hproc]
    unfold forkTail toUser Kernel.setCur
    rw [hcur]
    exact set_set_comm hne
  have hpending : (toUser k).Pending k.current child := by
    obtain ⟨h₁, h₂, h₃, h₄, h₅, h₆⟩ := hchild
    refine ⟨?_, ?_, ?_, ?_, ?_, h₆⟩ <;> rw [hproc] <;> assumption
  have hforked : ∀ p, ((toUser k).proc p).kont.forkChild ≠ some child := by
    intro p
    rcases eq_or_ne p k.current with rfl | hpc
    · rw [toUser, Kernel.setCur, set_proc_self]
      simp [Kont.forkChild, Kont.copyChild]
    · rw [toUser, Kernel.setCur, set_proc_of_ne hpc]
      exact h.base.forkChild_ne hchild hpc
  rw [hswap]
  exact h.inv_toUser.runChild hpending hforked hne

theorem Kernel.Busy.wait_ne (h : k.Busy s₀ strict a) (hp : (k.proc p).phase = .sending) :
    (k.proc p).wait ≠ k.globalPid + 1 := by
  have hne : p ≠ k.current := by
    rintro rfl
    rw [show (k.proc k.current).phase = .ready from h.ready] at hp
    cases hp
  have hglobal := h.base.global.1
  rcases (h.kont p hne).sending hp with ⟨-, hw⟩ | ⟨dest, -, -, -, hw, -⟩
  · rw [hw, ipcNowait]
    omega
  · have hle := h.base.pid_le dest
    rw [hw]
    omega

def Proc.forked (pid : Int) (parent : Nat) : Proc :=
  { Proc.unused with state := .sending, pid := pid, parent := some parent, kont := .user }

theorem Kernel.Busy.fresh_forked (h : k.Busy s₀ strict a) (hpid : k.globalPid + 1 < ipcSignal) :
    k.Fresh (k.globalPid + 1) (Proc.forked (k.globalPid + 1) k.current) where
  pid_pos := Int.lt_add_one_of_le h.base.global.1
  pid_le := Int.le_refl _
  global := ⟨Int.le_of_lt (Int.lt_add_one_of_le (Int.le_refl _)), hpid⟩
  unused p := Int.ne_of_lt (Int.lt_add_one_of_le (h.base.pid_le p))
  unawaited _ := h.wait_ne
  wait := rfl
  waitProc := rfl
  alarm := rfl
  kont := rfl
  hasIntr := rfl

theorem allocPid_eq (h : 0 ≤ k.globalPid) (hpid : k.globalPid + 1 < ipcSignal) :
    allocPid k = (k.globalPid + 1, { k with globalPid := k.globalPid + 1 }) := by
  have hbmod : Int.bmod (k.globalPid + 1) (2 ^ 32) = k.globalPid + 1 := by
    have hbound : k.globalPid + 1 < 0x0ffffffc := hpid
    apply Int.bmod_eq_of_le_mul_two <;> omega
  unfold allocPid
  rw [hbmod]

def newProcLinked (k : Kernel) : Kernel :=
  let k' := k.withProc (k.globalPid + 1) (Proc.forked (k.globalPid + 1) k.current)
  k'.setCur { k'.cur with children := k.nextProc :: k'.cur.children }

theorem newProc_ok (h : newProc k = .ok (child, k')) (hglobal : 0 ≤ k.globalPid)
    (hpid : k.globalPid + 1 < ipcSignal) : child = k.nextProc ∧ k' = newProcLinked k := by
  unfold newProc at h
  rw [allocPid_eq hglobal hpid] at h
  obtain ⟨⟨⟩, -, h⟩ := bind_eq_ok h
  cases h
  exact ⟨rfl, rfl⟩

theorem Kernel.Busy.busy_newProc (h : k.Busy s₀ strict a) (hpid : k.globalPid + 1 < ipcSignal)
    (hn : newProc k = .ok (child, k')) : k'.Busy s₀ strict a ∧ k'.Pending k'.current child ∧
      (∀ i, child ∉ k'.hashMap i) ∧ ∀ pid, k.LivePid pid → k'.LivePid pid := by
  obtain ⟨rfl, rfl⟩ := newProc_ok hn h.base.global.1 hpid
  have hfresh := h.fresh_forked hpid
  have halike : (newProcLinked k).Alike (k.withProc (k.globalPid + 1) (Proc.forked (k.globalPid + 1) k.current)) :=
    Kernel.Alike.set ⟨rfl, rfl, rfl, rfl, rfl, rfl, rfl, rfl, rfl, rfl⟩
  refine ⟨halike.busy rfl rfl (h.busy_withProc hfresh (Or.inr rfl)), halike.pending ?_, fun i hi => ?_, ?_⟩
  · refine ⟨?_, ?_, ?_, ?_, ?_, Function.update_self ..⟩ <;> rw [withProc_proc_self]
    · rfl
    · rfl
    · rfl
    · rfl
    · exact hfresh.pid_pos
  · exact h.base.ne_nextProc (h.base.hash i _ hi).1 rfl
  · rintro pid ⟨q, hq, hlive⟩
    refine halike.livePid ⟨q, ?_, h.base.withProc_live hlive⟩
    obtain ⟨⟨i, hi⟩, -⟩ := hlive
    rw [withProc_proc_of_ne (h.base.ne_nextProc (h.base.hash i q hi).1)]
    exact hq

theorem Kernel.Busy.inv_doFork {env : Env} (h : k.Busy s₀ strict .ready) (hf : doFork k env = .ok k')
    (hpid : k.globalPid + 1 < ipcSignal)
    (hlive : strict → env.pages = true → env.pgd = true → k.LivePid ipcVfs) : k'.Inv s₀ strict := by
  unfold doFork at hf
  split at hf
  · cases hf
    exact h.inv_toUser
  rename_i hpages
  obtain ⟨⟨child, k₁⟩, hnew, hf⟩ := bind_eq_ok hf
  obtain ⟨hbusy, hchild, hhash, hlivePid⟩ := h.busy_newProc hpid hnew
  dsimp only at hf
  split at hf
  · cases hf
    exact hbusy.inv_forkFailed hchild hhash
  · rename_i hpgd
    obtain ⟨flow, hrpc, hf⟩ := bind_eq_ok hf
    have hlive' : strict → k₁.LivePid ipcVfs := fun hs => hlivePid _ (hlive hs (by simpa using hpages) (by simpa using hpgd))
    obtain ⟨k₂, rfl, hinv⟩ := hbusy.switched_doSendrecv hrpc rfl hlive' fun _ =>
      ⟨fun c hc => by cases hc; exact hchild, fun c hc => by cases hc; exact hhash⟩
    cases hf
    exact hinv

end FengOS.Core
