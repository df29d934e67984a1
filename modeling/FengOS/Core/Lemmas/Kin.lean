import FengOS.Core.Kin
import FengOS.Core.Lemmas.Step

/-!
# The process tree in every run
-/

namespace FengOS.Core

open FengOS.Lib FengOS.Lib.Rendezvous

variable {strict tidy : Prop} {k k' k'' : Kernel} {n p q child source : Nat} {P : Proc} {dst src : Int}
  {msg m : Message} {flow : Flow} {s₀ : State Nat Message} {caller : RecvCaller} {a : Status Nat Message}

/-! ## Steps that leave the tables -/

structure Kernel.Kept (k' k : Kernel) : Prop where
  children : ∀ p, (k'.proc p).children = (k.proc p).children
  parent : ∀ p, (k'.proc p).parent = (k.proc p).parent
  idle : ∀ p, (k'.proc p).idle = (k.proc p).idle
  alive : k'.alive = k.alive
  nextProc : k'.nextProc = k.nextProc
  hashMap : k'.hashMap = k.hashMap
  procHead : k'.procHead.Perm k.procHead
  current : k'.current = k.current

theorem Kernel.Kept.refl (k : Kernel) : k.Kept k :=
  ⟨fun _ => rfl, fun _ => rfl, fun _ => rfl, rfl, rfl, rfl, .refl _, rfl⟩

theorem Kernel.Kept.trans (h : k''.Kept k') (h' : k'.Kept k) : k''.Kept k where
  children p := (h.children p).trans (h'.children p)
  parent p := (h.parent p).trans (h'.parent p)
  idle p := (h.idle p).trans (h'.idle p)
  alive := h.alive.trans h'.alive
  nextProc := h.nextProc.trans h'.nextProc
  hashMap := h.hashMap.trans h'.hashMap
  procHead := h.procHead.trans h'.procHead
  current := h.current.trans h'.current

theorem Kernel.Kept.set (h : k'.Kept k) (hchildren : P.children = (k'.proc p).children)
    (hparent : P.parent = (k'.proc p).parent) (hidle : P.idle = (k'.proc p).idle) : (k'.set p P).Kept k := by
  refine Kernel.Kept.trans ?_ h
  exact ⟨set_field _ hchildren, set_field _ hparent, set_field _ hidle, rfl, rfl, rfl, .refl _, rfl⟩

theorem Kernel.Kept.emit {e : Event Nat Message} (h : k'.Kept k) : (k'.emit e).Kept k where
  __ := h

theorem toUser_kept (k : Kernel) : (toUser k).Kept k := .set (.refl k) rfl rfl rfl

theorem Kernel.Listed.kept (hl : k.Listed) (h : k'.Kept k) : k'.Listed where
  nodup := h.procHead.nodup_iff.mpr hl.nodup
  mem p := by
    rw [h.procHead.mem_iff, h.hashMap]
    exact hl.mem p
  current hne := by
    rw [h.current] at hne ⊢
    exact h.procHead.mem_iff.mpr (hl.current hne)
  idle := (h.idle 0).trans hl.idle

theorem Kernel.Tree.kept (ht : k.Tree n) (h : k'.Kept k) : k'.Tree n where
  linked p c := by
    rw [h.alive, h.parent, h.children]
    exact ht.linked p c
  unlinked p c := by
    rw [h.alive, h.parent, h.children]
    exact ht.unlinked p c
  parent p c := by
    rw [h.alive, h.parent, h.nextProc]
    exact ht.parent p c
  bound := by
    rw [h.nextProc]
    exact ht.bound

theorem Kernel.Kin.kept (hk : k.Kin n tidy) (h : k'.Kept k) : k'.Kin n tidy :=
  ⟨hk.listed.kept h, fun ht => (hk.tree ht).kept h⟩

/-! ## The scheduler -/

theorem Kernel.Listed.yieldCur_kept (hl : k.Listed) : (yieldCur k).Kept k := by
  have hset : (k.setCur { k.cur with
      needSchedule := false
      state := if k.cur.state = .running then .runnable else k.cur.state }).Kept k := .set (.refl k) rfl rfl rfl
  unfold yieldCur
  dsimp only
  split
  · exact hset
  · rename_i hidle
    have hcur : k.current ≠ 0 := by
      intro h₀
      rw [Kernel.cur, h₀] at hidle
      exact hidle hl.idle
    have hperm : (k.procHead.erase k.current ++ [k.current]).Perm k.procHead :=
      List.perm_append_comm.trans (List.perm_cons_erase (hl.current hcur)).symm
    exact { hset with procHead := hperm }

theorem Kernel.Kin.kin_pickNext (h : k.Kin n tidy) : (pickNext k).Kin n tidy := by
  unfold pickNext
  split
  · rename_i next hnext
    have hset : (k.set next { k.proc next with state := .running }).Kin n tidy := h.kept (.set (.refl k) rfl rfl rfl)
    exact ⟨{ hset.listed with current := fun _ => List.mem_of_find?_eq_some hnext }, fun ht =>
      { hset.tree ht with }⟩
  · exact ⟨{ h.listed with current := fun h₀ => absurd rfl h₀ }, fun ht => { h.tree ht with }⟩

theorem Kernel.Kin.kin_schedule (h : k.Kin n tidy) : (schedule k).Kin n tidy :=
  (h.kept h.listed.yieldCur_kept).kin_pickNext

/-! ## Messages -/

theorem Kernel.Kept.wakeReceiver {dest : Nat} {waits : List Int} (h : k'.Kept k) : (wakeReceiver k' dest waits).Kept k := by
  unfold Core.wakeReceiver
  split
  · exact .set h rfl rfl rfl
  · exact h

theorem sendIntr_kept (k : Kernel) (dest : Nat) : (sendIntr k dest).Kept k :=
  .wakeReceiver (.emit (.set (.refl k) rfl rfl rfl))

theorem Kernel.Kept.sendSignal {signal : Int} (h : k'.Kept k) : (sendSignal k' p signal).Kept k :=
  .wakeReceiver (.set h rfl rfl rfl)

theorem enqueue_kept (k : Kernel) (dest : Nat) (dst : Int) (msg : Message) (caller : SendCaller) :
    (enqueue k dest dst msg caller).Kept k :=
  .emit (.set (.set (.refl k) rfl rfl rfl) rfl rfl rfl)

theorem copyMessage_kept (k : Kernel) (source : Nat) : (copyMessage k source).Kept k := by
  have hunlink : (unlinkWait k source).Kept k :=
    ⟨fun _ => rfl, fun _ => rfl, fun _ => rfl, rfl, rfl, rfl, .refl _, rfl⟩
  exact .emit (.set (.set hunlink rfl rfl rfl) rfl rfl rfl)

def Flow.Kin (n : Nat) (tidy : Prop) (k : Kernel) : Flow → Prop
  | .switched k' => k'.Kin n tidy
  | .returned k' _ => k'.Kept k

theorem Flow.Kin.trans (h : flow.Kin n tidy k') (h' : k'.Kept k) : flow.Kin n tidy k := by
  cases flow with
  | switched k₁ => exact h
  | returned k₁ m => exact Kernel.Kept.trans h h'

theorem Kernel.Kin.kin_block {wait : Int} {kont : Kont} (h : k.Kin n tidy) : (blockReceiving k wait kont).Kin n tidy :=
  Kernel.Kin.kin_schedule (h.kept (.set (.refl k) rfl rfl rfl))

theorem Kernel.Kin.kin_doSend {caller : SendCaller} (h : k.Kin n tidy) (hs : doSend k dst msg caller = .ok flow) :
    flow.Kin n tidy k := by
  obtain ⟨dest, -, hs⟩ := bind_eq_ok hs
  split at hs
  · cases hs
    exact sendIntr_kept k dest
  · cases hs
    exact Kernel.Kin.kin_schedule (h.kept (.wakeReceiver (enqueue_kept k dest dst msg caller)))

theorem kin_takeIntr : (takeIntr k msg).Kin n tidy k := .emit (.set (.refl k) rfl rfl rfl)

theorem Kernel.Kin.kin_recvAll (h : k.Kin n tidy) (hr : recvAll k msg caller = .ok flow) : flow.Kin n tidy k := by
  rcases recvAll_cases hr with rfl | ⟨source, -, rfl⟩ | ⟨_, _, rfl, -⟩
  · exact kin_takeIntr
  · exact copyMessage_kept k source
  · exact h.kin_block

theorem Kernel.Kin.kin_doRecv (h : k.Kin n tidy) (hr : doRecv k src msg caller = .ok flow) : flow.Kin n tidy k := by
  rcases doRecv_cases hr with ⟨rfl, -⟩ | ⟨source, rfl, -⟩ | ⟨_, _, rfl, -⟩
  · exact kin_takeIntr
  · exact copyMessage_kept k source
  · exact h.kin_block

theorem Kernel.Kin.kin_doSendrecv {caller : RpcCaller} (h : k.Kin n tidy)
    (hr : doSendrecv k dst msg caller = .ok flow) : flow.Kin n tidy k := by
  obtain ⟨flow', hs, hr⟩ := bind_eq_ok hr
  have hkin := h.kin_doSend hs
  cases flow' with
  | switched k₁ =>
    cases hr
    exact hkin
  | returned k₁ m => exact ((h.kept hkin).kin_doRecv hr).trans hkin

/-! ## Exit and wait -/

theorem Kernel.Kin.kin_exitTail {status : BitVec 32} (h : k.Kin n tidy) (hx : exitTail k status = .ok k') :
    k'.Kin n tidy := by
  unfold exitTail at hx
  dsimp only at hx
  split at hx
  · cases hx
  · obtain ⟨⟨⟩, -, hx⟩ := bind_eq_ok hx
    cases hx
    exact Kernel.Kin.kin_schedule (h.kept (.set (.sendSignal (.set (.refl k) rfl rfl rfl)) rfl rfl rfl))

theorem Kernel.Kin.kin_adopt (h : k.Kin n tidy) (ha : adopt k = .ok k') (htidy : tidy → k.cur.children = []) :
    k'.Kin n tidy := by
  unfold adopt at ha
  split at ha
  · cases ha
    exact h
  · cases ha
  · rename_i parent hparent hchildren
    obtain ⟨⟨⟩, -, ha⟩ := bind_eq_ok ha
    cases ha
    refine ⟨{ h.listed with idle := ?_ }, fun ht => absurd (htidy ht) hchildren⟩
    rcases eq_or_ne 0 parent with rfl | hne
    · rw [set_proc_self]
      exact h.listed.idle
    · rw [set_proc_of_ne hne]
      exact h.listed.idle

theorem Kernel.Kin.kin_doExit {status : BitVec 32} {env : Env} (h : k.Kin n tidy)
    (hx : doExit k status env = .ok k') (htidy : tidy → k.cur.children = []) : k'.Kin n tidy := by
  obtain ⟨k₁, hadopt, hx⟩ := bind_eq_ok hx
  obtain ⟨flow, hrpc, hx⟩ := bind_eq_ok hx
  have hk₁ := h.kin_adopt hadopt htidy
  have hkin := hk₁.kin_doSendrecv hrpc
  cases flow with
  | switched k₂ =>
    cases hx
    exact hkin
  | returned k₂ m => exact (hk₁.kept hkin).kin_exitTail hx

theorem Kernel.Listed.reap_listed (hl : k.Listed) (hb : k.Base) (hr : reap k child = .ok k')
    (hpid : 0 < (k.proc child).pid) (hne : k.current ≠ child) : k'.Listed := by
  obtain ⟨k₁, hunmap, hr⟩ := bind_eq_ok hr
  obtain ⟨hashMap, rfl, hsub, hgone, hkeep⟩ := hb.unmapProc_ok hunmap hpid
  cases hr
  constructor
  case nodup => exact hl.nodup.erase child
  case mem =>
    intro p
    show p ∈ k.procHead.erase child ↔ ∃ i, p ∈ hashMap i
    rw [hl.nodup.mem_erase_iff, hl.mem]
    constructor
    · rintro ⟨hpc, i, hi⟩
      exact ⟨i, hkeep i p hi hpc⟩
    · rintro ⟨i, hi⟩
      exact ⟨ne_of_mem_of_not_mem hi (hgone i), i, (hsub i).subset hi⟩
  case current => exact fun h₀ => (List.mem_erase_of_ne hne).mpr (hl.current h₀)
  case idle => exact hl.idle

theorem Kernel.Kin.kin_waitTail (h : k.Kin n tidy) (hb : k.Busy s₀ strict a)
    (hw : waitTail k = .ok k') (htidy : ¬ tidy) : k'.Kin n tidy := by
  have hbusy := hb.setCur (P := { k.cur with signal := 0 }) rfl rfl rfl rfl rfl (hb.base.fork k.current)
  have hkin : (k.setCur { k.cur with signal := 0 }).Kin n tidy := h.kept (.set (.refl k) rfl rfl rfl)
  obtain ⟨o, hfind, hw⟩ := bind_eq_ok hw
  cases o with
  | none => cases hw
  | some child =>
    obtain ⟨k₁, hreap, hw⟩ := bind_eq_ok hw
    cases hw
    obtain ⟨-, hstopped, halive⟩ := findStopped_some hfind
    have hphase : ((k.setCur { k.cur with signal := 0 }).proc child).phase = .stopped := by
      rw [Proc.phase, hstopped]
      rfl
    have hlisted := hkin.listed.reap_listed hbusy.base hreap (hbusy.base.pid_of_stopped hphase halive)
      (hbusy.ne_of_stopped hphase)
    exact Kernel.Kin.kept ⟨hlisted, fun ht => absurd ht htidy⟩ (toUser_kept k₁)

theorem Kernel.Kin.kin_doWait (h : k.Kin n tidy) (hb : k.Busy s₀ strict a)
    (hw : doWait k = .ok k') (htidy : tidy → k.cur.children = [] ∨ k.cur.signal ≠ sigchld) : k'.Kin n tidy := by
  unfold doWait at hw
  split at hw
  · cases hw
    exact h.kept (toUser_kept k)
  · rename_i hchildren
    split at hw
    · cases hw
      exact h.kin_block
    · rename_i hsignal
      exact h.kin_waitTail hb hw fun ht => (htidy ht).elim hchildren hsignal

/-! ## Fork -/

theorem newProcLinked_proc_of_ne (hc : p ≠ k.current) (hn : p ≠ k.nextProc) : (newProcLinked k).proc p = k.proc p :=
  (set_proc_of_ne hc _).trans (withProc_proc_of_ne hn)

theorem newProcLinked_proc_child (h : k.current ≠ k.nextProc) :
    (newProcLinked k).proc k.nextProc = Proc.forked (k.globalPid + 1) k.current :=
  (set_proc_of_ne h.symm _).trans withProc_proc_self

theorem newProcLinked_proc_current (h : k.current ≠ k.nextProc) :
    (newProcLinked k).proc k.current = { k.cur with children := k.nextProc :: k.cur.children } := by
  have hcur : (k.withProc (k.globalPid + 1) (Proc.forked (k.globalPid + 1) k.current)).cur = k.cur :=
    withProc_proc_of_ne h
  refine (set_proc_self ..).trans ?_
  rw [hcur]

theorem newProcLinked_parent (h : k.current ≠ k.nextProc) (hn : p ≠ k.nextProc) :
    ((newProcLinked k).proc p).parent = (k.proc p).parent := by
  rcases eq_or_ne p k.current with rfl | hc
  · rw [newProcLinked_proc_current h]
    rfl
  · rw [newProcLinked_proc_of_ne hc hn]

theorem Kernel.Listed.newProcLinked_listed (hl : k.Listed) (h : k.current ≠ k.nextProc) (h₀ : 0 ≠ k.nextProc) :
    (newProcLinked k).Listed := by
  refine ⟨hl.nodup, hl.mem, hl.current, ?_⟩
  rcases eq_or_ne 0 k.current with hc | hc
  · rw [hc, newProcLinked_proc_current h, ← hl.idle, hc]
    rfl
  · rw [newProcLinked_proc_of_ne hc h₀]
    exact hl.idle

theorem Kernel.Tree.newProcLinked_tree (ht : k.Tree n) (hb : k.Base) (h : k.current < k.nextProc) :
    (newProcLinked k).Tree n := by
  have hne : k.current ≠ k.nextProc := Nat.ne_of_lt h
  -- the number of the new child is on no list yet
  have hfresh : ∀ p, k.nextProc ∉ (k.proc p).children := fun p hc =>
    absurd (hb.alive_lt _ (ht.unlinked p _ hc).2.1) (Nat.lt_irrefl _)
  have halive : ∀ {c}, c ≠ k.nextProc → (newProcLinked k).alive c = k.alive c := fun hc => Function.update_of_ne hc ..
  constructor
  case linked =>
    intro p c hn ha hp
    rcases eq_or_ne c k.nextProc with rfl | hc
    · rw [newProcLinked_proc_child hne] at hp
      cases hp
      have hzero : k.cur.children.count k.nextProc = 0 := List.count_eq_zero.mpr (hfresh k.current)
      rw [newProcLinked_proc_current hne, List.count_cons_self, hzero]
    · rw [halive hc] at ha
      rw [newProcLinked_parent hne hc] at hp
      have hlt := ht.parent p c hn ha hp
      have hcount := ht.linked p c hn ha hp
      rcases eq_or_ne p k.current with rfl | hpc
      · rw [newProcLinked_proc_current hne, List.count_cons_of_ne hc.symm]
        exact hcount
      · rw [newProcLinked_proc_of_ne hpc (Nat.ne_of_lt hlt)]
        exact hcount
  case unlinked =>
    intro p c hc
    have hold : c ∈ (k.proc p).children →
        n ≤ c ∧ (newProcLinked k).alive c = true ∧ ((newProcLinked k).proc c).parent = some p := by
      intro hc
      have hcn : c ≠ k.nextProc := ne_of_mem_of_not_mem hc (hfresh p)
      rw [halive hcn, newProcLinked_parent hne hcn]
      exact ht.unlinked p c hc
    rcases eq_or_ne p k.current with rfl | hpc
    · rw [newProcLinked_proc_current hne] at hc
      rcases List.mem_cons.mp hc with rfl | hc
      · rw [newProcLinked_proc_child hne]
        exact ⟨ht.bound, Function.update_self .., rfl⟩
      · exact hold hc
    · rcases eq_or_ne p k.nextProc with rfl | hpn
      · rw [newProcLinked_proc_child hne] at hc
        cases hc
      · rw [newProcLinked_proc_of_ne hpc hpn] at hc
        exact hold hc
  case parent =>
    intro p c hn ha hp
    rcases eq_or_ne c k.nextProc with rfl | hc
    · rw [newProcLinked_proc_child hne] at hp
      cases hp
      exact Nat.lt_succ_of_lt h
    · rw [halive hc] at ha
      rw [newProcLinked_parent hne hc] at hp
      exact Nat.lt_succ_of_lt (ht.parent p c hn ha hp)
  case bound => exact Nat.le_succ_of_le ht.bound

theorem Kernel.Kin.kin_forkFailed (h : k.Kin n tidy) (htidy : ¬ tidy) : (forkFailed k child).Kin n tidy := by
  have hfreed : { k with alive := Function.update k.alive child false }.Kin n tidy :=
    ⟨{ h.listed with }, fun ht => absurd ht htidy⟩
  exact hfreed.kept (toUser_kept _)

theorem Kernel.Kin.kin_link (h : k.Kin n tidy) (hhash : ∀ i, child ∉ k.hashMap i) (i : Nat) : { k with
      procHead := k.procHead ++ [child]
      hashMap := Function.update k.hashMap i (k.hashMap i ++ [child]) }.Kin n tidy := by
  refine ⟨⟨?_, fun p => ?_, fun h₀ => List.mem_append_left _ (h.listed.current h₀), h.listed.idle⟩, fun ht =>
    { h.tree ht with }⟩
  · refine List.nodup_append.mpr ⟨h.listed.nodup, List.pairwise_singleton _ _, fun p hp c hc => ?_⟩
    obtain ⟨j, hj⟩ := (h.listed.mem p).mp hp
    rw [List.mem_singleton.mp hc]
    exact ne_of_mem_of_not_mem hj (hhash j)
  · show p ∈ k.procHead ++ [child] ↔ ∃ j, p ∈ Function.update k.hashMap i (k.hashMap i ++ [child]) j
    simp only [mem_update_append, List.mem_append, List.mem_singleton, h.listed.mem, exists_or, exists_and_left,
      exists_eq, and_true]

theorem Kernel.Kin.kin_forkLink (h : k.Kin n tidy) (hl : forkLink k child m = .ok k')
    (hpid : 0 < (k.proc child).pid) (hhash : ∀ i, child ∉ k.hashMap i) (htidy : tidy → m.retval = 0) : k'.Kin n tidy := by
  unfold forkLink at hl
  split at hl
  · rename_i hret
    cases hl
    exact h.kin_forkFailed fun ht => hret (htidy ht)
  · obtain ⟨k₁, hhashProc, hl⟩ := bind_eq_ok hl
    obtain ⟨i, hi, rfl⟩ := hashProc_ok hhashProc hpid
    cases hl
    exact (h.kin_link hhash i).kept (.set (.refl _) rfl rfl rfl)

theorem Kernel.Kin.kin_doFork {env : Env} (h : k.Kin n tidy) (hb : k.Busy s₀ strict a)
    (hf : doFork k env = .ok k') (hpid : k.globalPid + 1 < ipcSignal)
    (htidy : tidy → env.pages = true → env.pgd = true) : k'.Kin n tidy := by
  unfold doFork at hf
  split at hf
  · cases hf
    exact h.kept (toUser_kept k)
  rename_i hpages
  obtain ⟨⟨child, k₁⟩, hnew, hf⟩ := bind_eq_ok hf
  obtain ⟨hbusy, -⟩ := hb.busy_newProc hpid hnew
  obtain ⟨rfl, rfl⟩ := newProc_ok hnew hb.base.global.1 hpid
  have hzero : 0 ≠ k.nextProc := Nat.ne_of_lt (hb.base.alive_lt 0 hb.base.idle.2.2.2)
  have hkin : (newProcLinked k).Kin n tidy := ⟨h.listed.newProcLinked_listed (Nat.ne_of_lt hb.lt) hzero, fun ht =>
    (h.tree ht).newProcLinked_tree hb.base hb.lt⟩
  dsimp only at hf
  split at hf
  · rename_i hpgd
    cases hf
    exact hkin.kin_forkFailed fun ht => by simp [htidy ht (by simpa using hpages)] at hpgd
  · obtain ⟨flow, hrpc, hf⟩ := bind_eq_ok hf
    have hflow := hkin.kin_doSendrecv hrpc
    obtain ⟨k₂, rfl⟩ := doSendrecv_switched hrpc (hbusy.base.pid_ne_intr _)
    cases hf
    exact hflow

/-! ## Steps -/

theorem Kernel.Kin.kin_recvReturn (h : k.Kin n tidy) (hflow : flow.Kin n tidy k)
    (hr : recvReturn caller flow = .ok k') (hfork : ∀ child k₁ m, caller = .rpc (.fork child) → flow = .returned k₁ m →
      0 < (k₁.proc child).pid ∧ (∀ i, child ∉ k₁.hashMap i) ∧ (tidy → m.retval = 0)) : k'.Kin n tidy := by
  cases flow with
  | switched k₁ =>
    cases hr
    exact hflow
  | returned k₁ m =>
    have hk₁ : k₁.Kin n tidy := h.kept hflow
    have hemit : (k₁.emit (.reply k₁.current m)).Kin n tidy := hk₁.kept (.emit (.refl k₁))
    cases caller with
    | syscall =>
      cases hr
      exact hk₁.kept (toUser_kept k₁)
    | rpc caller =>
      cases caller with
      | syscall =>
        cases hr
        exact hemit.kept (toUser_kept _)
      | exit status => exact hemit.kin_exitTail hr
      | fork child =>
        obtain ⟨hpid, hhash, hret⟩ := hfork child k₁ m rfl rfl
        exact hemit.kin_forkLink hr hpid hhash hret

theorem Kernel.Kin.kin_call {c : Call} (h : k.Kin n tidy) (hi : k.Inv s₀ strict) (h₀ : k.current ≠ 0)
    (hc : call k c = .ok k') (hpid : k.PidLeft (.call c)) (htidy : tidy → k.Tidy (.call c)) : k'.Kin n tidy := by
  have hb := hi.busy h₀
  cases c with
  | send dst msg =>
    obtain ⟨flow, hsend, hc⟩ := bind_eq_ok hc
    have hflow := h.kin_doSend hsend
    cases flow with
    | switched k₁ =>
      cases hc
      exact hflow
    | returned k₁ m =>
      cases hc
      exact (h.kept hflow).kept (toUser_kept k₁)
  | recv src msg =>
    obtain ⟨flow, hrecv, hc⟩ := bind_eq_ok hc
    exact h.kin_recvReturn (h.kin_doRecv hrecv) hc nofun
  | sendrecv dst msg =>
    obtain ⟨flow, hrpc, hc⟩ := bind_eq_ok hc
    exact h.kin_recvReturn (h.kin_doSendrecv hrpc) hc nofun
  | registerIrq vector =>
    cases hc
    unfold registerIrq
    split
    · exact ⟨{ h.listed with }, fun ht => { h.tree ht with }⟩
    · exact h
  | unregisterIrq vector =>
    cases hc
    unfold unregisterIrq
    split
    · exact ⟨{ h.listed with }, fun ht => { h.tree ht with }⟩
    · exact h
  | exit status env => exact h.kin_doExit hc htidy
  | wait => exact h.kin_doWait hb hc htidy
  | fork env => exact h.kin_doFork hb hc hpid htidy
  | other =>
    cases hc
    exact h

theorem Kernel.Busy.answer_of_doRecv (hb : k.Busy s₀ strict a)
    (hr : doRecv (k.emit (.sent k.current)) dst msg caller = .ok (.returned k' m)) (hdst : dst = (k.proc p).pid) :
    ∃ source, k' = copyMessage (k.emit (.sent k.current)) source ∧ source ∈ k.lookup dst ∧
      k.Linked source k.current ∧ m = (k.proc source).msg := by
  have hlt : dst < ipcSignal := hdst ▸ hb.base.pid_lt_signal p
  have hall : dst ≠ ipcAll := Int.ne_of_lt (Int.lt_trans hlt (by decide))
  have hintr : dst ≠ ipcIntr := Int.ne_of_lt (Int.lt_trans hlt (by decide))
  rcases doRecv_cases hr with ⟨-, he⟩ | ⟨source, he, hsource⟩ | ⟨_, _, he, -⟩
  · exact absurd he (not_or.mpr ⟨hall, hintr⟩)
  · cases he
    obtain ⟨hfind, hsending⟩ := hsource.resolve_left fun hs => hall hs.1
    have hmap : mapProc k dst = .ok (some source) := (findProc_ok hfind).1
    refine ⟨source, rfl, ?_, hb.linked_iff.mpr hsending, rfl⟩
    rw [Kernel.lookup, hmap]
    rfl
  · cases he

theorem Kernel.Kin.kin_resume (h : k.Kin n tidy) (hi : k.Inv s₀ strict) (hr : resume k = .ok k')
    (hne : k.cur.kont ≠ .user) (htidy : tidy → k.Tidy .resume) : k'.Kin n tidy := by
  have hb := hi.busy (hi.current_ne hne)
  have hok : k.KontOk strict k.current k.cur.kont := hi.kont k.current
  have hfork : k.Forking k.current k.cur.kont := hi.base.fork k.current
  unfold Kernel.Tidy at htidy
  unfold resume at hr
  generalize k.cur.kont = kont at hr hne htidy hok hfork
  cases kont with
  | user => exact absurd rfl hne
  | send dest msg caller =>
    have hemit : (k.emit (.sent k.current)).Kin n tidy := h.kept (.emit (.refl k))
    cases caller with
    | syscall =>
      cases hr
      exact hemit.kept (toUser_kept _)
    | rpc dst caller =>
      obtain ⟨flow, hrecv, hr⟩ := bind_eq_ok hr
      apply hemit.kin_recvReturn (hemit.kin_doRecv hrecv) hr
      rintro child k₁ m ⟨⟩ rfl
      obtain ⟨hpending, hhash⟩ := hfork.child rfl
      obtain ⟨-, hdst, -⟩ := hok
      obtain ⟨source, rfl, hmem, hl, rfl⟩ := hb.answer_of_doRecv hrecv (hdst dst _ rfl)
      rw [copyMessage_pid]
      exact ⟨hpending.pid, hhash, fun ht => htidy ht source hmem hl⟩
  | recvAll msg caller =>
    obtain ⟨rfl, -⟩ := hok
    obtain ⟨flow, hall, hr⟩ := bind_eq_ok hr
    exact h.kin_recvReturn (h.kin_recvAll hall) hr nofun
  | recvIntr msg caller =>
    obtain ⟨rfl, -⟩ := hok
    exact h.kin_recvReturn kin_takeIntr hr nofun
  | recvFrom source msg caller =>
    obtain ⟨flow, htake, hr⟩ := bind_eq_ok hr
    obtain rfl := takeMessage_ok htake
    have hflow : Flow.Kin n tidy k (.returned (copyMessage k source) (k.proc source).msg) := copyMessage_kept k source
    apply h.kin_recvReturn hflow hr
    rintro child k₁ m rfl ⟨⟩
    obtain ⟨hpending, hhash⟩ := hfork.child rfl
    rw [copyMessage_pid]
    exact ⟨hpending.pid, hhash, htidy⟩
  | wait => exact h.kin_waitTail hb hr fun ht => htidy ht
  | forkTail child =>
    cases hr
    exact h.kept (.set (.set (.refl k) rfl rfl rfl) rfl rfl rfl)
  | dead => cases hr

theorem Kernel.Kin.kin_retFromInt (h : k.Kin n tidy) : (retFromInt k).Kin n tidy := by
  unfold retFromInt
  split
  · exact h.kin_schedule
  · exact h

theorem Kernel.Kin.kin_hwint {ind : Nat} (h : k.Kin n tidy) (hi : hwint k ind = .ok k') : k'.Kin n tidy := by
  unfold hwint at hi
  split at hi
  · cases hi
    exact h.kin_retFromInt
  · obtain ⟨flow, hsend, hi⟩ := bind_eq_ok hi
    have hflow := h.kin_doSend hsend
    cases flow with
    | switched k₁ =>
      cases hi
      exact hflow
    | returned k₁ m =>
      cases hi
      exact (h.kept hflow).kin_retFromInt

theorem Kernel.Kin.step {a : Action} (h : k.Kin n tidy) (hi : k.Inv s₀ strict) (hstep : k.step a = some k')
    (hpid : k.PidLeft a) (htidy : tidy → k.Tidy a) : k'.Kin n tidy := by
  obtain ⟨henabled, hact⟩ := step_ok hstep
  cases a with
  | call c =>
    have hen : k.cur.kont = .user ∧ k.current ≠ 0 := by simpa [Kernel.enabled] using henabled
    exact h.kin_call hi hen.2 hact hpid htidy
  | timer =>
    cases hact
    unfold timer
    rw [updateAlarm_eq hi.base.alarm]
    exact Kernel.Kin.kin_retFromInt (h.kept (.set (.refl k) rfl rfl rfl))
  | hwint ind => exact h.kin_hwint hact
  | signal p signal =>
    obtain ⟨⟨⟩, -, hact⟩ := bind_eq_ok hact
    cases hact
    exact h.kept (.sendSignal (.refl k))
  | resume =>
    have hen : k.cur.kont ≠ .user := by simpa [Kernel.enabled] using henabled
    exact h.kin_resume hi hact hen htidy

end FengOS.Core
