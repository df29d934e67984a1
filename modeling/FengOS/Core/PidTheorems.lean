import Mathlib.Data.List.Find
import FengOS.Core.Lemmas.Boot

/-!
# Pids from user processes

`do_send` does not test the result of `map_proc`, the assertion in `do_recv` only prints, and the index that `map_proc`
computes has the sign of the pid. A pid of no process makes the kernel use a missing record or leave the hash map, and
nothing else does.
-/

namespace FengOS.Core

open FengOS.Lib FengOS.Lib.Rendezvous

variable {strict : Prop} {k k' : Kernel} {p q : Nat} {dst src pid : Int} {msg : Message} {s₀ : State Nat Message}
  {α β : Type} {caller : RecvCaller} {ps : List Nat} {flow : Flow}

/-! ## Bad pids -/

/-- A missing process record is used, or the index into the hash map is out of range. -/
def BadPid (r : Except Fault α) : Prop := r = .error .noProc ∨ r = .error .badIndex

def Kernel.HasPid (k : Kernel) (pid : Int) : Prop := ∃ i, ∃ p ∈ k.hashMap i, (k.proc p).pid = pid

theorem not_badPid_ok (a : α) : ¬ BadPid (.ok a) := nofun

theorem badPid_bind {x : Except Fault α} {f : α → Except Fault β} :
    BadPid (x >>= f) ↔ BadPid x ∨ ∃ a, x = .ok a ∧ BadPid (f a) := by
  cases x with
  | error e => exact ⟨fun h => Or.inl (h.imp (fun he => by cases he; rfl) fun he => by cases he; rfl),
      fun h => h.elim (fun h => h.imp (fun he => by cases he; rfl) fun he => by cases he; rfl) nofun⟩
  | ok a => exact ⟨fun h => Or.inr ⟨a, rfl, h⟩, fun h => h.elim nofun fun ⟨b, hb, h⟩ => by cases hb; exact h⟩

theorem not_badPid_deref : ¬ BadPid (k.deref p) := by
  unfold Kernel.deref
  split <;> nofun

theorem not_badPid_derefAll : ¬ BadPid (k.derefAll ps) := by
  unfold Kernel.derefAll
  split <;> nofun

theorem hashIndex_error {e : Fault} (h : hashIndex pid = .error e) : e = .badIndex := by
  unfold hashIndex at h
  dsimp only at h
  split at h
  · cases h
    rfl
  · cases h

theorem Kernel.Base.findProc_of_hasPid (hb : k.Base) (h : k.HasPid pid) : ∃ p, findProc k pid = .ok p := by
  obtain ⟨i, p, hp, rfl⟩ := h
  obtain ⟨hpos, hi⟩ := hb.hash i p hp
  obtain ⟨j, hj, hij⟩ := hashIndex_of_pos hpos
  obtain rfl : i = j := Int.ofNat_inj.mp (hi.trans hij.symm)
  have hsome : ((k.hashMap i).find? fun q => (k.proc q).pid = (k.proc p).pid).isSome := by
    rw [List.find?_isSome]
    exact ⟨p, hp, decide_eq_true rfl⟩
  obtain ⟨q, hq⟩ := Option.isSome_iff_exists.mp hsome
  have halive := hb.hash_alive i q (List.mem_of_find?_eq_some hq)
  refine ⟨q, ?_⟩
  unfold findProc mapProc Kernel.deref
  rw [hj]
  show (Except.ok ((k.hashMap i).find? _) >>= _ : Except Fault Nat) = _
  rw [hq]
  show ((if k.alive q = true then _ else _) >>= _ : Except Fault Nat) = _
  rw [if_pos halive]
  rfl

theorem badPid_findProc_of_not (h : ¬ k.HasPid pid) : BadPid (findProc k pid) := by
  unfold findProc
  rw [badPid_bind]
  unfold mapProc
  cases hi : hashIndex pid with
  | error e =>
    obtain rfl := hashIndex_error hi
    exact Or.inl (Or.inr rfl)
  | ok i =>
    refine Or.inr ⟨_, rfl, ?_⟩
    cases hf : (k.hashMap i).find? fun p => (k.proc p).pid = pid with
    | none => exact Or.inl rfl
    | some p =>
      exact absurd ⟨i, p, List.mem_of_find?_eq_some hf, by simpa using List.find?_some hf⟩ h

theorem Kernel.Base.badPid_findProc (hb : k.Base) : BadPid (findProc k pid) ↔ ¬ k.HasPid pid := by
  refine ⟨fun h hpid => ?_, badPid_findProc_of_not⟩
  obtain ⟨p, hp⟩ := hb.findProc_of_hasPid hpid
  rw [hp] at h
  exact not_badPid_ok p h

/-! ## The message functions -/

theorem badPid_doSend {caller : SendCaller} : BadPid (doSend k dst msg caller) ↔ BadPid (findProc k dst) := by
  unfold doSend
  rw [badPid_bind]
  refine or_iff_left ?_
  rintro ⟨dest, -, h⟩
  split at h <;> exact not_badPid_ok _ h

theorem not_badPid_takeMessage : ¬ BadPid (takeMessage k p) := by
  unfold takeMessage
  rw [badPid_bind]
  rintro (h | ⟨-, -, h⟩)
  · exact not_badPid_deref h
  · exact not_badPid_ok _ h

theorem not_badPid_recvAll : ¬ BadPid (recvAll k msg caller) := by
  unfold recvAll
  split
  · exact not_badPid_ok _
  · split
    · exact not_badPid_takeMessage
    · exact not_badPid_ok _

theorem Kernel.Base.badPid_doRecv (hb : k.Base) :
    BadPid (doRecv k src msg caller) ↔ ¬ (src = ipcAll ∨ src = ipcIntr ∨ k.HasPid src) := by
  unfold doRecv
  by_cases hall : src = ipcAll
  · rw [if_pos hall]
    exact iff_of_false not_badPid_recvAll fun h => h (Or.inl hall)
  by_cases hintr : src = ipcIntr
  · rw [if_neg hall, if_pos hintr]
    refine iff_of_false ?_ fun h => h (Or.inr (Or.inl hintr))
    split <;> exact not_badPid_ok _
  · rw [if_neg hall, if_neg hintr, badPid_bind, hb.badPid_findProc, or_iff_right hall, or_iff_right hintr]
    refine or_iff_left ?_
    rintro ⟨source, -, h⟩
    split at h
    · exact not_badPid_takeMessage h
    · exact not_badPid_ok _ h

theorem badPid_doSendrecv {caller : RpcCaller} (hsrc : msg.src ≠ ipcIntr) :
    BadPid (doSendrecv k dst msg caller) ↔ BadPid (findProc k dst) := by
  unfold doSendrecv
  rw [badPid_bind, badPid_doSend]
  refine or_iff_left ?_
  rintro ⟨flow, hs, h⟩
  obtain ⟨k', rfl⟩ := doSend_switched hs hsrc
  exact not_badPid_ok _ h

theorem badPid_doSendrecv_bind {caller : RpcCaller} {f : Flow → Except Fault Kernel} (hsrc : msg.src ≠ ipcIntr)
    (hf : ∀ k', ¬ BadPid (f (.switched k'))) : BadPid (doSendrecv k dst msg caller >>= f) ↔ BadPid (findProc k dst) := by
  rw [badPid_bind, badPid_doSendrecv hsrc]
  refine or_iff_left ?_
  rintro ⟨flow, hs, h⟩
  obtain ⟨k', rfl⟩ := doSendrecv_switched hs hsrc
  exact hf k' h

theorem doRecv_pid {m : Message} (h : doRecv k src msg caller = .ok (.returned k' m)) :
    (k'.proc q).pid = (k.proc q).pid := by
  rcases doRecv_cases h with ⟨he, -⟩ | ⟨source, he, -⟩ | ⟨_, _, he, -⟩
  · cases he
    rw [emit_proc]
    exact set_pid (P := { k.cur with hasIntr := false }) rfl q
  · cases he
    exact copyMessage_pid q
  · cases he

theorem not_badPid_exitTail {status : BitVec 32} : ¬ BadPid (exitTail k status) := by
  unfold exitTail
  dsimp only
  split
  · nofun
  · rw [badPid_bind]
    rintro (h | ⟨-, -, h⟩)
    · exact not_badPid_deref h
    · exact not_badPid_ok _ h

theorem not_badPid_forkLink {child : Nat} (hpid : 0 < (k.proc child).pid) : ¬ BadPid (forkLink k child msg) := by
  unfold forkLink
  split
  · exact not_badPid_ok _
  · unfold hashProc
    obtain ⟨i, hi, -⟩ := hashIndex_of_pos hpid
    show ¬ BadPid ((hashIndex (k.proc child).pid >>= _) >>= _)
    rw [hi]
    exact not_badPid_ok _

theorem not_badPid_rpcReturn {caller : RpcCaller} (hpid : ∀ child, caller = .fork child → 0 < (k.proc child).pid) :
    ¬ BadPid (rpcReturn k msg caller) := by
  cases caller with
  | syscall => exact not_badPid_ok _
  | exit status => exact not_badPid_exitTail
  | fork child =>
    have hchild : 0 < ((k.emit (.reply k.current msg)).proc child).pid := hpid child rfl
    exact not_badPid_forkLink hchild

theorem not_badPid_recvReturn
    (hpid : ∀ child k' m, caller = .rpc (.fork child) → flow = .returned k' m → 0 < (k'.proc child).pid) :
    ¬ BadPid (recvReturn caller flow) := by
  cases flow with
  | switched k' => exact not_badPid_ok _
  | returned k' m =>
    cases caller with
    | syscall => exact not_badPid_ok _
    | rpc caller => exact not_badPid_rpcReturn fun child hc => hpid child k' m (congrArg _ hc) rfl

theorem not_badPid_recvReturn_syscall : ¬ BadPid (recvReturn .syscall flow) :=
  not_badPid_recvReturn fun _ _ _ => nofun

theorem not_badPid_adopt : ¬ BadPid (adopt k) := by
  unfold adopt
  split
  · exact not_badPid_ok _
  · nofun
  · rw [badPid_bind]
    rintro (h | ⟨-, -, h⟩)
    · exact not_badPid_derefAll h
    · exact not_badPid_ok _ h

theorem not_badPid_newProc : ¬ BadPid (newProc k) := by
  unfold newProc
  dsimp only
  rw [badPid_bind]
  rintro (h | ⟨-, -, h⟩)
  · exact not_badPid_derefAll h
  · exact not_badPid_ok _ h

theorem not_badPid_findStopped : ¬ BadPid (findStopped k ps) := by
  induction ps with
  | nil => exact not_badPid_ok _
  | cons p ps ih =>
    unfold findStopped
    rw [badPid_bind]
    rintro (h | ⟨-, -, h⟩)
    · exact not_badPid_deref h
    · split at h
      · exact not_badPid_ok _ h
      · exact ih h

theorem Kernel.Base.pid_nonneg (hb : k.Base) (p : Nat) : 0 ≤ (k.proc p).pid := by
  rcases Nat.lt_or_ge p k.nextProc with hlt | hge
  · rcases eq_or_ne p 0 with rfl | hne
    · exact Int.le_of_eq hb.idle.1.symm
    · exact Int.le_of_lt (hb.pid_pos p hne hlt)
  · exact Int.le_of_eq (hb.unused p hge).1.symm

theorem not_badPid_unmapProc (h : 0 ≤ pid) : ¬ BadPid (unmapProc k pid) := by
  have hindex : ¬ BadPid (hashIndex pid) := by
    unfold hashIndex
    dsimp only
    rw [if_neg (Int.not_lt.mpr (Int.tmod_nonneg _ h))]
    exact not_badPid_ok _
  unfold unmapProc mapProc
  rw [badPid_bind, badPid_bind]
  rintro ((h | ⟨_, _, h⟩) | ⟨o, _, h⟩)
  · exact hindex h
  · exact not_badPid_ok _ h
  · cases o <;> exact not_badPid_ok _ h

theorem not_badPid_waitTail (hpid : ∀ p, 0 ≤ (k.proc p).pid) : ¬ BadPid (waitTail k) := by
  unfold waitTail
  rw [badPid_bind]
  rintro (h | ⟨o, -, h⟩)
  · exact not_badPid_findStopped h
  · cases o with
    | none => exact h.elim nofun nofun
    | some child =>
      have hchild : 0 ≤ ((k.setCur { k.cur with signal := 0 }).proc child).pid := by
        rw [Kernel.setCur, set_pid (P := { k.cur with signal := 0 }) rfl]
        exact hpid child
      unfold reap at h
      rw [badPid_bind, badPid_bind] at h
      rcases h with (h | ⟨_, _, h⟩) | ⟨_, _, h⟩
      · exact not_badPid_unmapProc hchild h
      · exact not_badPid_ok _ h
      · exact not_badPid_ok _ h

theorem not_badPid_doWait (hpid : ∀ p, 0 ≤ (k.proc p).pid) : ¬ BadPid (doWait k) := by
  unfold doWait
  split
  · exact not_badPid_ok _
  · split
    · exact not_badPid_ok _
    · exact not_badPid_waitTail hpid

/-! ## Exit and fork -/

theorem findProc_congr (hhash : k'.hashMap = k.hashMap)
    (hproc : ∀ i, ∀ p ∈ k.hashMap i, (k'.proc p).pid = (k.proc p).pid ∧ k'.alive p = k.alive p) :
    findProc k' pid = findProc k pid := by
  unfold findProc mapProc
  cases hi : hashIndex pid with
  | error e => rfl
  | ok i =>
    have hfind : (k'.hashMap i).find? (fun p => (k'.proc p).pid = pid) =
        (k.hashMap i).find? fun p => (k.proc p).pid = pid := by
      rw [hhash]
      refine List.find?_congr fun p hp => ?_
      rw [(hproc i p hp).1]
    show (Except.ok ((k'.hashMap i).find? _) >>= _ : Except Fault Nat) =
      Except.ok ((k.hashMap i).find? _) >>= _
    rw [hfind]
    cases hf : (k.hashMap i).find? fun p => (k.proc p).pid = pid with
    | none => rfl
    | some p =>
      show (k'.deref p >>= _) = (k.deref p >>= _)
      unfold Kernel.deref
      rw [(hproc i p (List.mem_of_find?_eq_some hf)).2]

/-- The loop of `do_exit` meets no pointer to a freed process. -/
def Kernel.CanAdopt (k : Kernel) : Prop :=
  k.cur.children = [] ∨ ∃ parent, k.cur.parent = some parent ∧
    ∀ p ∈ parent :: (k.proc parent).children.take 1 ++ k.cur.children, k.alive p = true

theorem derefAll_ok : (∃ u, k.derefAll ps = .ok u) ↔ ∀ p ∈ ps, k.alive p = true := by
  unfold Kernel.derefAll
  split
  · rename_i h
    exact iff_of_true ⟨(), rfl⟩ (List.all_eq_true.mp h)
  · rename_i h
    exact iff_of_false nofun fun ha => h (List.all_eq_true.mpr ha)

theorem adopt_ok : (∃ k', adopt k = .ok k') ↔ k.CanAdopt := by
  unfold adopt Kernel.CanAdopt
  split
  · rename_i hc
    exact iff_of_true ⟨k, rfl⟩ (Or.inl hc)
  · rename_i hc hp
    rw [hc, hp]
    exact iff_of_false nofun (by rintro (h | ⟨_, h, -⟩) <;> cases h)
  · rename_i parent hp hc
    rw [or_iff_right hc, hp]
    constructor
    · rintro ⟨k', h⟩
      obtain ⟨u, hu, -⟩ := bind_eq_ok h
      exact ⟨parent, rfl, derefAll_ok.mp ⟨u, hu⟩⟩
    · rintro ⟨_, ⟨⟩, h⟩
      obtain ⟨u, hu⟩ := derefAll_ok.mpr h
      exact ⟨_, by rw [hu]; rfl⟩

theorem Kernel.Base.badPid_doExit {status : BitVec 32} {env : Env} (hb : k.Base) :
    BadPid (doExit k status env) ↔ k.CanAdopt ∧ ¬ k.HasPid ipcVfs := by
  have hcall : ∀ k₁, adopt k = .ok k₁ → findProc k₁ ipcVfs = findProc k ipcVfs ∧ k₁.cur.pid ≠ ipcIntr := by
    intro k₁ hadopt
    obtain ⟨halike, -, -⟩ := adopt_alike hadopt
    refine ⟨findProc_congr halike.hashMap fun _ p _ => ⟨(halike.proc p).pid, ?_⟩, (halike.base hb).pid_ne_intr _⟩
    rw [halike.alive]
  unfold doExit
  rw [badPid_bind, or_iff_right not_badPid_adopt, ← adopt_ok, ← hb.badPid_findProc]
  constructor
  · rintro ⟨k₁, hadopt, h⟩
    obtain ⟨hfind, hsrc⟩ := hcall k₁ hadopt
    rw [badPid_doSendrecv_bind hsrc fun _ => not_badPid_ok _, hfind] at h
    exact ⟨⟨k₁, hadopt⟩, h⟩
  · rintro ⟨⟨k₁, hadopt⟩, h⟩
    obtain ⟨hfind, hsrc⟩ := hcall k₁ hadopt
    refine ⟨k₁, hadopt, ?_⟩
    rw [badPid_doSendrecv_bind hsrc fun _ => not_badPid_ok _, hfind]
    exact h

theorem newProc_isOk : (∃ r, newProc k = .ok r) ↔ k.CanLink := by
  unfold newProc Kernel.CanLink
  constructor
  · rintro ⟨r, h⟩
    obtain ⟨u, hu, -⟩ := bind_eq_ok h
    exact derefAll_ok.mp ⟨u, hu⟩
  · intro h
    obtain ⟨u, hu⟩ := derefAll_ok.mpr h
    exact ⟨_, congrArg (· >>= _) hu⟩

theorem newProc_frame {child : Nat} (h : newProc k = .ok (child, k')) : k'.hashMap = k.hashMap ∧
    k'.current = k.current ∧ ∀ p, p ≠ k.nextProc → (k'.proc p).pid = (k.proc p).pid ∧ k'.alive p = k.alive p := by
  obtain ⟨⟨⟩, -, h⟩ := bind_eq_ok h
  cases h
  refine ⟨rfl, rfl, fun p hp => ⟨?_, Function.update_of_ne hp ..⟩⟩
  refine (set_pid ?_ p).trans ?_
  · rfl
  · rw [set_proc_of_ne hp]

theorem Kernel.Base.badPid_doFork {env : Env} (hb : k.Base) (hready : k.cur.phase = .ready) :
    BadPid (doFork k env) ↔ env.pages = true ∧ env.pgd = true ∧ k.CanLink ∧ ¬ k.HasPid ipcVfs := by
  have hne : k.current ≠ k.nextProc := by
    intro he
    have hunused := (hb.unused k.current (Nat.le_of_eq he.symm)).2.2.1
    exact absurd (hready.symm.trans hunused) (by decide)
  have hcall : ∀ child k₁, newProc k = .ok (child, k₁) →
      findProc k₁ ipcVfs = findProc k ipcVfs ∧ k₁.cur.pid ≠ ipcIntr := by
    intro child k₁ hnew
    obtain ⟨hhash, hcur, hproc⟩ := newProc_frame hnew
    refine ⟨findProc_congr hhash fun i p hp => hproc p (hb.ne_nextProc (hb.hash i p hp).1), ?_⟩
    rw [Kernel.cur, hcur, (hproc _ hne).1]
    exact hb.pid_ne_intr _
  unfold doFork
  cases env.pages with
  | false => exact iff_of_false (not_badPid_ok _) (by rintro ⟨⟨⟩, -⟩)
  | true =>
    rw [and_iff_right rfl]
    show BadPid (newProc k >>= _) ↔ _
    rw [badPid_bind, or_iff_right not_badPid_newProc, ← newProc_isOk, ← hb.badPid_findProc]
    cases env.pgd with
    | false =>
      refine iff_of_false ?_ (by rintro ⟨⟨⟩, -⟩)
      rintro ⟨⟨child, k₁⟩, -, h⟩
      exact not_badPid_ok _ h
    | true =>
      rw [and_iff_right rfl]
      constructor
      · rintro ⟨⟨child, k₁⟩, hnew, h⟩
        obtain ⟨hfind, hsrc⟩ := hcall child k₁ hnew
        refine ⟨⟨_, hnew⟩, ?_⟩
        rw [← hfind]
        exact (badPid_doSendrecv_bind hsrc fun _ => not_badPid_ok _).mp h
      · rintro ⟨⟨⟨child, k₁⟩, hnew⟩, h⟩
        obtain ⟨hfind, hsrc⟩ := hcall child k₁ hnew
        refine ⟨_, hnew, ?_⟩
        rw [← hfind] at h
        exact (badPid_doSendrecv_bind hsrc fun _ => not_badPid_ok _).mpr h

/-! ## Steps -/

def Kernel.Targets (k : Kernel) (pid : Int) : Action → Prop
  | .call (.send dst _) => pid = dst
  | .call (.recv src _) => pid = src ∧ src ≠ ipcAll ∧ src ≠ ipcIntr
  | .call (.sendrecv dst _) => pid = dst
  | .call (.exit _ _) => pid = ipcVfs ∧ k.CanAdopt
  | .call (.fork env) => pid = ipcVfs ∧ env.pages = true ∧ env.pgd = true ∧ k.CanLink
  | .hwint ind => pid = k.hwProc ind ∧ k.hwProc ind ≠ 0
  | .resume =>
    match k.cur.kont with
    | .send _ _ (.rpc dst _) => pid = dst ∧ dst ≠ ipcAll ∧ dst ≠ ipcIntr
    | _ => False
  | _ => False

def Kernel.Misses (k : Kernel) (a : Action) : Prop := ∃ pid, k.Targets pid a ∧ ¬ k.HasPid pid

theorem not_badPid_switch :
    ¬ BadPid (match flow with | .switched k => (pure k : Except Fault Kernel) | .returned k _ => pure (toUser k)) := by
  cases flow <;> exact not_badPid_ok _

theorem Kernel.Base.badPid_call (hb : k.Base) (hready : k.cur.phase = .ready) (c : Call) :
    BadPid (call k c) ↔ k.Misses (.call c) := by
  have hsrc : k.cur.pid ≠ ipcIntr := hb.pid_ne_intr k.current
  unfold Kernel.Misses Kernel.Targets
  cases c with
  | send dst msg =>
    unfold call
    rw [badPid_bind, badPid_doSend, hb.badPid_findProc, exists_eq_left]
    refine or_iff_left ?_
    rintro ⟨flow, -, h⟩
    exact not_badPid_switch h
  | recv src msg =>
    unfold call
    rw [badPid_bind, hb.badPid_doRecv]
    simp only [and_assoc, exists_eq_left, not_or]
    refine or_iff_left ?_
    rintro ⟨flow, -, h⟩
    exact not_badPid_recvReturn_syscall h
  | sendrecv dst msg =>
    unfold call
    rw [badPid_doSendrecv_bind hsrc fun _ => not_badPid_ok _, hb.badPid_findProc, exists_eq_left]
  | exit status env =>
    unfold call
    rw [hb.badPid_doExit]
    simp only [and_assoc, exists_eq_left]
  | fork env =>
    unfold call
    rw [hb.badPid_doFork hready]
    simp only [and_assoc, exists_eq_left]
  | wait => exact iff_of_false (not_badPid_doWait hb.pid_nonneg) (by rintro ⟨_, ⟨⟩, -⟩)
  | registerIrq vector => exact iff_of_false (not_badPid_ok _) (by rintro ⟨_, ⟨⟩, -⟩)
  | unregisterIrq vector => exact iff_of_false (not_badPid_ok _) (by rintro ⟨_, ⟨⟩, -⟩)
  | other => exact iff_of_false (not_badPid_ok _) (by rintro ⟨_, ⟨⟩, -⟩)

theorem Kernel.Base.badPid_secondHalf {caller : RpcCaller} (hb : k.Base)
    (hpid : ∀ child, caller = .fork child → 0 < (k.proc child).pid) :
    BadPid (doRecv k dst msg (.rpc caller) >>= recvReturn (.rpc caller)) ↔
      ¬ (dst = ipcAll ∨ dst = ipcIntr ∨ k.HasPid dst) := by
  rw [badPid_bind, hb.badPid_doRecv]
  refine or_iff_left ?_
  rintro ⟨flow, hr, h⟩
  refine not_badPid_recvReturn ?_ h
  rintro child k' m ⟨⟩ rfl
  rw [doRecv_pid hr]
  exact hpid child rfl

theorem Kernel.Inv.badPid_resume (h : k.Inv s₀ strict) : BadPid (resume k) ↔ k.Misses .resume := by
  have hkont := h.kont k.current
  have hfork := h.base.fork k.current
  unfold Kernel.Misses Kernel.Targets resume
  rw [show (k.proc k.current).kont = k.cur.kont from rfl] at hkont hfork
  generalize k.cur.kont = kont at hkont hfork ⊢
  have hmiss : ∀ {r : Except Fault Kernel}, ¬ BadPid r → (BadPid r ↔ ∃ pid, False ∧ ¬ k.HasPid pid) :=
    fun hr => iff_of_false hr (by rintro ⟨_, ⟨⟩, -⟩)
  cases kont with
  | user => exact hmiss (not_badPid_ok _)
  | send dest msg caller =>
    cases caller with
    | syscall => exact hmiss (not_badPid_ok _)
    | rpc dst caller =>
      have hpid : ∀ child, caller = .fork child → 0 < (k.proc child).pid := by
        rintro child rfl
        exact (hfork.pending child rfl).pid
      have hbase := (emit_alike k (.sent k.current)).base h.base
      simp only [and_assoc, exists_eq_left]
      refine (hbase.badPid_secondHalf hpid).trans ?_
      rw [not_or, not_or]
      rfl
  | recvAll msg caller =>
    obtain ⟨rfl, -⟩ := hkont
    refine hmiss fun hbad => ?_
    rcases badPid_bind.mp hbad with hbad | ⟨flow, -, hbad⟩
    · exact not_badPid_recvAll hbad
    · exact not_badPid_recvReturn_syscall hbad
  | recvIntr msg caller =>
    obtain ⟨rfl, -⟩ := hkont
    exact hmiss not_badPid_recvReturn_syscall
  | recvFrom source msg caller =>
    refine hmiss fun hbad => ?_
    rcases badPid_bind.mp hbad with hbad | ⟨flow, htake, hbad⟩
    · exact not_badPid_takeMessage hbad
    · refine not_badPid_recvReturn ?_ hbad
      rintro child k' m rfl rfl
      cases takeMessage_ok htake
      rw [copyMessage_pid]
      exact (hfork.pending child rfl).pid
  | wait => exact hmiss (not_badPid_waitTail h.base.pid_nonneg)
  | forkTail child => exact hmiss (not_badPid_ok _)
  | dead => exact hmiss fun hbad => hbad.elim nofun nofun

theorem Kernel.Base.badPid_hwint {ind : Nat} (hb : k.Base) :
    BadPid (hwint k ind) ↔ k.hwProc ind ≠ 0 ∧ ¬ k.HasPid (k.hwProc ind) := by
  unfold hwint
  split
  · rename_i hzero
    exact iff_of_false (not_badPid_ok _) fun h => h.1 hzero
  · rename_i hne
    rw [badPid_bind, badPid_doSend, hb.badPid_findProc, and_iff_right hne]
    refine or_iff_left ?_
    rintro ⟨flow, -, h⟩
    cases flow <;> exact not_badPid_ok _ h

theorem Kernel.Inv.badPid_act (h : k.Inv s₀ strict) (a : Action) : BadPid (act k a) ↔ k.Misses a := by
  cases a with
  | call c => exact h.base.badPid_call h.ready c
  | timer => exact iff_of_false (not_badPid_ok _) (by rintro ⟨_, ⟨⟩, -⟩)
  | hwint ind =>
    refine h.base.badPid_hwint.trans ⟨fun ⟨hne, hpid⟩ => ⟨_, ⟨rfl, hne⟩, hpid⟩, ?_⟩
    rintro ⟨pid, ⟨rfl, hne⟩, hpid⟩
    exact ⟨hne, hpid⟩
  | signal p signal =>
    refine iff_of_false (fun hbad => ?_) (by rintro ⟨_, ⟨⟩, -⟩)
    rcases badPid_bind.mp hbad with hbad | ⟨-, -, hbad⟩
    · exact not_badPid_deref hbad
    · exact not_badPid_ok _ hbad
  | resume => exact h.badPid_resume

/-! ## System calls with any pid -/

theorem state_ne_stopped {P : Proc} : P.state ≠ .stopped ↔ P.phase ≠ .stopped := by
  unfold Proc.phase
  cases P.state <;> decide

theorem Kernel.Base.findProc_live (hb : k.Base) :
    (∃ p, findProc k pid = .ok p ∧ (k.proc p).state ≠ .stopped ∧ k.alive p = true) ↔ k.LivePid pid := by
  constructor
  · rintro ⟨p, hfind, hstate, halive⟩
    obtain ⟨hhash, hpid⟩ := mapProc_some (findProc_ok hfind).1
    exact ⟨p, hpid, hhash, state_ne_stopped.mp hstate, halive⟩
  · intro h
    obtain ⟨q, hq, ⟨i, hi⟩, -⟩ := id h
    obtain ⟨p, hfind⟩ := hb.findProc_of_hasPid ⟨i, q, hi, hq⟩
    obtain ⟨-, hphase, halive⟩ := h.live hb hfind
    exact ⟨p, hfind, state_ne_stopped.mpr hphase, halive⟩

/-- A step stays in the hash map and uses no missing process exactly when the pids it looks up are in the table, and no
exited one exactly when none of them belongs to such. -/
theorem addresses_live_iff (h : k.Reach) (a : Action) :
    (¬ BadPid (act k a) ↔ ∀ pid, k.Targets pid a → k.HasPid pid) ∧
    ((¬ BadPid (act k a) ∧ ∀ pid, k.Targets pid a →
        ∃ p, findProc k pid = .ok p ∧ (k.proc p).state ≠ .stopped ∧ k.alive p = true) ↔
      ∀ pid, k.Targets pid a → k.LivePid pid) := by
  obtain ⟨s₀, -, hinv⟩ := h.inv
  have hbad : ¬ BadPid (act k a) ↔ ∀ pid, k.Targets pid a → k.HasPid pid := by
    rw [hinv.badPid_act]
    unfold Kernel.Misses
    push Not
    exact Iff.rfl
  refine ⟨hbad, ?_⟩
  simp only [hinv.base.findProc_live]
  refine and_iff_right_of_imp fun hlive => hbad.mpr fun pid ht => ?_
  obtain ⟨q, hq, ⟨i, hi⟩, -⟩ := hlive pid ht
  exact ⟨i, q, hi, hq⟩

/-- The first boot module is running, and the second has pid 3. -/
def Kernel.SecondIsThree (k : Kernel) : Prop :=
  k.enabled (.call .other) = true ∧ k.hashMap 3 = [2] ∧ (k.proc 2).pid = 3 ∧ (k.proc 2).phase ≠ .stopped ∧
    k.alive 2 = true

instance : DecidablePred Kernel.SecondIsThree := fun _ => inferInstanceAs (Decidable (_ ∧ _))

theorem addresses_live_second : ∃ k : Kernel, k.Reach ∧ k.SecondIsThree ∧ ¬ BadPid (call k (sysSend 3 default)) := by
  have hexec : (procInit 24 [2, 3, 4]).toOption.any (fun k => (exec Kernel.step Kernel.PidLeft k [.timer]).any
      fun k => decide k.SecondIsThree) = true := by decide
  obtain ⟨k, hk, hthree⟩ := exists_run_of_exec (by decide) (by decide) hexec
  obtain ⟨-, hhash, hpid, hphase, halive⟩ := id hthree
  have hmem : 2 ∈ k.hashMap 3 := by
    rw [hhash]
    exact List.mem_singleton_self 2
  refine ⟨k, hk, hthree, (((addresses_live_iff hk (.call (sysSend 3 default))).2.mpr ?_).1)⟩
  rintro pid rfl
  exact ⟨2, hpid, ⟨3, hmem⟩, hphase, halive⟩

instance {r : Except Fault α} {e : Fault} : Decidable (r = .error e) :=
  match r with
  | .ok _ => .isFalse nofun
  | .error e' => decidable_of_iff (e' = e) ⟨congrArg _, Except.error.inj⟩

/-- All three calls use a pid that no process has, and leave the hash map for a negative one. -/
def Kernel.Exposed (k : Kernel) : Prop :=
  k.enabled (.call .other) = true ∧ call k (sysSend 99 default) = .error .noProc ∧
    call k (sysRecv 99 default) = .error .noProc ∧ call k (sysSendrecv 99 default default) = .error .noProc ∧
    call k (sysSend 0xffffffff default) = .error .badIndex

instance : DecidablePred Kernel.Exposed := fun _ => inferInstanceAs (Decidable (_ ∧ _))

theorem unknown_pid_used : ∃ k : Kernel, k.Reach ∧ k.Exposed := by
  have hexec : (procInit 24 [2, 3, 4]).toOption.any (fun k => (exec Kernel.step Kernel.PidLeft k [.timer]).any
      fun k => decide k.Exposed) = true := by decide
  exact exists_run_of_exec (by decide) (by decide) hexec

end FengOS.Core
