import FengOS.Core.Lemmas.Calls

/-!
# The process table
-/

namespace FengOS.Core

open FengOS.Lib.Rendezvous

variable {strict : Prop} {k k' : Kernel} {p q child : Nat} {s₀ : State Nat Message} {a : Status Nat Message}

/-! ## Changing the tables -/

theorem Kernel.Base.tables (hb : k.Base) {procHead : List Nat} {hashMap : Nat → List Nat} {alive : Nat → Bool}
    (hidle : alive 0 = true) (halive : ∀ p, alive p = true → k.alive p = true) (hfreed : ∀ p, alive p = false →
      (k.proc p).phase = .stopped ∨ (k.proc p).phase = .sending ∧ (k.proc p).wait = ipcNowait)
    (hhash : ∀ i, ∀ p ∈ hashMap i, 0 < (k.proc p).pid ∧ (i : Int) = (k.proc p).pid % procHashMapSize)
    (hhash_alive : ∀ i, ∀ p ∈ hashMap i, alive p = true) (hnodup : ∀ i, (hashMap i).Nodup)
    (hcopy : ∀ p child, (k.proc p).kont.copyChild = some child → ∀ i, child ∉ hashMap i)
    (hpending : ∀ p child, (k.proc p).kont.forkChild = some child → alive child = true) :
    { k with procHead := procHead, hashMap := hashMap, alive := alive }.Base where
  idle := ⟨hb.idle.1, hb.idle.2.1, hb.idle.2.2.1, hidle⟩
  unused := hb.unused
  alive_lt p hp := hb.alive_lt p (halive p hp)
  pid_pos := hb.pid_pos
  pid_le := hb.pid_le
  global := hb.global
  pid_inj := hb.pid_inj
  hash := hhash
  hash_alive := hhash_alive
  hash_nodup := hnodup
  linked := hb.linked
  unlinked := hb.unlinked
  alarm := hb.alarm
  freed := hfreed
  fork p := by
    refine ⟨fun child hc => ?_, hcopy p⟩
    obtain ⟨h₁, h₂, h₃, h₄, h₅, -⟩ := (hb.fork p).pending child hc
    exact ⟨h₁, h₂, h₃, h₄, h₅, hpending p child hc⟩

theorem Kernel.Busy.tables (h : k.Busy s₀ strict a) {procHead : List Nat} {hashMap : Nat → List Nat}
    {alive : Nat → Bool} (hbase : { k with procHead := procHead, hashMap := hashMap, alive := alive }.Base)
    (hlive : ∀ q, k.Live q → { k with procHead := procHead, hashMap := hashMap, alive := alive }.Live q) :
    { k with procHead := procHead, hashMap := hashMap, alive := alive }.Busy s₀ strict a where
  base := hbase
  kont p hp := (h.kont p hp).mono rfl rfl rfl rfl id (fun _ _ => rfl) (fun _ _ => Iff.rfl) fun _ q _ => hlive q
  ready := h.ready
  user := h.user
  trace := h.trace

theorem Kernel.Busy.free (h : k.Busy s₀ strict a) {procHead : List Nat} {hashMap : Nat → List Nat}
    (hchild : (k.proc child).phase = .stopped ∨ (k.proc child).phase = .sending ∧ (k.proc child).wait = ipcNowait)
    (hforked : ∀ p, (k.proc p).kont.forkChild ≠ some child) (hsub : ∀ i, (hashMap i).Sublist (k.hashMap i))
    (hgone : ∀ i, child ∉ hashMap i) (hkeep : ∀ q, k.Live q → ∃ i, q ∈ hashMap i) :
    { k with
      procHead := procHead, hashMap := hashMap, alive := Function.update k.alive child false }.Busy s₀ strict a := by
  have hidle : 0 ≠ child := by
    rintro rfl
    rcases hchild with hc | ⟨hc, -⟩ <;> rw [h.base.idle.2.2.1] at hc <;> cases hc
  apply h.tables
  case hbase =>
    apply h.base.tables
    case hidle => exact (Function.update_of_ne hidle ..).trans h.base.idle.2.2.2
    case halive =>
      intro p hp
      rcases eq_or_ne p child with rfl | hne
      · rw [Function.update_self] at hp
        cases hp
      · exact (Function.update_of_ne hne ..).symm.trans hp
    case hfreed =>
      intro p hp
      rcases eq_or_ne p child with rfl | hne
      · exact hchild
      · exact h.base.freed p ((Function.update_of_ne hne ..).symm.trans hp)
    case hhash => exact fun i p hp => h.base.hash i p ((hsub i).subset hp)
    case hhash_alive =>
      intro i p hp
      exact (Function.update_of_ne (ne_of_mem_of_not_mem hp (hgone i)) ..).trans
        (h.base.hash_alive i p ((hsub i).subset hp))
    case hnodup => exact fun i => (h.base.hash_nodup i).sublist (hsub i)
    case hcopy => exact fun p c hc i hi => (h.base.fork p).unhashed c hc i ((hsub i).subset hi)
    case hpending =>
      intro p c hc
      have hne : c ≠ child := fun he => hforked p (he ▸ hc)
      exact (Function.update_of_ne hne ..).trans ((h.base.fork p).pending c hc).alive
  case hlive =>
    intro q hq
    obtain ⟨i, hi⟩ := hkeep q hq
    exact ⟨⟨i, hi⟩, hq.2.1, (Function.update_of_ne (ne_of_mem_of_not_mem hi (hgone i)) ..).trans hq.2.2⟩

/-! ## The hash map -/

theorem Kernel.Base.unmapProc_ok (hb : k.Base) (h : unmapProc k (k.proc child).pid = .ok k')
    (hpid : 0 < (k.proc child).pid) : ∃ hashMap, k' = { k with hashMap := hashMap } ∧
      (∀ i, (hashMap i).Sublist (k.hashMap i)) ∧ (∀ i, child ∉ hashMap i) ∧
      ∀ i, ∀ p ∈ k.hashMap i, p ≠ child → p ∈ hashMap i := by
  obtain ⟨o, ho, h⟩ := bind_eq_ok h
  cases o with
  | none =>
    cases h
    refine ⟨k.hashMap, rfl, fun _ => .refl _, fun i hi => ?_, fun _ _ hp _ => hp⟩
    -- the search looks at the bucket in which the child would be
    obtain ⟨j, hj, ho⟩ := bind_eq_ok ho
    have hij : i = j := Int.ofNat_inj.mp ((hb.hash i child hi).2.trans (hashIndex_ok hj hpid).symm)
    have hnone : (k.hashMap j).find? (fun p => (k.proc p).pid = (k.proc child).pid) = none := Except.ok.inj ho
    rw [List.find?_eq_none] at hnone
    exact hnone child (hij ▸ hi) (decide_eq_true rfl)
  | some q =>
    cases h
    obtain ⟨⟨j, hj⟩, hq⟩ := mapProc_some ho
    obtain rfl := hb.pid_inj q child hq (hq ▸ hpid)
    refine ⟨fun i => (k.hashMap i).erase q, rfl, fun i => List.erase_sublist, fun i hi => ?_, fun i p hp hne => ?_⟩
    · exact ((hb.hash_nodup i).mem_erase_iff.mp hi).1 rfl
    · exact (List.mem_erase_of_ne hne).mpr hp

theorem hashProc_ok (h : hashProc k child = .ok k') (hpid : 0 < (k.proc child).pid) : ∃ i : Nat,
    (i : Int) = (k.proc child).pid % procHashMapSize ∧
      k' = { k with hashMap := Function.update k.hashMap i (k.hashMap i ++ [child]) } := by
  obtain ⟨i, hi, h⟩ := bind_eq_ok h
  cases h
  exact ⟨i, hashIndex_ok hi hpid, rfl⟩

theorem mem_update_append {hashMap : Nat → List Nat} {i j : Nat} :
    p ∈ Function.update hashMap i (hashMap i ++ [child]) j ↔ p ∈ hashMap j ∨ p = child ∧ j = i := by
  rcases eq_or_ne j i with rfl | hne
  · rw [Function.update_self, List.mem_append, List.mem_singleton, and_iff_left rfl]
  · rw [Function.update_of_ne hne, or_iff_left fun h => hne h.2]

theorem Kernel.Base.linkChild (h : k.Base) (procHead : List Nat) {i : Nat} (hpid : 0 < (k.proc child).pid)
    (hi : (i : Int) = (k.proc child).pid % procHashMapSize) (halive : k.alive child = true)
    (hnew : child ∉ k.hashMap i) (hcopy : ∀ p, (k.proc p).kont.copyChild ≠ some child) :
    { k with
      procHead := procHead
      hashMap := Function.update k.hashMap i (k.hashMap i ++ [child]) }.Base := by
  apply h.tables h.idle.2.2.2 (fun _ => id) h.freed
  case hpending => exact fun p c hc => ((h.fork p).pending c hc).alive
  case hhash =>
    intro j p hp
    rcases mem_update_append.mp hp with hp | ⟨rfl, rfl⟩
    · exact h.hash j p hp
    · exact ⟨hpid, hi⟩
  case hhash_alive =>
    intro j p hp
    rcases mem_update_append.mp hp with hp | ⟨rfl, -⟩
    · exact h.hash_alive j p hp
    · exact halive
  case hnodup =>
    intro j
    rcases eq_or_ne j i with rfl | hne
    · rw [Function.update_self]
      refine List.nodup_append.mpr ⟨h.hash_nodup j, List.pairwise_singleton _ _, fun p hp c hc => ?_⟩
      rw [List.mem_singleton.mp hc]
      exact ne_of_mem_of_not_mem hp hnew
    · rw [Function.update_of_ne hne]
      exact h.hash_nodup j
  case hcopy =>
    intro p c hc j hj
    rcases mem_update_append.mp hj with hj | ⟨rfl, -⟩
    · exact (h.fork p).unhashed c hc j hj
    · exact hcopy p hc

theorem Kernel.Busy.linkChild (h : k.Busy s₀ strict a) (procHead : List Nat) {i : Nat} (hpid : 0 < (k.proc child).pid)
    (hi : (i : Int) = (k.proc child).pid % procHashMapSize) (halive : k.alive child = true)
    (hnew : child ∉ k.hashMap i) (hcopy : ∀ p, (k.proc p).kont.copyChild ≠ some child) :
    { k with
      procHead := procHead
      hashMap := Function.update k.hashMap i (k.hashMap i ++ [child]) }.Busy s₀ strict a := by
  refine h.tables (h.base.linkChild procHead hpid hi halive hnew hcopy) ?_
  rintro q ⟨⟨j, hj⟩, hq⟩
  exact ⟨⟨j, mem_update_append.mpr (Or.inl hj)⟩, hq⟩

/-! ## A new process -/

section New

variable {g : Int} {P : Proc}

def Kernel.withProc (k : Kernel) (g : Int) (P : Proc) : Kernel :=
  { k with
    globalPid := g
    alive := Function.update k.alive k.nextProc true
    nextProc := k.nextProc + 1 }.set k.nextProc P

structure Kernel.Fresh (k : Kernel) (g : Int) (P : Proc) : Prop where
  pid_pos : 0 < P.pid
  pid_le : P.pid ≤ g
  global : k.globalPid ≤ g ∧ g < ipcSignal
  unused : ∀ p, (k.proc p).pid ≠ P.pid
  unawaited : ∀ p, (k.proc p).phase = .sending → (k.proc p).wait ≠ P.pid
  wait : P.wait = ipcNowait
  waitProc : P.waitProc = []
  alarm : P.alarm = 0
  kont : P.kont = .user
  hasIntr : P.hasIntr = false

theorem withProc_proc_of_ne (h : p ≠ k.nextProc) : (k.withProc g P).proc p = k.proc p := set_proc_of_ne h _

theorem withProc_proc_self : (k.withProc g P).proc k.nextProc = P := set_proc_self ..

theorem Kernel.Base.ne_nextProc (h : k.Base) (hp : 0 < (k.proc p).pid) : p ≠ k.nextProc :=
  Nat.ne_of_lt (h.lt_of_pid hp)

theorem Kernel.Fresh.linked (hf : k.Fresh g P) (h : k.Base) : (k.withProc g P).Linked p q ↔ k.Linked p q := by
  have hunused := h.unused k.nextProc (Nat.le_refl _)
  rcases eq_or_ne p k.nextProc with rfl | hp
  · have hold : ¬ k.Linked k.nextProc q := linked_of_not_sending (by rw [hunused.2.2.1]; nofun)
    refine iff_of_false (fun hl => ?_) hold
    have hwait := hl.2.1
    rw [withProc_proc_self, hf.wait] at hwait
    exact absurd (hwait ▸ hl.2.2) (by decide)
  · rcases eq_or_ne q k.nextProc with rfl | hq
    · refine iff_of_false (fun hl => ?_) fun hl => ?_
      · rw [Kernel.Linked, withProc_proc_of_ne hp, withProc_proc_self] at hl
        exact hf.unawaited p hl.1 hl.2.1
      · rw [Kernel.Linked, hunused.1] at hl
        exact absurd hl.2.2 (by decide)
    · exact linked_congr (by rw [withProc_proc_of_ne hp]) (by rw [withProc_proc_of_ne hp])
        (by rw [withProc_proc_of_ne hq])

theorem Kernel.Fresh.base (hf : k.Fresh g P) (h : k.Base) : (k.withProc g P).Base := by
  have hzero : 0 ≠ k.nextProc := Nat.ne_of_lt (h.alive_lt 0 h.idle.2.2.2)
  constructor
  case idle =>
    rw [withProc_proc_of_ne hzero]
    exact ⟨h.idle.1, h.idle.2.1, h.idle.2.2.1, (Function.update_of_ne hzero ..).trans h.idle.2.2.2⟩
  case unused =>
    intro p hp
    have hlt : k.nextProc < p := hp
    rw [withProc_proc_of_ne (Nat.ne_of_gt hlt)]
    exact h.unused p (Nat.le_of_lt hlt)
  case alive_lt =>
    intro p hp
    rcases eq_or_ne p k.nextProc with rfl | hne
    · exact Nat.lt_succ_self _
    · exact Nat.lt_succ_of_lt (h.alive_lt p ((Function.update_of_ne hne ..).symm.trans hp))
  case pid_pos =>
    intro p h₀ hp
    rcases eq_or_ne p k.nextProc with rfl | hne
    · rw [withProc_proc_self]
      exact hf.pid_pos
    · rw [withProc_proc_of_ne hne]
      exact h.pid_pos p h₀ (Nat.lt_of_le_of_ne (Nat.le_of_lt_succ hp) hne)
  case pid_le =>
    intro p
    rcases eq_or_ne p k.nextProc with rfl | hne
    · rw [withProc_proc_self]
      exact hf.pid_le
    · rw [withProc_proc_of_ne hne]
      exact Int.le_trans (h.pid_le p) hf.global.1
  case global => exact ⟨Int.le_trans h.global.1 hf.global.1, hf.global.2⟩
  case pid_inj =>
    intro p q he hpos
    rcases eq_or_ne p k.nextProc with rfl | hp <;> rcases eq_or_ne q k.nextProc with rfl | hq
    · rfl
    · rw [withProc_proc_self, withProc_proc_of_ne hq] at he
      exact absurd he.symm (hf.unused q)
    · rw [withProc_proc_self, withProc_proc_of_ne hp] at he
      exact absurd he (hf.unused p)
    · rw [withProc_proc_of_ne hp, withProc_proc_of_ne hq] at he
      rw [withProc_proc_of_ne hp] at hpos
      exact h.pid_inj p q he hpos
  case hash =>
    intro i p hp
    have hold := h.hash i p hp
    rw [withProc_proc_of_ne (h.ne_nextProc hold.1)]
    exact hold
  case hash_alive =>
    intro i p hp
    have hne := h.ne_nextProc (h.hash i p hp).1
    exact (Function.update_of_ne hne ..).trans (h.hash_alive i p hp)
  case hash_nodup => exact h.hash_nodup
  case linked =>
    intro p q hl
    have hl := (hf.linked h).mp hl
    rw [withProc_proc_of_ne (h.ne_nextProc hl.2.2)]
    exact h.linked p q hl
  case unlinked =>
    intro p q hl
    rcases eq_or_ne q k.nextProc with rfl | hne
    · rw [withProc_proc_self, hf.waitProc]
      nofun
    · rw [withProc_proc_of_ne hne]
      exact h.unlinked p q fun hl' => hl ((hf.linked h).mpr hl')
  case alarm =>
    intro p
    rcases eq_or_ne p k.nextProc with rfl | hne
    · rw [withProc_proc_self]
      exact hf.alarm
    · rw [withProc_proc_of_ne hne]
      exact h.alarm p
  case freed =>
    intro p hp
    rcases eq_or_ne p k.nextProc with rfl | hne
    · exact absurd (hp.symm.trans (Function.update_self ..)) (by decide)
    · rw [withProc_proc_of_ne hne]
      exact h.freed p ((Function.update_of_ne hne ..).symm.trans hp)
  case fork =>
    intro p
    rcases eq_or_ne p k.nextProc with rfl | hne
    · rw [withProc_proc_self, hf.kont]
      exact .of_none rfl
    · rw [withProc_proc_of_ne hne]
      refine ⟨fun c hc => ?_, (h.fork p).unhashed⟩
      obtain ⟨h₁, h₂, h₃, h₄, h₅, h₆⟩ := (h.fork p).pending c hc
      have hcne := h.ne_nextProc h₅
      refine ⟨?_, ?_, ?_, ?_, ?_, (Function.update_of_ne hcne ..).trans h₆⟩ <;> rw [withProc_proc_of_ne hcne] <;>
        assumption

theorem Kernel.Base.withProc_live (h : k.Base) (hq : k.Live q) : (k.withProc g P).Live q := by
  obtain ⟨⟨i, hi⟩, hphase, halive⟩ := hq
  have hne := h.ne_nextProc (h.hash i q hi).1
  refine ⟨⟨i, hi⟩, ?_, (Function.update_of_ne hne ..).trans halive⟩
  rw [withProc_proc_of_ne hne]
  exact hphase

theorem Kernel.Busy.busy_withProc (h : k.Busy s₀ strict a) (hf : k.Fresh g P)
    (hphase : P.phase = .ready ∨ P.phase = .sending) : (k.withProc g P).Busy s₀ strict a := by
  have hcur : k.current ≠ k.nextProc := Nat.ne_of_lt h.lt
  constructor
  case base => exact hf.base h.base
  case kont =>
    intro p hp
    rcases eq_or_ne p k.nextProc with rfl | hne
    · rw [withProc_proc_self, hf.kont, Kernel.KontOk, withProc_proc_self]
      exact hphase.imp_right fun hs => ⟨hs, hf.wait⟩
    · have hk := h.kont p hp
      rw [withProc_proc_of_ne hne]
      apply hk.mono
      case hpid =>
        intro q hq
        rw [withProc_proc_of_ne (h.base.ne_nextProc hq)]
      case hlink => exact fun q _ => hf.linked h.base
      case hlive => exact fun _ q _ => h.base.withProc_live
      case hqueue =>
        rw [withProc_proc_of_ne hne]
        exact id
      all_goals rw [withProc_proc_of_ne hne]
  case ready =>
    show ((k.withProc g P).proc k.current).phase = .ready
    rw [withProc_proc_of_ne hcur]
    exact h.ready
  case user => exact h.user
  case trace =>
    have hunused := h.base.unused k.nextProc (Nat.le_refl _)
    have hstatus : P.status = (k.proc k.nextProc).status := by rw [Proc.status, Proc.status, hunused.2.1, hf.kont]
    have hprotocol : (k.withProc g P).protocol = k.protocol :=
      protocol_set_of_status (k := { k with
        globalPid := g
        alive := Function.update k.alive k.nextProc true
        nextProc := k.nextProc + 1 }) hstatus (hf.hasIntr.trans hunused.2.2.2.symm)
    rw [hprotocol]
    exact h.trace

end New

end FengOS.Core
