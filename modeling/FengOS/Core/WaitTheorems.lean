import FengOS.Core.Lemmas.Wait
import FengOS.Core.TreeTheorems

/-!
# No child exit is lost
-/

namespace FengOS.Core

open FengOS.Lib FengOS.Lib.Rendezvous

variable {strict : Prop} {k k' : Kernel} {n p : Nat} {pids : List Int} {s₀ : State Nat Message}

/-! ## The boot -/

theorem Kernel.Booted.nursery (h : k.Booted n) (hu : k.Unsignalled) : k.Nursery n where
  owned p c hc := by
    rw [h.childless] at hc
    cases hc
  listed p c hnc ha := absurd (h.quiet.base.alive_lt c ha) (by simpa [h.next] using hnc)
  boot p c _ hp := hu.parent p c hp
  parent p c hnc ha := absurd (h.quiet.base.alive_lt c ha) (by simpa [h.next] using hnc)
  told p c hc := by
    rw [h.childless] at hc
    cases hc
  zombie p _ hs := by
    rw [hu.signal] at hs
    cases hs
  woken p hw := by
    rcases Nat.lt_or_ge p k.nextProc with hp | hp
    · cases (h.quiet.user p hp).1.symm.trans hw.1
    · cases (h.quiet.base.unused p hp).2.1.symm.trans hw.1
  bound := Nat.le_of_eq h.next.symm

theorem Kernel.Unsignalled.set {P : Proc} {p : Nat} (h : k.Unsignalled) (hsignal : P.signal = 0)
    (hparent : ∀ q, P.parent = some q → q = 0) : (k.set p P).Unsignalled := by
  constructor <;> intro q
  · rcases eq_or_ne q p with rfl | hne
    · simpa using hsignal
    · simpa [hne] using h.signal q
  · intro r
    rcases eq_or_ne r p with rfl | hne
    · simpa using hparent q
    · simpa [hne] using h.parent q r

theorem Kernel.Unsignalled.addModules (h : k.Unsignalled) (ha : pids.foldlM addModule k = .ok k') : k'.Unsignalled := by
  induction pids generalizing k with
  | nil =>
    cases ha
    exact h
  | cons pid pids ih =>
    obtain ⟨k₁, hadd, ha⟩ := bind_eq_ok ha
    obtain ⟨i, -, hadd⟩ := bind_eq_ok hadd
    cases hadd
    have hset : (k.set k.nextProc (moduleProc pid)).Unsignalled := h.set rfl fun q hq => (Option.some.inj hq).symm
    apply ih _ ha
    exact ⟨hset.signal, hset.parent⟩

theorem procInit_unsignalled {maxIntr : Nat} (h : procInit maxIntr pids = .ok k) : k.Unsignalled := by
  have hempty : (Kernel.empty maxIntr).Unsignalled := by
    constructor <;> intro p
    · rcases eq_or_ne p 0 with rfl | hp
      · rfl
      · rw [empty_proc_of_ne hp]
        rfl
    · intro q hq
      rcases eq_or_ne q 0 with rfl | hq₀
      · cases hq
      · rw [empty_proc_of_ne hq₀] at hq
        cases hq
  exact hempty.addModules h

/-! ## Runs -/

theorem Kernel.ReachTimely.nursery (h : k.ReachTimely n) : k.Nursery n ∧ ∃ s₀ : State Nat Message, k.Inv s₀ False := by
  apply Run.invariant (Q := fun k => k.Nursery n ∧ ∃ s₀ : State Nat Message, k.Inv s₀ False) _ _ h
  · exact fun k hk => ⟨hk.1.nursery hk.2, k.protocol, hk.1.quiet.inv⟩
  · rintro k a k' ⟨hn, s₀, hinv⟩ ⟨hpid, ht⟩ hstep
    exact ⟨hn.step hinv hstep hpid ht, s₀, hinv.step hstep hpid False.elim⟩

theorem Kernel.Inv.signal_ne (h : k.Inv s₀ strict) (hp : (k.proc p).phase = .receiving)
    (hwait : (k.proc p).wait = ipcSignal) : (k.proc p).signal ≠ sigchld := by
  rcases (h.kont p).receiving hp with ⟨hw, -⟩ | ⟨hw, -⟩ | ⟨source, hw, -⟩ | ⟨-, hs⟩
  · exact absurd (hwait.symm.trans hw) (by decide)
  · exact absurd (hwait.symm.trans hw) (by decide)
  · exact absurd (hw.symm.trans hwait) (Int.ne_of_lt (h.base.pid_lt_signal source))
  · exact hs

theorem Kernel.Nursery.pastWait {a : Action} (hn : k.Nursery n) (hi : k.Inv s₀ strict) (hen : k.enabled a = true)
    (ht : k.Timely a) (hpast : k.PastWait a) : k.current ≠ 0 ∧ k.cur.signal = sigchld ∧ k.Reapable := by
  cases a with
  | call c =>
    cases c with
    | wait =>
      have h₀ : k.cur.kont = .user ∧ k.current ≠ 0 := by simpa [Kernel.enabled] using hen
      exact ⟨h₀.2, hpast.2, ht hpast.1 hpast.2⟩
    | _ => cases hpast
  | resume =>
    have hkont : k.cur.kont = .wait := hpast
    have hreap : k.Reapable := by
      unfold Kernel.Timely at ht
      rw [hkont] at ht
      exact ht
    exact ⟨hi.current_ne (by simp [hkont]), hn.woken k.current ⟨hkont, hi.ready⟩, hreap⟩
  | _ => cases hpast

/-- In timely runs who sleeps in `do_wait` has no exited child, and past its wait `do_wait` finds one. -/
theorem no_lost_exit {k : Kernel} {n : Nat} (h : k.ReachTimely n) :
    (∀ p, (k.proc p).state = .receiving → (k.proc p).wait = ipcSignal → ∀ c ∈ (k.proc p).children,
      k.alive c = true → (k.proc c).state ≠ .stopped) ∧
    ∀ a, k.enabled a = true → k.Timely a → k.PastWait a →
      ∃ child ∈ k.cur.children, k.alive child = true ∧ (k.proc child).state = .stopped ∧
        findStopped (k.setCur { k.cur with signal := 0 }) k.cur.children = .ok (some child) := by
  obtain ⟨hn, s₀, hinv⟩ := h.nursery
  refine ⟨fun p hstate hwait c hc ha hs => ?_, fun a hen ht hpast => ?_⟩
  · exact hinv.signal_ne (phase_eq_receiving.mpr hstate) hwait (hn.told p c hc ⟨ha, phase_eq_stopped.mpr hs⟩)
  · obtain ⟨h₀, hs, hr⟩ := hn.pastWait hinv hen ht hpast
    obtain ⟨child, hc, ⟨ha, hphase⟩, hfind⟩ := hn.exists_findStopped h₀ hs hr
    exact ⟨child, hc, ha, phase_eq_stopped.mp hphase, hfind⟩

/-- The parent has been woken in `do_wait` by the exit of its child. -/
def Kernel.ChildWaited (k : Kernel) : Prop :=
  k.enabled .resume = true ∧ k.Timely .resume ∧ k.cur.kont = .wait ∧ k.cur.children = [3]

instance : DecidablePred Kernel.ChildWaited := fun _ => inferInstanceAs (Decidable (_ ∧ _))

theorem no_lost_exit_childWaited : ∃ k : Kernel, k.ReachTimely 3 ∧ k.ChildWaited ∧
    findStopped (k.setCur { k.cur with signal := 0 }) k.cur.children = .ok (some 3) := by
  have hexec : (procInit 24 [2, 3]).toOption.any (fun k => (exec Kernel.step (fun k a => k.PidLeft a ∧ k.Timely a) k
      forkAndExit).any fun k => decide k.ChildWaited) = true := by decide +kernel
  have hinit : ∀ k, procInit 24 [2, 3] = .ok k → k.Booted 3 ∧ k.Unsignalled := fun k hk =>
    ⟨procInit_booted hk (by decide) (by decide), procInit_unsignalled hk⟩
  obtain ⟨k, hk, hwaited⟩ := exists_of_procInit hinit hexec
  obtain ⟨hen, ht, hkont, hchildren⟩ := id hwaited
  obtain ⟨child, hc, -, -, hfind⟩ := (no_lost_exit hk).2 .resume hen ht hkont
  rw [hchildren, List.mem_singleton] at hc
  exact ⟨k, hk, hwaited, hc ▸ hfind⟩

/-! ## Two exits between two waits -/

/-- The second of two modules forks twice, both children exit, and it waits twice. -/
def forkTwice : List Action :=
  [.timer, .call (.recv ipcAll default), .call (.fork ⟨true, true, default⟩), .resume, .call (.send 3 default), .resume,
    .resume, .call (.fork ⟨true, true, default⟩), .resume, .call (.recv ipcAll default), .call (.send 3 default),
    .call (.exit 0 default), .resume, .resume, .timer, .resume, .call (.recv ipcAll default), .call (.send 129 default),
    .resume, .call (.exit 0 default), .timer, .resume, .call (.recv ipcAll default), .call (.send 130 default), .resume,
    .call .wait, .call .wait]

/-- The second module sleeps in `do_wait`, and its first child has exited and has not been reaped. -/
def Kernel.LostExit (k : Kernel) : Prop :=
  (k.proc 2).state = .receiving ∧ (k.proc 2).wait = ipcSignal ∧ 3 ∈ (k.proc 2).children ∧ k.alive 3 = true ∧
    (k.proc 3).state = .stopped ∧ (k.proc 3).parent = some 2

instance : DecidablePred Kernel.LostExit := fun _ => inferInstanceAs (Decidable (_ ∧ _))

theorem second_exit_lost : ∃ k : Kernel, k.ReachBoot 3 ∧ k.LostExit := by
  have hexec : (procInit 24 [2, 3]).toOption.any (fun k => (exec Kernel.step Kernel.PidLeft k
      forkTwice).any fun k => decide k.LostExit) = true := by decide +kernel
  exact exists_boot_of_exec (by decide) (by decide) hexec

end FengOS.Core
