import Mathlib.Algebra.Group.Int.Units

/-!
# Runs of a guarded transition system

A run starts in an initial state and takes steps that a guard admits. An invariant of the steps is an
invariant of every run.
-/

namespace FengOS.Lib

variable {σ α : Type}

/-- The states reached from `init` by steps that `ok` admits. -/
inductive Run (step : σ → α → Option σ) (ok : σ → α → Prop) (init : σ → Prop) : σ → Prop
  | init {s} : init s → Run step ok init s
  | step {s a s'} : Run step ok init s → ok s a → step s a = some s' → Run step ok init s'

variable {step : σ → α → Option σ} {ok ok' : σ → α → Prop} {init init' : σ → Prop}

/-- What holds at the start and is kept by every admitted step holds in every state of every run. -/
theorem Run.invariant {Q : σ → Prop} (hinit : ∀ s, init s → Q s)
    (hstep : ∀ s a s', Q s → ok s a → step s a = some s' → Q s') {s : σ} (h : Run step ok init s) : Q s := by
  induction h with
  | init h => exact hinit _ h
  | step _ hok hs ih => exact hstep _ _ _ ih hok hs

/-- A weaker guard admits every run of a stronger one, from more states. -/
theorem Run.mono (hok : ∀ s a, ok s a → ok' s a) (hinit : ∀ s, init s → init' s) {s : σ}
    (h : Run step ok init s) : Run step ok' init' s := by
  induction h with
  | init h => exact .init (hinit _ h)
  | step _ ho hs ih => exact .step ih (hok _ _ ho) hs

/-! ## Executing a list of actions -/

/-- Takes the steps in turn and stops at one that the guard refuses. -/
def exec (step : σ → α → Option σ) (ok : σ → α → Prop) [∀ s a, Decidable (ok s a)] : σ → List α → Option σ
  | s, [] => some s
  | s, a :: as => if ok s a then (step s a).bind fun s' => exec step ok s' as else none

theorem Run.exec [∀ s a, Decidable (ok s a)] {s s' : σ} {as : List α} (h : Run step ok init s)
    (he : exec step ok s as = some s') : Run step ok init s' := by
  induction as generalizing s with
  | nil =>
    obtain rfl := Option.some.inj he
    exact h
  | cons a as ih =>
    rw [Lib.exec] at he
    split at he
    · rename_i hok
      obtain ⟨t, ht, he⟩ := Option.bind_eq_some_iff.mp he
      exact ih (.step h hok ht) he
    · cases he

/-- A state with a decidable property, found by execution. -/
theorem Run.exists_of_exec [∀ s a, Decidable (ok s a)] {Q : σ → Prop} [DecidablePred Q] {s : σ} {as : List α}
    (h : Run step ok init s) (he : (Lib.exec step ok s as).any (fun s => decide (Q s)) = true) :
    ∃ s', Run step ok init s' ∧ Q s' := by
  cases hs : Lib.exec step ok s as with
  | none => simp [hs] at he
  | some s' => exact ⟨s', h.exec hs, by simpa [hs] using he⟩

end FengOS.Lib
