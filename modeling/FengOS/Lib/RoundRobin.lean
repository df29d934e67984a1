import Mathlib.Data.List.Nodup

/-!
# Queues served in turn

One who is served goes to the end of the queue when the service ends, and the first who is ready is served next. Who
waits in the queue is preceded by those ahead of them only, and nobody gets ahead again.
-/

namespace FengOS.Lib.RoundRobin

variable {α : Type} [DecidableEq α] {p q c running next : α} {queue queue' others served : List α}

/-- Those before `p`. -/
def ahead (p : α) (queue : List α) : List α := queue.takeWhile fun q => decide (q ≠ p)

theorem ahead_append (h : p ∈ queue) : ahead p (queue ++ others) = ahead p queue := by
  induction queue with
  | nil => cases h
  | cons x queue ih =>
    rcases eq_or_ne x p with rfl | hne
    · simp [ahead]
    · have hp : p ∈ queue := (List.mem_cons.mp h).resolve_left hne.symm
      simpa [ahead, hne] using ih hp

theorem mem_ahead_erase (hc : c ≠ p) (h : q ∈ ahead p (queue.erase c)) : q ∈ ahead p queue := by
  induction queue with
  | nil => exact h
  | cons x queue ih =>
    rcases eq_or_ne x c with rfl | hx
    · rw [List.erase_cons_head] at h
      simp only [ahead, List.takeWhile_cons, decide_eq_true hc, if_true]
      exact List.mem_cons_of_mem _ h
    · rw [List.erase_cons_tail (by simpa using hx)] at h
      rcases eq_or_ne x p with rfl | hp
      · simp [ahead] at h
      · simp only [ahead, List.takeWhile_cons, decide_eq_true hp, if_true, List.mem_cons] at h ⊢
        exact h.imp_right ih

/-- One who goes to the end of the queue is behind `p`. -/
theorem mem_ahead_rotate (hnodup : queue.Nodup) (hp : p ∈ queue) (hc : c ≠ p)
    (h : q ∈ ahead p (queue.erase c ++ [c])) : q ∈ ahead p queue ∧ q ≠ c := by
  have hp' : p ∈ queue.erase c := (List.mem_erase_of_ne hc.symm).mpr hp
  rw [ahead_append hp'] at h
  refine ⟨mem_ahead_erase hc h, fun heq => ?_⟩
  exact hnodup.not_mem_erase (heq ▸ List.takeWhile_subset _ h)

/-- If `p` is ready, who is served is ahead of `p`. -/
theorem mem_ahead_of_find? {ready : α → Bool} (hp : p ∈ queue) (hready : ready p = true)
    (h : queue.find? ready = some next) (hne : next ≠ p) : next ∈ ahead p queue := by
  induction queue with
  | nil => cases hp
  | cons x queue ih =>
    cases hx : ready x with
    | true =>
      obtain rfl : x = next := by simpa [List.find?, hx] using h
      simp [ahead, hne]
    | false =>
      have hxp : x ≠ p := by
        rintro rfl
        simp [hready] at hx
      have hp' : p ∈ queue := (List.mem_cons.mp hp).resolve_left hxp.symm
      simp only [ahead, List.takeWhile_cons, decide_eq_true hxp, if_true]
      exact List.mem_cons_of_mem _ (ih hp' (by simpa [List.find?, hx] using h))

/-- Whoever has been served is not ahead of `p`, except the one being served. -/
def Behind (p : α) (queue : List α) (running : α) (served : List α) : Prop :=
  ∀ q ∈ served, q ≠ running → q ∉ ahead p queue

theorem Behind.start : Behind p queue running [running] := fun _ hq hne => absurd (List.mem_singleton.mp hq) hne

theorem Behind.mono (h : Behind p queue running served) (hsub : ∀ q ∈ ahead p queue', q ∈ ahead p queue) :
    Behind p queue' running served := fun q hq hne hmem => h q hq hne (hsub q hmem)

/-- The next one, after the one served has gone to the end, has not been served before. -/
theorem Behind.turn (h : Behind p queue running served)
    (hsub : ∀ q ∈ ahead p queue', q ∈ ahead p queue ∧ q ≠ running) (hnext : next ∈ ahead p queue') :
    next ∉ served ∧ Behind p queue' next (served ++ [next]) := by
  have hold : ∀ q ∈ served, q ∉ ahead p queue' := fun q hq hmem => h q hq (hsub q hmem).2 (hsub q hmem).1
  refine ⟨fun hmem => hold next hmem hnext, fun q hq hne => ?_⟩
  rcases List.mem_append.mp hq with hq | hq
  · exact hold q hq
  · exact absurd (List.mem_singleton.mp hq) hne

end FengOS.Lib.RoundRobin
