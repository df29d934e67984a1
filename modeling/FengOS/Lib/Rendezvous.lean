import Mathlib.Logic.Function.Basic
import Mathlib.Data.List.Induction
import Mathlib.Algebra.Group.Int.Units

/-!
# Rendezvous

Parties exchange messages without buffers. A send is over only after the receiver has copied the message, and a call is a
send that goes on with a receive from the same party. Each party has a flag that notifications set.

Whatever accepts the steps below delivers every message exactly once and answers calls with the replies to them.
-/

namespace FengOS.Lib.Rendezvous

inductive Event (P M : Type)
  /-- `p` begins to send `m` to `q`, on its own or as the first half of a call. -/
  | send (p q : P) (m : M) (call : Bool)
  /-- `q` copies the message of `p`. -/
  | copy (p q : P) (m : M)
  /-- The send of `p` returns. -/
  | sent (p : P)
  /-- The call of `p` returns the message. -/
  | reply (p : P) (m : M)
  /-- The flag of `p` is set. -/
  | notify (p : P)
  /-- `p` takes its flag. -/
  | take (p : P)
  deriving DecidableEq

/-- What a party is doing. -/
inductive Status (P M : Type)
  | ready
  | sending (q : P) (m : M) (call : Bool)
  | copied (q : P) (call : Bool)
  | awaiting (q : P)
  | replied (m : M)

structure State (P M : Type) where
  status : P → Status P M
  flag : P → Bool

variable {P M : Type} [DecidableEq P]

def State.set (s : State P M) (p : P) (a : Status P M) : State P M :=
  { s with status := Function.update s.status p a }

/-- The status of a party whose send returns. -/
def afterSend (q : P) : Bool → Status P M
  | true => .awaiting q
  | false => .ready

inductive Step : State P M → Event P M → State P M → Prop
  | send {s p q m call} : s.status p = .ready → Step s (.send p q m call) (s.set p (.sending q m call))
  | copy {s p q m call} : s.status p = .sending q m call → s.status q = .ready →
      Step s (.copy p q m) (s.set p (.copied q call))
  | answer {s p q m call} : s.status p = .sending q m call → s.status q = .awaiting p →
      Step s (.copy p q m) ((s.set p (.copied q call)).set q (.replied m))
  | sent {s p q call} : s.status p = .copied q call → Step s (.sent p) (s.set p (afterSend q call))
  | reply {s p m} : s.status p = .replied m → Step s (.reply p m) (s.set p .ready)
  | notify {s p} : Step s (.notify p) { s with flag := Function.update s.flag p true }
  | take {s p} : s.status p = .ready → s.flag p = true →
      Step s (.take p) { s with flag := Function.update s.flag p false }

/-- The events lead from one state to another. -/
inductive Trace (s₀ : State P M) : List (Event P M) → State P M → Prop
  | nil : Trace s₀ [] s₀
  | snoc {es s e s'} : Trace s₀ es s → Step s e s' → Trace s₀ (es ++ [e]) s'

/-- Nobody is in a send or a call. -/
def State.Idle (s : State P M) : Prop := ∀ p, s.status p = .ready

variable {s₀ s s' : State P M} {e : Event P M} {es : List (Event P M)} {p q : P} {m : M} {call : Bool}
  {a b : List (Event P M)} {es' : List (Event P M)}

/-- The last step of a trace. -/
theorem Trace.snoc_inv (h : Trace s₀ (es ++ [e]) s') : ∃ s, Trace s₀ es s ∧ Step s e s' := by
  generalize hl : es ++ [e] = l at h
  cases h with
  | nil => simp at hl
  | snoc h hstep =>
    obtain ⟨rfl, he⟩ := List.append_inj' hl rfl
    cases he
    exact ⟨_, h, hstep⟩

/-- What an event establishes and the events after it keep holds at the end. -/
theorem Trace.since {Q : State P M → Prop} (h : Trace s₀ (a ++ e :: b) s)
    (hstart : ∀ s s', Step s e s' → Q s') (hkeep : ∀ e' ∈ b, ∀ s s', Q s → Step s e' s' → Q s') : Q s := by
  induction b using List.reverseRecOn generalizing s with
  | nil =>
    obtain ⟨s', -, hstep⟩ := h.snoc_inv
    exact hstart s' s hstep
  | append_singleton b e' ih =>
    rw [← List.cons_append, ← List.append_assoc] at h
    obtain ⟨s', h, hstep⟩ := h.snoc_inv
    have hQ := ih h fun e hm => hkeep e (List.mem_append_left _ hm)
    exact hkeep e' (List.mem_append_right _ (List.mem_singleton_self _)) s' s hQ hstep

/-- Every prefix of a trace is one. -/
theorem Trace.of_append (h : Trace s₀ (es ++ es') s) : ∃ s', Trace s₀ es s' := by
  induction es' using List.reverseRecOn generalizing s with
  | nil => exact ⟨s, by simpa using h⟩
  | append_singleton l a ih =>
    rw [← List.append_assoc] at h
    obtain ⟨s', h, -⟩ := h.snoc_inv
    exact ih h

@[simp] theorem set_status_self (a : Status P M) : (s.set p a).status p = a := Function.update_self ..

@[simp] theorem set_status_of_ne (h : q ≠ p) (a : Status P M) : (s.set p a).status q = s.status q :=
  Function.update_of_ne h ..

/-! ## Exactly-once delivery -/

/-- The events of the sends of `p`. -/
def sends (p : P) (es : List (Event P M)) : List (Event P M) :=
  es.filter fun
    | .send p' _ _ _ | .copy p' _ _ | .sent p' => p' = p
    | _ => false

/-- The messages that `p` has begun to send. -/
def messages (p : P) (es : List (Event P M)) : List (P × M × Bool) :=
  es.filterMap fun
    | .send p' q m call => if p' = p then some (q, m, call) else none
    | _ => none

/-- The life of one message: begun, copied by its destination, returned from. -/
def delivery (p : P) : P × M × Bool → List (Event P M)
  | (q, m, call) => [.send p q m call, .copy p q m, .sent p]

/-- What is still to come of the send a party is in. -/
def rest (p : P) : Status P M → List (Event P M)
  | .sending q m _ => [.copy p q m, .sent p]
  | .copied _ _ => [.sent p]
  | _ => []

theorem sends_append (p : P) (es es' : List (Event P M)) : sends p (es ++ es') = sends p es ++ sends p es' :=
  List.filter_append ..

theorem messages_append (p : P) (es es' : List (Event P M)) : messages p (es ++ es') = messages p es ++ messages p es' :=
  List.filterMap_append ..

/-- With what is to come, the sends of a party are its messages, each copied once and unchanged before the return. -/
theorem Trace.delivery (h : Trace s₀ es s) (h₀ : s₀.Idle) (p : P) :
    sends p es ++ rest p (s.status p) = (messages p es).flatMap (delivery p) := by
  induction h with
  | nil => simp [h₀ p, sends, messages, rest]
  | snoc _ hstep ih =>
    simp only [sends_append, messages_append, List.flatMap_append, ← ih]
    cases hstep with
    | send h =>
      rename_i p' q m call
      rcases eq_or_ne p' p with rfl | hne
      · simp [h, sends, messages, rest, Rendezvous.delivery]
      · simp [sends, messages, hne, hne.symm]
    | copy hp hq =>
      rename_i p' q m call
      rcases eq_or_ne p' p with rfl | hne
      · simp [hp, sends, messages, rest]
      · simp [sends, messages, hne, hne.symm]
    | answer hp hq =>
      rename_i p' q m call
      have hne : p' ≠ q := by
        rintro rfl
        rw [hp] at hq
        cases hq
      rcases eq_or_ne p' p with rfl | hne'
      · simp [hp, hne, sends, messages, rest]
      · rcases eq_or_ne q p with rfl | hneq
        · simp [hq, sends, messages, rest, hne']
        · simp [sends, messages, hne', hne'.symm, hneq.symm]
    | sent h =>
      rename_i p' q call
      rcases eq_or_ne p' p with rfl | hne
      · cases call <;> simp [h, sends, messages, rest, afterSend]
      · simp [sends, messages, hne, hne.symm]
    | reply h =>
      rename_i p' m
      rcases eq_or_ne p' p with rfl | hne
      · simp [h, sends, messages, rest]
      · simp [sends, messages, hne.symm]
    | notify => simp [sends, messages]
    | take _ _ => simp [sends, messages]

/-! ## Replies to calls -/

/-- The event gives `p` a message or its flag. -/
def Receives (p : P) : Event P M → Prop
  | .copy _ q _ => q = p
  | .take q => q = p
  | _ => False

/-- Since the call of `q` by `p` the request has been copied, nothing received, and the reply of `q` begun after the copy. -/
def Called (es : List (Event P M)) (s : State P M) (p q : P) : Prop :=
  ∃ a b c req, es = a ++ .send p q req true :: b ++ .copy p q req :: c ∧ (∀ e ∈ b ++ c, ¬ Receives p e) ∧
    ∀ m call, s.status q = .sending p m call → .send q p m call ∈ c

/-- The request is copied, then the reply is sent and copied, and `p` receives nothing else meanwhile. -/
def Answered (es : List (Event P M)) (p : P) (m : M) : Prop :=
  ∃ q req call a b c d e, es = a ++ .send p q req true :: b ++ .copy p q req :: c ++ .send q p m call :: d ++
    .copy q p m :: e ∧ ∀ ev ∈ b ++ c ++ d ++ e, ¬ Receives p ev

/-- What the trace says about a party in a given status. -/
def History (es : List (Event P M)) (s : State P M) (p : P) : Status P M → Prop
  | .sending q m true => ∃ a b, es = a ++ .send p q m true :: b ∧ ∀ e ∈ b, ¬ Receives p e
  | .copied q true => Called es s p q
  | .awaiting q => Called es s p q
  | .replied m => Answered es p m
  | _ => True

/-- A party that is sending was sending before or has just begun. -/
theorem Step.sending_cases (h : Step s e s') (hs : s'.status q = .sending p m call) :
    s.status q = .sending p m call ∨ e = .send q p m call := by
  cases h with
  | send _ =>
    rename_i p' _ _ _ _
    rcases eq_or_ne q p' with rfl | hne
    · simp at hs
      simp [hs]
    · exact Or.inl (by simpa [hne] using hs)
  | copy _ _ =>
    rename_i p' _ _ _ _ _
    rcases eq_or_ne q p' with rfl | hne
    · simp at hs
    · exact Or.inl (by simpa [hne] using hs)
  | answer _ _ =>
    rename_i p' q' _ _ _ _
    rcases eq_or_ne q q' with rfl | hne
    · simp at hs
    · rcases eq_or_ne q p' with rfl | hne'
      · simp [hne] at hs
      · exact Or.inl (by simpa [hne, hne'] using hs)
  | sent _ =>
    rename_i p' _ call _
    rcases eq_or_ne q p' with rfl | hne
    · cases call <;> simp [afterSend] at hs
    · exact Or.inl (by simpa [hne] using hs)
  | reply _ =>
    rename_i p' _ _
    rcases eq_or_ne q p' with rfl | hne
    · simp at hs
    · exact Or.inl (by simpa [hne] using hs)
  | notify => exact Or.inl hs
  | take _ _ => exact Or.inl hs

omit [DecidableEq P] in
theorem not_receives_snoc {l : List (Event P M)} (hl : ∀ e ∈ l, ¬ Receives p e) (he : ¬ Receives p e) :
    ∀ e' ∈ l ++ [e], ¬ Receives p e' := by
  simp only [List.mem_append, List.mem_singleton]
  rintro e' (h | rfl)
  · exact hl e' h
  · exact he

theorem Called.extend (h : Called es s p q) (hstep : Step s e s') (he : ¬ Receives p e) : Called (es ++ [e]) s' p q := by
  obtain ⟨a, b, c, req, rfl, hquiet, hafter⟩ := h
  refine ⟨a, b, c ++ [e], req, by simp, ?_, fun m call hm => ?_⟩
  · rw [← List.append_assoc]
    exact not_receives_snoc hquiet he
  · rcases hstep.sending_cases hm with hold | rfl
    · exact List.mem_append_left _ (hafter m call hold)
    · exact List.mem_append_right _ (List.mem_singleton_self _)

/-- A step that gives `p` nothing extends what the trace says about it. -/
theorem History.extend {a : Status P M} (h : History es s p a) (hstep : Step s e s') (he : ¬ Receives p e) :
    History (es ++ [e]) s' p a := by
  match a, h with
  | .ready, _ => trivial
  | .sending _ _ false, _ => trivial
  | .sending _ _ true, ⟨a, b, hes, hquiet⟩ =>
    exact ⟨a, b ++ [e], by simp [hes], not_receives_snoc hquiet he⟩
  | .copied _ false, _ => trivial
  | .copied q true, h => exact Called.extend h hstep he
  | .awaiting q, h => exact Called.extend h hstep he
  | .replied _, ⟨q, req, call, a, b, c, d, f, hes, hquiet⟩ =>
    refine ⟨q, req, call, a, b, c, d, f ++ [e], by simp [hes], ?_⟩
    rw [← List.append_assoc]
    exact not_receives_snoc hquiet he

omit [DecidableEq P] in
/-- The party called is sending the reply, and the caller copies it. -/
theorem Called.answered (h : Called es s p q) (hq : s.status q = .sending p m call) :
    Answered (es ++ [.copy q p m]) p m := by
  obtain ⟨a, b, c, req, rfl, hquiet, hafter⟩ := h
  obtain ⟨c, d, rfl⟩ := List.append_of_mem (hafter m call hq)
  refine ⟨q, req, call, a, b, c, d, [], by simp, fun ev hev => hquiet ev ?_⟩
  simp only [List.append_nil, List.mem_append, List.mem_cons] at hev ⊢
  tauto

theorem Trace.history (h : Trace s₀ es s) (h₀ : s₀.Idle) (p : P) : History es s p (s.status p) := by
  induction h with
  | nil => rw [h₀ p]; trivial
  | snoc _ hstep ih =>
    cases hstep with
    | send h =>
      rename_i es s _ p' q m call
      rcases eq_or_ne p p' with rfl | hne
      · cases call with
        | false => simp [History]
        | true => simpa [History] using ⟨es, [], rfl, by simp⟩
      · rw [set_status_of_ne hne]
        exact ih.extend (.send h) (by simp [Receives])
    | copy hp hq =>
      rename_i es s _ p' q m call
      rcases eq_or_ne p p' with rfl | hne
      · rw [set_status_self]
        cases call with
        | false => trivial
        | true =>
          rw [hp] at ih
          obtain ⟨a, b, rfl, hquiet⟩ := ih
          have hqp : q ≠ p := by
            rintro rfl
            rw [hp] at hq
            cases hq
          refine ⟨a, b, [], m, by simp, by simpa using hquiet, fun m' call' hm => ?_⟩
          rw [set_status_of_ne hqp, hq] at hm
          cases hm
      · rw [set_status_of_ne hne]
        rcases eq_or_ne p q with rfl | hneq
        · rw [hq]
          trivial
        · exact ih.extend (.copy hp hq) (by simpa [Receives] using hneq.symm)
    | answer hp hq =>
      rename_i es s _ p' q m call
      have hqp : q ≠ p' := by
        rintro rfl
        rw [hp] at hq
        cases hq
      rcases eq_or_ne p q with rfl | hneq
      · rw [set_status_self]
        rw [hq] at ih
        exact Called.answered ih hp
      · rw [set_status_of_ne hneq]
        rcases eq_or_ne p p' with rfl | hne
        · rw [set_status_self]
          cases call with
          | false => trivial
          | true =>
            rw [hp] at ih
            obtain ⟨a, b, rfl, hquiet⟩ := ih
            refine ⟨a, b, [], m, by simp, by simpa using hquiet, fun m' call' hm => ?_⟩
            rw [set_status_self] at hm
            cases hm
        · rw [set_status_of_ne hne]
          exact ih.extend (.answer hp hq) (by simpa [Receives] using hneq.symm)
    | sent h =>
      rename_i es s _ p' q call
      have hext := ih.extend (.sent h) (by simp [Receives])
      rcases eq_or_ne p p' with rfl | hne
      · rw [h] at hext
        rw [set_status_self]
        cases call with
        | false => trivial
        | true => exact hext
      · rw [set_status_of_ne hne]
        exact hext
    | reply h =>
      rename_i es s _ p' m
      rcases eq_or_ne p p' with rfl | hne
      · rw [set_status_self]
        trivial
      · rw [set_status_of_ne hne]
        exact ih.extend (.reply h) (by simp [Receives])
    | notify => exact ih.extend .notify (by simp [Receives])
    | take h hf =>
      rename_i es s _ p'
      rcases eq_or_ne p p' with rfl | hne
      · simp only [h]
        trivial
      · exact ih.extend (.take h hf) (by simpa [Receives] using hne.symm)

/-- Whatever a call returns is the reply to it. -/
theorem Trace.answered (h : Trace s₀ (es ++ .reply p m :: es') s) (h₀ : s₀.Idle) : Answered es p m := by
  rw [← List.singleton_append, ← List.append_assoc] at h
  obtain ⟨s', h⟩ := h.of_append
  obtain ⟨t, h, hstep⟩ := h.snoc_inv
  have hhist := h.history h₀ p
  cases hstep with
  | reply hp =>
    rw [hp] at hhist
    exact hhist

/-! ## Nothing is lost -/

/-- A party goes on sending until its message is copied. -/
theorem Step.still_sending (h : Step s e s') (hp : s.status p = .sending q m call)
    (he : e ≠ .copy p q m) : s'.status p = .sending q m call := by
  cases h with
  | send h =>
    rw [set_status_of_ne (by rintro rfl; rw [hp] at h; cases h), hp]
  | copy h₁ h₂ =>
    rw [set_status_of_ne ?_, hp]
    rintro rfl
    rw [hp] at h₁
    cases h₁
    exact he rfl
  | answer h₁ h₂ =>
    rw [set_status_of_ne (by rintro rfl; rw [hp] at h₂; cases h₂), set_status_of_ne ?_, hp]
    rintro rfl
    rw [hp] at h₁
    cases h₁
    exact he rfl
  | sent h => rw [set_status_of_ne (by rintro rfl; rw [hp] at h; cases h), hp]
  | reply h => rw [set_status_of_ne (by rintro rfl; rw [hp] at h; cases h), hp]
  | notify => exact hp
  | take _ _ => exact hp

/-- A message that has not been copied is still being sent. -/
theorem Trace.sending (h : Trace s₀ (a ++ .send p q m call :: b) s)
    (hb : .copy p q m ∉ b) : s.status p = .sending q m call := by
  refine h.since (Q := fun s => s.status p = .sending q m call) (fun s s' hstep => ?_) fun e he s s' hp hstep => ?_
  · cases hstep with
    | send _ => exact set_status_self _
  · exact hstep.still_sending hp (ne_of_mem_of_not_mem he hb)

/-- A notification that has not been taken is still there. -/
theorem Trace.flagged (h : Trace s₀ (a ++ .notify p :: b) s) (hb : .take p ∉ b) : s.flag p = true := by
  refine h.since (Q := fun s => s.flag p = true) (fun s s' hstep => ?_) fun e he s s' hp hstep => ?_
  · cases hstep with
    | notify => exact Function.update_self ..
  · cases hstep with
    | notify =>
      rename_i p'
      rcases eq_or_ne p p' with rfl | hne
      · exact Function.update_self ..
      · exact (Function.update_of_ne hne ..).trans hp
    | take _ _ =>
      rename_i p' _ _
      rcases eq_or_ne p p' with rfl | hne
      · exact absurd he hb
      · exact (Function.update_of_ne hne ..).trans hp
    | _ => exact hp

end FengOS.Lib.Rendezvous
