import FengOS.Keyboard.Buffer

/-!
# The buffer of the keyboard as a queue
-/

namespace FengOS.Keyboard

open FengOS.Lib

variable {b : KbBuf} {q : List UInt8} {c : UInt8} {ops : List KbOp} {size rounds : Nat}

theorem initBuf_holds : initBuf.Holds [] := ⟨by decide, by decide, rfl, rfl, rfl⟩

theorem KbBuf.Holds.head_eq_tail (h : b.Holds q) : b.head = b.tail ↔ q.length = 0 ∨ q.length = keyboardBufSize := by
  rw [h.tail]
  rcases Nat.lt_or_eq_of_le h.length_le with hlt | heq
  · rw [Ring.head_eq_tail_iff h.head_lt hlt]
    omega
  · simp [heq, Nat.mod_eq_of_lt h.head_lt]

theorem KbBuf.Holds.putChar (h : b.Holds q) : (putChar b c).Holds (if q.length < keyboardBufSize then q ++ [c] else q) := by
  by_cases hlt : q.length < keyboardBufSize
  · have hcount : ¬ (keyboardBufSize : Int) ≤ b.count := by
      rw [h.count]
      omega
    rw [Keyboard.putChar, if_neg hcount, if_pos hlt]
    constructor
    case head_lt => exact h.head_lt
    case length_le =>
      rw [List.length_append, List.length_singleton]
      exact hlt
    case count => simp [h.count]
    case tail =>
      rw [h.tail, Nat.mod_add_mod, List.length_append, List.length_singleton]
      rfl
    case held =>
      rw [h.tail, List.length_append, List.length_singleton, Ring.held_push hlt, h.held]
  · have hcount : (keyboardBufSize : Int) ≤ b.count := by
      rw [h.count]
      omega
    rw [Keyboard.putChar, if_pos hcount, if_neg hlt]
    exact h

theorem KbBuf.Holds.next (h : b.Holds (c :: q)) : b.buf b.head = c ∧
    KbBuf.Holds { b with head := (b.head + 1) % keyboardBufSize, count := b.count - 1 } q := by
  have hheld := h.held
  rw [List.length_cons, Ring.held_succ h.head_lt] at hheld
  obtain ⟨hc, hq⟩ := List.cons.inj hheld
  have hlen := h.length_le
  have htail := h.tail
  rw [List.length_cons] at hlen htail
  refine ⟨hc, Nat.mod_lt _ (by decide), by omega, ?_, ?_, hq⟩
  · simp [h.count]
  · rw [htail, Nat.mod_add_mod]
    exact congrArg (· % keyboardBufSize) (by omega)

theorem KbBuf.Holds.readLoop (h : b.Holds q) (hlt : q.length < keyboardBufSize) (hrounds : q.length < rounds) (sz : Nat) :
    ∃ b', readLoop rounds b size sz = some (q.take (size + 1 - sz), b') ∧ b'.Holds (q.drop (size + 1 - sz)) := by
  induction rounds generalizing b q sz with
  | zero => omega
  | succ rounds ih =>
    rw [Keyboard.readLoop]
    cases q with
    | nil =>
      have hmeet : b.head = b.tail := h.head_eq_tail.mpr (.inl rfl)
      rw [if_neg fun hc => hc.1 hmeet]
      simpa using h
    | cons c q =>
      simp only [List.length_cons] at hlt hrounds
      have hmeet : b.head ≠ b.tail := by
        rw [ne_eq, h.head_eq_tail, List.length_cons]
        omega
      by_cases hsz : sz ≤ size
      · obtain ⟨hc, hq⟩ := h.next
        obtain ⟨b', hb', hholds⟩ := ih hq (by omega) (by omega) (sz + 1)
        have hleft : size + 1 - sz = size + 1 - (sz + 1) + 1 := by omega
        rw [if_pos ⟨hmeet, hsz⟩, hb', hc, hleft]
        exact ⟨b', rfl, hholds⟩
      · have hleft : size + 1 - sz = 0 := by omega
        rw [if_neg fun hc => hsz hc.2, hleft]
        exact ⟨b, rfl, h⟩

theorem KbBuf.Holds.readChar (h : b.Holds q) (hlt : q.length < keyboardBufSize) (size : Nat) :
    ∃ b', readChar b size = some (q.take (size + 1), b') ∧ b'.Holds (q.drop (size + 1)) := h.readLoop hlt hlt 0

theorem readChar_full (h : b.Holds q) (hfull : q.length = keyboardBufSize) : readChar b size = some ([], b) := by
  have hmeet : b.head = b.tail := h.head_eq_tail.mpr (.inr hfull)
  exact if_neg fun hc => hc.1 hmeet

theorem KbBuf.Holds.step (h : b.Holds q) (op : KbOp) : ∃ bytes b', b.step op = some (bytes, b') ∧
    (bytes = (queueStep q op).1 ↔ OpOk q op) ∧ (OpOk q op → b'.Holds (queueStep q op).2) := by
  cases op with
  | put c => exact ⟨[], _, rfl, iff_of_true rfl trivial, fun _ => h.putChar⟩
  | read size =>
    rcases Nat.lt_or_eq_of_le h.length_le with hlt | hfull
    · obtain ⟨b', hb', hholds⟩ := h.readChar hlt size
      refine ⟨_, b', hb', ?_, fun hok => ?_⟩
      · simp only [queueStep, OpOk]
        constructor
        · intro heq
          have hlen := congrArg List.length heq
          simp only [List.length_take] at hlen
          omega
        · intro hok
          rw [List.take_of_length_le (by omega), List.take_of_length_le (by omega)]
      · simp only [OpOk] at hok
        rw [List.drop_of_length_le (by omega)] at hholds
        simpa only [queueStep, List.drop_of_length_le (show q.length ≤ size by omega)] using hholds
    · refine ⟨[], b, readChar_full h hfull, ?_, fun hok => ?_⟩
      · simp only [queueStep, OpOk, hfull, lt_irrefl, and_false, and_true, false_or]
        constructor
        · intro heq
          have hlen := congrArg List.length heq
          simp only [List.length_nil, List.length_take, hfull, keyboardBufSize] at hlen
          omega
        · rintro rfl
          rfl
      · simp only [OpOk, hfull, lt_irrefl, and_false, and_true, false_or] at hok
        simpa only [queueStep, hok, List.drop_zero] using h

theorem KbBuf.Holds.run (h : b.Holds q) :
    (∃ b', b.run ops = some ((queueRun q ops).1, b') ∧ b'.Holds (queueRun q ops).2) ↔ RunOk q ops := by
  induction ops generalizing b q with
  | nil => exact iff_of_true ⟨b, rfl, h⟩ trivial
  | cons op ops ih =>
    obtain ⟨bytes, b₁, hb₁, hbytes, hholds⟩ := h.step op
    simp only [KbBuf.run, hb₁, queueRun, RunOk, Option.bind_eq_bind, Option.bind_some]
    constructor
    · rintro ⟨b', hrun, hb'⟩
      obtain ⟨⟨outs, b₂⟩, hrun', heq⟩ := Option.bind_eq_some_iff.mp hrun
      simp only [Option.pure_def, Option.some.injEq, Prod.mk.injEq, List.cons.injEq] at heq
      obtain ⟨⟨hstep, rfl⟩, rfl⟩ := heq
      have hok := hbytes.mp hstep
      exact ⟨hok, (ih (hholds hok)).mp ⟨_, hrun', hb'⟩⟩
    · rintro ⟨hok, hrest⟩
      obtain ⟨b', hrun', hb'⟩ := (ih (hholds hok)).mpr hrest
      exact ⟨b', by rw [hrun', hbytes.mpr hok]; rfl, hb'⟩

/-- From the start the buffer behaves like the queue in exactly the runs whose reads meet the condition. -/
theorem keyboard_fifo_iff (ops : List KbOp) : Fifo ops ↔ RunOk [] ops := initBuf_holds.run

/-- A read of one character out of two. -/
theorem keyboard_reads_two : ¬ Fifo [.put 0x61, .put 0x62, .read 1] := by
  rintro ⟨b, hrun, -⟩
  have hout : (initBuf.run [.put 0x61, .put 0x62, .read 1]).map Prod.fst ≠ some [[], [], [0x61]] := by decide
  rw [hrun] at hout
  exact hout rfl

end FengOS.Keyboard
