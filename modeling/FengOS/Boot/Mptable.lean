import FengOS.Lib.Mem

/-!
# The scan of the MP configuration table (`mp_init` in `boot/mptable.c`)

A `panic` only prints, and so does the message about a disabled processor: both leave the loop where it is.
-/

namespace FengOS.Boot

open FengOS.Lib

variable {mem : Mem} {stop fuel a n : Nat}

def mpProcessor : UInt8 := 0
def mpBus : UInt8 := 1
def mpIoapic : UInt8 := 2
def mpIntsrc : UInt8 := 3
def mpLintsrc : UInt8 := 4

def nrCpus : Nat := 4

/-- The size of a `struct mp_config_table`. -/
def configSize : Nat := 44

/-- The variables of `mp_init`. -/
structure Mp where
  addr : Nat
  nrCpu : Nat := 0
  apicid : Nat → UInt8 := fun _ => 0
  bootApicId : UInt8 := 0
  ioapicid : UInt8 := 0
  ioapicaddr : Nat := 0

variable {s : Mp}

/-- `mpc_cpuflag & CPU_ENABLED` of a processor entry. -/
def cpuEnabled (mem : Mem) (a : Nat) : Bool := mem (a + 3) &&& 1 ≠ 0

/-- An enabled processor is entered if there is room. -/
def addCpu (mem : Mem) (s : Mp) : Mp :=
  let s := if s.nrCpu < nrCpus then
    { s with apicid := Function.update s.apicid s.nrCpu (mem (s.addr + 1)), nrCpu := s.nrCpu + 1 } else s
  let s := if mem (s.addr + 3) &&& 2 ≠ 0 then { s with bootApicId := mem (s.addr + 1) } else s
  { s with addr := s.addr + 20 }

def mpRound (mem : Mem) (s : Mp) : Mp :=
  if mem s.addr = mpProcessor then if cpuEnabled mem s.addr then addCpu mem s else s
  else if mem s.addr = mpIoapic then
    { s with ioapicid := mem (s.addr + 1), ioapicaddr := mem.load (s.addr + 4) 4, addr := s.addr + 8 }
  else if mem s.addr = mpBus ∨ mem s.addr = mpIntsrc ∨ mem s.addr = mpLintsrc then { s with addr := s.addr + 8 }
  else s

/-- The loop; there is no result if it takes more rounds than these. -/
def mpLoop (mem : Mem) (stop : Nat) : Nat → Mp → Option Mp
  | 0, s => if s.addr < stop then none else some s
  | rounds + 1, s => if s.addr < stop then mpLoop mem stop rounds (mpRound mem s) else some s

def mpcLength (mem : Mem) (mpconfig : Nat) : Nat := mem.load (mpconfig + 4) 2

/-! ## The table -/

/-- The size of an entry of a type that the standard knows. -/
def entrySize (type : UInt8) : Option Nat :=
  if type = mpProcessor then some 20 else if type ≤ mpLintsrc then some 8 else none

/-- The addresses of the entries, up to one of an unknown type. -/
def entries (mem : Mem) (stop : Nat) : Nat → Nat → List Nat
  | 0, _ => []
  | fuel + 1, a => if a < stop then a :: ((entrySize (mem a)).elim [] fun n => entries mem stop fuel (a + n)) else []

def tableEntries (mem : Mem) (mpconfig : Nat) : List Nat :=
  entries mem (mpconfig + mpcLength mem mpconfig) (mpcLength mem mpconfig) (mpconfig + configSize)

def EnabledCpu (mem : Mem) (a : Nat) : Bool := mem a = mpProcessor ∧ cpuEnabled mem a

/-- The loop ends within `mpc_length` rounds with every enabled processor counted, as far as there is room. -/
def Scanned (mem : Mem) (mpconfig : Nat) : Prop :=
  ∃ s, mpLoop mem (mpconfig + mpcLength mem mpconfig) (mpcLength mem mpconfig) { addr := mpconfig + configSize } = some s ∧
    s.nrCpu = min nrCpus ((tableEntries mem mpconfig).countP (EnabledCpu mem))

/-- The loop gets past an entry: its type is known, and it is not a disabled processor. -/
def Passed (mem : Mem) (a : Nat) : Prop := (entrySize (mem a)).isSome ∧ (mem a = mpProcessor → cpuEnabled mem a)

/-! ## One round -/

theorem mpRound_of_passed (h : Passed mem s.addr) (hroom : s.nrCpu ≤ nrCpus) :
    ∃ n, entrySize (mem s.addr) = some n ∧ 0 < n ∧ (mpRound mem s).addr = s.addr + n ∧
      (mpRound mem s).nrCpu = min nrCpus (s.nrCpu + if EnabledCpu mem s.addr then 1 else 0) := by
  obtain ⟨hsize, hcpu⟩ := h
  unfold mpRound
  split
  · rename_i hproc
    refine ⟨20, by simp [entrySize, hproc], by decide, ?_⟩
    have henabled := hcpu hproc
    rw [if_pos henabled, EnabledCpu, decide_eq_true ⟨hproc, henabled⟩, addCpu]
    by_cases hlt : s.nrCpu < nrCpus
    · simp only [if_pos hlt]
      split <;> exact ⟨rfl, by simp; omega⟩
    · simp only [if_neg hlt]
      split <;> exact ⟨rfl, by simp; omega⟩
  · rename_i hproc
    have hle : mem s.addr ≤ mpLintsrc := by
      by_contra hle
      simp [entrySize, hproc, hle] at hsize
    have hnot : EnabledCpu mem s.addr = false := by simp [EnabledCpu, hproc]
    refine ⟨8, by simp [entrySize, hproc, hle], by decide, ?_⟩
    rw [hnot]
    split
    · exact ⟨rfl, by simp; omega⟩
    · rename_i hioapic
      have hrest : mem s.addr = mpBus ∨ mem s.addr = mpIntsrc ∨ mem s.addr = mpLintsrc := by
        simp only [mpProcessor, mpIoapic, mpBus, mpIntsrc, mpLintsrc, ← UInt8.toNat_inj, UInt8.le_iff_toNat_le,
          UInt8.reduceToNat] at hproc hioapic hle ⊢
        omega
      rw [if_pos hrest]
      exact ⟨rfl, by simp; omega⟩

theorem mpRound_of_not_passed (h : ¬ Passed mem s.addr) : mpRound mem s = s := by
  unfold mpRound
  by_cases hproc : mem s.addr = mpProcessor
  · have hdisabled : ¬ cpuEnabled mem s.addr := fun henabled => h ⟨by simp [entrySize, hproc], fun _ => henabled⟩
    rw [if_pos hproc, if_neg hdisabled]
  · have hgt : ¬ mem s.addr ≤ mpLintsrc := fun hle => h ⟨by simp [entrySize, hproc, hle], fun hp => absurd hp hproc⟩
    have hne : ∀ type ≤ mpLintsrc, mem s.addr ≠ type := fun type hle he => hgt (he.symm ▸ hle)
    simp [hproc, hne mpIoapic (by decide), hne mpBus (by decide), hne mpIntsrc (by decide), hne mpLintsrc (by decide)]

/-! ## The loop -/

theorem mpLoop_of_not_passed (h : ¬ Passed mem s.addr) (hlt : s.addr < stop) (rounds : Nat) :
    mpLoop mem stop rounds s = none := by
  induction rounds with
  | zero => rw [mpLoop, if_pos hlt]
  | succ rounds ih => rw [mpLoop, if_pos hlt, mpRound_of_not_passed h, ih]

/-- Induction on the bytes that are left, of which each entry takes some. -/
theorem mpLoop_of_passed (hroom : s.nrCpu ≤ nrCpus) (hfuel : stop - s.addr ≤ fuel)
    (h : ∀ a ∈ entries mem stop fuel s.addr, Passed mem a) : ∃ s', mpLoop mem stop fuel s = some s' ∧
      s'.nrCpu = min nrCpus (s.nrCpu + (entries mem stop fuel s.addr).countP (EnabledCpu mem)) := by
  induction fuel generalizing s with
  | zero => exact ⟨s, by rw [mpLoop, if_neg (by omega)], by simp [entries, Nat.min_eq_right hroom]⟩
  | succ fuel ih =>
    by_cases hlt : s.addr < stop
    · simp only [mpLoop, entries, if_pos hlt] at h ⊢
      obtain ⟨n, hsize, hpos, haddr, hcpu⟩ := mpRound_of_passed (h _ List.mem_cons_self) hroom
      rw [hsize, Option.elim_some, ← haddr] at h ⊢
      obtain ⟨s', hrun, hcount⟩ := ih (by omega) (by omega) fun a ha => h a (List.mem_cons_of_mem _ ha)
      refine ⟨s', hrun, ?_⟩
      rw [hcount, hcpu, List.countP_cons]
      omega
    · simp [mpLoop, entries, hlt, Nat.min_eq_right hroom]

theorem mpLoop_of_stuck (ha : a ∈ entries mem stop fuel s.addr) (h : ¬ Passed mem a) (rounds : Nat)
    (hroom : s.nrCpu ≤ nrCpus) : mpLoop mem stop rounds s = none := by
  induction fuel generalizing s rounds with
  | zero => simp [entries] at ha
  | succ fuel ih =>
    rw [entries] at ha
    split at ha
    · rename_i hlt
      by_cases hpassed : Passed mem s.addr
      · obtain ⟨n, hsize, -, haddr, hcpu⟩ := mpRound_of_passed hpassed hroom
        rw [hsize, Option.elim_some, ← haddr] at ha
        have ha : a ∈ entries mem stop fuel (mpRound mem s).addr :=
          (List.mem_cons.mp ha).resolve_left (by rintro rfl; exact h hpassed)
        cases rounds with
        | zero => rw [mpLoop, if_pos hlt]
        | succ rounds => rw [mpLoop, if_pos hlt, ih ha rounds (by omega)]
      · exact mpLoop_of_not_passed hpassed hlt rounds
    · cases ha

theorem scanned_iff (mem : Mem) (mpconfig : Nat) :
    Scanned mem mpconfig ↔ ∀ a ∈ tableEntries mem mpconfig, Passed mem a := by
  let start : Mp := { addr := mpconfig + configSize }
  have hroom : start.nrCpu ≤ nrCpus := Nat.zero_le _
  constructor
  · rintro ⟨s, hrun, -⟩ a ha
    by_contra hpassed
    have hnone := mpLoop_of_stuck (s := start) ha hpassed (mpcLength mem mpconfig) hroom
    exact absurd (hnone.symm.trans hrun) (by simp)
  · intro h
    have hfuel : mpconfig + mpcLength mem mpconfig - start.addr ≤ mpcLength mem mpconfig := by
      have haddr : start.addr = mpconfig + configSize := rfl
      omega
    obtain ⟨s, hrun, hcount⟩ := mpLoop_of_passed hroom hfuel h
    exact ⟨s, hrun, by rw [hcount, Nat.zero_add]; rfl⟩

/-- A table at address 0 with one processor entry, which is disabled. -/
def disabledTable : Mem := Mem.store (fun _ => 0) 4 64 2

theorem disabled_not_scanned : (mpLoop disabledTable 64 64 { addr := configSize }).isNone ∧ ¬ Scanned disabledTable 0 := by
  have hnone : (mpLoop disabledTable 64 64 { addr := configSize }).isNone := by decide
  refine ⟨hnone, ?_⟩
  rintro ⟨s, hrun, -⟩
  have hlength : mpcLength disabledTable 0 = 64 := by decide
  rw [hlength, Nat.zero_add, Nat.zero_add] at hrun
  rw [hrun] at hnone
  cases hnone

end FengOS.Boot
