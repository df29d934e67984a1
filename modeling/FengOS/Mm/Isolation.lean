import FengOS.Mm.BrkTheorems

/-!
# Processes do not share memory
-/

namespace FengOS.Mm

open FengOS.Lib

variable {memMap : Nat → Page} {nr j : Nat} {s s' : Machine} {t u : Radix Nat} {mm : ProcMm} {sys sys' : MmSys}

/-- The byte that a process reads at an address of its own. There is none behind a page that was missing. -/
def sees (s : Machine) (mm : ProcMm) (a : Nat) : Option UInt8 :=
  (userAddr s.mem mm.pgd a).bind fun b => if b < kernelOffset then none else some (s.mem b)

/-- A request of the process that changes its address space or its memory. -/
def MmOp.Of (j : Nat) : MmOp → Prop
  | .brk i _ | .exec i _ _ _ | .store i _ _ | .reap i => i = j
  | .fork _ _ | .kernel _ => False

theorem MmSys.CondReach.inv (h : MmSys.CondReach memMap nr sys) (hnr : nr ≤ maxFrame) : MmSys.Inv memMap nr sys :=
  Run.invariant (fun _ hinit => hinit.inv hnr) (fun _ _ _ hsys hcond hs => hsys.step hnr hcond hs) h

theorem Owns.sees_of_page (h : Owns memMap nr s mm t) {a f : Nat} (ha : a < 2 ^ 47) (hf : t (path a) = some f) :
    sees s mm a = some (s.mem (virtual f + a % 2 ^ 12)) := by
  have hmem : ¬ virtual f + a % 2 ^ 12 < kernelOffset := by
    simp only [virtual]
    omega
  rw [sees, userAddr, if_pos ha, h.translate hf, Option.bind_some, if_neg hmem]

theorem Owns.sees_of_none (h : Owns memMap nr s mm t) {a : Nat} (hf : t (path a) = none) : sees s mm a = none := by
  cases hb : userAddr s.mem mm.pgd a with
  | none => rw [sees, hb, Option.bind_none]
  | some b =>
    rw [sees, hb, Option.bind_some, if_pos]
    by_contra hmem
    obtain ⟨f, hf', -⟩ := h.exists_page hb (not_lt.mp hmem)
    cases hf.symm.trans hf'

theorem Owns.sees_eq (h : Owns memMap nr s mm u) (ht : Touched memMap nr s t s') (hapart : Apart t u) (a : Nat) :
    sees s' mm a = sees s mm a := by
  have h' := h.other ht hapart
  cases hf : u (path a) with
  | none => rw [h'.sees_of_none hf, h.sees_of_none hf]
  | some f =>
    by_cases ha : a < 2 ^ 47
    · rw [h'.sees_of_page ha hf, h.sees_of_page ha hf,
        ht.frames f (h.holds.held _ f hf) (fun ρ hρ => hapart ρ _ f hρ hf) _ (inFrame_mod f a)]
    · simp only [sees, userAddr, if_neg ha, Option.bind_none]

theorem MmSys.Inv.sees_step {op : MmOp} (h : MmSys.Inv memMap nr sys) (hnr : nr ≤ maxFrame) (hcond : sys.cond op)
    (hop : ¬ op.Of j) (hs : sys.step op = some sys') (hj : sys.procs j = some mm) :
    sys'.procs j = some mm ∧ ∀ a, sees sys'.machine mm a = sees sys.machine mm a := by
  obtain ⟨ts, hforest⟩ := h.forest
  have howns := hforest.owns j mm hj
  have hsees : ∀ {i mm' s'}, sys.procs i = some mm' → i ≠ j → Touched memMap nr sys.machine (ts i) s' →
      ∀ a, sees s' mm a = sees sys.machine mm a :=
    fun hi hne ht => howns.sees_eq ht (hforest.apart _ j _ mm hi hj hne)
  cases op <;> simp only [MmSys.step, Option.bind_eq_bind, Option.bind_eq_some_iff, Prod.exists, Option.pure_def,
    Option.ite_none_left_eq_some, Option.some.injEq] at hs
  case brk i addr =>
    obtain ⟨mm', hi, ret, s', mm'', hbrk, rfl⟩ := hs
    obtain ⟨t', hext, -⟩ := (hforest.owns i mm' hi).brk h.alloc hnr (hcond.2 mm' hi) hbrk
    exact ⟨by simp [Ne.symm hop, hj], hsees hi hop hext.touched⟩
  case exec i args file phdrs =>
    obtain ⟨mm', hi, s', mm'', hexec, rfl⟩ := hs
    obtain ⟨t', hmoved, -⟩ := (hforest.owns i mm' hi).exec h.alloc hnr hcond.2 hexec
    exact ⟨by simp [Ne.symm hop, hj], hsees hi hop hmoved.touched⟩
  case store i addr value =>
    obtain ⟨mm', hi, b, hb, hmem, rfl⟩ := hs
    exact ⟨hj, hsees hi hop ((hforest.owns i mm' hi).store value h.alloc hb (not_lt.mp hmem)).touched⟩
  case reap i =>
    obtain ⟨mm', hi, hs⟩ := hs
    obtain ⟨root, hroot, hpgd⟩ := (hforest.owns i mm' hi).root
    obtain ⟨freed, s₁, hfree, -, htouched⟩ := (hforest.owns i mm' hi).reap h.alloc hroot
    rw [hpgd, hfree] at hs
    subst hs
    exact ⟨by simp [Ne.symm hop, hj], hsees hi hop htouched⟩
  case fork i child =>
    obtain ⟨mm', hi, copy, s', hcopy, rfl⟩ := hs
    cases copy with
    | none =>
      cases hzero : getZeroedPage sys.machine with
      | none =>
        rw [copyMm, hzero] at hcopy
        cases hcopy
        exact ⟨hj, fun _ => rfl⟩
      | some r => simp [copyMm_eq hzero, Option.bind_eq_some_iff] at hcopy
    | some mm'' =>
      have hne : j ≠ child := by
        rintro rfl
        cases hj.symm.trans hcond.1
      obtain ⟨t', hmoved, -⟩ := (hforest.owns i mm' hi).fork h.alloc hnr hcopy
      exact ⟨by simp [hne, hj], howns.sees_eq hmoved.touched fun _ _ _ hf => by cases hf⟩
  case kernel op =>
    obtain ⟨alloc, -, rfl⟩ := hs
    exact ⟨hj, fun _ => rfl⟩

/-- A process keeps its memory, byte by byte, whatever other processes and the kernel do. -/
theorem memory_kept (hnr : nr < 2 ^ 32) (h : MmSys.CondReach memMap nr sys) (hj : sys.procs j = some mm)
    (hrun : Run MmSys.step (fun sys op => sys.cond op ∧ ¬ op.Of j) (· = sys) sys') :
    sys'.procs j = some mm ∧ ∀ a, sees sys'.machine mm a = sees sys.machine mm a := by
  have hnr' : nr ≤ maxFrame := Nat.le_trans (Nat.le_of_lt hnr) (by decide)
  refine (Run.invariant (Q := fun sys' => MmSys.Inv memMap nr sys' ∧ sys'.procs j = some mm ∧
    ∀ a, sees sys'.machine mm a = sees sys.machine mm a) ?_ ?_ hrun).2
  · rintro _ rfl
    exact ⟨h.inv hnr', hj, fun _ => rfl⟩
  · rintro sys₁ op sys₂ ⟨hinv, hj₁, hsees⟩ ⟨hcond, hop⟩ hs
    obtain ⟨hj₂, hsees₂⟩ := hinv.sees_step hnr' hcond hop hs hj₁
    exact ⟨hinv.step hnr' hcond hs, hj₂, fun a => (hsees₂ a).trans (hsees a)⟩

/-! ### Two processes -/

def twoProcs : MmSys where
  machine := ⟨fun _ => 0, (((BuddySys.init (fun _ => ⟨false, false, none⟩) 16).alloc 0).2.alloc 0).2⟩
  procs i := if i < 2 then some (.fresh i) else none

def MmSys.after (sys : MmSys) (op : MmOp) : MmSys := (sys.step op).getD sys

theorem MmSys.step_after {op : MmOp} (h : (sys.step op).isSome = true) : sys.step op = some (sys.after op) := by
  obtain ⟨sys', hs⟩ := Option.isSome_iff_exists.mp h
  rw [after, hs, Option.getD_some]

/-- Each has a page in its heap, and the first has stored a byte in it. -/
def twoHeaps : MmSys :=
  ((twoProcs.after (.brk 0 (userBrkStart + 1))).after (.brk 1 (userBrkStart + 1))).after (.store 0 userBrkStart 5)

theorem twoProcs_init : twoProcs.Init (fun _ => ⟨false, false, none⟩) 16 := by
  have hok : ∀ s : BuddySys, s.ok (.alloc 0) := fun _ => show 0 < maxOrder by decide
  have hproc : ∀ i mm, twoProcs.procs i = some mm → i < 2 ∧ mm = .fresh i := by
    intro i mm hi
    obtain ⟨hlt, hmm⟩ := Option.ite_none_right_eq_some.mp hi
    exact ⟨hlt, (Option.some.inj hmm).symm⟩
  refine ⟨.step (.step (.init rfl) (hok _) rfl) (hok _) rfl, fun i mm hi => ?_, fun i j mm mm' hi hj hpgd => ?_⟩
  · obtain ⟨hlt, rfl⟩ := hproc i mm hi
    have hlive : twoProcs.machine.alloc.live = [(1, 0), (0, 0)] := by decide +kernel
    refine ⟨i, rfl, ?_, fun _ _ => Mem.load_eq_zero fun _ _ _ => rfl⟩
    rw [hlive]
    obtain rfl | rfl : i = 0 ∨ i = 1 := by omega
    · simp
    · simp
  · rw [(hproc i mm hi).2, (hproc j mm' hj).2] at hpgd
    exact virtual_injective hpgd

theorem MmSys.store_cond (sys : MmSys) (i addr : Nat) (value : UInt8) : sys.cond (.store i addr value) := ⟨trivial, trivial⟩

theorem twoHeaps_reach : MmSys.CondReach (fun _ => ⟨false, false, none⟩) 16 twoHeaps := by
  have h₁ : MmSys.procs (twoProcs.after (.brk 0 (userBrkStart + 1))) 1 = some (.fresh 1) := by decide +kernel
  refine .step (.step (.step (.init twoProcs_init) (MmSys.brk_cond rfl (by decide) ?_) (MmSys.step_after ?_))
    (MmSys.brk_cond h₁ (by decide) (by decide)) (MmSys.step_after ?_)) (MmSys.store_cond ..) (MmSys.step_after ?_)
  all_goals decide +kernel

/-- The other process stores to the same address, and the first still reads its byte. -/
theorem memory_kept_twoHeaps : (twoHeaps.procs 1).bind (fun mm =>
      sees (twoHeaps.after (.store 1 userBrkStart 7)).machine mm userBrkStart) = some 7 ∧
    ∀ mm, twoHeaps.procs 0 = some mm → sees twoHeaps.machine mm userBrkStart = some 5 ∧
      sees (twoHeaps.after (.store 1 userBrkStart 7)).machine mm userBrkStart = some 5 := by
  have hmm : twoHeaps.procs 0 = some { ProcMm.fresh 0 with brk := userBrkStart + pageSize } := by decide +kernel
  have hsees : sees twoHeaps.machine { ProcMm.fresh 0 with brk := userBrkStart + pageSize } userBrkStart = some 5 := by
    decide +kernel
  refine ⟨by decide +kernel, fun mm hi => ?_⟩
  obtain rfl := Option.some.inj (hmm.symm.trans hi)
  have hstep : twoHeaps.step (.store 1 userBrkStart 7) = some (twoHeaps.after (.store 1 userBrkStart 7)) :=
    MmSys.step_after (by decide +kernel)
  have hrun : Run MmSys.step (fun sys op => sys.cond op ∧ ¬ op.Of 0) (· = twoHeaps)
      (twoHeaps.after (.store 1 userBrkStart 7)) :=
    .step (.init rfl) ⟨MmSys.store_cond .., show ¬ 1 = 0 by decide⟩ hstep
  exact ⟨hsees, ((memory_kept (by decide) twoHeaps_reach hmm hrun).2 userBrkStart).trans hsees⟩

end FengOS.Mm
