import FengOS.Mm.ExecTheorems
import FengOS.Mm.Lemmas.Brk

/-!
# Heaps in runs of `brk`, `execve` and `fork`
-/

namespace FengOS.Mm

open FengOS.Lib

variable {memMap : Nat → Page} {nr root : Nat} {s s' s₁ : Machine} {t t' u : Radix Nat} {mm mm' : ProcMm} {sys sys' : MmSys}
  {a f i n : Nat} {ts : Nat → Radix Nat}

/-! ## The requests -/

/-- A request has replaced the tree of a process. -/
structure Moved (memMap : Nat → Page) (nr : Nat) (s : Machine) (t : Radix Nat) (s' : Machine) (t' : Radix Nat) : Prop where
  inv : s'.alloc.Inv memMap nr
  touched : Touched memMap nr s t s'
  source : ∀ π f, t' π = some f → (∃ ρ, t ρ = some f) ∨ s.alloc.Avail memMap nr f

theorem Extended.moved (h : Extended memMap nr s t s' t') : Moved memMap nr s t s' t' :=
  ⟨h.inv, h.touched, fun π f hf => (h.new π f hf).imp_left fun hold => ⟨π, hold⟩⟩

theorem Moved.apart (h : Moved memMap nr s t s' t') (hu : Holds memMap nr s u) (hapart : Apart t u) : Apart t' u := by
  intro π ρ f hf hf'
  rcases h.source π f hf with ⟨σ, hσ⟩ | hav
  · exact hapart σ ρ f hσ hf'
  · exact hu.held ρ f hf' hav

theorem Owns.exec {args : Nat → UInt8} {file : ExecFile} {phdrs : List Phdr} (h : Owns memMap nr s mm t)
    (hinv : s.alloc.Inv memMap nr) (hnr : nr ≤ maxFrame) (hok : ElfOk file (loads phdrs))
    (hexec : execMm s mm args file phdrs = some (s', mm')) : ∃ t', Moved memMap nr s t s' t' ∧ Owns memMap nr s' mm' t' := by
  obtain ⟨root, hroot, hpgd⟩ := h.root
  obtain ⟨freed, s₁, hfree, hinv₁, hspace₁, hlive₁, htouched₁⟩ := h.freeProcMm hinv hroot
  simp only [execMm, hpgd, hfree, Option.bind_eq_bind, Option.bind_eq_some_iff, Prod.exists, Option.pure_def,
    Option.some.injEq, Prod.mk.injEq] at hexec
  obtain ⟨s₂, hstack, psegs, s₃, hload, rfl, rfl⟩ := hexec
  obtain ⟨t₂, hspace₂, hext₂, hrange⟩ := hspace₁.execStack_ok hinv₁ hnr rfl hstack
  obtain ⟨-, -, t', hfilled⟩ := hspace₂.loadSegments_ok hext₂.inv hnr (hext₂.old [] root rfl) hok (Nat.zero_le _) hload
  have hext₃ := hfilled.extended (loadSegments_live hload)
  have hext := hext₂.trans hext₃
  have hempty : ∀ π f, emptyTree root π = some f → ∃ ρ, t ρ = some f := by
    intro π f hf
    cases π with
    | nil => exact ⟨[], hroot.trans hf⟩
    | cons i π => cases hf
  refine ⟨t', ⟨hext.inv, htouched₁.trans hext.touched (fun π f hf => .inl (hempty π f hf))
    BuddySys.Inv.not_avail_of_live, fun π f hf => ?_⟩, hext.holds, hext.live hlive₁, ⟨root, hext.old [] root rfl, rfl⟩, ?_⟩
  · rcases hext.new π f hf with hold | hav
    · exact .inl (hempty π f hold)
    · exact (htouched₁.avail f hav).symm
  · rw [loadSegments_psegs hload]
    intro range hmem
    simp only [ProcMm.ranges, List.nil_append, List.map_map, List.mem_append, List.mem_map, List.mem_cons,
      List.not_mem_nil, or_false] at hmem
    rcases hmem with ⟨p, hp, rfl⟩ | rfl | rfl
    · exact hfilled.segment hok hp
    · exact hrange.mono hext₃.old
    · exact .empty (by decide) (by decide)

theorem Owns.not_free (h : Owns memMap nr s mm t) (hinv : s.alloc.Inv memMap nr) {π : List Nat} (hf : t π = some f) :
    ¬ s.alloc.FreePage f :=
  fun hfree => h.holds.held π f hf (hinv.freePage_iff.mp hfree)

theorem Owns.backedAt (h : Owns memMap nr s mm t) (hinv : s.alloc.Inv memMap nr) (hf : t (path a) = some f) :
    BackedAt s mm.pgd a := by
  obtain ⟨root, hroot, hpgd⟩ := h.root
  rw [BackedAt, hpgd]
  intro v hv
  obtain ⟨ρ, g, hg, rfl⟩ := (h.holds.walk_page hroot hf).2 v hv
  exact ⟨g, rfl, h.not_free hinv hg⟩

theorem Owns.translate (h : Owns memMap nr s mm t) (hf : t (path a) = some f) :
    translate s.mem mm.pgd a = some (virtual f + a % 2 ^ 12) := by
  obtain ⟨root, hroot, hpgd⟩ := h.root
  rw [hpgd]
  exact (h.holds.walk_page hroot hf).1

theorem Owns.mapped {range : Nat × Nat} (h : Owns memMap nr s mm t) (hrange : range ∈ mm.ranges) :
    MappedRange s.mem mm.pgd range := by
  obtain ⟨hstart, hlast, hle, hbound, hmapped⟩ := h.ranges range hrange
  refine ⟨hstart, hlast, hle, hbound, fun a hlo hhi => ?_⟩
  obtain ⟨f, hf⟩ := hmapped a hlo hhi
  exact ⟨_, h.translate hf⟩

theorem Owns.fork (h : Owns memMap nr s mm t) (hinv : s.alloc.Inv memMap nr) (hnr : nr ≤ maxFrame)
    (hcopy : copyMm n s mm = some (some mm', s')) :
    ∃ t', Moved memMap nr s (fun _ => none) s' t' ∧ Owns memMap nr s' mm' t' := by
  have hgrown := copyMm_live hcopy
  obtain ⟨top, htop, hpgd⟩ := h.root
  have hback : ∀ r ∈ mm.ranges, ∀ a, r.1 ≤ a → a < r.2 → BackedAt s mm.pgd a := fun r hr a hlo hhi =>
    ((h.ranges r hr).mapped a hlo hhi).elim fun _ hf => h.backedAt hinv hf
  obtain ⟨root, t', rfl, hcopied⟩ := copyMm_ok hinv hnr ⟨top, hpgd, h.not_free hinv htop⟩ hback (fun r hr => h.mapped hr) hcopy
  refine ⟨t', ⟨hcopied.inv, ⟨fun y hy _ => hcopied.agree y hy, fun y hy => .inl (hcopied.avail y hy),
    fun l hl _ => hgrown.mem hl⟩, fun π f hf => .inr (hcopied.fresh π f hf)⟩, hcopied.space.holds, fun π f hf => ?_,
    ⟨root, hcopied.root, rfl⟩, fun range hrange => ?_⟩
  · exact hgrown.mem_of_avail (hcopied.fresh π f hf) (hcopied.space.held π f hf)
  · obtain ⟨hstart, hlast, hle, hbound, -⟩ := h.ranges range hrange
    exact ⟨hstart, hlast, hle, hbound, fun a hlo hhi => (hcopied.pages a (by omega)).mpr ⟨range, hrange, hlo, hhi⟩⟩

theorem Owns.exists_page {addr b : Nat} (h : Owns memMap nr s mm t) (hb : userAddr s.mem mm.pgd addr = some b)
    (hmem : kernelOffset ≤ b) : ∃ f, t (path addr) = some f ∧ b = virtual f + addr % 2 ^ 12 := by
  obtain ⟨root, hroot, hpgd⟩ := h.root
  obtain ⟨hlt, hb⟩ := Option.ite_none_right_eq_some.mp hb
  exact h.holds.exists_page hroot hlt (hpgd ▸ hb) hmem

theorem Owns.store {addr b : Nat} (value : UInt8) (h : Owns memMap nr s mm t) (hinv : s.alloc.Inv memMap nr)
    (hb : userAddr s.mem mm.pgd addr = some b) (hmem : kernelOffset ≤ b) :
    Extended memMap nr s t { s with mem := Function.update s.mem b value } t := by
  obtain ⟨f, hf, rfl⟩ := h.exists_page hb hmem
  exact h.holds.write_page hinv value hf rfl (inFrame_mod f addr)

/-! ## All processes -/

/-- The processes own trees without common frames. -/
structure Forest (memMap : Nat → Page) (nr : Nat) (sys : MmSys) (ts : Nat → Radix Nat) : Prop where
  owns : ∀ i mm, sys.procs i = some mm → Owns memMap nr sys.machine mm (ts i)
  apart : ∀ i j mm mm', sys.procs i = some mm → sys.procs j = some mm' → i ≠ j → Apart (ts i) (ts j)

structure MmSys.Inv (memMap : Nat → Page) (nr : Nat) (sys : MmSys) : Prop where
  alloc : sys.machine.alloc.Inv memMap nr
  forest : ∃ ts, Forest memMap nr sys ts

theorem Forest.update (h : Forest memMap nr sys ts)
    (ht : ∀ j mm, sys.procs j = some mm → j ≠ i → Apart t (ts j)) (hmoved : Moved memMap nr sys.machine t s' t')
    (howns : Owns memMap nr s' mm' t') :
    Forest memMap nr ⟨s', Function.update sys.procs i (some mm')⟩ (Function.update ts i t') := by
  have hother : ∀ {j mm}, j ≠ i → Function.update sys.procs i (some mm') j = some mm → sys.procs j = some mm :=
    fun hne hj => by rwa [Function.update_of_ne hne] at hj
  have hnew : ∀ {j mm}, j ≠ i → sys.procs j = some mm → Apart t' (ts j) :=
    fun hne hj => hmoved.apart (h.owns _ _ hj).holds (ht _ _ hj hne)
  constructor
  case owns =>
    intro j mm hj
    rcases eq_or_ne j i with rfl | hne
    · obtain rfl : mm' = mm := by simpa using hj
      rwa [Function.update_self]
    · rw [Function.update_of_ne hne]
      exact (h.owns j mm (hother hne hj)).other hmoved.touched (ht j mm (hother hne hj) hne)
  case apart =>
    intro j k mm₁ mm₂ hj hk hjk
    rcases eq_or_ne j i with rfl | hj'
    · rw [Function.update_self, Function.update_of_ne hjk.symm]
      exact hnew hjk.symm (hother hjk.symm hk)
    · rcases eq_or_ne k i with rfl | hk'
      · rw [Function.update_self, Function.update_of_ne hj']
        exact (hnew hj' (hother hj' hj)).symm
      · rw [Function.update_of_ne hj', Function.update_of_ne hk']
        exact h.apart j k mm₁ mm₂ (hother hj' hj) (hother hk' hk) hjk

theorem Forest.alloc {alloc : BuddySys} (h : Forest memMap nr sys ts)
    (hlive : ∀ i mm, sys.procs i = some mm → Live { sys.machine with alloc := alloc } (ts i)) :
    Forest memMap nr { sys with machine := { sys.machine with alloc := alloc } } ts where
  owns i mm hi := by
    have howns := h.owns i mm hi
    have hl := hlive i mm hi
    exact ⟨⟨howns.holds.ok, howns.holds.bound, howns.holds.table, fun π f hf =>
      BuddySys.Inv.not_avail_of_live _ (hl π f hf)⟩, hl, howns.root, howns.ranges⟩
  apart := h.apart

/-! ## Steps -/

theorem MmSys.Inv.replace (h : MmSys.Inv memMap nr sys) {mm : ProcMm} (hi : sys.procs i = some mm)
    (hstep : ∀ t, Owns memMap nr sys.machine mm t → ∃ t', Moved memMap nr sys.machine t s' t' ∧ Owns memMap nr s' mm' t') :
    MmSys.Inv memMap nr ⟨s', Function.update sys.procs i (some mm')⟩ := by
  obtain ⟨ts, hforest⟩ := h.forest
  obtain ⟨t', hmoved, howns⟩ := hstep (ts i) (hforest.owns i mm hi)
  exact ⟨hmoved.inv, _, hforest.update (fun j mmj hj hne => hforest.apart i j mm mmj hi hj hne.symm) hmoved howns⟩

theorem MmSys.Inv.fork {child : Nat} (h : MmSys.Inv memMap nr sys) (hnr : nr ≤ maxFrame)
    (hs : sys.step (.fork i child) = some sys') : MmSys.Inv memMap nr sys' := by
  simp only [MmSys.step, Option.bind_eq_bind, Option.bind_eq_some_iff, Prod.exists, Option.pure_def,
    Option.some.injEq] at hs
  obtain ⟨mm, hi, copy, s', hcopy, rfl⟩ := hs
  obtain ⟨ts, hforest⟩ := h.forest
  cases copy with
  | none =>
    -- there was no page for the top table
    cases hzero : getZeroedPage sys.machine with
    | none =>
      rw [copyMm, hzero] at hcopy
      cases hcopy
      exact ⟨h.alloc, ts, hforest⟩
    | some r =>
      rw [copyMm_eq hzero] at hcopy
      obtain ⟨_, -, hcopy⟩ := Option.bind_eq_some_iff.mp hcopy
      cases hcopy
  | some mm' =>
    obtain ⟨t', hmoved, howns⟩ := (hforest.owns i mm hi).fork h.alloc hnr hcopy
    exact ⟨hmoved.inv, _, hforest.update (fun _ _ _ _ _ _ _ hf => by cases hf) hmoved howns⟩

theorem MmSys.Inv.reap (h : MmSys.Inv memMap nr sys) (hs : sys.step (.reap i) = some sys') : MmSys.Inv memMap nr sys' := by
  obtain ⟨ts, hforest⟩ := h.forest
  cases hi : sys.procs i with
  | none => simp [MmSys.step, hi] at hs
  | some mm =>
    have howns := hforest.owns i mm hi
    obtain ⟨root, hroot, hpgd⟩ := howns.root
    obtain ⟨freed, s₁, hfree, hinv, htouched⟩ := howns.reap h.alloc hroot
    simp only [MmSys.step, hi, hpgd, hfree, Option.bind_eq_bind, Option.bind_some, Option.pure_def,
      Option.some.injEq] at hs
    subst hs
    have hother : ∀ {j mm}, Function.update sys.procs i none j = some mm → j ≠ i ∧ sys.procs j = some mm := by
      intro j mm hj
      rcases eq_or_ne j i with rfl | hne
      · simp at hj
      · exact ⟨hne, by rwa [Function.update_of_ne hne] at hj⟩
    refine ⟨hinv, ts, fun j mm' hj => ?_, fun j k mm₁ mm₂ hj hk => ?_⟩
    · obtain ⟨hne, hj⟩ := hother hj
      exact (hforest.owns j mm' hj).other htouched (hforest.apart i j mm mm' hi hj hne.symm)
    · exact hforest.apart j k mm₁ mm₂ (hother hj).2 (hother hk).2

theorem MmSys.Inv.kernel {op : BuddyOp} (h : MmSys.Inv memMap nr sys) (hok : sys.ok (.kernel op))
    (hs : sys.step (.kernel op) = some sys') : MmSys.Inv memMap nr sys' := by
  obtain ⟨ts, hforest⟩ := h.forest
  cases op with
  | alloc order =>
    obtain rfl := Option.some.inj hs
    have hok : sys.machine.alloc.ok (.alloc order) := hok
    have hinv : (sys.machine.alloc.alloc order).2.Inv memMap nr := h.alloc.step hok rfl
    refine ⟨hinv, ts, hforest.alloc fun i mm hi π f hf => ?_⟩
    have hlive := (hforest.owns i mm hi).live π f hf
    rcases h.alloc.alloc_cases hok with he | ⟨page, b', he, -⟩
    · rwa [he]
    · rw [he]
      exact List.mem_cons_of_mem _ hlive
  | free addr order =>
    obtain rfl := Option.some.inj hs
    have hok : sys.machine.alloc.ok (.free addr order) ∧ ¬ sys.Uses (pageLowerAlign addr) := hok
    obtain ⟨⟨page, hpage, haddr⟩, hunused⟩ := hok
    refine ⟨h.alloc.free hpage haddr, ts, hforest.alloc fun i mm hi π f hf => ?_⟩
    have howns := hforest.owns i mm hi
    refine (h.alloc.mem_filter hpage haddr (f, 0)).mpr ⟨howns.live π f hf, fun heq => hunused ?_⟩
    obtain ⟨root, hroot, hpgd⟩ := howns.root
    obtain ⟨a, ha, hwalk⟩ := howns.holds.exists_walk hroot hf
    rw [← hpgd, (Prod.mk.inj heq).1, ← haddr] at hwalk
    exact ⟨i, mm, hi, a, ha, hwalk⟩

theorem MmSys.Inv.step {op : MmOp} (h : MmSys.Inv memMap nr sys) (hnr : nr ≤ maxFrame) (hcond : sys.cond op)
    (hs : sys.step op = some sys') : MmSys.Inv memMap nr sys' := by
  cases op with
  | brk i addr =>
    simp only [MmSys.step, Option.bind_eq_bind, Option.bind_eq_some_iff, Prod.exists, Option.pure_def,
      Option.some.injEq] at hs
    obtain ⟨mm, hi, ret, s', mm', hbrk, rfl⟩ := hs
    refine h.replace hi fun t howns => ?_
    obtain ⟨t', hext, howns'⟩ := howns.brk h.alloc hnr (hcond.2 mm hi) hbrk
    exact ⟨t', hext.moved, howns'⟩
  | exec i args file phdrs =>
    simp only [MmSys.step, Option.bind_eq_bind, Option.bind_eq_some_iff, Prod.exists, Option.pure_def,
      Option.some.injEq] at hs
    obtain ⟨mm, hi, s', mm', hexec, rfl⟩ := hs
    exact h.replace hi fun t howns => howns.exec h.alloc hnr hcond.2 hexec
  | fork i child => exact h.fork hnr hs
  | store i addr value =>
    simp only [MmSys.step, Option.bind_eq_bind, Option.bind_eq_some_iff, Option.pure_def, Option.ite_none_left_eq_some,
      Option.some.injEq] at hs
    obtain ⟨mm, hi, b, hb, hmem, rfl⟩ := hs
    have hsame : Function.update sys.procs i (some mm) = sys.procs := by rw [← hi, Function.update_eq_self]
    have hnew : MmSys.Inv memMap nr ⟨{ sys.machine with mem := Function.update sys.machine.mem b value },
        Function.update sys.procs i (some mm)⟩ := by
      refine h.replace hi fun t howns => ?_
      have hext := howns.store value h.alloc hb (not_lt.mp hmem)
      exact ⟨t, hext.moved, howns.extended hext rfl howns.ranges⟩
    rwa [hsame] at hnew
  | reap i => exact h.reap hs
  | kernel op => exact h.kernel hcond.1 hs

/-! ## Heaps -/

theorem copyRange_rounds {cur pgd rounds : Nat} (hlt : a + n * 2 ^ 12 < 2 ^ 64) : copyRange cur pgd rounds s a (a + n * 2 ^ 12) =
    if rounds ≤ n then none else copyRange cur pgd (n + 1) s a (a + n * 2 ^ 12) := by
  induction rounds generalizing s a n with
  | zero => exact (if_pos (Nat.zero_le n)).symm
  | succ rounds ih =>
    cases n with
    | zero => rw [if_neg (by omega), copyRange, copyRange, if_pos (by omega), if_pos (by omega)]
    | succ n =>
      have hnext : (a + pageSize) % 2 ^ 64 = a + 2 ^ 12 := Nat.mod_eq_of_lt (by simp only [pageSize]; omega)
      have hlast : a + (n + 1) * 2 ^ 12 = a + 2 ^ 12 + n * 2 ^ 12 := by omega
      have hrest := fun s => ih (s := s) (show a + 2 ^ 12 + n * 2 ^ 12 < 2 ^ 64 by omega)
      rw [copyRange_succ (by omega), copyRange_succ (by omega), hnext, hlast]
      simp only [hrest, Nat.add_le_add_iff_right]
      split
      · simp only [Option.bind_fun_none]
      · rfl

theorem Owns.heapOk (h : Owns memMap nr s mm t) : HeapOk s.mem mm := by
  obtain ⟨hstart, hlast, hle, hbound, hmapped⟩ := h.heap
  simp only [pageSize] at hstart hlast
  have hpages : mm.startBrk + mm.heapPages * 2 ^ 12 = mm.brk := by
    simp only [ProcMm.heapPages, pageSize]
    omega
  refine ⟨hle, hlast, fun a hlo hhi => ?_, fun rounds hr pgd s => ?_, fun rounds hr pgd s => ?_⟩
  · obtain ⟨f, hf⟩ := hmapped a hlo hhi
    exact ⟨_, h.translate hf⟩
  · rw [← hpages]
    exact (copyRange_rounds (by omega)).trans (if_pos hr)
  · rw [← hpages]
    exact (copyRange_rounds (by omega)).trans (if_neg (by omega))

theorem Owns.fresh (hinv : s.alloc.Inv memMap nr) (hnr : nr ≤ maxFrame) (hlive : (root, 0) ∈ s.alloc.live)
    (hentries : ∀ i < prePageEntry / 2, entry s.mem (virtual root) i = 0) :
    Owns memMap nr s (.fresh root) (emptyTree root) := by
  have husable := hinv.usable root ⟨(root, 0), hlive, inBlock_zero.mpr rfl⟩
  have hempty : EmptyLower s root := by
    refine ⟨Nat.lt_of_lt_of_le husable.1 hnr, fun k p hp hin => ?_, hentries⟩
    exact BuddySys.Inv.not_avail_of_live _ hlive ((hinv.avail_iff root).mpr ⟨k, p, hp, hin⟩)
  refine ⟨(hempty.space hinv).holds, fun π f hf => ?_, ⟨root, rfl, rfl⟩, fun range hrange => ?_⟩
  · cases π with
    | nil =>
      cases hf
      exact hlive
    | cons i π => cases hf
  · simp only [ProcMm.ranges, ProcMm.fresh, List.map_nil, List.nil_append, List.mem_cons, List.not_mem_nil, or_false] at hrange
    rcases hrange with rfl | rfl
    · exact .empty (by decide) (by decide)
    · exact .empty (by decide) (by decide)

theorem MmSys.Init.inv (h : MmSys.Init memMap nr sys) (hnr : nr ≤ maxFrame) : MmSys.Inv memMap nr sys := by
  have hinv := h.alloc.inv
  have hex : ∀ i, ∃ root, ∀ mm, sys.procs i = some mm →
      mm.pgd = virtual root ∧ Owns memMap nr sys.machine mm (emptyTree root) := by
    intro i
    cases hi : sys.procs i with
    | none => exact ⟨0, nofun⟩
    | some mm =>
      obtain ⟨root, rfl, hlive, hentries⟩ := h.fresh i mm hi
      refine ⟨root, fun mm hmm => ?_⟩
      cases hmm
      exact ⟨rfl, .fresh hinv hnr hlive hentries⟩
  choose rootOf hrootOf using hex
  refine ⟨hinv, fun i => emptyTree (rootOf i), fun i mm hi => (hrootOf i mm hi).2, ?_⟩
  intro i j mm mm' hi hj hne π ρ f hf hf'
  have hnode : ∀ {r π}, emptyTree r π = some f → r = f := by
    intro r π hr
    cases π with
    | nil => exact Option.some.inj hr
    | cons i π => cases hr
  refine hne (h.apart i j mm mm' hi hj ?_)
  rw [(hrootOf i mm hi).1, (hrootOf j mm' hj).1, hnode hf, hnode hf']

/-- In every run whose requests meet the condition, every process has its heap in order. -/
theorem brk_heap_ok {memMap : Nat → Page} {nr : Nat} {sys : MmSys} (hnr : nr < 2 ^ 32)
    (h : MmSys.CondReach memMap nr sys) : ∀ i mm, sys.procs i = some mm → HeapOk sys.machine.mem mm := by
  have hnr' : nr ≤ maxFrame := Nat.le_trans (Nat.le_of_lt hnr) (by decide)
  have hinv : MmSys.Inv memMap nr sys := by
    refine Run.invariant (Q := MmSys.Inv memMap nr) (fun sys hinit => hinit.inv hnr') ?_ h
    exact fun sys op sys' hsys hcond hs => hsys.step hnr' hcond hs
  obtain ⟨ts, hforest⟩ := hinv.forest
  exact fun i mm hi => (hforest.owns i mm hi).heapOk

theorem MmSys.step_brk {addr : Nat} {ret : Int} (hi : sys.procs i = some mm)
    (h : doBrk sys.machine mm addr = some (ret, s', mm')) :
    sys.step (.brk i addr) = some ⟨s', Function.update sys.procs i (some mm')⟩ := by
  have heq : sys.step (.brk i addr) = (sys.procs i).bind fun mm => (doBrk sys.machine mm addr).bind fun r =>
      some ⟨r.2.1, Function.update sys.procs i (some r.2.2)⟩ := rfl
  rw [heq, hi, Option.bind_some, h, Option.bind_some]

/-! ### One process -/

def oneProc : MmSys where
  machine := ⟨fun _ => 0, ((BuddySys.init (fun _ => ⟨false, false, none⟩) 8).alloc 0).2⟩
  procs i := if i = 0 then some (.fresh 0) else none

theorem oneProc_procs : oneProc.procs 0 = some (.fresh 0) := rfl

theorem oneProc_init : oneProc.Init (fun _ => ⟨false, false, none⟩) 8 := by
  have hproc : ∀ i mm, oneProc.procs i = some mm → i = 0 ∧ mm = .fresh 0 := by
    intro i mm hi
    obtain ⟨hzero, hmm⟩ := Option.ite_none_right_eq_some.mp hi
    exact ⟨hzero, (Option.some.inj hmm).symm⟩
  refine ⟨.step (a := BuddyOp.alloc 0) (.init rfl) (show 0 < maxOrder by decide) rfl, fun i mm hi => ?_, ?_⟩
  · exact ⟨0, (hproc i mm hi).2, by decide, fun i _ => Mem.load_eq_zero fun _ _ _ => rfl⟩
  · intro i j mm mm' hi hj _
    rw [(hproc i mm hi).1, (hproc j mm' hj).1]

/-- `brk(0)` sets the break below the start of the heap. -/
theorem brk_zero_below : ∃ sys mm, MmSys.Reach (fun _ => ⟨false, false, none⟩) 8 sys ∧ sys.procs 0 = some mm ∧
    ¬ mm.startBrk ≤ mm.brk := by
  have hrounds : (nrPages (pageUpperAlign 0) (ProcMm.fresh 0).brk).toNat = 0 := by decide
  have hbrk : doBrk oneProc.machine (.fresh 0) 0 =
      some (0, oneProc.machine, { ProcMm.fresh 0 with brk := pageUpperAlign 0 }) := by
    rw [doBrk, hrounds]
    rfl
  have hok : oneProc.ok (.brk 0 0) := show 0 < 2 ^ 64 by decide
  exact ⟨_, { ProcMm.fresh 0 with brk := pageUpperAlign 0 }, .step (.init oneProc_init) hok (MmSys.step_brk oneProc_procs hbrk),
    by simp only [Function.update_self], by decide⟩

theorem MmSys.brk_cond {addr : Nat} (hi : sys.procs i = some mm) (haddr : addr < 2 ^ 64) (hok : BrkOk mm addr) :
    sys.cond (.brk i addr) := by
  refine ⟨haddr, fun mm' hi' => ?_⟩
  obtain rfl := Option.some.inj (hi.symm.trans hi')
  exact hok

/-- Five pages are asked for and four are left: the request fails, and one for a single page does not. -/
theorem brk_heap_ok_missing : ∃ s₁ sys mm, doBrk oneProc.machine (.fresh 0) (userBrkStart + 5 * pageSize) =
      some (-1, s₁, .fresh 0) ∧ MmSys.step { oneProc with machine := s₁ } (.brk 0 (userBrkStart + 1)) = some sys ∧
    sys.procs 0 = some mm ∧ mm.brk = userBrkStart + pageSize ∧ HeapOk sys.machine.mem mm := by
  have hexec : (doBrk oneProc.machine (.fresh 0) (userBrkStart + 5 * pageSize)).bind (fun r =>
      (doBrk r.2.1 r.2.2 (userBrkStart + 1)).map fun r' => (r.1, r.2.2, r'.2.2.brk)) =
        some (-1, .fresh 0, userBrkStart + pageSize) := by decide +kernel
  obtain ⟨⟨ret, s₁, mm₁⟩, hfirst, hexec⟩ := Option.bind_eq_some_iff.mp hexec
  obtain ⟨⟨ret', s₂, mm₂⟩, hsecond, hmm⟩ := Option.map_eq_some_iff.mp hexec
  obtain ⟨rfl, rfl, hbrk⟩ : ret = -1 ∧ mm₁ = .fresh 0 ∧ mm₂.brk = userBrkStart + pageSize := by simpa using hmm
  have hsame : Function.update oneProc.procs 0 (some (.fresh 0)) = oneProc.procs := by
    rw [← oneProc_procs, Function.update_eq_self]
  have hstep₁ := MmSys.step_brk oneProc_procs hfirst
  rw [hsame] at hstep₁
  have hreach₁ := Run.step (.init oneProc_init) (MmSys.brk_cond oneProc_procs (by decide) (by decide)) hstep₁
  have hstep₂ := MmSys.step_brk (show MmSys.procs ⟨s₁, oneProc.procs⟩ 0 = some (.fresh 0) from oneProc_procs) hsecond
  have hreach₂ := Run.step hreach₁ (MmSys.brk_cond oneProc_procs (by decide) (by decide)) hstep₂
  have hproc : (Function.update oneProc.procs 0 (some mm₂)) 0 = some mm₂ := by simp only [Function.update_self]
  exact ⟨s₁, _, mm₂, hfirst, hstep₂, hproc, hbrk, brk_heap_ok (by decide) hreach₂ 0 mm₂ hproc⟩

end FengOS.Mm
