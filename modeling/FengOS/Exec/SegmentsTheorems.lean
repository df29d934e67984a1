import FengOS.Exec.Segments

/-!
# At most eight segments
-/

namespace FengOS.Exec

open FengOS.Lib
open FengOS.Mm (Machine Phdr Seg ptLoad procMmSegSize)

variable {mm mm' : Mem} {phdr : SegHeader} {phdrs : List SegHeader} {segs : List Seg} {i : Nat}

/-! ## One header -/

structure Recorded (mm : Mem) (segs : List Seg) : Prop where
  count : nrSeg mm = segs.length
  room : segs.length ≤ procMmSegSize
  elements : ∀ i (h : i < segs.length), segOf mm i = segs[i]

theorem noSegs_recorded (mm : Mem) : Recorded (noSegs mm) [] where
  count := Mem.load_store (by decide)
  room := by decide
  elements _ h := absurd h (Nat.not_lt_zero _)

theorem nrSeg_store {off v n : Nat} (h : off + n ≤ nrSegAt) : nrSeg (mm.store off v n) = nrSeg mm :=
  Mem.load_store_of_disjoint (by omega)

theorem segOf_store {off v n : Nat} (h : segAt (i + 1) ≤ off) : segOf (mm.store off v n) i = segOf mm i := by
  unfold segAt segSize at h
  unfold segOf segAt segSize
  rw [Mem.load_store_of_disjoint (by omega), Mem.load_store_of_disjoint (by omega)]

def SegHeader.Wide (phdr : SegHeader) : Prop := phdr.pVaddr < 2 ^ 64

theorem segHeaders_wide (table : Mem) (ePhnum : Nat) : ∀ phdr ∈ segHeaders table ePhnum, phdr.Wide := by
  intro phdr hmem
  obtain ⟨i, -, rfl⟩ := List.mem_map.mp hmem
  exact Mem.load_lt

theorem Recorded.recordSeg (h : Recorded mm segs) (hroom : segs.length < procMmSegSize) (hwide : phdr.Wide) :
    (∀ i ∈ (recordSeg phdr mm).1, i < procMmSegSize) ∧ Recorded (recordSeg phdr mm).2 (segs ++ [phdr.seg]) := by
  have hk : segAt segs.length + segSize ≤ nrSegAt := by
    unfold segAt nrSegAt segSize
    unfold procMmSegSize at *
    omega
  unfold segSize at hk
  dsimp only [Exec.recordSeg]
  rw [h.count]
  have h₁ : nrSeg (mm.store (segAt segs.length + 8) phdr.pVaddr 8) = segs.length :=
    (nrSeg_store (by omega)).trans h.count
  rw [h₁]
  generalize hmm₁ : mm.store (segAt segs.length + 8) phdr.pVaddr 8 = mm₁ at h₁ ⊢
  have h₂ : nrSeg (mm₁.store (segAt segs.length + 16) ((phdr.pVaddr + phdr.pMemsz) % 2 ^ 64) 8) = segs.length :=
    (nrSeg_store (by omega)).trans h₁
  rw [h₂]
  generalize hmm₂ : mm₁.store (segAt segs.length + 16) ((phdr.pVaddr + phdr.pMemsz) % 2 ^ 64) 8 = mm₂ at h₂ ⊢
  have h₃ : nrSeg (mm₂.store (segAt segs.length) phdr.pFlags 4) = segs.length := (nrSeg_store (by omega)).trans h₂
  rw [h₃]
  generalize hmm₃ : mm₂.store (segAt segs.length) phdr.pFlags 4 = mm₃ at h₃ ⊢
  have hmod : (segs.length + 1) % 2 ^ 8 = segs.length + 1 := by
    unfold procMmSegSize at hroom
    omega
  -- `nr_seg` is behind the elements
  have hlast : ∀ i ≤ segs.length, segOf (mm₃.store nrSegAt (segs.length + 1) 1) i = segOf mm₃ i := by
    intro i hi
    refine segOf_store ?_
    unfold segAt nrSegAt segSize procMmSegSize at *
    omega
  rw [hmod]
  constructor
  · simp only [List.mem_cons, List.not_mem_nil, or_false]
    rintro i (rfl | rfl | rfl) <;> exact hroom
  · constructor
    case count =>
      rw [List.length_append, List.length_singleton]
      exact Mem.load_store (by unfold procMmSegSize at hroom; omega)
    case room =>
      rw [List.length_append, List.length_singleton]
      exact hroom
    case elements =>
      intro i hi
      rw [List.length_append, List.length_singleton] at hi
      rw [hlast i (by omega), ← hmm₃]
      rcases Nat.lt_or_eq_of_le (Nat.le_of_lt_succ hi) with hlt | rfl
      · have hbefore : segAt (i + 1) ≤ segAt segs.length := by
          unfold segAt segSize
          omega
        rw [List.getElem_append_left hlt, segOf_store hbefore, ← hmm₂, segOf_store (by omega), ← hmm₁,
          segOf_store (by omega), h.elements i hlt]
      · rw [List.getElem_append_right (Nat.le_refl _), List.getElem_singleton, segOf,
          Mem.load_store_of_disjoint (by omega), Mem.load_store_of_disjoint (by omega), ← hmm₂,
          Mem.load_store_of_disjoint (by omega), ← hmm₁, Mem.load_store (hwide.trans_eq (by decide)),
          Mem.load_store ((Nat.mod_lt _ (by decide)).trans_eq (by decide))]
        rfl

/-! ## All headers -/

theorem segLoads_cons_of_load (h : phdr.pType = ptLoad) : segLoads (phdr :: phdrs) = phdr :: segLoads phdrs := by
  simp [segLoads, h]

theorem segLoads_cons_of_ne (h : phdr.pType ≠ ptLoad) : segLoads (phdr :: phdrs) = segLoads phdrs := by
  simp [segLoads, h]

theorem Recorded.run (h : Recorded mm segs) (hwide : ∀ phdr ∈ phdrs, phdr.Wide)
    (hroom : segs.length + (segLoads phdrs).length ≤ procMmSegSize) : (∀ i ∈ (recordSegs phdrs mm).1, i < procMmSegSize) ∧
      Recorded (recordSegs phdrs mm).2 (segs ++ (segLoads phdrs).map SegHeader.seg) := by
  induction phdrs generalizing mm segs with
  | nil =>
    refine ⟨fun i hi => absurd hi List.not_mem_nil, ?_⟩
    rw [segLoads, List.filter_nil, List.map_nil, List.append_nil]
    exact h
  | cons phdr phdrs ih =>
    obtain ⟨hhead, htail⟩ := List.forall_mem_cons.mp hwide
    rw [recordSegs]
    by_cases htype : phdr.pType = ptLoad
    · rw [segLoads_cons_of_load htype, List.length_cons] at hroom
      rw [segLoads_cons_of_load htype, if_neg (not_not.mpr htype)]
      obtain ⟨hindices, hnext⟩ := h.recordSeg (by omega) hhead
      obtain ⟨hrest, hlast⟩ := ih hnext htail (by rw [List.length_append, List.length_singleton]; omega)
      refine ⟨List.forall_mem_append.mpr ⟨hindices, hrest⟩, ?_⟩
      rw [List.append_assoc] at hlast
      exact hlast
    · rw [segLoads_cons_of_ne htype] at hroom ⊢
      rw [if_pos htype]
      exact ih h htail hroom

theorem Recorded.overrun (h : Recorded mm segs) (hwide : ∀ phdr ∈ phdrs, phdr.Wide)
    (hroom : procMmSegSize < segs.length + (segLoads phdrs).length) : procMmSegSize ∈ (recordSegs phdrs mm).1 := by
  induction phdrs generalizing mm segs with
  | nil => exact absurd h.room (Nat.not_le.mpr hroom)
  | cons phdr phdrs ih =>
    obtain ⟨hhead, htail⟩ := List.forall_mem_cons.mp hwide
    rw [recordSegs]
    by_cases htype : phdr.pType = ptLoad
    · rw [segLoads_cons_of_load htype, List.length_cons] at hroom
      rw [if_neg (not_not.mpr htype)]
      rcases Nat.lt_or_eq_of_le h.room with hlt | heq
      · obtain ⟨-, hnext⟩ := h.recordSeg hlt hhead
        refine List.mem_append_right _ (ih hnext htail ?_)
        rw [List.length_append, List.length_singleton]
        omega
      · refine List.mem_append_left _ ?_
        rw [← heq, ← h.count]
        exact List.mem_cons_self
    · rw [segLoads_cons_of_ne htype] at hroom
      rw [if_pos htype]
      exact ih h htail hroom

theorem Recorded.forkSegs_eq (h : Recorded mm segs) : forkSegs mm = segs := by
  refine List.ext_getElem (by rw [forkSegs, List.length_map, List.length_range, h.count]) fun i hi hi' => ?_
  rw [← h.elements i hi']
  simp [forkSegs]

/-! ## The loops -/

theorem moduleSegments_mm {pgd : Nat} {s s' : Machine} (h : moduleSegments pgd phdrs mm s = some (mm', s')) :
    mm' = (recordSegs phdrs mm).2 := by
  induction phdrs generalizing mm s with
  | nil =>
    obtain ⟨rfl, -⟩ := Prod.mk.inj (Option.some.inj h)
    rfl
  | cons phdr phdrs ih =>
    rw [moduleSegments] at h
    rw [recordSegs]
    by_cases htype : phdr.pType = ptLoad
    · rw [if_neg (not_not.mpr htype)] at h ⊢
      obtain ⟨s₁, -, h⟩ := Option.bind_eq_some_iff.mp h
      exact ih h
    · rw [if_pos htype] at h ⊢
      exact ih h

section Execve

variable {env : ExecEnv} {x x' : ExecSys} {fd : Int} {vars vars' : Mm.LoadVars}

theorem request_frame {request : Vfs.Request} {ret : Int} (h : x.request env request = some (ret, x')) :
    x'.mm = x.mm ∧ x'.machine = x.machine := by
  simp only [ExecSys.request, Option.bind_eq_bind, Option.bind_eq_some_iff, Option.pure_def, Option.some.injEq,
    Prod.mk.injEq] at h
  obtain ⟨-, -, -, -, -, rfl⟩ := h
  exact ⟨rfl, rfl⟩

theorem readPart_mm (h : readPart env fd x vars = some (x', vars')) : x'.mm = x.mm := by
  unfold readPart at h
  split at h
  · obtain ⟨⟨n, x₁⟩, hread, h⟩ := Option.bind_eq_some_iff.mp h
    have hmm : x₁.mm = x.mm := (request_frame hread).1
    obtain ⟨rfl, -⟩ := Prod.mk.inj (Option.some.inj h)
    exact hmm
  · obtain ⟨rfl, -⟩ := Prod.mk.inj (Option.some.inj h)
    rfl

theorem zeroPart_mm (h : zeroPart x vars = some (x', vars')) : x'.mm = x.mm := by
  obtain ⟨r, -, he⟩ := Option.map_eq_some_iff.mp h
  obtain ⟨rfl, -⟩ := Prod.mk.inj he
  rfl

theorem loadPages_mm {n : Nat} (h : loadPages env fd n x vars = some x') : x'.mm = x.mm := by
  induction n generalizing x vars with
  | zero =>
    cases h
    rfl
  | succ n ih =>
    rw [loadPages] at h
    obtain ⟨⟨page, s⟩, -, h⟩ := Option.bind_eq_some_iff.mp h
    obtain ⟨⟨x₁, vars₁⟩, hread, h⟩ := Option.bind_eq_some_iff.mp h
    obtain ⟨⟨x₂, vars₂⟩, hzero, h⟩ := Option.bind_eq_some_iff.mp h
    rw [ih h, zeroPart_mm hzero, readPart_mm hread]

theorem loadSegments_psegs (hroom : x.mm.psegs.length ≤ procMmSegSize)
    (h : loadSegments env fd (phdrs.map SegHeader.toPhdr) x = some x') :
    x.mm.psegs.length + (segLoads phdrs).length ≤ procMmSegSize ∧
      x'.mm.psegs = x.mm.psegs ++ (segLoads phdrs).map SegHeader.seg := by
  induction phdrs generalizing x with
  | nil =>
    cases h
    exact ⟨hroom, (List.append_nil _).symm⟩
  | cons phdr phdrs ih =>
    rw [List.map_cons, loadSegments] at h
    by_cases htype : phdr.pType = ptLoad
    · rw [if_neg (not_not.mpr htype)] at h
      split at h
      case isTrue => cases h
      case isFalse hlt =>
        obtain ⟨⟨ret, x₁⟩, hseek, h⟩ := Option.bind_eq_some_iff.mp h
        obtain ⟨x₂, hpages, h⟩ := Option.bind_eq_some_iff.mp h
        have hmm : x₂.mm.psegs = x.mm.psegs ++ [phdr.seg] := by
          rw [loadPages_mm hpages, (request_frame hseek).1]
          rfl
        have hlength : x₂.mm.psegs.length = x.mm.psegs.length + 1 := by
          rw [hmm, List.length_append, List.length_singleton]
        obtain ⟨hle, heq⟩ := ih (by omega) h
        rw [segLoads_cons_of_load htype, List.length_cons, heq, hmm, List.append_assoc]
        exact ⟨by omega, rfl⟩
    · rw [if_pos htype] at h
      rw [segLoads_cons_of_ne htype]
      exact ih hroom h

theorem loadSegments_forkSegs {table : Mem} {ePhnum : Nat} (hnil : x.mm.psegs = [])
    (h : loadSegments env fd ((segHeaders table ePhnum).map SegHeader.toPhdr) x = some x') (mm : Mem) :
    forkSegs (recordSegs (segHeaders table ePhnum) (noSegs mm)).2 = x'.mm.psegs := by
  obtain ⟨hle, heq⟩ := loadSegments_psegs (by rw [hnil]; exact Nat.zero_le _) h
  rw [hnil, List.length_nil, Nat.zero_add] at hle
  obtain ⟨-, hrun⟩ := (noSegs_recorded mm).run (segHeaders_wide table ePhnum) (by rwa [List.length_nil, Nat.zero_add])
  rw [hrun.forkSegs_eq, heq, hnil]

/-! ### A program that the servers give as it is in the file -/

theorem zeroPart_pos {pgd : Nat} {mem mem' : Mem} (h : Mm.zeroPart pgd mem vars = some (mem', vars')) :
    vars'.pos = vars.pos := by
  unfold Mm.zeroPart at h
  split at h
  · obtain ⟨m, -, h⟩ := Option.bind_eq_some_iff.mp h
    obtain ⟨-, rfl⟩ := Prod.mk.inj (Option.some.inj h)
    rfl
  · obtain ⟨-, rfl⟩ := Prod.mk.inj (Option.some.inj h)
    rfl

/-- The requests for `fd` are served from the file; `At v nr pos` says that its position is `pos`. -/
structure Serves (env : ExecEnv) (fd : Int) (file : Mm.ExecFile) (At : Vfs.State → Nat → Nat → Prop) : Prop where
  read : ∀ x pos nbytes, At x.vfs x.nr pos → ∃ x' : ExecSys,
    readExec env x fd nbytes = some (((min nbytes (file.size - pos) : Nat) : Int), x') ∧
      At x'.vfs x'.nr (pos + min nbytes (file.size - pos)) ∧
      ∀ i < min nbytes (file.size - pos), env.data x.nr i = file.byte (pos + i)
  seek : ∀ x pos offset, At x.vfs x.nr pos → ∃ ret, ∃ x' : ExecSys,
    lseekExec env x fd (toOff offset) = some (ret, x') ∧ At x'.vfs x'.nr offset

variable {file : Mm.ExecFile} {At : Vfs.State → Nat → Nat → Prop} {mem : Mem} {s : Machine}
  (hserves : Serves env fd file At)

include hserves

theorem readPart_of_mm (h : Mm.readPart file x.mm.pgd x.machine.mem vars = some (mem, vars')) (hat : At x.vfs x.nr vars.pos) :
    ∃ x', readPart env fd x vars = some (x', vars') ∧ x'.machine = { x.machine with mem := mem } ∧ x'.mm = x.mm ∧
      At x'.vfs x'.nr vars'.pos := by
  rw [Mm.readPart] at h
  rw [readPart]
  split at h
  case isTrue hpos =>
    rw [if_pos hpos]
    dsimp only [Mm.readExec] at h ⊢
    generalize (if vars.filesz < (vars.segStart + (2 ^ 64 - vars.copyaddr)) % 2 ^ 64 then vars.filesz
      else (vars.segStart + (2 ^ 64 - vars.copyaddr)) % 2 ^ 64) = copysz at h ⊢
    obtain ⟨x₁, hread, hat₁, hdata⟩ := hserves.read x vars.pos copysz hat
    split at h
    case isFalse => cases h
    case isTrue hfull =>
      obtain ⟨rfl, rfl⟩ := Prod.mk.inj (Option.some.inj h)
      rw [hfull] at hread hat₁ hdata ⊢
      obtain ⟨hmm, hmachine⟩ := request_frame hread
      refine ⟨_, Option.bind_eq_some_iff.mpr ⟨_, hread, rfl⟩, ?_, hmm, hat₁⟩
      dsimp only
      rw [hmachine, Int.toNat_natCast, Nat.min_self, Mem.write_congr hdata]
  case isFalse hpos =>
    rw [if_neg hpos]
    obtain ⟨rfl, rfl⟩ := Prod.mk.inj (Option.some.inj h)
    exact ⟨x, rfl, rfl, rfl, hat⟩

theorem loadPages_of_mm {n : Nat} (h : Mm.loadPages file x.mm.pgd n x.machine vars = some s) (hat : At x.vfs x.nr vars.pos) :
    ∃ x' pos, loadPages env fd n x vars = some x' ∧ x'.machine = s ∧ x'.mm = x.mm ∧ At x'.vfs x'.nr pos := by
  induction n generalizing x vars with
  | zero =>
    cases h
    exact ⟨x, _, rfl, rfl, rfl, hat⟩
  | succ n ih =>
    rw [Mm.loadPages] at h
    obtain ⟨⟨page, s₁⟩, hmap, h⟩ := Option.bind_eq_some_iff.mp h
    obtain ⟨⟨mem₁, vars₁⟩, hread, h⟩ := Option.bind_eq_some_iff.mp h
    obtain ⟨⟨mem₂, vars₂⟩, hzero, h⟩ := Option.bind_eq_some_iff.mp h
    obtain ⟨x₁, hread', hmachine₁, hmm₁, hat₁⟩ := readPart_of_mm (x := { x with machine := s₁ }) hserves hread hat
    have hzero' : zeroPart x₁ vars₁ = some ({ x₁ with machine := { x₁.machine with mem := mem₂ } }, vars₂) := by
      rw [zeroPart, hmachine₁, hmm₁]
      exact Option.map_eq_some_iff.mpr ⟨_, hzero, rfl⟩
    rw [← zeroPart_pos hzero] at hat₁
    obtain ⟨x', pos, hrest, hmachine, hmm, hat'⟩ :=
      ih (x := { x₁ with machine := { x₁.machine with mem := mem₂ } }) (by rw [hmachine₁, hmm₁]; exact h) hat₁
    refine ⟨x', pos, ?_, hmachine, hmm.trans hmm₁, hat'⟩
    rw [loadPages]
    exact Option.bind_eq_some_iff.mpr ⟨_, hmap, Option.bind_eq_some_iff.mpr ⟨_, hread',
      Option.bind_eq_some_iff.mpr ⟨_, hzero', hrest⟩⟩⟩

/-- Then `do_execve` leaves the machine and `mm` as the loader of `Mm` does. -/
theorem loadSegments_of_mm {psegs : List Seg} {phdrs : List Phdr} {pos : Nat}
    (h : Mm.loadSegments file x.mm.pgd x.mm.psegs x.machine phdrs = some (psegs, s)) (hat : At x.vfs x.nr pos) :
    ∃ x', loadSegments env fd phdrs x = some x' ∧ x'.machine = s ∧ x'.mm = { x.mm with psegs := psegs } := by
  induction phdrs generalizing x pos with
  | nil =>
    cases h
    exact ⟨x, rfl, rfl, rfl⟩
  | cons phdr phdrs ih =>
    rw [Mm.loadSegments] at h
    rw [loadSegments]
    split at h
    case isTrue htype =>
      rw [if_pos htype]
      exact ih h hat
    case isFalse htype =>
      rw [if_neg htype]
      split at h
      case isTrue => cases h
      case isFalse hroom =>
        obtain ⟨s₁, hpages, h⟩ := Option.bind_eq_some_iff.mp h
        let psegs₁ := x.mm.psegs ++ [⟨phdr.pVaddr, (phdr.pVaddr + phdr.pMemsz) % 2 ^ 64⟩]
        obtain ⟨ret, x₁, hseek, hat₁⟩ :=
          hserves.seek { x with mm := { x.mm with psegs := psegs₁ } } pos phdr.pOffset hat
        obtain ⟨hmm₁, hmachine₁⟩ := request_frame hseek
        obtain ⟨x₂, pos₂, hpages', hmachine₂, hmm₂, hat₂⟩ :=
          loadPages_of_mm hserves (by rw [hmachine₁, hmm₁]; exact hpages) hat₁
        obtain ⟨x', hrest, hmachine, hmm⟩ := ih (by rw [hmachine₂, hmm₂, hmm₁]; exact h) hat₂
        rw [if_neg hroom]
        exact ⟨x', Option.bind_eq_some_iff.mpr ⟨_, hseek, Option.bind_eq_some_iff.mpr ⟨_, hpages', hrest⟩⟩, hmachine,
          by rw [hmm, hmm₂, hmm₁]⟩

end Execve

/-! ## The limit -/

/-- The segments of a program are recorded exactly if at most eight are loaded. -/
theorem segments_recorded_iff (mm table : Mem) (ePhnum : Nat) :
    SegsRecorded mm (segHeaders table ePhnum) ↔ (segLoads (segHeaders table ePhnum)).length ≤ procMmSegSize := by
  have hstart := noSegs_recorded mm
  constructor
  · intro h
    by_contra hroom
    have hindex := hstart.overrun (segHeaders_wide table ePhnum) (by rw [List.length_nil]; omega)
    exact absurd (h.indices _ hindex) (Nat.lt_irrefl _)
  · intro hroom
    obtain ⟨hindices, hrun⟩ := hstart.run (segHeaders_wide table ePhnum) (by rwa [List.length_nil, Nat.zero_add])
    rw [List.nil_append] at hrun
    exact ⟨hindices, by rw [hrun.count, List.length_map], hrun.forkSegs_eq⟩

/-- Nine program headers of the type `PT_LOAD`, with all flags set. -/
def nineLoads : Mem := fun a => if a % phdrSize = 0 then 1 else if a % phdrSize = 4 then 7 else 0

/-- A header that `do_execve` and `module_proc` accept. -/
def nineHeader : Ehdr := ⟨[0x7f, 0x45, 0x4c, 0x46, 2, 1, 1, 0, 0, 0, 0, 0, 0, 0, 0, 0], 2, 62, 0, 64, 9⟩

/-- The ninth segment is written behind the array, and its flags become `nr_seg`. -/
theorem ninth_segment_overruns : verifyEhdr nineHeader = true ∧
    (recordSegs (segHeaders nineLoads nineHeader.ePhnum) (noSegs fun _ => 0)).1.getLast? = some procMmSegSize ∧
    nrSeg (recordSegs (segHeaders nineLoads nineHeader.ePhnum) (noSegs fun _ => 0)).2 = 8 ∧
    ¬ SegsRecorded (fun _ => 0) (segHeaders nineLoads nineHeader.ePhnum) := by
  refine ⟨by decide, by decide +kernel, by decide +kernel, fun h => ?_⟩
  have hcount := h.count
  revert hcount
  decide +kernel

end FengOS.Exec
