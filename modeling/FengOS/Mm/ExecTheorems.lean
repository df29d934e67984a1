import FengOS.Mm.Lemmas.Exec
import FengOS.Mm.PageTheorems

/-!
# The image of a program
-/

namespace FengOS.Mm

open FengOS.Lib

variable {memMap : Nat → Page} {nr root : Nat} {s s₀ s₁ s' : Machine} {t t' : Radix Nat} {us vs : List Nat} {a f i : Nat}
  {file : ExecFile} {p : Phdr} {segs : List Phdr}

/-! ## Before the loop -/

theorem Holds.walkAlong_suffix {π is : List Nat} (hs : Holds memMap nr s t) (hroot : t [] = some root)
    (hf : t π = some f) : walkAlong s.mem (virtual f) is <:+ walkAlong s.mem (virtual root) (π.reverse ++ is) := by
  induction π generalizing f is with
  | nil =>
    obtain rfl := Option.some.inj (hroot.symm.trans hf)
    exact List.suffix_rfl
  | cons i π ih =>
    obtain ⟨⟨g, hg⟩, hi, hd⟩ := hs.ok.closed i π f hf
    have hstep : walkAlong s.mem (virtual g) (i :: is) = virtual g :: walkAlong s.mem (virtual f) is := by
      rw [walkAlong, hs.follow_some hg hd hi hf, Option.elim_some]
    have hsuffix := List.suffix_cons (virtual g) (walkAlong s.mem (virtual f) is)
    rw [← hstep] at hsuffix
    rw [List.reverse_cons, List.append_assoc]
    exact hsuffix.trans (ih hg)

theorem walkAlong_head (m : Mem) (v : Nat) (is : List Nat) : v ∈ walkAlong m v is := by
  cases is with
  | nil => exact List.mem_cons_self
  | cons i is => exact List.mem_cons_self

theorem exists_address {i j k l : Nat} (hi : i < 256) (hj : j < 512) (hk : k < 512) (hl : l < 512) :
    ∃ a < 2 ^ 47, indices a = [i, j, k, l] := by
  refine ⟨i * 2 ^ 39 + j * 2 ^ 30 + k * 2 ^ 21 + l * 2 ^ 12, by omega, ?_⟩
  simp only [indices, List.cons.injEq, and_true]
  omega

theorem Holds.exists_walk {π : List Nat} (hs : Holds memMap nr s t) (hroot : t [] = some root) (hf : t π = some f) :
    ∃ a < 2 ^ 47, virtual f ∈ walk s.mem (virtual root) a := by
  have hindex : ∀ {i π g}, t (i :: π) = some g → i < slots π := fun hg => (hs.ok.closed _ _ _ hg).2.1
  have hparent : ∀ {i π g}, t (i :: π) = some g → ∃ u, t π = some u := fun hg => (hs.ok.closed _ _ _ hg).1
  have hon : ∀ is {a}, indices a = π.reverse ++ is → virtual f ∈ walk s.mem (virtual root) a := by
    intro is a ha
    rw [walk, ha]
    exact (hs.walkAlong_suffix hroot hf).subset (walkAlong_head _ _ is)
  -- the remaining indices are zero
  match π, hf with
  | [], hf =>
    exact ⟨0, by decide, hon _ rfl⟩
  | [i], hf =>
    obtain ⟨a, ha, hlist⟩ := exists_address (j := 0) (k := 0) (l := 0) (hindex hf) (by decide) (by decide) (by decide)
    exact ⟨a, ha, hon _ hlist⟩
  | [j, i], hf =>
    obtain ⟨u, hu⟩ := hparent hf
    obtain ⟨a, ha, hlist⟩ := exists_address (k := 0) (l := 0) (hindex hu) (hindex hf) (by decide) (by decide)
    exact ⟨a, ha, hon _ hlist⟩
  | [k, j, i], hf =>
    obtain ⟨u, hu⟩ := hparent hf
    obtain ⟨v, hv⟩ := hparent hu
    obtain ⟨a, ha, hlist⟩ := exists_address (l := 0) (hindex hv) (hindex hu) (hindex hf) (by decide)
    exact ⟨a, ha, hon _ hlist⟩
  | [l, k, j, i], hf =>
    obtain ⟨u, hu⟩ := hparent hf
    obtain ⟨v, hv⟩ := hparent hu
    obtain ⟨w, hw⟩ := hparent hv
    obtain ⟨a, ha, hlist⟩ := exists_address (hindex hw) (hindex hv) (hindex hu) (hindex hf)
    exact ⟨a, ha, hon [] hlist⟩
  | _ :: _ :: _ :: _ :: _ :: π, hf =>
    have hdepth := (hs.ok.closed _ _ _ hf).2.2
    simp only [List.length_cons] at hdepth
    omega

theorem Prepared.exists_space (h : Prepared root s₀ us s) (hempty : EmptyLower s₀ root)
    (halloc : BuddySys.Reach memMap nr s₀.alloc) (hnr : nr < 2 ^ 32) (hus : ∀ u ∈ us, u < 2 ^ 47) :
    s.alloc.Inv memMap nr ∧ ∃ t, Space memMap nr s t ∧ t [] = some root := by
  obtain ⟨vs, s₁, hmaps, hsame, hmem⟩ := h
  obtain ⟨t, hgrown, hroot, hlength, hzip⟩ := hempty.exists_grown halloc hnr hus hmaps
  have hspace := hgrown.space
  refine ⟨hsame ▸ hgrown.inv, t, ⟨hspace.ok, hspace.bound, fun π f hf hd i hi => ?_, hsame ▸ hspace.held⟩, hroot⟩
  rw [← hspace.table π f hf hd i hi]
  refine entry_congr (fun b hb => hmem b fun v hv => ?_) (Nat.lt_of_lt_of_le hi (slots_le π))
  obtain ⟨k, hk, rfl⟩ := List.mem_iff_getElem.mp hv
  obtain ⟨g, hg, hpath⟩ := hzip us[k] vs[k] (List.mem_iff_getElem.mpr ⟨k, by simp; omega, by simp⟩)
  rw [hg]
  by_contra hin
  obtain rfl : f = g := hb.eq ⟨by omega, by omega⟩
  rw [hspace.ok.inj π _ f hf hpath] at hd
  exact absurd hd (by simp [path])

/-! ## What remains of the writes -/

theorem Phdr.written_eq_some {x : UInt8} (h : p.written file a = some x) :
    p.pVaddr ≤ a ∧ a < p.last ∧ x = loadByte file p.pVaddr p.pFilesz p.pOffset a := by
  obtain ⟨⟨hlo, hhi⟩, hx⟩ := Option.ite_none_right_eq_some.mp h
  exact ⟨hlo, hhi, (Option.some.inj hx).symm⟩

theorem written_eq_some {x : UInt8} (h : written file segs a = some x) : ∃ p ∈ segs, p.written file a = some x := by
  induction segs with
  | nil => cases h
  | cons p segs ih =>
    rcases Option.or_eq_some_iff.mp h with h | ⟨-, h⟩
    · obtain ⟨q, hq, hx⟩ := ih h
      exact ⟨q, List.mem_cons_of_mem p hq, hx⟩
    · exact ⟨p, List.mem_cons_self, h⟩

theorem ElfOk.written_file (h : ElfOk file segs) (hp : p ∈ segs) (hi : i < p.pFilesz) :
    written file segs (p.pVaddr + i) = some (file.byte (p.pOffset + i)) := by
  induction segs with
  | nil => cases hp
  | cons q segs ih =>
    rw [written]
    rcases List.mem_cons.mp hp with rfl | hp'
    · have hsize := h.sizes p hp
      obtain ⟨-, -, -, hlast, -⟩ := h.last_eq hp
      have hlater : written file segs (p.pVaddr + i) = none := by
        refine Option.eq_none_iff_forall_ne_some.mpr fun x hx => ?_
        obtain ⟨q, hq, hx⟩ := written_eq_some hx
        have hafter := (List.pairwise_cons.mp h.ascending).1 q hq
        have hstart := (Phdr.written_eq_some hx).1
        omega
      rw [hlater, Option.none_or, Phdr.written, span, if_pos (by omega), loadByte, if_pos (by omega),
        Nat.add_sub_cancel_left]
    · rw [ih h.tail hp', Option.some_or]

theorem ElfOk.written_zero (h : ElfOk file segs) (hc : LoadCond file segs) (hp : p ∈ segs) (hlo : p.pVaddr + p.pFilesz ≤ a)
    (hhi : a < p.last) : written file segs a = some 0 := by
  obtain ⟨-, -, hshared⟩ := hc
  induction segs with
  | nil => cases hp
  | cons q segs ih =>
    obtain ⟨hfirst, hrest⟩ := List.pairwise_cons.mp hshared
    rw [written]
    rcases List.mem_cons.mp hp with rfl | hp'
    · cases hx : written file segs a with
      | none =>
        rw [Option.none_or, Phdr.written, span, if_pos (by omega), loadByte, if_neg (by omega)]
      | some x =>
        obtain ⟨q, hq, hx⟩ := written_eq_some hx
        obtain ⟨hstart, -, rfl⟩ := Phdr.written_eq_some hx
        rw [Option.some_or, loadByte]
        split
        · have hsum : q.pVaddr + (a - q.pVaddr) = a := by omega
          rw [hfirst q hq (a - q.pVaddr) (by omega) (by omega)]
        · rfl
    · rw [ih h.tail hp' hrest, Option.some_or]

/-! ## `do_execve` -/

theorem Filled.loadedRight (h : Filled memMap nr (InSegs segs) (written file segs) s t s' t') (hs : Space memMap nr s t)
    (hinv : s.alloc.Inv memMap nr) (hroot : t [] = some root) (hok : ElfOk file segs) (hc : LoadCond file segs) :
    LoadedRight file segs (virtual root) s s' := by
  have hroot' := h.old [] root hroot
  constructor
  case data =>
    intro p hp i hi
    have hbound := hok.bound p hp
    have hsize := hok.sizes p hp
    have ha : p.pVaddr + i < 2 ^ 47 := by omega
    rw [h.space.userByte_eq hroot' ha]
    exact h.wrote _ ha _ (hok.written_file hp hi)
  case zero =>
    intro p hp a hlo hhi
    have ha : a < 2 ^ 47 := Nat.lt_of_lt_of_le hhi (hok.last_eq hp).2.2.1
    rw [h.space.userByte_eq hroot' ha]
    exact h.wrote a ha 0 (hok.written_zero hc hp hlo hhi)
  case other =>
    intro a ha hout
    have hpath := h.pages a ha fun ⟨p, hp, hin⟩ => hout p hp hin
    have hnone : written file segs a = none := by
      refine Option.eq_none_iff_forall_ne_some.mpr fun x hx => ?_
      obtain ⟨p, hp, hx⟩ := written_eq_some hx
      obtain ⟨hlo, hhi, -⟩ := Phdr.written_eq_some hx
      exact hout p hp ⟨Nat.le_trans (Nat.div_mul_le_self _ _) hlo, hhi⟩
    rw [h.space.userAddr_eq hroot' ha, hs.userAddr_eq hroot ha, h.space.userByte_eq hroot' ha, hs.userByte_eq hroot ha,
      hpath]
    refine ⟨rfl, ?_⟩
    cases hview : view s t a with
    | some x => exact h.kept a ha hnone x hview
    | none => rw [view, hpath, Option.map_eq_none_iff.mp hview, Option.map_none]
  case frames =>
    intro f hf hwalk b hlo hhi
    refine h.frames f (fun hav => hf (hinv.freePage_iff.mpr hav)) (fun π hπ => ?_) b ⟨hlo, hhi⟩
    obtain ⟨a, ha, hmem⟩ := hs.holds.exists_walk hroot hπ
    exact hwalk a ha hmem

theorem LoadedRight.shared {pgd : Nat} (h : LoadedRight file segs pgd s s') (hok : ElfOk file segs) :
    segs.Pairwise fun p q => ∀ i < q.pFilesz, q.pVaddr + i < p.last → file.byte (q.pOffset + i) = 0 := by
  refine hok.ascending.imp_of_mem fun {p q} hp hq hpq i hi hlast => ?_
  have hsize := hok.sizes p hp
  exact Option.some.inj ((h.data q hq i hi).symm.trans (h.zero p hp (q.pVaddr + i) (by omega) hlast))

/-- Under the condition a run of the loop leaves the image of the program. With enough free pages the loop ends and leaves
the image exactly under the condition. -/
theorem exec_load_iff {memMap : Nat → Page} {nr root : Nat} {s₀ s : Machine} {us : List Nat} {file : ExecFile}
    {phdrs : List Phdr} (hempty : EmptyLower s₀ root) (halloc : BuddySys.Reach memMap nr s₀.alloc) (hnr : nr < 2 ^ 32)
    (hus : ∀ u ∈ us, u < 2 ^ 47) (hprep : Prepared root s₀ us s) (hok : ElfOk file (loads phdrs)) :
    (LoadCond file (loads phdrs) → ∀ psegs s', loadSegments file (virtual root) [] s phdrs = some (psegs, s') →
      LoadedRight file (loads phdrs) (virtual root) s s') ∧
    (4 * segPages (loads phdrs) ≤ s.alloc.freeCount nr →
      ((∃ psegs s', loadSegments file (virtual root) [] s phdrs = some (psegs, s') ∧
        LoadedRight file (loads phdrs) (virtual root) s s') ↔ LoadCond file (loads phdrs))) := by
  obtain ⟨hinv, t, hs, hroot⟩ := hprep.exists_space hempty halloc hnr hus
  have hnr' : nr ≤ maxFrame := Nat.le_trans (Nat.le_of_lt hnr) (by decide)
  have hright : LoadCond file (loads phdrs) → ∀ psegs s', loadSegments file (virtual root) [] s phdrs = some (psegs, s') →
      LoadedRight file (loads phdrs) (virtual root) s s' := by
    intro hc psegs s' h
    obtain ⟨-, -, t', hfilled⟩ := hs.loadSegments_ok hinv hnr' hroot hok (Nat.zero_le _) h
    exact hfilled.loadedRight hs hinv hroot hok hc
  refine ⟨hright, fun hfree => ⟨fun ⟨psegs, s', h, hloaded⟩ => ?_, fun hc => ?_⟩⟩
  · obtain ⟨hcount, hend, -⟩ := hs.loadSegments_ok hinv hnr' hroot hok (Nat.zero_le _) h
    exact ⟨by simpa using hcount, hend, hloaded.shared hok⟩
  · obtain ⟨psegs, s', h⟩ : ∃ psegs s', loadSegments file (virtual root) [] s phdrs = some (psegs, s') :=
      hs.exists_loadSegments hinv hnr' hroot hok (by simpa using hc.count) hc.inside hfree
    exact ⟨psegs, s', h, hright hc psegs s' h⟩

/-! ### Programs of one page -/

def onesFile : ExecFile := ⟨0x10000, fun _ => 1⟩

/-- A segment whose file part is a whole page, and one with sixteen bytes of the file. -/
def fullPage : Phdr := ⟨ptLoad, 0x1000, 0x1000, 0x1000, 0x1000⟩
def sixteenBytes : Phdr := ⟨ptLoad, 0x1000, 0x1000, 0x10, 0x20⟩

theorem eightFramesMachine_prepared : Prepared 0 eightFramesMachine [] eightFramesMachine :=
  ⟨[], eightFramesMachine, rfl, rfl, fun _ _ => rfl⟩

theorem ElfOk.single (hsize : p.pFilesz ≤ p.pMemsz) (hbound : p.pVaddr + p.pMemsz ≤ 2 ^ 47)
    (hread : p.pOffset + p.pFilesz ≤ file.size) : ElfOk file [p] :=
  ⟨by simpa using hsize, by simpa using hbound, by simpa using hread, List.pairwise_singleton _ _⟩

/-- There are enough pages, but the loop does not end. -/
theorem exec_full_page_faults : ElfOk onesFile (loads [fullPage]) ∧
    4 * segPages (loads [fullPage]) ≤ eightFramesMachine.alloc.freeCount 8 ∧
    loadSegments onesFile (virtual 0) [] eightFramesMachine [fullPage] = none := by
  have hok : ElfOk onesFile (loads [fullPage]) := .single (by decide) (by decide) (by decide)
  refine ⟨hok, by decide, ?_⟩
  have hspace := eightFramesMachine_empty.space eightFramesMachine_reach.inv
  cases h : loadSegments onesFile (virtual 0) [] eightFramesMachine [fullPage] with
  | none => rfl
  | some r =>
    obtain ⟨-, hend, -⟩ := hspace.loadSegments_ok eightFramesMachine_reach.inv (by decide) rfl hok (Nat.zero_le _) h
    exact absurd rfl (hend _ List.mem_cons_self (by decide))

theorem exec_load_sixteenBytes : ∃ psegs s',
    loadSegments onesFile (virtual 0) [] eightFramesMachine [sixteenBytes] = some (psegs, s') ∧
      userByte s' (virtual 0) 0x100f = some 1 ∧ userByte s' (virtual 0) 0x1010 = some 0 := by
  have hok : ElfOk onesFile (loads [sixteenBytes]) := .single (by decide) (by decide) (by decide)
  have hcond : LoadCond onesFile (loads [sixteenBytes]) := ⟨by decide, by decide, List.pairwise_singleton _ _⟩
  have hiff := (exec_load_iff eightFramesMachine_empty eightFramesMachine_reach (by decide) (List.forall_mem_nil _)
    eightFramesMachine_prepared hok).2 (by decide)
  obtain ⟨psegs, s', h, hright⟩ := hiff.mpr hcond
  exact ⟨psegs, s', h, hright.data _ List.mem_cons_self 0xf (by decide),
    hright.zero _ List.mem_cons_self 0x1010 (by decide) (by decide)⟩

end FengOS.Mm
