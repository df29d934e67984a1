import FengOS.Mm.Brk
import FengOS.Mm.Lemmas.Holds

/-!
# Processes that share an allocator
-/

namespace FengOS.Mm

open FengOS.Lib

variable {memMap : Nat → Page} {nr root : Nat} {s s' s₁ s₂ : Machine} {t t' t₁ u : Radix Nat} {mm mm' : ProcMm}
  {a b f g i n v w : Nat} {alloc alloc' alloc₁ : BuddySys}

/-! ## The owner of a tree -/

structure TreeRange (t : Radix Nat) (range : Nat × Nat) : Prop where
  start : range.1 % pageSize = 0
  last : range.2 % pageSize = 0
  le : range.1 ≤ range.2
  bound : range.2 ≤ 2 ^ 47
  mapped : ∀ a, range.1 ≤ a → a < range.2 → ∃ f, t (path a) = some f

structure Owns (memMap : Nat → Page) (nr : Nat) (s : Machine) (mm : ProcMm) (t : Radix Nat) : Prop where
  holds : Holds memMap nr s t
  live : Live s t
  root : ∃ root, t [] = some root ∧ mm.pgd = virtual root
  ranges : ∀ range ∈ mm.ranges, TreeRange t range

theorem TreeRange.empty (h : a % pageSize = 0) (hle : a ≤ 2 ^ 47) : TreeRange t (a, a) :=
  ⟨h, h, Nat.le_refl a, hle, fun _ hlo hhi => absurd hhi (Nat.not_lt.mpr hlo)⟩

theorem TreeRange.mono {range : Nat × Nat} (h : TreeRange t range) (hold : ∀ π f, t π = some f → t' π = some f) :
    TreeRange t' range where
  start := h.start
  last := h.last
  le := h.le
  bound := h.bound
  mapped a hlo hhi := (h.mapped a hlo hhi).imp fun f => hold _ f

theorem Owns.heap (h : Owns memMap nr s mm t) : TreeRange t (mm.startBrk, mm.brk) :=
  h.ranges _ (by simp [ProcMm.ranges])

theorem Owns.other (h : Owns memMap nr s mm u) (htouched : Touched memMap nr s t s') (hapart : Apart t u) :
    Owns memMap nr s' mm u :=
  ⟨htouched.holds h.holds hapart, htouched.liveTree h.live hapart, h.root, h.ranges⟩

theorem Owns.extended (h : Owns memMap nr s mm t) (hext : Extended memMap nr s t s' t') (hpgd : mm'.pgd = mm.pgd)
    (hranges : ∀ range ∈ mm'.ranges, TreeRange t' range) : Owns memMap nr s' mm' t' where
  holds := hext.holds
  live := hext.live h.live
  root := by
    obtain ⟨root, hroot, heq⟩ := h.root
    exact ⟨root, hext.old [] root hroot, hpgd.trans heq⟩
  ranges := hranges

/-! ## `do_brk` -/

theorem Holds.brkLoop_ok {ok : Bool} (hs : Holds memMap nr s t) (hinv : s.alloc.Inv memMap nr) (hnr : nr ≤ maxFrame)
    (hroot : t [] = some root) (halign : a % 2 ^ 12 = 0) (hbound : a + n * 2 ^ 12 ≤ 2 ^ 47)
    (h : brkLoop (virtual root) n s a = some (ok, s')) :
    ∃ t', Extended memMap nr s t s' t' ∧ (ok = true → ∀ b, a ≤ b → b < a + n * 2 ^ 12 → ∃ f, t' (path b) = some f) := by
  induction n generalizing s t a with
  | zero =>
    cases h
    exact ⟨t, .refl hs hinv, fun _ b hlo hhi => by omega⟩
  | succ n ih =>
    rw [brkLoop] at h
    cases hmap : mapPageOrNull s (virtual root) a with
    | error s₁ =>
      rw [hmap] at h
      cases h
    | ok r =>
      obtain ⟨page, s₁⟩ := r
      obtain ⟨t₁, hext, hmapped⟩ := hs.mapPageOrNull_ok hinv hnr hroot (show a < 2 ^ 47 by omega) hmap
      rw [hmap] at h
      simp only at h
      split at h
      case isTrue hnull =>
        cases h
        exact ⟨t₁, hext, nofun⟩
      case isFalse hpage =>
        obtain ⟨g, -, hg⟩ := hmapped hpage
        have hnext : (a + pageSize) % 2 ^ 64 = a + 2 ^ 12 := Nat.mod_eq_of_lt (by simp only [pageSize]; omega)
        rw [hnext] at h
        obtain ⟨t', hrest, hpages⟩ := ih hext.holds hext.inv (hext.old [] root hroot) (by omega) (by omega) h
        refine ⟨t', hext.trans hrest, fun hok b hlo hhi => ?_⟩
        by_cases hfirst : b < a + 2 ^ 12
        · rw [path_congr (show b / 2 ^ 12 = a / 2 ^ 12 by omega)]
          exact ⟨g, hrest.old _ g hg⟩
        · exact hpages hok b (by omega) (by omega)

theorem pageUpperAlign_mod (addr : Nat) : pageUpperAlign addr % 2 ^ 12 = 0 := by
  simp only [pageUpperAlign, pageSize]
  omega

theorem nrPages_eq (ha : a % 2 ^ 12 = 0) (hb : b % 2 ^ 12 = 0) (hle : b ≤ 2 ^ 47)
    (hgrow : a < b + 2 ^ 43) (hshrink : b ≤ a + 2 ^ 43) : (nrPages a b).toNat = (a - b) / 2 ^ 12 := by
  simp only [nrPages, pageSize]
  omega

theorem Owns.brk {addr : Nat} {ret : Int} (h : Owns memMap nr s mm t) (hinv : s.alloc.Inv memMap nr)
    (hnr : nr ≤ maxFrame) (hok : BrkOk mm addr) (hbrk : doBrk s mm addr = some (ret, s', mm')) :
    ∃ t', Extended memMap nr s t s' t' ∧ Owns memMap nr s' mm' t' := by
  obtain ⟨root, hroot, hpgd⟩ := h.root
  obtain ⟨hstart, hlast, hle, hbound, hmapped⟩ := h.heap
  obtain ⟨hlow, hhigh, hgrow, hshrink⟩ := hok
  have halign := pageUpperAlign_mod addr
  simp only [doBrk, Option.bind_eq_bind, Option.bind_eq_some_iff, Prod.exists] at hbrk
  obtain ⟨ok, s₁, hloop, hbrk⟩ := hbrk
  rw [nrPages_eq halign hlast hbound hgrow hshrink, hpgd] at hloop
  simp only [pageSize] at hlast hstart
  obtain ⟨t', hext, hpages⟩ := h.holds.brkLoop_ok hinv hnr hroot hlast (by omega) hloop
  have hranges : ∀ range ∈ mm.ranges, TreeRange t' range := fun range hrange => (h.ranges range hrange).mono hext.old
  cases ok with
  | false =>
    obtain ⟨-, rfl, rfl⟩ : -1 = ret ∧ s₁ = s' ∧ mm = mm' := by simpa using hbrk
    exact ⟨t', hext, h.extended hext rfl hranges⟩
  | true =>
    obtain ⟨-, rfl, rfl⟩ : 0 = ret ∧ s₁ = s' ∧ { mm with brk := pageUpperAlign addr } = mm' := by simpa using hbrk
    refine ⟨t', hext, h.extended hext rfl fun range hrange => ?_⟩
    simp only [ProcMm.ranges, List.mem_append, List.mem_cons, List.not_mem_nil, or_false] at hrange
    rcases hrange with hseg | rfl | rfl
    · exact hranges range (List.mem_append_left _ hseg)
    · exact hranges _ (by simp [ProcMm.ranges])
    · refine ⟨hstart, halign, hlow, hhigh, fun b hlo hhi => ?_⟩
      by_cases hold : b < mm.brk
      · exact (hmapped b hlo hold).imp fun f => hext.old _ f
      · exact hpages rfl b (by omega) (by simp only at hhi; omega)

/-! ## `free_proc_mm` -/

theorem BuddySys.Inv.avail_freeFrames {fs : List Nat} {y : Nat} (hnodup : fs.Nodup) (h : alloc.Inv memMap nr)
    (hlive : ∀ f ∈ fs, (f, 0) ∈ alloc.live) (hav : (Mm.freeFrames ([], alloc) fs).2.Avail memMap nr y) :
    alloc.Avail memMap nr y ∨ y ∈ fs := by
  by_contra hnot
  obtain ⟨hna, hfs⟩ := not_or.mp hnot
  have hallocated : alloc.Allocated y := by
    by_contra hno
    exact hna ⟨hav.1, hno⟩
  obtain ⟨l, hl, hin⟩ := hallocated
  obtain ⟨-, hfreed⟩ := h.freeFrames hnodup hlive
  by_cases hmem : l.1 ∈ fs
  · have heq : l = (l.1, 0) := List.inj_on_of_nodup_map h.nodup hl (hlive l.1 hmem) rfl
    rw [heq] at hin
    exact hfs (inBlock_zero.mp hin ▸ hmem)
  · exact hav.2 ⟨l, (hfreed l).mpr ⟨hl, hmem⟩, hin⟩

section Free

variable (h : Owns memMap nr s mm t) (hinv : s.alloc.Inv memMap nr) (hroot : t [] = some root)

include h hroot

theorem Owns.mem_postorder {f : Nat} (hf : f ∈ t.postorder slots 4 []) : f ≠ root ∧ ∃ π, t π = some f := by
  obtain ⟨i, ρ, hρ⟩ := Radix.exists_of_mem_postorder hf
  refine ⟨?_, _, hρ⟩
  rintro rfl
  have hnil := h.holds.ok.inj _ _ f hρ hroot
  simp at hnil

include hinv

theorem Owns.touched_free {fs : List Nat} (hnodup : fs.Nodup) (hfs : ∀ f ∈ fs, ∃ π, t π = some f) :
    Touched memMap nr s t ⟨s.mem.write (virtual root) (fun _ => 0) (pageSize / 2), (freeFrames ([], s.alloc) fs).2⟩ := by
  have hlive : ∀ f ∈ fs, (f, 0) ∈ s.alloc.live := fun f hf => (hfs f hf).elim fun π hπ => h.live π f hπ
  constructor
  case frames =>
    intro y hy hty b hb
    have hne : y ≠ root := fun heq => hty [] (heq ▸ hroot)
    show s.mem.write (virtual root) (fun _ => 0) (pageSize / 2) b = s.mem b
    refine Mem.write_apply ?_
    by_contra hin
    simp only [pageSize] at hin
    exact hne (hb.eq ⟨by omega, by simp only [pageSize]; omega⟩)
  case avail => exact fun y hy => (BuddySys.Inv.avail_freeFrames hnodup hinv hlive hy).imp_right (hfs y)
  case live =>
    intro l hl hty
    exact ((hinv.freeFrames hnodup hlive).2 l).mpr ⟨hl, fun hmem => (hfs l.1 hmem).elim hty⟩

theorem Owns.freeProcMm : ∃ freed s₁, freeProcMm s (virtual root) = (freed, s₁) ∧ s₁.alloc.Inv memMap nr ∧
    Space memMap nr s₁ (emptyTree root) ∧ Live s₁ (emptyTree root) ∧ Touched memMap nr s t s₁ := by
  have hnodup : (t.postorder slots 4 []).Nodup := h.holds.ok.nodup_postorder
  have hfs : ∀ f ∈ t.postorder slots 4 [], ∃ π, t π = some f := fun f hf => (h.mem_postorder hroot hf).2
  obtain ⟨hinv', hlive'⟩ := hinv.freeFrames hnodup fun f hf => (hfs f hf).elim fun π hπ => h.live π f hπ
  have hrootLive : (root, 0) ∈ (freeFrames ([], s.alloc) (t.postorder slots 4 [])).2.live :=
    (hlive' (root, 0)).mpr ⟨h.live [] root hroot, fun hmem => (h.mem_postorder hroot hmem).1 rfl⟩
  obtain ⟨freed, hfree⟩ := h.holds.freeProcMm_eq hroot
  refine ⟨freed, _, hfree, hinv', ?_, ?_, h.touched_free hinv hroot hnodup hfs⟩
  · refine EmptyLower.space ⟨h.holds.bound [] root hroot, fun k p hp hin => ?_, fun i hi => ?_⟩ hinv'
    · exact BuddySys.Inv.not_avail_of_live _ hrootLive ((hinv'.avail_iff root).mpr ⟨k, p, hp, hin⟩)
    · refine Mem.load_eq_zero fun b hb hb' => if_pos ?_
      have hi' : i < 256 := hi
      simp only [pageSize]
      omega
  · intro π f hf
    cases π with
    | nil =>
      cases hf
      exact hrootLive
    | cons i π => cases hf

theorem Owns.reap : ∃ freed s₁, Mm.freeProcMm s (virtual root) = (freed, s₁) ∧
    (freePage s₁.alloc (virtual root)).Inv memMap nr ∧
    Touched memMap nr s t { s₁ with alloc := freePage s₁.alloc (virtual root) } := by
  have hnodup : (t.postorder slots 4 [] ++ [root]).Nodup := by
    refine List.Nodup.append h.holds.ok.nodup_postorder (List.nodup_singleton root) ?_
    intro f hf hf'
    exact (h.mem_postorder hroot hf).1 (List.mem_singleton.mp hf')
  have hfs : ∀ f ∈ t.postorder slots 4 [] ++ [root], ∃ π, t π = some f := by
    intro f hf
    rcases List.mem_append.mp hf with hf | hf
    · exact (h.mem_postorder hroot hf).2
    · exact ⟨[], List.mem_singleton.mp hf ▸ hroot⟩
  have hall : (freeFrames ([], s.alloc) (t.postorder slots 4 [] ++ [root])).2 =
      freePage (freeFrames ([], s.alloc) (t.postorder slots 4 [])).2 (virtual root) := by
    simp [freeFrames]
  have htouched := h.touched_free hinv hroot hnodup hfs
  obtain ⟨hinv', -⟩ := hinv.freeFrames hnodup fun f hf => (hfs f hf).elim fun π hπ => h.live π f hπ
  rw [hall] at htouched hinv'
  obtain ⟨freed, hfree⟩ := h.holds.freeProcMm_eq hroot
  exact ⟨freed, _, hfree, hinv', htouched⟩

end Free

/-! ## `do_execve` -/

theorem Space.mapPage_extended (hs : Space memMap nr s t) (hinv : s.alloc.Inv memMap nr) (hnr : nr ≤ maxFrame)
    (hroot : t [] = some root) (ha : a < 2 ^ 47) (h : mapPage s (virtual root) a = some (v, s')) :
    ∃ g t', v = virtual g ∧ t' (path a) = some g ∧ Space memMap nr s' t' ∧ Extended memMap nr s t s' t' := by
  obtain ⟨g, t', rfl, hg, hgrown⟩ := hs.mapPage_grown hinv hnr hroot ha h
  exact ⟨g, t', rfl, hg, hgrown.space, (hgrown.filled hs ha).extended (mapPage_live h)⟩

theorem Space.write_extended (hs : Space memMap nr s t) (data : Nat → UInt8) (hinv : s.alloc.Inv memMap nr)
    (ha : a < 2 ^ 47) (halign : a % 2 ^ 12 = 0) (hg : t (path a) = some g) :
    Space memMap nr { s with mem := s.mem.write (virtual g) data pageSize } t ∧
      Extended memMap nr s t { s with mem := s.mem.write (virtual g) data pageSize } t := by
  have hwrite := hs.write_filled (n := 2 ^ 12) data hinv ha hg (by omega)
  rw [halign, Nat.add_zero] at hwrite
  exact ⟨hwrite.space, hwrite.extended (.refl _)⟩

theorem Space.execStack_ok {args : Nat → UInt8} (hs : Space memMap nr s t) (hinv : s.alloc.Inv memMap nr)
    (hnr : nr ≤ maxFrame) (hroot : t [] = some root) (h : execStack s (virtual root) args = some s') :
    ∃ t', Space memMap nr s' t' ∧ Extended memMap nr s t s' t' ∧
      TreeRange t' (userStackEnd - 2 * pageSize, userStackEnd) := by
  simp only [execStack, Option.bind_eq_bind, Option.bind_eq_some_iff, Prod.exists, Option.pure_def, Option.some.injEq] at h
  obtain ⟨high, s₁, hhigh, low, s₂, hlow, rfl⟩ := h
  obtain ⟨g, t₁, rfl, hg, hs₁, hext₁⟩ := hs.mapPage_extended hinv hnr hroot (by decide) hhigh
  obtain ⟨g', t₂, rfl, hg', hs₂, hext₂⟩ := hs₁.mapPage_extended hext₁.inv hnr (hext₁.old [] root hroot) (by decide) hlow
  have hkeep := hext₂.old _ g hg
  obtain ⟨hs₃, hext₃⟩ := hs₂.write_extended args hext₂.inv (by decide) (by decide) hkeep
  obtain ⟨hs₄, hext₄⟩ := hs₃.write_extended (fun i => args (pageSize + i)) hext₃.inv (by decide) (by decide) hg'
  refine ⟨t₂, hs₄, ((hext₁.trans hext₂).trans hext₃).trans hext₄, by decide, by decide, by decide, by decide,
    fun b hlo hhi => ?_⟩
  simp only [userStackEnd, pageSize] at hlo hhi hkeep hg'
  rcases Nat.lt_or_ge b 0x7fffffffe000 with hlt | hge
  · exact ⟨g', path_congr (show b / 2 ^ 12 = (0x7ffffffff000 - 2 * 0x1000) / 2 ^ 12 by omega) ▸ hg'⟩
  · exact ⟨g, path_congr (show b / 2 ^ 12 = (0x7ffffffff000 - 0x1000) / 2 ^ 12 by omega) ▸ hkeep⟩

theorem loadSegments_psegs {file : ExecFile} {phdrs : List Phdr} {psegs psegs' : List Seg}
    (h : loadSegments file a psegs s phdrs = some (psegs', s')) :
    psegs' = psegs ++ (loads phdrs).map fun p => ⟨p.pVaddr, (p.pVaddr + p.pMemsz) % 2 ^ 64⟩ := by
  induction phdrs generalizing s psegs with
  | nil =>
    cases h
    simp [loads]
  | cons phdr phdrs ih =>
    by_cases htype : phdr.pType = ptLoad
    · rcases Nat.lt_or_ge psegs.length procMmSegSize with hlt | hge
      · rw [loadSegments_load htype hlt] at h
        obtain ⟨s₁, -, h⟩ := Option.bind_eq_some_iff.mp h
        rw [ih h, loads_cons htype, List.map_cons, List.append_assoc, List.singleton_append]
      · rw [loadSegments_full htype hge] at h
        cases h
    · rw [loadSegments_skip htype] at h
      rw [ih h, loads_skip htype]

theorem written_of_mem (file : ExecFile) {segs : List Phdr} {p : Phdr} (hp : p ∈ segs) (hlo : p.pVaddr ≤ a)
    (hhi : a < p.last) : ∃ x, written file segs a = some x := by
  induction segs with
  | nil => cases hp
  | cons q segs ih =>
    rw [written]
    cases hrest : written file segs a with
    | some x => exact ⟨x, rfl⟩
    | none =>
      rcases List.mem_cons.mp hp with rfl | hp
      · exact ⟨_, by rw [Option.none_or, Phdr.written, span, if_pos ⟨hlo, hhi⟩]⟩
      · obtain ⟨x, hx⟩ := ih hp
        cases hrest.symm.trans hx

theorem Filled.segment {file : ExecFile} {segs : List Phdr} {P : Nat → Prop} {p : Phdr} (hok : ElfOk file segs)
    (h : Filled memMap nr P (written file segs) s t s' t') (hp : p ∈ segs) : TreeRange t' (p.start, p.last) := by
  obtain ⟨hlast, halign, hbound, hend, hend'⟩ := hok.last_eq hp
  have hstart : p.start = p.pVaddr / 2 ^ 12 * 2 ^ 12 := rfl
  refine ⟨by simp only [pageSize]; omega, halign, by omega, hbound, fun b hlo hhi => ?_⟩
  simp only at hlo hhi
  have hmapped : ∀ c, p.pVaddr ≤ c → c < p.last → ∃ f, t' (path c) = some f := by
    intro c hlo hhi
    obtain ⟨x, hx⟩ := written_of_mem file hp hlo hhi
    obtain ⟨f, hf, -⟩ := Option.map_eq_some_iff.mp (h.wrote c (by omega) x hx)
    exact ⟨f, hf⟩
  by_cases hfile : p.pVaddr ≤ b
  · exact hmapped b hfile hhi
  · rw [path_congr (show b / 2 ^ 12 = p.pVaddr / 2 ^ 12 by omega)]
    exact hmapped p.pVaddr (Nat.le_refl _) (by omega)

end FengOS.Mm
