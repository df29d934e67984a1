import FengOS.Mm.Lemmas.PageTable

/-!
# The loops of `free_proc_mm`
-/

namespace FengOS.Mm

open FengOS.Lib

variable {memMap : Nat → Page} {nr : Nat} {s : Machine} {t : Radix Nat} {π : List Nat} {f i depth : Nat}
  {alloc : BuddySys} {fs gs : List Nat} {acc : List Nat × BuddySys}

def freeFrames (acc : List Nat × BuddySys) (fs : List Nat) : List Nat × BuddySys :=
  (acc.1 ++ fs.map virtual, fs.foldl (fun alloc f => freePage alloc (virtual f)) acc.2)

theorem freeFrames_append : freeFrames acc (fs ++ gs) = freeFrames (freeFrames acc fs) gs := by
  simp [freeFrames]

theorem freePage_zero : freePage alloc 0 = alloc := by
  have hlive : alloc.live.filter (fun l => virtual l.1 ≠ pageLowerAlign 0) = alloc.live :=
    List.filter_eq_self.mpr fun l _ => decide_eq_true (virtual_ne_zero l.1)
  simp only [freePage, BuddySys.free, hlive, freePages, if_true]

section Loops

/-! What is looked at is `φ`: everything, or the allocator alone if pages are missing. -/

variable {γ : Type} {φ : List Nat × BuddySys → γ}
  (hφ : ∀ acc acc' fs, φ acc = φ acc' → φ (freeFrames acc fs) = φ (freeFrames acc' fs))

include hφ

theorem foldl_freeFrames {step : List Nat × BuddySys → Nat → List Nat × BuddySys} {branch : Nat → List Nat} {is : List Nat}
    (h : ∀ i ∈ is, ∀ acc, φ (step acc i) = φ (freeFrames acc (branch i))) :
    φ (is.foldl step acc) = φ (freeFrames acc (is.flatMap branch)) := by
  induction is generalizing acc with
  | nil => simp [freeFrames]
  | cons i is ih =>
    obtain ⟨hi, his⟩ := List.forall_mem_cons.mp h
    rw [List.foldl_cons, ih his, List.flatMap_cons, freeFrames_append]
    exact hφ _ _ _ (hi acc)

variable (hs : Holds memMap nr s t) (hnull : ∀ π f i, t π = some f → π.length = 3 → i < slots π → t (i :: π) = none →
  entry s.mem (virtual f) i = nullEntry → ∀ acc, φ (acc.1 ++ [0], acc.2) = φ acc)

include hs hnull

theorem Holds.freeEntries_eq {inner : Nat → List Nat × BuddySys → List Nat × BuddySys} (hf : t π = some f)
    (hd : π.length < 4) (hzero : π.length = 3 → ∀ acc, inner 0 acc = acc)
    (hinner : ∀ i g acc, t (i :: π) = some g →
      φ (inner (virtual g) acc) = φ (freeFrames acc (t.postorder slots depth (i :: π)))) :
    φ (freeEntries s.mem inner (slots π) (virtual f) acc) = φ (freeFrames acc (t.postorder slots (depth + 1) π)) := by
  refine foldl_freeFrames hφ fun i hi acc => ?_
  have hi := List.mem_range.mp hi
  cases ht : t (i :: π) with
  | none =>
    rcases hs.table π f hf hd i hi with hentry | ⟨hthree, -, hentry⟩
    · rw [hentry, ht]
      simp [pte, freeFrames]
    · rw [if_neg (by rw [hentry]; decide), hentry, show toVir (nullEntry &&& pageMask) = 0 by decide]
      simpa [hzero hthree, freePage_zero, freeFrames] using hnull π f i hf hthree hi ht hentry acc
  | some g =>
    rw [hs.entry_some hf hd hi ht, if_neg (pte_ne_zero g), toVir_pte (hs.bound _ g ht)]
    dsimp only
    rw [freeFrames_append]
    exact hφ _ _ [g] (hinner i g acc ht)

theorem Holds.freeLevel_eq (depth : Nat) (acc : List Nat × BuddySys) (hf : t π = some f) (hd : π.length + depth = 3) :
    φ (freeLevel s.mem depth (slots π) (virtual f) acc) = φ (freeFrames acc (t.postorder slots (depth + 1) π)) := by
  induction depth generalizing π f acc with
  | zero =>
    refine hs.freeEntries_eq hφ hnull hf (by omega) (fun _ _ => rfl) fun i g acc _ => ?_
    simp [Radix.postorder, freeFrames]
  | succ depth ih =>
    refine hs.freeEntries_eq hφ hnull hf (by omega) (fun hthree => by omega) fun i g acc hg => ?_
    exact ih acc hg (by simp; omega)

end Loops

theorem Space.freeProcMm_eq {root : Nat} (hs : Space memMap nr s t) (hroot : t [] = some root) :
    freeProcMm s (virtual root) = ((t.postorder slots 4 []).map virtual,
      ⟨s.mem.write (virtual root) (fun _ => 0) (pageSize / 2), (freeFrames ([], s.alloc) (t.postorder slots 4 [])).2⟩) := by
  have hlevel := hs.holds.freeLevel_eq (φ := id) (fun _ _ _ h => congrArg (freeFrames · _) h) (fun π f i hf hthree hi ht he => by
    rw [hs.table π f hf (by omega) i hi, ht] at he
    exact absurd he (by decide)) 3 ([], s.alloc) hroot rfl
  rw [slots, id, id] at hlevel
  unfold freeProcMm
  rw [hlevel]
  simp [freeFrames, memset, pageSize]

theorem Holds.freeProcMm_eq {root : Nat} (hs : Holds memMap nr s t) (hroot : t [] = some root) :
    ∃ freed, freeProcMm s (virtual root) = (freed, ⟨s.mem.write (virtual root) (fun _ => 0) (pageSize / 2),
      (freeFrames ([], s.alloc) (t.postorder slots 4 [])).2⟩) := by
  have hlevel := hs.freeLevel_eq (φ := Prod.snd) (fun acc acc' fs h => by simp only [freeFrames, h])
    (fun _ _ _ _ _ _ _ _ _ => rfl) 3 ([], s.alloc) hroot rfl
  rw [slots] at hlevel
  refine ⟨(freeLevel s.mem 3 (prePageEntry / 2) (virtual root) ([], s.alloc)).1, ?_⟩
  simp only [freeProcMm, hlevel, memset, pageSize]
  rfl

theorem freeFrames_snd_cons : (freeFrames acc (f :: fs)).2 = (freeFrames ([], freePage acc.2 (virtual f)) fs).2 := rfl

theorem BuddySys.Inv.freeFrames (h : alloc.Inv memMap nr) (hnodup : fs.Nodup) (hlive : ∀ f ∈ fs, (f, 0) ∈ alloc.live) :
    (freeFrames ([], alloc) fs).2.Inv memMap nr ∧
      ∀ l, l ∈ (freeFrames ([], alloc) fs).2.live ↔ l ∈ alloc.live ∧ l.1 ∉ fs := by
  induction fs generalizing alloc with
  | nil => exact ⟨h, by simp [Mm.freeFrames]⟩
  | cons f fs ih =>
    obtain ⟨hf, hfs⟩ := List.forall_mem_cons.mp hlive
    obtain ⟨hnot, hnodup'⟩ := List.nodup_cons.mp hnodup
    have hmem := h.mem_filter hf (pageLowerAlign_virtual f)
    have hinv : (freePage alloc (virtual f)).Inv memMap nr := h.free hf (pageLowerAlign_virtual f)
    have hne : ∀ g ∈ fs, (g, 0) ∈ (freePage alloc (virtual f)).live := fun g hg => by
      refine (hmem (g, 0)).mpr ⟨hfs g hg, fun he => ?_⟩
      exact hnot ((Prod.mk.inj he).1 ▸ hg)
    obtain ⟨hinv', hlive'⟩ := ih hinv hnodup' hne
    refine ⟨hinv', fun l => ?_⟩
    rw [freeFrames_snd_cons, hlive', List.mem_cons, not_or]
    refine ⟨fun ⟨hl, hlfs⟩ => ?_, fun ⟨hl, hlf, hlfs⟩ => ⟨(hmem l).mpr ⟨hl, fun he => hlf (by rw [he])⟩, hlfs⟩⟩
    obtain ⟨hl, hne⟩ := (hmem l).mp hl
    refine ⟨hl, fun he => hne ?_, hlfs⟩
    exact List.inj_on_of_nodup_map h.nodup hl hf he

end FengOS.Mm
