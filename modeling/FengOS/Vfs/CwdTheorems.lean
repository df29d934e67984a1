import FengOS.Vfs.Cwd
import FengOS.Vfs.TreeTheorems

/-!
# `vfs_getcwd` and the size of its buffer
-/

namespace FengOS.Vfs

open FengOS.Lib

variable {v : State} {root name : Name} {up : List Name} {buf : Buf} {ws : Stores} {size fuel : Nat} {s n : Int}
  {e : Option Nat}

/-! ## Stores and the buffer -/

theorem Buf.apply_append {ws' : Stores} : buf.apply (ws ++ ws') = (buf.apply ws).apply ws' := List.foldl_append

theorem Buf.apply_copyStores {i : Int} : buf.apply (copyStores i name) = buf.strncpy i name := by
  induction name generalizing buf i with
  | nil =>
    funext j
    rw [Buf.strncpy, if_neg (by simp)]
    rfl
  | cons c cs ih =>
    rw [copyStores, show buf.apply ((i, c) :: copyStores (i + 1) cs) = (buf.set i c).apply (copyStores (i + 1) cs) from rfl, ih]
    funext j
    simp only [Buf.strncpy, Buf.set, Function.update_apply, List.length_cons]
    rcases lt_trichotomy j i with h | rfl | h
    · rw [if_neg (by omega), if_neg (by omega), if_neg (by omega)]
    · rw [if_neg (by omega), if_pos rfl, if_pos (by omega), Int.sub_self]
      rfl
    · by_cases hj : j < i + 1 + cs.length
      · rw [if_pos (by omega), if_pos (by omega), show (j - i).toNat = (j - (i + 1)).toNat + 1 by omega, List.getD_cons_succ]
      · rw [if_neg (by omega), if_neg (by omega), if_neg (by omega)]

theorem getcwdstr_of_stores (h : getcwdStores v fuel e s = some (n, ws)) :
    getcwdstr v fuel e buf s = some (n, buf.apply ws) := by
  induction fuel generalizing e n ws with
  | zero => cases h
  | succ fuel ih =>
    cases e with
    | none => cases h
    | some d =>
      rw [getcwdStores] at h
      rw [getcwdstr]
      dsimp only at h ⊢
      by_cases hroot : d = v.rootEntry
      · rw [if_pos hroot, rootStores] at h
        rw [if_pos hroot]
        split_ifs at h ⊢ with hsize
        · obtain ⟨rfl, rfl⟩ := Prod.mk.inj (Option.some.inj h)
          rfl
        · obtain ⟨rfl, rfl⟩ := Prod.mk.inj (Option.some.inj h)
          rw [Buf.apply_append, Buf.apply_copyStores]
          rfl
      · rw [if_neg hroot] at h
        rw [if_neg hroot]
        obtain ⟨⟨m, us⟩, hup, h⟩ := Option.bind_eq_some_iff.mp h
        simp only [ih hup, Option.bind_eq_bind, Option.bind_some]
        rw [nameStores] at h
        dsimp only at h
        split_ifs at h ⊢ with hsize hover
        · obtain ⟨rfl, rfl⟩ := Prod.mk.inj (Option.some.inj h)
          rfl
        · obtain ⟨rfl, rfl⟩ := Prod.mk.inj (Option.some.inj h)
          rw [Buf.apply_append, Buf.apply_append, Buf.apply_copyStores]
          rfl

theorem vfsGetcwd_of_stores {pid : Nat} {r : Int} (h : vfsGetcwdStores v pid size = some (r, ws)) :
    vfsGetcwd v pid (intOfSize size) = some (r, v) := by
  rw [vfsGetcwdStores] at h
  rw [vfsGetcwd]
  cases hpid : v.mapProcFile pid with
  | none =>
    rw [hpid] at h
    obtain ⟨rfl, -⟩ := Prod.mk.inj (Option.some.inj h)
    rfl
  | some fsp =>
    rw [hpid] at h
    obtain ⟨⟨n, us⟩, hrun, h⟩ := Option.bind_eq_some_iff.mp h
    obtain ⟨rfl, -⟩ := Prod.mk.inj (Option.some.inj h)
    simp only [getcwdstr_of_stores hrun, Option.bind_eq_bind, Option.bind_some]
    rfl

/-! ## One level after the other -/

def cwdStores (root : Name) (size : Int) : List Name → Option (Int × Stores)
  | [] => some (rootStores root size)
  | n :: up => (cwdStores root size up).bind (nameStores n size)

theorem getcwdStores_eq : getcwdStores v fuel e s = (v.lineage fuel e).bind (cwdStores v.rootName s) := by
  induction fuel generalizing e with
  | zero => rfl
  | succ fuel ih =>
    cases e with
    | none => rfl
    | some d =>
      rw [getcwdStores, State.lineage]
      by_cases hroot : d = v.rootEntry
      · rw [if_pos hroot, if_pos hroot, hroot]
        rfl
      · rw [if_neg hroot, if_neg hroot, ih]
        cases v.lineage fuel (v.dentry d).parent <;> rfl

def Inside (size : Nat) (ws : Stores) : Prop := ∀ w ∈ ws, 0 ≤ w.1 ∧ w.1 < size

theorem Inside.append_iff {ws' : Stores} : Inside size (ws ++ ws') ↔ Inside size ws ∧ Inside size ws' := List.forall_mem_append

theorem mem_copyStores {i : Int} {w : Int × UInt8} (h : w ∈ copyStores i name) : i ≤ w.1 ∧ w.1 < i + name.length := by
  induction name generalizing i with
  | nil => cases h
  | cons c cs ih =>
    rw [List.length_cons]
    rcases List.mem_cons.mp h with rfl | h
    · constructor <;> simp only <;> omega
    · have := ih h
      constructor <;> omega

theorem inside_level {i : Int} : Inside size (copyStores i name ++ [(i + name.length, slash), (i + name.length + 1, 0)]) ↔
      0 ≤ i ∧ i + name.length + 1 < size := by
  constructor
  · intro h
    obtain ⟨hcopy, hlast⟩ := Inside.append_iff.mp h
    refine ⟨?_, (hlast _ (List.mem_cons_of_mem _ List.mem_cons_self)).2⟩
    cases name with
    | nil => simpa using (hlast _ List.mem_cons_self).1
    | cons c cs => exact (hcopy _ List.mem_cons_self).1
  · rintro ⟨hi, hsize⟩ w hw
    rcases List.mem_append.mp hw with hw | hw
    · have := mem_copyStores hw
      constructor <;> omega
    · simp only [List.mem_cons, List.not_mem_nil, or_false] at hw
      rcases hw with rfl | rfl <;> constructor <;> simp only <;> omega

/-- What a level returns: the length of the path in the buffer, or a failure. -/
structure Level (root : Name) (size : Int) (up : List Name) (n : Int) (ws : Stores) : Prop where
  length : Passes root size up → n = (cwdPath root up).length
  holds : Passes root size up → ∀ buf : Buf, (buf.apply ws).Holds (cwdPath root up)
  failed : ¬ Passes root size up → n = -1

theorem level_root (root : Name) (size : Int) : Level root size [] (rootStores root size).1 (rootStores root size).2 := by
  rw [rootStores]
  constructor
  case length =>
    intro h
    rw [Passes] at h
    rw [if_neg (by omega)]
    rfl
  case holds =>
    intro h buf i hi
    rw [Passes] at h
    rw [if_neg (by omega), Buf.apply_append, Buf.apply_copyStores]
    show (Function.update (buf.strncpy 0 root) _ _) _ = _
    have hi : i ≤ root.length := hi
    rw [Function.update_apply]
    split_ifs with heq
    · exact (List.getD_eq_default _ _ (by rw [cwdPath]; omega)).symm
    · rw [Buf.strncpy, if_pos (by omega), cwdPath]
      exact congrArg (root.getD · 0) (by omega)
  case failed =>
    intro h
    rw [Passes] at h
    rw [if_pos (by omega)]

theorem Level.append {m : Int} (h : Level root s up m ws) (hup : Passes root s up) (hn : Passes root s (name :: up)) :
    Level root s (name :: up) (m + name.length + 1)
      (ws ++ (copyStores m name ++ [(m + name.length, slash), (m + name.length + 1, 0)])) := by
  obtain rfl := h.length hup
  constructor
  case length =>
    intro _
    simp only [cwdPath, List.length_append, List.length_singleton]
    omega
  case holds =>
    intro _ buf
    rw [Buf.apply_append, Buf.apply_append, Buf.apply_copyStores]
    exact (h.holds hup buf).append
  case failed => exact fun hnot => absurd hn hnot

theorem Level.failed_name (hn : ¬ Passes root s (name :: up)) : Level root s (name :: up) (-1) ws :=
  ⟨fun h => absurd h hn, fun h => absurd h hn, fun _ => rfl⟩

theorem intOfSize_le (size : Nat) : intOfSize size ≤ size := by
  rw [intOfSize, BitVec.toInt_eq_toNat_bmod, BitVec.toNat_ofNat]
  have h := Nat.mod_le size (2 ^ 32)
  rw [Int.bmod]
  split <;> omega

theorem Fits.length_le (h : Fits root size up) (hpass : Passes root (intOfSize size) up) :
    (cwdPath root up).length + 1 ≤ size := by
  cases up with
  | nil =>
    have hle := intOfSize_le size
    have hlen : (root.length : Int) + 1 ≤ intOfSize size := hpass
    rw [cwdPath]
    omega
  | cons name up => exact (h.2 hpass).2.1

theorem Fits.cwdStores (h : Fits root size up) :
    ∃ n ws, cwdStores root (intOfSize size) up = some (n, ws) ∧ Inside size ws ∧ Level root (intOfSize size) up n ws := by
  induction up with
  | nil =>
    refine ⟨(rootStores root (intOfSize size)).1, (rootStores root (intOfSize size)).2, rfl, ?_, level_root root _⟩
    have hle := intOfSize_le size
    rw [rootStores]
    split_ifs with hsize
    · exact fun w hw => nomatch hw
    · intro w hw
      rcases List.mem_append.mp hw with hw | hw
      · have := mem_copyStores hw
        constructor <;> omega
      · obtain rfl := List.mem_singleton.mp hw
        constructor <;> simp only <;> omega
  | cons name up ih =>
    obtain ⟨hup, hname⟩ := h
    obtain ⟨m, ws, hrun, hin, hlevel⟩ := ih hup
    rw [Vfs.cwdStores, hrun, Option.bind_some, nameStores]
    dsimp only
    by_cases hpass : Passes root (intOfSize size) (name :: up)
    · obtain ⟨habove, hsize, hint⟩ := hname hpass
      have hm := hlevel.length habove
      simp only [cwdPath, List.length_append, List.length_singleton] at hsize hint
      have hlen : (name.length : Int) + 2 ≤ intOfSize size := hpass
      rw [if_neg (by omega), if_neg (by omega)]
      exact ⟨_, _, rfl, Inside.append_iff.mpr ⟨hin, inside_level.mpr ⟨by omega, by omega⟩⟩, hlevel.append habove hpass⟩
    · have hlen : ¬ (name.length : Int) + 2 ≤ intOfSize size := hpass
      rw [if_pos (by omega)]
      exact ⟨_, _, rfl, hin, .failed_name hpass⟩

theorem Fits.of_cwdStores (hrun : Vfs.cwdStores root (intOfSize size) up = some (n, ws)) (hin : Inside size ws) :
    Fits root size up := by
  induction up generalizing n ws with
  | nil => trivial
  | cons name up ih =>
    obtain ⟨⟨m, us⟩, hup, hname⟩ := Option.bind_eq_some_iff.mp hrun
    rw [nameStores] at hname
    dsimp only at hname
    split_ifs at hname with hsize hint
    · obtain ⟨-, rfl⟩ := Prod.mk.inj (Option.some.inj hname)
      refine ⟨ih hup hin, fun hpass => ?_⟩
      have hlen : (name.length : Int) + 2 ≤ intOfSize size := hpass
      omega
    · obtain ⟨-, rfl⟩ := Prod.mk.inj (Option.some.inj hname)
      obtain ⟨hin, hlast⟩ := Inside.append_iff.mp hin
      obtain ⟨hm, hend⟩ := inside_level.mp hlast
      have hfits := ih hup hin
      obtain ⟨m', us', hrun', -, hlevel⟩ := hfits.cwdStores
      obtain ⟨rfl, rfl⟩ := Prod.mk.inj (Option.some.inj (hup.symm.trans hrun'))
      -- a failed level above would have left the offset at -1
      have habove : Passes root (intOfSize size) up := by
        by_contra hnot
        have := hlevel.failed hnot
        omega
      have := hlevel.length habove
      refine ⟨hfits, fun _ => ⟨habove, ?_, ?_⟩⟩ <;> simp only [cwdPath, List.length_append, List.length_singleton] <;> omega

/-! ## `vfs_getcwd` -/

/-- `vfs_getcwd` keeps to its buffer and reports what fits exactly if `f_parent` leads up to the root and each name that
passes its check fits behind all that stands before it. -/
theorem getcwd_clean_iff (v : State) (pid size : Nat) :
    GetcwdClean v pid size ↔ ∀ fsp, v.mapProcFile pid = some fsp →
      ∃ up, v.lineage (v.nrDentry + 1) (some fsp.cwd) = some up ∧ Fits v.rootName size up ∧
        ((cwdPath v.rootName up).length + 1 ≤ size → Passes v.rootName (intOfSize size) up) := by
  rw [GetcwdClean, vfsGetcwdStores]
  cases hpid : v.mapProcFile pid with
  | none => exact ⟨fun _ => nofun, fun _ => ⟨-1, [], rfl, nofun, nofun⟩⟩
  | some fsp =>
    simp only [getcwdStores_eq, Option.some.injEq, forall_eq']
    constructor
    · rintro ⟨r, ws, hrun, hin, up, hup, hres⟩
      simp only [hup, Option.bind_some, Option.bind_eq_bind] at hrun
      obtain ⟨⟨n, us⟩, hcwd, hr⟩ := Option.bind_eq_some_iff.mp hrun
      obtain ⟨rfl, rfl⟩ := Prod.mk.inj (Option.some.inj hr)
      have hfits := Fits.of_cwdStores hcwd hin
      obtain ⟨n', ws', hcwd', -, hlevel⟩ := hfits.cwdStores
      obtain ⟨rfl, rfl⟩ := Prod.mk.inj (Option.some.inj (hcwd.symm.trans hcwd'))
      refine ⟨up, hup, hfits, fun hsize => ?_⟩
      rw [if_pos hsize] at hres
      by_contra hnot
      rw [hlevel.failed hnot] at hres
      exact absurd (show (-1 : Int) = 0 from hres.1) (by decide)
    · rintro ⟨up, hup, hfits, hwhole⟩
      obtain ⟨n, ws, hrun, hin, hlevel⟩ := hfits.cwdStores
      simp only [hup, Option.bind_some, Option.bind_eq_bind, hrun]
      refine ⟨_, ws, rfl, hin, up, rfl, ?_⟩
      by_cases hpass : Passes v.rootName (intOfSize size) up
      · rw [if_pos (hfits.length_le hpass), hlevel.length hpass]
        exact ⟨if_neg (by omega), hlevel.holds hpass⟩
      · rw [if_neg fun hsize => hpass (hwhole hsize), hlevel.failed hpass]
        rfl

/-- Process 5 goes to `abcd` and on to `b`, and asks for the path with 5 bytes. `abcd` does not fit, `b` does: it is stored
from one byte before the buffer on, and the call succeeds. -/
theorem getcwd_before_buffer : ∃ v, Reach v ∧
    ((vfsGetcwdStores v 5 5).any fun r => r.1 = 0 ∧ r.2.drop 2 = [(-1, 0x62), (0, slash), (1, 0)]) ∧ ¬ GetcwdClean v 5 5 := by
  have hrun : Reach (mounted ⟨2, 0, 0⟩) := .init ⟨_, rfl⟩
  have hexec : (exec State.step (fun _ _ => True) (mounted ⟨2, 0, 0⟩)
      [⟨5, .read 0 1, fun _ _ => none⟩,
        ⟨5, .chdir ⟨[0x61, 0x62, 0x63, 0x64], by decide⟩, fun _ _ => some ⟨0, ⟨11, 0, 0⟩⟩⟩,
        ⟨5, .chdir ⟨[0x62], by decide⟩, fun _ _ => some ⟨0, ⟨12, 0, 0⟩⟩⟩]).any
      (fun v => decide ((vfsGetcwdStores v 5 5).any fun r =>
        r.1 = 0 ∧ r.2.drop 2 = [(-1, 0x62), (0, slash), (1, 0)])) = true := by decide
  obtain ⟨v, hv, hstores⟩ := Run.exists_of_exec hrun hexec
  refine ⟨v, hv, hstores, ?_⟩
  rintro ⟨r, ws, hcwd, hin, -⟩
  rw [hcwd, Option.any_some, decide_eq_true_eq] at hstores
  have hmem : ((-1 : Int), (0x62 : UInt8)) ∈ ws.drop 2 := hstores.2 ▸ List.mem_cons_self
  exact absurd (hin _ (List.mem_of_mem_drop hmem)).1 (by decide)

end FengOS.Vfs
