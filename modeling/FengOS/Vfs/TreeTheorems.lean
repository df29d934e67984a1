import FengOS.Vfs.Lemmas.Tree
import Mathlib.Data.List.GetD

/-!
# The tree that requests see
-/

namespace FengOS.Vfs

open FengOS.Lib

variable {v w : State} {d e k : Nat} {ns : List Name}

/-! ## `/dev` -/

theorem State.Tree.cached_of_mem {c : Nat} (hv : v.Tree) (h : c ∈ (v.dentry e).children) :
    v.cached e (v.dentry c).name = some c := Chain.find?_of_mem (hv.siblings e) h

theorem State.Tree.cached_dev (hv : v.Tree) : v.cached v.rootEntry devName = some 1 := by
  have hmem : 1 ∈ (v.dentry 0).children := (hv.mem_children 0 1).mpr ⟨Nat.one_pos, by have := hv.four_le; omega, rfl⟩
  rw [hv.root, ← hv.dev_name]
  exact hv.cached_of_mem hmem

theorem State.Tree.up_dev (hv : v.Tree) (h : v.Below 1 d) : v.up k d ≠ some 0 := by
  induction h generalizing k with
  | refl =>
    cases k with
    | zero => simp [State.up]
    | succ k => simp [State.up, hv.parent 1 (by have := hv.four_le; omega)]
  | @tail b d _ hd ih =>
    obtain ⟨hpos, hlt, hhome⟩ := (hv.mem_children b d).mp hd
    cases k with
    | zero =>
      simp only [State.up, ne_eq, Option.some.injEq]
      omega
    | succ k =>
      rw [State.up, hv.parent d hlt, hhome]
      split_ifs
      · simp
      · exact ih

theorem State.Tree.up_root (hv : v.Tree) (hd : d < v.nrDentry) (h : ¬ v.Below 1 d) : ∃ k, v.up k d = some 0 := by
  induction d using Nat.strong_induction_on with
  | _ d ih =>
    rcases Nat.eq_zero_or_pos d with rfl | hpos
    · exact ⟨0, rfl⟩
    · have hmem := (hv.mem_children (v.home d) d).mpr ⟨hpos, hd, rfl⟩
      have hlt := hv.home_lt d hd hpos
      have hthree : ¬ (1 ≤ d ∧ d ≤ 3) := by
        rintro ⟨-, hle⟩
        by_cases h1 : d = 1
        · exact h (h1 ▸ .refl)
        · have hhome : v.home d = 1 := by rw [State.home, if_neg (by omega), if_pos hle]
          exact h (.single (hhome ▸ hmem))
      obtain ⟨k, hk⟩ := ih (v.home d) hlt (Nat.lt_trans hlt hd) fun hb => h (hb.tail hmem)
      refine ⟨k + 1, ?_⟩
      rw [State.up, hv.parent d hd, if_neg hthree]
      exact hk

theorem State.Tree.sound_iff (hv : v.Tree) (hd : d < v.nrDentry) : v.Sound d ↔ ¬ v.Below 1 d := by
  constructor
  · rintro ⟨-, k, hk⟩ hb
    rw [hv.root] at hk
    exact hv.up_dev hb hk
  · intro h
    obtain ⟨k, hk⟩ := hv.up_root hd h
    refine ⟨fun e he => ?_, k, hv.root ▸ hk⟩
    obtain ⟨hpos, -, hhome⟩ := (hv.mem_children e d).mp he
    cases k with
    | zero =>
      have := Option.some.inj hk
      omega
    | succ k =>
      -- the first step up is possible, so `f_parent` is the dentry above
      have hne : (v.dentry d).parent ≠ none := by
        intro hnone
        rw [State.up, hnone] at hk
        cases hk
      rw [hv.parent d hd] at hne ⊢
      split_ifs at hne ⊢ with h₃
      · exact absurd rfl hne
      · rw [hhome]

/-- The root is its own parent, siblings have different names, and a dentry below another points to it and leads up to the
root iff it is not in `/dev`; the same holds of what processes and lookups have. -/
theorem dentry_sound_iff {v : State} (hv : Reach v) :
    (v.dentry v.rootEntry).parent = some v.rootEntry ∧
    (∀ e, (v.dentry e).children.Pairwise fun c d => (v.dentry c).name ≠ (v.dentry d).name) ∧
    ∃ dev, v.cached v.rootEntry devName = some dev ∧ (∀ d < v.nrDentry, v.Sound d ↔ ¬ v.Below dev d) ∧
      (∀ p t, v.table p = some t → t.cwd < v.nrDentry) ∧
      ∀ fs cwd (path : CString) d w, cwd < v.nrDentry → vfsLookup fs v cwd path = some (some d, w) →
        d < w.nrDentry ∧ (w.Sound d ↔ ¬ w.Below dev d) := by
  have ht := hv.inv.tree
  refine ⟨?_, ht.siblings, 1, ht.cached_dev, fun d hd => ht.sound_iff hd, fun p t h => (hv.inv.inside p t h).cwd,
    fun fs cwd path d w hcwd h => ?_⟩
  · rw [ht.root, ht.parent 0 (by have := ht.four_le; omega)]
    rfl
  · obtain ⟨hw, -, hlt⟩ := hv.inv.lookup hcwd path.2 h
    exact ⟨hlt d rfl, hw.tree.sound_iff (hlt d rfl)⟩

/-- After a file has been opened, its dentry is sound and the terminal below `/dev` is not. -/
theorem dentry_sound_iff_opened : ∃ v, Reach v ∧ (4 < v.nrDentry ∧ 4 ∈ (v.dentry 0).children) ∧ v.Sound 4 ∧ ¬ v.Sound 2 := by
  have hrun : Reach (mounted ⟨2, 0, 0⟩) := .init ⟨_, rfl⟩
  have hexec : (exec State.step (fun _ _ => True) (mounted ⟨2, 0, 0⟩)
      [⟨5, .open ⟨[0x61], by decide⟩ 0, fun _ _ => some ⟨0, 7, 0, 0⟩⟩]).any (fun v => decide ((4 < v.nrDentry ∧
        4 ∈ (v.dentry 0).children) ∧ v.cached v.rootEntry devName = some 1 ∧ 2 ∈ (v.dentry 1).children)) = true := by decide
  obtain ⟨v, hv, hopened, hcached, htty⟩ := Run.exists_of_exec hrun hexec
  obtain ⟨-, -, dev, hdev, hsound, -⟩ := dentry_sound_iff hv
  obtain rfl := Option.some.inj (hcached.symm.trans hdev)
  have hmem := (Reach.inv hv).tree.mem_children
  refine ⟨v, hv, hopened, (hsound 4 hopened.1).mpr fun hbelow => ?_, fun h => (hsound 2 (by omega)).mp h (.single htty)⟩
  -- what is linked below `/dev` is not linked below the root
  obtain hdev | ⟨e, he, hchild⟩ := hbelow.cases_tail
  · cases hdev
  obtain rfl : e = 0 := ((hmem e 4).mp hchild).2.2.symm.trans ((hmem 0 4).mp hopened.2).2.2
  obtain hdev | ⟨e, -, hroot⟩ := he.cases_tail
  · cases hdev
  · exact absurd ((hmem e 0).mp hroot).1 (Nat.lt_irrefl 0)

/-- A process that reads and then changes to `dev` is in a directory that does not lead up to the root, and `getcwd` follows
a null pointer. -/
theorem dev_parent_null : ∃ v, Reach v ∧ (1 ∈ (v.dentry v.rootEntry).children ∧ (v.dentry 1).parent = none) ∧
    (v.table 5).map Table.cwd = some 1 ∧ (vfsGetcwd v 5 100).isNone := by
  have hrun : Reach (mounted ⟨2, 0, 0⟩) := .init ⟨_, rfl⟩
  have hexec : (exec State.step (fun _ _ => True) (mounted ⟨2, 0, 0⟩)
      [⟨5, .read 0 1, fun _ _ => none⟩, ⟨5, .chdir ⟨devName, by decide⟩, fun _ _ => none⟩]).any
      (fun v => decide ((1 ∈ (v.dentry v.rootEntry).children ∧ (v.dentry 1).parent = none) ∧
        (v.table 5).map Table.cwd = some 1 ∧ (vfsGetcwd v 5 100).isNone)) = true := by decide
  exact Run.exists_of_exec hrun hexec

/-! ## `getcwdstr` -/

def render (ns : List Name) : Name := slash :: ns.flatMap (· ++ [slash])

/-- Children with these names lead from one dentry to another. -/
def State.Trail (v : State) : List Name → Nat → Nat → Prop
  | [], e, d => e = d
  | n :: ns, e, d => ∃ c ∈ (v.dentry e).children, (v.dentry c).name = n ∧ v.Trail ns c d

theorem State.Trail.snoc {b : Nat} (h : v.Trail ns e b) (hd : d ∈ (v.dentry b).children) :
    v.Trail (ns ++ [(v.dentry d).name]) e d := by
  induction ns generalizing e with
  | nil =>
    obtain rfl : e = b := h
    exact ⟨d, hd, rfl, rfl⟩
  | cons n ns ih =>
    obtain ⟨c, hc, hn, ht⟩ := h
    exact ⟨c, hc, hn, ih ht⟩

theorem State.Trail.addCount {c : Nat} {k : Int} (h : v.Trail ns e d) : (v.addCount c k).Trail ns e d := by
  induction ns generalizing e with
  | nil => exact h
  | cons n ns ih =>
    obtain ⟨b, hb, hn, ht⟩ := h
    exact ⟨b, by simpa using hb, by simpa using hn, ih ht⟩

theorem State.Trail.lookupLoop (hv : v.Tree) (h : v.Trail ns e d) :
    ∃ w, ∀ fs, lookupLoop fs ns (some e) v = some (some d, w) := by
  induction ns generalizing v e with
  | nil =>
    obtain rfl : e = d := h
    exact ⟨v, fun fs => rfl⟩
  | cons n ns ih =>
    obtain ⟨c, hc, rfl, ht⟩ := h
    obtain ⟨hpos, hlt, -⟩ := (hv.mem_children e c).mp hc
    obtain ⟨w, hw⟩ := ih (hv.counted (.addCount (d := c) (k := 1))) ht.addCount
    refine ⟨w, fun fs => ?_⟩
    have hname := hv.name c hlt hpos
    have hchild : child fs v e (v.dentry c).name = some (some c, v.addCount c 1) := by
      rw [child, hv.cached_of_mem hc]
    rw [lookupLoop_name (Nat.lt_trans (hv.name_lt c hlt hpos) (by decide)) hname.not_dotdot hname.not_dot, hchild]
    exact hw fs

theorem names_flatMap (h : ∀ n ∈ ns, slash ∉ n) : names (ns.flatMap (· ++ [slash])) = ns := by
  induction ns with
  | nil => rfl
  | cons n ns ih =>
    rw [List.flatMap_cons, List.append_assoc, List.singleton_append, names_slash (h n List.mem_cons_self),
      ih fun m hm => h m (List.mem_cons_of_mem _ hm)]

theorem Buf.Holds.append {buf : Buf} {s n : Name} (h : buf.Holds s) :
    Buf.Holds (((buf.strncpy s.length n).set (s.length + n.length) slash).set (s.length + n.length + 1) 0)
      (s ++ (n ++ [slash])) := by
  intro i hi
  simp only [List.length_append, List.length_singleton] at hi
  simp only [Buf.set, Function.update_apply, Buf.strncpy]
  split_ifs with h₁ h₂ h₃
  · rw [List.getD_eq_default _ _ (by simp only [List.length_append, List.length_singleton]; omega)]
  · obtain rfl : i = s.length + n.length := by omega
    rw [List.getD_append_right _ _ _ _ (by omega), List.getD_append_right _ _ _ _ (by omega)]
    simp
  · rw [List.getD_append_right _ _ _ _ (by omega), List.getD_append _ _ _ _ (by omega)]
    exact congrArg (n.getD · 0) (by omega)
  · rw [List.getD_append _ _ _ _ (by omega)]
    exact h i (by omega)

theorem render_snoc {n : Name} : render (ns ++ [n]) = render ns ++ (n ++ [slash]) := by
  simp [render]

theorem State.Tree.getcwdstr_holds (hv : v.Tree) (hd : d < v.nrDentry) (h : ¬ v.Below 1 d) :
    ∃ ns, v.Trail ns 0 d ∧ (∀ n ∈ ns, ChildName n) ∧ ∀ fuel > d, ∀ (buf : Buf) (size : Int), (render ns).length + 1 ≤ size →
      ∃ buf' : Buf, getcwdstr v fuel (some d) buf size = some (((render ns).length : Int), buf') ∧
        buf'.Holds (render ns) := by
  induction d using Nat.strong_induction_on with
  | _ d ih =>
    rcases Nat.eq_zero_or_pos d with rfl | hpos
    · refine ⟨[], rfl, by simp, fun fuel hfuel buf size hsize => ?_⟩
      obtain ⟨m, rfl⟩ := Nat.exists_eq_succ_of_ne_zero (Nat.ne_of_gt hfuel)
      have hsize : (1 : Int) + 1 ≤ size := hsize
      rw [getcwdstr]
      simp only [hv.root_name, hv.root, if_true]
      rw [if_neg (by simp; omega)]
      refine ⟨_, rfl, fun i hi => ?_⟩
      rcases (Nat.le_one_iff_eq_zero_or_eq_one.mp hi) with rfl | rfl <;> rfl
    · have hmem := (hv.mem_children (v.home d) d).mpr ⟨hpos, hd, rfl⟩
      have hlt := hv.home_lt d hd hpos
      have hup : ¬ v.Below 1 (v.home d) := fun hb => h (hb.tail hmem)
      obtain ⟨ns, htrail, hnames, hwrite⟩ := ih (v.home d) hlt (Nat.lt_trans hlt hd) hup
      refine ⟨ns ++ [(v.dentry d).name], htrail.snoc hmem, ?_, fun fuel hfuel buf size hsize => ?_⟩
      · intro n hn
        rcases List.mem_append.mp hn with hn | hn
        · exact hnames n hn
        · exact List.mem_singleton.mp hn ▸ hv.name d hd hpos
      · obtain ⟨m, rfl⟩ := Nat.exists_eq_succ_of_ne_zero (Nat.ne_of_gt (Nat.lt_of_le_of_lt (Nat.zero_le d) hfuel))
        have hparent := ((hv.sound_iff hd).mpr h).linked (v.home d) hmem
        rw [render_snoc] at hsize ⊢
        simp only [List.length_append, List.length_singleton] at hsize ⊢
        push_cast at hsize ⊢
        obtain ⟨buf', hbuf, hholds⟩ := hwrite m (by omega) buf size (by omega)
        refine ⟨_, ?_, hholds.append⟩
        rw [getcwdstr]
        simp only [hparent, hbuf, hv.root, if_neg (Nat.ne_of_gt hpos), Option.bind_eq_bind, Option.bind_some,
          Option.pure_def]
        rw [if_neg (by omega)]
        simp only [Option.some.injEq, Prod.mk.injEq, and_true]
        omega

theorem State.Tree.below_lt (hv : v.Tree) (he : e < v.nrDentry) (h : v.Below e d) : d < v.nrDentry := by
  induction h with
  | refl => exact he
  | tail _ hd _ => exact ((hv.mem_children _ _).mp hd).2.1

/-- For a dentry outside `/dev` the path of `getcwdstr` starts with a slash, and its lookup from anywhere finds the dentry.
-/
theorem getcwdstr_lookup {v : State} (hv : Reach v) (d : Nat) (hroot : v.Below v.rootEntry d)
    (hdev : ∀ dev, v.cached v.rootEntry devName = some dev → ¬ v.Below dev d) :
    ∃ path : Name, path.head? = some slash ∧ 0 ∉ path ∧
      (∀ (buf : Buf) (size : Int), path.length + 1 ≤ size →
        ∃ buf' : Buf, getcwdstr v (v.nrDentry + 1) (some d) buf size = some ((path.length : Int), buf') ∧ buf'.Holds path) ∧
      ∃ w, ∀ fs cwd, vfsLookup fs v cwd path = some (some d, w) := by
  have ht := hv.inv.tree
  have hnr := ht.four_le
  have hd : d < v.nrDentry := ht.below_lt (by rw [ht.root]; omega) hroot
  obtain ⟨ns, htrail, hnames, hwrite⟩ := ht.getcwdstr_holds hd (hdev 1 ht.cached_dev)
  obtain ⟨w, hw⟩ := htrail.lookupLoop ht
  refine ⟨render ns, rfl, ?_, hwrite _ (by omega), w, fun fs cwd => ?_⟩
  · intro h
    rcases List.mem_cons.mp h with h | h
    · exact absurd h (by decide)
    · obtain ⟨n, hn, hmem⟩ := List.mem_flatMap.mp h
      rcases List.mem_append.mp hmem with hmem | hmem
      · exact (hnames n hn).no_nul hmem
      · exact absurd (List.mem_singleton.mp hmem) (by decide)
  · rw [vfsLookup, if_pos (show (render ns).head? = some slash from rfl), render, List.tail_cons, names_flatMap fun n hn => (hnames n hn).no_slash, ht.root]
    exact hw fs

theorem getcwdstr_lookup_child : ∃ v, Reach v ∧ (4 ∈ (v.dentry v.rootEntry).children ∧ v.up 1 4 = some v.rootEntry) ∧
    ∃ path : Name, path.head? = some slash ∧ 0 ∉ path ∧
      (∀ (buf : Buf) (size : Int), path.length + 1 ≤ size →
        ∃ buf' : Buf, getcwdstr v (v.nrDentry + 1) (some 4) buf size = some ((path.length : Int), buf') ∧ buf'.Holds path) ∧
      ∃ w, ∀ fs cwd, vfsLookup fs v cwd path = some (some 4, w) := by
  have hrun : Reach (mounted ⟨2, 0, 0⟩) := .init ⟨_, rfl⟩
  have hexec : (exec State.step (fun _ _ => True) (mounted ⟨2, 0, 0⟩)
      [⟨5, .read 0 1, fun _ _ => none⟩, ⟨5, .stat ⟨[0x61], by decide⟩, fun _ _ => some ⟨0, ⟨11, 0, 0⟩⟩⟩]).any
      (fun v => decide (4 ∈ (v.dentry v.rootEntry).children ∧ v.up 1 4 = some v.rootEntry)) = true := by decide
  obtain ⟨v, hv, hmem, hup⟩ := Run.exists_of_exec hrun hexec
  have ht := Reach.inv hv |>.tree
  refine ⟨v, hv, ⟨hmem, hup⟩, getcwdstr_lookup hv 4 (.single hmem) fun dev hdev hb => ?_⟩
  obtain rfl := Option.some.inj (ht.cached_dev.symm.trans hdev)
  exact ht.up_dev hb (ht.root ▸ hup)

end FengOS.Vfs
