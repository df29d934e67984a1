import FengOS.Vfs.Lemmas.Table

/-!
# Requests on tables
-/

namespace FengOS.Vfs

open FengOS.Lib

variable {v w u : State} {p q fd x d : Nat} {fsp : ProcFile} {f g : File} {r : Int} {filp pfilp : Nat → Option Nat}
  {fds : List Nat} {files : Nat → Option File}

/-! ## One slot -/

theorem refs_update {cwd : Nat} {o : Option File} (h : fd < nrFiles) : Table.refs ⟨cwd, Function.update files fd o⟩ d =
      Table.refs ⟨cwd, files⟩ d - refersTo d (files fd) + refersTo d o := by
  have hu : (fun i => refersTo d (Function.update files fd o i)) =
      Function.update (fun i => refersTo d (files i)) fd (refersTo d o) :=
    funext fun i => Function.apply_update (fun _ => refersTo d) files fd o i
  have hmem := Finset.mem_range.mpr h
  simp only [Table.refs]
  rw [hu, Finset.sum_update_of_mem hmem, ← Finset.sum_sdiff (Finset.singleton_subset_iff.mpr hmem), Finset.sum_singleton]
  omega

theorem view_setFilp {o : Option Nat} : (fsp.setFilp fd o).view v =
    ⟨fsp.cwd, Function.update (fsp.view v).files fd (o.bind v.file)⟩ := by
  rw [ProcFile.view, Table.mk.injEq]
  refine ⟨rfl, funext fun i => ?_⟩
  exact Function.apply_update (fun _ (o : Option Nat) => o.bind v.file) fsp.filp fd o i

theorem State.Owned.view_update (hv : v.Owned) (hp : v.mapProcFile p = some fsp) (hx : fsp.filp fd = some x)
    {o : Option File} (hw : w.file = Function.update v.file x o) :
    fsp.view w = ⟨fsp.cwd, Function.update (fsp.view v).files fd o⟩ := by
  rw [ProcFile.view, Table.mk.injEq]
  refine ⟨rfl, funext fun i => ?_⟩
  rcases eq_or_ne i fd with rfl | hi
  · rw [Function.update_self, hx, Option.bind_some, hw, Function.update_self]
  · rw [Function.update_of_ne hi, view_files, hw]
    cases hy : fsp.filp i with
    | none => rfl
    | some y =>
      have hyx : y ≠ x := fun he => hi (hv.inj p p fsp fsp i fd x hp hp (he ▸ hy) hx).2
      rw [Option.bind_some, Function.update_of_ne hyx, Option.bind_some]

theorem State.Owned.setFile (hv : v.Owned) (hp : v.mapProcFile p = some fsp) (hx : fsp.filp fd = some x)
    (hf : v.file x = some f) (hg : g.dentry = f.dentry) :
    Balanced p v (v.setFile x g) (some ⟨fsp.cwd, Function.update (fsp.view v).files fd (some g)⟩) := by
  have hlt := hv.lt hp hx
  have hview := hv.view_update hp hx (w := v.setFile x g) rfl
  have htable : (v.setFile x g).table p = _ := table_eq (v := v.setFile x g) hp
  have hfd : (fsp.view v).files fd = some f := by rw [view_files, hx, Option.bind_some, hf]
  refine ⟨hv.effect hv.chains (fun _ _ => rfl) (fun y hy => ?_) (fun y _ hy => ?_) (fun fsp' i y h hi => ?_)
    (fun fsp' i j y h hi hj => (hv.inj p p fsp' fsp' i j y h h hi hj).2), htable.trans (congrArg some hview),
    Counted.refl.files.congr fun d => ?_⟩
  · have hne : y ≠ x := fun he => absurd hlt (Nat.not_lt.mpr (he ▸ hy))
    exact (Function.update_of_ne hne _ _).trans (hv.fresh y hy)
  · have hne : y ≠ x := fun he => hy fsp fd hp (he ▸ hx)
    exact Function.update_of_ne hne _ _
  · obtain ⟨hlt', f', hf'⟩ := hv.slot p fsp' i y h hi
    refine ⟨hlt', ?_, .inl ⟨fsp', i, h, hi⟩⟩
    rcases eq_or_ne y x with rfl | hne
    · exact ⟨g, Function.update_self ..⟩
    · exact ⟨f', (Function.update_of_ne hne _ _).trans hf'⟩
  · rw [table_eq hp, tableRefs, tableRefs, Option.map_some, Option.map_some, Option.getD_some, Option.getD_some,
      refs_update (hv.slot p fsp fd x hp hx).1, hfd, refersTo_some, refersTo_some, hg]
    simp only [ProcFile.view]
    omega

theorem onFile_balanced {fd : Int} {call : Dentry → File → Int × Int} (hv : v.Owned) (h : v.onFile p fd call = some (r, w)) :
    ∃ t, Balanced p v w (some t) ∧ t.cwd = ((v.table p).getD v.stdTable).cwd ∧
      ∀ i, (t.files i).map File.dentry = (((v.table p).getD v.stdTable).files i).map File.dentry := by
  simp only [State.onFile, State.getfilp, Option.bind_eq_bind, Option.bind_eq_some_iff, Option.pure_def, Option.some.injEq,
    Prod.exists] at h
  obtain ⟨o, s, ⟨fsp, s', hneed, hget⟩, h⟩ := h
  obtain ⟨rfl, rfl⟩ := Prod.mk.inj hget
  obtain ⟨hp, hb⟩ := needProcFile_balanced hv hneed
  have ht : fsp.view s' = _ := Option.some.inj ((table_eq hp).symm.trans hb.table)
  split at h
  · obtain ⟨-, rfl⟩ := Prod.mk.inj (Option.some.inj h)
    exact ⟨_, hb, rfl, fun _ => rfl⟩
  · rename_i x hx
    split_ifs at hx
    simp only [Option.bind_eq_some_iff, Option.some.injEq] at h
    obtain ⟨f, hf, h⟩ := h
    obtain ⟨-, rfl⟩ := Prod.mk.inj h
    refine ⟨_, hb.trans (hb.owned.setFile hp hx hf rfl), ?_, fun i => ?_⟩
    · rw [← ht]
      rfl
    · rw [← ht]
      dsimp only
      rcases eq_or_ne i fd.toNat with rfl | hi
      · rw [Function.update_self, view_files, hx, Option.bind_some, hf]
        rfl
      · rw [Function.update_of_ne hi]

/-! ## `vfs_open` and `vfs_close` -/

theorem freeFd_spec (h : fsp.freeFd = some fd) : fd < nrFiles ∧ fsp.filp fd = none :=
  ⟨List.mem_range.mp (List.mem_of_find?_eq_some h), by simpa using List.find?_some h⟩

theorem freeFd_ne_none (hv : v.Owned) (hp : v.mapProcFile p = some fsp) (hfd : fd < nrFiles)
    (h : (fsp.view v).files fd = none) : fsp.freeFd ≠ none := by
  intro hnone
  have hsome := List.find?_eq_none.mp hnone fd (List.mem_range.mpr hfd)
  obtain ⟨x, hx⟩ : ∃ x, fsp.filp fd = some x := by simpa [Option.isNone_iff_eq_none, Option.ne_none_iff_exists'] using hsome
  obtain ⟨-, f, hf⟩ := hv.slot p fsp fd x hp hx
  rw [view_files, hx, Option.bind_some, hf] at h
  cases h

theorem setFilp_filp {o : Option Nat} {i : Nat} : (fsp.setFilp fd o).filp i = if i = fd then o else fsp.filp i :=
  Function.update_apply ..

theorem State.Owned.openSlot (hv : v.Owned) (hp : v.mapProcFile p = some fsp) (hfree : fsp.freeFd = some fd)
    (hmap : u.fileMap = v.fileMap) (hnr : u.nrFile = v.nrFile + 1)
    (hfile : u.file = Function.update v.file v.nrFile (some g)) (hcount : Counted v u fun d => if d = g.dentry then 1 else 0) :
    Balanced p v (u.setProcFile (fsp.setFilp fd (some v.nrFile)))
      (some ⟨fsp.cwd, Function.update (fsp.view v).files fd (some g)⟩) := by
  obtain rfl := mapProcFile_pid hp
  obtain ⟨hfd, hnone⟩ := freeFd_spec hfree
  have hself : u.file v.nrFile = some g := by rw [hfile, Function.update_self]
  have hother : ∀ y, y ≠ v.nrFile → u.file y = v.file y := fun y hy => by rw [hfile, Function.update_of_ne hy]
  have hslot : ∀ i y, (fsp.setFilp fd (some v.nrFile)).filp i = some y →
      i = fd ∧ y = v.nrFile ∨ i ≠ fd ∧ y < v.nrFile ∧ fsp.filp i = some y := by
    intro i y h
    rw [setFilp_filp] at h
    split_ifs at h with hi
    · exact .inl ⟨hi, (Option.some.inj h).symm⟩
    · exact .inr ⟨hi, hv.lt hp h, h⟩
  have hview : (fsp.setFilp fd (some v.nrFile)).view u = ⟨fsp.cwd, Function.update (fsp.view v).files fd (some g)⟩ := by
    rw [view_setFilp, Option.bind_some, hself, view_congr fun i y hy => hother y (Nat.ne_of_lt (hv.lt hp hy))]
  obtain ⟨heffect, -, htable⟩ := hv.set u (fsp.setFilp fd (some v.nrFile)) hmap hp
    (fun y hy => (hother y (by omega)).trans (hv.fresh y (by omega))) (fun y hy _ => hother y (by omega))
    (fun i y hi => by
      rcases hslot i y hi with ⟨rfl, rfl⟩ | ⟨-, hlt, hi⟩
      · exact ⟨hfd, ⟨g, hself⟩, .inr (Nat.le_refl _)⟩
      · obtain ⟨hi', f, hf⟩ := hv.slot fsp.pid fsp i y hp hi
        exact ⟨hi', ⟨f, (hother y (by omega)).trans hf⟩, .inl ⟨i, hi⟩⟩)
    (fun i j y hi hj => by
      rcases hslot i y hi with ⟨rfl, rfl⟩ | ⟨-, hlt, hi⟩ <;> rcases hslot j _ hj with ⟨rfl, hy⟩ | ⟨-, hlt', hj⟩
      · rfl
      · omega
      · omega
      · exact (hv.inj fsp.pid fsp.pid fsp fsp i j y hp hp hi hj).2)
  refine ⟨heffect, htable.trans (congrArg some hview), hcount.files.congr fun d => ?_⟩
  rw [table_eq hp, tableRefs, tableRefs, Option.map_some, Option.map_some, Option.getD_some, Option.getD_some,
    refs_update hfd, view_files, hnone, Option.bind_none, refersTo_some]
  simp only [ProcFile.view, refersTo, @eq_comm _ d]
  omega

theorem State.Owned.leak (hv : v.Owned) (hmap : w.fileMap = v.fileMap) (hfile : ∀ x < v.nrFile, w.file x = v.file x)
    (hfresh : ∀ x, w.nrFile ≤ x → w.file x = none) : Effect p v w ∧ ∀ q, w.table q = v.table q := by
  have hw : ∀ q, w.mapProcFile q = v.mapProcFile q := fun q => by rw [State.mapProcFile, hmap, State.mapProcFile]
  refine ⟨hv.effect (hmap ▸ hv.chains) (fun q _ => hw q) hfresh (fun x hx _ => hfile x hx) (fun fsp i x h hi => ?_)
    (fun fsp i j x h hi hj => ?_), fun q => ?_⟩
  · rw [hw] at h
    obtain ⟨hlt, f, hf⟩ := hv.slot p fsp i x h hi
    exact ⟨hlt, ⟨f, (hfile x (hv.lt h hi)).trans hf⟩, .inl ⟨fsp, i, h, hi⟩⟩
  · rw [hw] at h
    exact (hv.inj p p fsp fsp i j x h h hi hj).2
  · rw [State.table, State.table, hw]
    exact Option.map_congr fun fsp h => view_congr fun i x hi => hfile x (hv.lt h hi)

def State.openedFile (v : State) (entry oflag : Nat) : File :=
  ⟨(v.dentry entry).mode, entry, if oflag &&& oAppend ≠ 0 then (v.dentry entry).size else 0⟩

def State.opened (v : State) (entry oflag : Nat) : State :=
  { v.addCount entry 1 with
    file := Function.update v.file v.nrFile (some (v.openedFile entry oflag)), nrFile := v.nrFile + 1 }

theorem openEntry_eq {entry oflag : Nat} : v.openEntry fsp entry oflag =
    match fsp.freeFd with
    | some fd => ((fd : Int), (v.opened entry oflag).setProcFile (fsp.setFilp fd (some v.nrFile)))
    | none => (-1, v.opened entry oflag) := by
  cases hfree : fsp.freeFd <;> by_cases h : oflag &&& oAppend ≠ 0
  all_goals simp [State.openEntry, makeFilp_eq, State.setFile, State.opened, State.openedFile, h, hfree]

theorem openEntry_cases {entry oflag : Nat} (hv : v.Owned) (hp : v.mapProcFile p = some fsp)
    (h : v.openEntry fsp entry oflag = (r, w)) : (∃ fd g, fsp.freeFd = some fd ∧ r = fd ∧ g.dentry = entry ∧
      Balanced p v w (some ⟨fsp.cwd, Function.update (fsp.view v).files fd (some g)⟩)) ∨
    fsp.freeFd = none ∧ r = -1 ∧ Change p v w (v.table p) fun d => if d = entry then 1 else 0 := by
  have hcount : Counted v (v.opened entry oflag) fun d => if d = entry then 1 else 0 := Counted.addCount.files
  rw [openEntry_eq] at h
  cases hfree : fsp.freeFd with
  | some fd =>
    rw [hfree] at h
    obtain ⟨rfl, rfl⟩ := Prod.mk.inj h
    exact .inl ⟨fd, v.openedFile entry oflag, rfl, rfl, rfl, hv.openSlot hp hfree rfl rfl rfl hcount⟩
  | none =>
    rw [hfree] at h
    obtain ⟨rfl, rfl⟩ := Prod.mk.inj h
    have hother : ∀ y, y ≠ v.nrFile → (v.opened entry oflag).file y = v.file y := fun y hy => Function.update_of_ne hy _ _
    obtain ⟨heffect, htable⟩ := hv.leak (w := v.opened entry oflag) rfl (fun y hy => hother y (Nat.ne_of_lt hy))
      fun y hy => (hother y (Nat.ne_of_gt hy)).trans (hv.fresh y (Nat.le_of_lt hy))
    exact .inr ⟨rfl, rfl, heffect, htable p, hcount⟩

theorem freeFilp_cases (h : v.freeFilp x = some w) : ∃ f, v.file x = some f ∧ w.fileMap = v.fileMap ∧
    w.nrFile = v.nrFile ∧ w.file = Function.update v.file x none ∧ Counted v w fun d => -refersTo d (some f) := by
  simp only [State.freeFilp, Option.bind_eq_bind, Option.bind_eq_some_iff, Option.pure_def, Option.some.injEq] at h
  obtain ⟨f, hf, rfl⟩ := h
  refine ⟨f, hf, rfl, rfl, rfl, (Counted.addCount (v := v) (d := f.dentry) (k := -1)).files.congr fun d => ?_⟩
  rw [refersTo_some]
  simp only [@eq_comm _ d]
  split_ifs <;> rfl

theorem State.Owned.closeSlot (hv : v.Owned) (hp : v.mapProcFile p = some fsp) (hx : fsp.filp fd = some x)
    (hu : v.freeFilp x = some u) :
    Balanced p v (u.setProcFile (fsp.setFilp fd none)) (some ⟨fsp.cwd, Function.update (fsp.view v).files fd none⟩) := by
  obtain rfl := mapProcFile_pid hp
  obtain ⟨f, hf, hmap, hnr, hfile, hcount⟩ := freeFilp_cases hu
  have hother : ∀ y, y ≠ x → u.file y = v.file y := fun y hy => by rw [hfile, Function.update_of_ne hy]
  have hslot : ∀ i y, (fsp.setFilp fd none).filp i = some y → y ≠ x ∧ fsp.filp i = some y := by
    intro i y h
    rw [setFilp_filp] at h
    split_ifs at h with hi
    exact ⟨fun he => hi (hv.inj fsp.pid fsp.pid fsp fsp i fd x hp hp (he ▸ h) hx).2, h⟩
  have hview : (fsp.setFilp fd none).view u = ⟨fsp.cwd, Function.update (fsp.view v).files fd none⟩ := by
    rw [view_setFilp, Option.bind_none, hv.view_update hp hx hfile, Function.update_idem]
  obtain ⟨heffect, -, htable⟩ := hv.set u (fsp.setFilp fd none) hmap hp
    (fun y hy => by
      rw [hnr] at hy
      have hne : y ≠ x := fun he => absurd (hv.lt hp hx) (by omega)
      exact (hother y hne).trans (hv.fresh y hy))
    (fun y _ hy => hother y fun he => hy fd (he ▸ hx))
    (fun i y hi => by
      obtain ⟨hne, hi⟩ := hslot i y hi
      obtain ⟨hlt, f', hf'⟩ := hv.slot fsp.pid fsp i y hp hi
      exact ⟨hlt, ⟨f', (hother y hne).trans hf'⟩, .inl ⟨i, hi⟩⟩)
    (fun i j y hi hj => (hv.inj fsp.pid fsp.pid fsp fsp i j y hp hp (hslot i y hi).2 (hslot j y hj).2).2)
  refine ⟨heffect, htable.trans (congrArg some hview), hcount.files.congr fun d => ?_⟩
  rw [table_eq hp, tableRefs, tableRefs, Option.map_some, Option.map_some, Option.getD_some, Option.getD_some,
    refs_update (hv.slot fsp.pid fsp fd x hp hx).1, view_files, hx, Option.bind_some, hf]
  simp only [ProcFile.view, refersTo]
  omega

theorem vfsClose_cases {fd : Int} (hv : v.Owned) (h : vfsClose v p fd = some (r, w)) : w = v ∨ ∃ fsp,
    v.mapProcFile p = some fsp ∧ Balanced p v w (some ⟨fsp.cwd, Function.update (fsp.view v).files fd.toNat none⟩) := by
  simp only [vfsClose, Option.bind_eq_bind, Option.bind_eq_some_iff, Option.pure_def] at h
  obtain ⟨fsp, hp, h⟩ := h
  split_ifs at h with hfd
  split at h
  · exact .inl (Prod.mk.inj (Option.some.inj h)).2.symm
  · rename_i x hx
    simp only [Option.bind_eq_some_iff, Option.some.injEq, Prod.mk.injEq] at h
    obtain ⟨u, hu, -, rfl⟩ := h
    exact .inr ⟨fsp, hp, hv.closeSlot hp hx hu⟩

/-! ## `vfs_chdir` and `vfs_stat` -/

theorem vfsStat_cases {fs : Fs} {path : Name} (h : vfsStat fs v p path = some (r, w)) :
    w = v ∨ ∃ fsp e, v.mapProcFile p = some fsp ∧ vfsLookup fs v fsp.cwd path = some (e, w) := by
  rw [vfsStat] at h
  split at h
  · exact .inl (Prod.mk.inj (Option.some.inj h)).2.symm
  · rename_i fsp hp
    simp only [Option.bind_eq_bind, Option.bind_eq_some_iff, Option.pure_def, Prod.exists] at h
    obtain ⟨e, u, hlook, h⟩ := h
    have hw : u = w := by cases e <;> exact (Prod.mk.inj (Option.some.inj h)).2
    exact .inr ⟨fsp, e, hp, hw ▸ hlook⟩

theorem refs_cwd {c c' : Nat} :
    Table.refs ⟨c', files⟩ d = Table.refs ⟨c, files⟩ d - (if c = d then 1 else 0) + if c' = d then 1 else 0 := by
  simp only [Table.refs]
  omega

theorem State.Owned.chdir (hv : v.Owned) (newcwd : Nat) (hp : v.mapProcFile p = some fsp) :
    Change p v ((v.addCount fsp.cwd (-1)).setProcFile { fsp with cwd := newcwd }) (some ⟨newcwd, (fsp.view v).files⟩)
      fun d => if d = fsp.cwd then -1 else 0 := by
  obtain rfl := mapProcFile_pid hp
  obtain ⟨heffect, -, htable⟩ := hv.set (v.addCount fsp.cwd (-1)) { fsp with cwd := newcwd } rfl hp hv.fresh
    (fun _ _ _ => rfl)
    (fun i y hi => ⟨(hv.slot fsp.pid fsp i y hp hi).1, (hv.slot fsp.pid fsp i y hp hi).2, .inl ⟨i, hi⟩⟩)
    (fun i j y hi hj => (hv.inj fsp.pid fsp.pid fsp fsp i j y hp hp hi hj).2)
  exact ⟨heffect, htable, Counted.addCount.files⟩

/-! ## Freeing a table -/

theorem sum_range {n : Nat} {f : Nat → Int} : ((List.range n).map f).sum = ∑ i ∈ Finset.range n, f i := rfl

theorem freeFiles_spec (hinj : ∀ i j x, filp i = some x → filp j = some x → i = j) (hnodup : fds.Nodup)
    (h : freeFiles filp fds v = some w) : w.fileMap = v.fileMap ∧ w.nrFile = v.nrFile ∧
    (∀ x, w.file x = none ∨ w.file x = v.file x) ∧ (∀ x, (∀ i, filp i ≠ some x) → w.file x = v.file x) ∧
    Counted v w fun d => -(fds.map fun i => refersTo d ((filp i).bind v.file)).sum := by
  induction fds generalizing v with
  | nil =>
    obtain rfl := Option.some.inj h
    exact ⟨rfl, rfl, fun _ => .inr rfl, fun _ _ => rfl, Counted.refl⟩
  | cons i fds ih =>
    obtain ⟨hi, hnodup⟩ := List.nodup_cons.mp hnodup
    rw [freeFiles] at h
    split at h
    · rename_i hnone
      obtain ⟨hmap, hnr, hor, hfile, hcount⟩ := ih hnodup h
      refine ⟨hmap, hnr, hor, hfile, hcount.congr fun d => ?_⟩
      rw [List.map_cons, List.sum_cons, hnone, Option.bind_none, refersTo, Int.zero_add]
    · rename_i x hx
      simp only [Option.bind_eq_bind, Option.bind_eq_some_iff] at h
      obtain ⟨u, hu, h⟩ := h
      obtain ⟨f, hf, hmap₁, hnr₁, hfile₁, hcount₁⟩ := freeFilp_cases hu
      obtain ⟨hmap, hnr, hor, hfile, hcount⟩ := ih hnodup h
      have hother : ∀ y, y ≠ x → u.file y = v.file y := fun y hy => by rw [hfile₁, Function.update_of_ne hy]
      refine ⟨hmap.trans hmap₁, hnr.trans hnr₁, fun y => ?_, fun y hy => ?_, (hcount₁.trans hcount).congr fun d => ?_⟩
      · rcases hor y with h | h
        · exact .inl h
        · rcases eq_or_ne y x with rfl | hy
          · exact .inl (h.trans (by rw [hfile₁, Function.update_self]))
          · exact .inr (h.trans (hother y hy))
      · exact (hfile y hy).trans (hother y fun he => hy i (he ▸ hx))
      · have hrest : (fds.map fun j => refersTo d ((filp j).bind u.file)) =
            fds.map fun j => refersTo d ((filp j).bind v.file) := by
          refine List.map_congr_left fun j hj => ?_
          cases hy : filp j with
          | none => rfl
          | some y =>
            have hne : y ≠ x := fun he => hi (hinj i j x hx (he ▸ hy) ▸ hj)
            rw [Option.bind_some, Option.bind_some, hother y hne]
        rw [hrest, List.map_cons, List.sum_cons, hx, Option.bind_some, hf]
        omega

theorem State.Owned.filp_inj (hv : v.Owned) (hp : v.mapProcFile p = some fsp) :
    ∀ i j x, fsp.filp i = some x → fsp.filp j = some x → i = j :=
  fun i j x hi hj => (hv.inj p p fsp fsp i j x hp hp hi hj).2

theorem vfsFreefs_cases (hv : v.Owned) (h : vfsFreefs v p = some (r, w)) : v.table p = none ∧ w = v ∨
      ∃ t, v.table p = some t ∧ Change p v w none fun d => (if d = t.cwd then 1 else 0) - t.refs d := by
  rw [vfsFreefs] at h
  split at h
  · rename_i hp
    obtain ⟨-, rfl⟩ := Prod.mk.inj (Option.some.inj h)
    exact .inl ⟨table_eq_none hp, rfl⟩
  · rename_i fsp hp
    simp only [Option.bind_eq_bind, Option.bind_eq_some_iff, Option.pure_def, Option.some.injEq, Prod.mk.injEq] at h
    obtain ⟨u, hu, -, rfl⟩ := h
    obtain ⟨hmap, hnr, hor, hfile, hcount⟩ := freeFiles_spec (hv.filp_inj hp) List.nodup_range hu
    have hchains : Chain.Ok ProcFile.pid fileMapSize u.fileMap := by
      rw [hmap]
      exact hv.chains
    have hw : ∀ q, (u.unmapProcFile p).mapProcFile q = if q = p then none else v.mapProcFile q := by
      intro q
      refine (Chain.find_erase hchains).trans ?_
      rw [hmap]
      rfl
    have hself := (hw p).trans (if_pos rfl)
    refine .inr ⟨_, table_eq hp, hv.effect hchains.erase (fun q hq => (hw q).trans (if_neg hq)) (fun x hx => ?_)
      (fun x _ hx => hfile x fun i => hx fsp i hp) (fun fsp' i x h => ?_) (fun fsp' i j x h => ?_), table_eq_none hself,
      hcount.files.congr fun d => ?_⟩
    · rcases hor x with h | h
      · exact h
      · exact h.trans (hv.fresh x (hnr ▸ hx))
    · rw [hself] at h
      cases h
    · rw [hself] at h
      cases h
    · simp only [sum_range, Table.refs, view_files, view_cwd, @eq_comm _ d]
      omega

theorem vfsExecfs_balanced (hv : v.Owned) (h : vfsExecfs v p = some (r, w)) :
    Balanced p v w (some ⟨((v.table p).getD v.stdTable).cwd, v.stdTable.files⟩) := by
  rw [vfsExecfs] at h
  split at h
  · rename_i hp
    simp only [Option.bind_eq_bind, Option.bind_eq_some_iff, Option.pure_def, Option.some.injEq, Prod.mk.injEq,
      Prod.exists] at h
    obtain ⟨fsp, u, hu, -, rfl⟩ := h
    have hb := (needProcFile_balanced hv hu).2
    rw [table_eq_none hp] at hb ⊢
    exact hb
  · rename_i fsp hp
    simp only [Option.bind_eq_bind, Option.bind_eq_some_iff, Option.pure_def, Option.some.injEq, Prod.mk.injEq] at h
    obtain ⟨u, hu, -, rfl⟩ := h
    obtain rfl := mapProcFile_pid hp
    obtain ⟨hmap, hnr, hor, hfile, hcount⟩ := freeFiles_spec (hv.filp_inj hp) List.nodup_range hu
    have hnone : ∀ fd, ({ fsp with filp := fun _ => none } : ProcFile).filp fd = none := fun _ => rfl
    have hslot := fun i x (h : (u.makeStd { fsp with filp := fun _ => none }).1.filp i = some x) => makeStd_slot hnone h
    have hfresh : ∀ x, u.nrFile ≤ x → u.file x = none := fun x hx => by
      rcases hor x with h | h
      · exact h
      · exact h.trans (hv.fresh x (hnr ▸ hx))
    obtain ⟨heffect, -, htable⟩ := hv.set (u.makeStd { fsp with filp := fun _ => none }).2
      (u.makeStd { fsp with filp := fun _ => none }).1 hmap hp
      (fun x hx => (makeStd_file_of (.inr hx)).trans (hfresh x (Nat.le_trans (Nat.le_add_right _ 3) hx)))
      (fun x hx hne => (makeStd_file_of (.inl (hnr ▸ hx))).trans (hfile x hne))
      (fun i x hi => ⟨(hslot i x hi).1, (hslot i x hi).2.1, .inr ((hslot i x hi).2.2 ▸ hnr ▸ Nat.le_add_right _ _)⟩)
      (fun i j x hi hj => Nat.add_left_cancel ((hslot i x hi).2.2.symm.trans (hslot j x hj).2.2))
    rw [makeStd_view hnone, hcount.stdTable] at htable
    rw [table_eq hp, Option.getD_some, view_cwd]
    refine ⟨heffect, htable, (hcount.trans makeStd_counted).files.congr fun d => ?_⟩
    rw [table_eq hp, tableRefs, tableRefs, Option.map_some, Option.map_some, Option.getD_some, Option.getD_some,
      stdTable_refs v fsp.cwd d]
    simp only [sum_range, hcount.stdin, hcount.stdout, hcount.stderr, Table.refs, view_files, view_cwd, @eq_comm _ d]
    omega

/-! ## Copying a table -/

theorem copyFiles_spec {filp' : Nat → Option Nat} (h : copyFiles pfilp fds filp v = some (filp', w))
    (hold : ∀ i x, pfilp i = some x → x < v.nrFile) (hnodup : fds.Nodup) (hfilp : ∀ i ∈ fds, filp i = none) :
    w.fileMap = v.fileMap ∧ v.nrFile ≤ w.nrFile ∧ (∀ x < v.nrFile, w.file x = v.file x) ∧
    ((∀ x, v.nrFile ≤ x → v.file x = none) → ∀ x, w.nrFile ≤ x → w.file x = none) ∧
    (∀ i, i ∉ fds ∨ pfilp i = none → filp' i = filp i) ∧
    (∀ i ∈ fds, ∀ x, pfilp i = some x → ∃ n, filp' i = some n ∧ v.nrFile ≤ n ∧ n < w.nrFile ∧ w.file n = v.file x ∧
      ∃ f, v.file x = some f) ∧ (∀ i ∈ fds, ∀ j ∈ fds, ∀ n, filp' i = some n → filp' j = some n → i = j) ∧
    Counted v w fun d => (fds.map fun i => refersTo d ((pfilp i).bind v.file)).sum := by
  induction fds generalizing v filp with
  | nil =>
    obtain ⟨rfl, rfl⟩ := Prod.mk.inj (Option.some.inj h)
    exact ⟨rfl, Nat.le_refl _, fun _ _ => rfl, fun hf => hf, fun _ _ => rfl, by simp, by simp, Counted.refl⟩
  | cons i fds ih =>
    obtain ⟨hi, hnodup⟩ := List.nodup_cons.mp hnodup
    rw [copyFiles] at h
    split at h
    · rename_i hnone
      obtain ⟨hmap, hnr, hfile, hfresh, hkeep, hcopy, hinj, hcount⟩ :=
        ih h hold hnodup fun j hj => hfilp j (List.mem_cons_of_mem _ hj)
      have hinone : filp' i = none := (hkeep i (.inr hnone)).trans (hfilp i List.mem_cons_self)
      refine ⟨hmap, hnr, hfile, hfresh, fun j hj => hkeep j (hj.imp_left fun h hm => h (List.mem_cons_of_mem _ hm)),
        fun j hj x hx => ?_, fun j hj k hk n hjn hkn => ?_, hcount.congr fun d => ?_⟩
      · rcases List.mem_cons.mp hj with rfl | hj
        · rw [hnone] at hx
          cases hx
        · exact hcopy j hj x hx
      · rcases List.mem_cons.mp hj with rfl | hj
        · rw [hinone] at hjn
          cases hjn
        rcases List.mem_cons.mp hk with rfl | hk
        · rw [hinone] at hkn
          cases hkn
        · exact hinj j hj k hk n hjn hkn
      · rw [List.map_cons, List.sum_cons, hnone, Option.bind_none, refersTo, Int.zero_add]
    · rename_i x hx
      simp only [Option.bind_eq_bind, Option.bind_eq_some_iff] at h
      obtain ⟨f, hf, h⟩ := h
      have hx' := hold i x hx
      -- the copy of this slot, before the loop goes on
      have hother : ∀ y < v.nrFile, ((v.newFile f).2.addCount f.dentry 1).file y = v.file y :=
        fun y hy => Function.update_of_ne (Nat.ne_of_lt hy) _ _
      obtain ⟨hmap, hnr, hfile, hfresh, hkeep, hcopy, hinj, hcount⟩ :=
        ih h (fun j y hy => Nat.lt_succ_of_lt (hold j y hy)) hnodup
          fun j hj => (Function.update_of_ne (ne_of_mem_of_not_mem hj hi) _ _).trans (hfilp j (List.mem_cons_of_mem _ hj))
      have hinew : filp' i = some v.nrFile := (hkeep i (.inl hi)).trans (Function.update_self ..)
      have hnr : v.nrFile + 1 ≤ w.nrFile := hnr
      have hcopy' : ∀ j ∈ fds, ∀ y, pfilp j = some y → ∃ n, filp' j = some n ∧ v.nrFile + 1 ≤ n ∧ n < w.nrFile ∧
          w.file n = v.file y ∧ ∃ f, v.file y = some f := by
        intro j hj y hy
        rw [← hother y (hold j y hy)]
        exact hcopy j hj y hy
      have hne : ∀ j ∈ fds, filp' j ≠ some v.nrFile := by
        intro j hj hjn
        cases hy : pfilp j with
        | none =>
          rw [hkeep j (.inr hy), Function.update_of_ne (ne_of_mem_of_not_mem hj hi),
            hfilp j (List.mem_cons_of_mem _ hj)] at hjn
          cases hjn
        | some y =>
          obtain ⟨n, hn, hlt, -⟩ := hcopy' j hj y hy
          have := Option.some.inj (hn.symm.trans hjn)
          omega
      refine ⟨hmap, by omega, fun y hy => (hfile y (Nat.lt_succ_of_lt hy)).trans (hother y hy), fun hf₀ => ?_,
        fun j hj => ?_, fun j hj y hy => ?_, fun j hj k hk n hjn hkn => ?_, ?_⟩
      · exact hfresh fun y hy => (Function.update_of_ne (Nat.ne_of_gt hy) _ _).trans (hf₀ y (Nat.le_of_lt hy))
      · have hji : j ≠ i := by
          rintro rfl
          rcases hj with hj | hj
          · exact hj List.mem_cons_self
          · rw [hx] at hj
            cases hj
        exact (hkeep j (hj.imp_left fun h hm => h (List.mem_cons_of_mem _ hm))).trans (Function.update_of_ne hji _ _)
      · rcases List.mem_cons.mp hj with rfl | hj
        · obtain rfl := Option.some.inj (hx.symm.trans hy)
          refine ⟨v.nrFile, hinew, Nat.le_refl _, hnr, ?_, f, hf⟩
          exact (hfile v.nrFile (Nat.lt_succ_self _)).trans ((Function.update_self ..).trans hf.symm)
        · obtain ⟨n, hn, hle, hrest⟩ := hcopy' j hj y hy
          exact ⟨n, hn, by omega, hrest⟩
      · rcases List.mem_cons.mp hj with rfl | hj' <;> rcases List.mem_cons.mp hk with rfl | hk'
        · rfl
        · exact absurd (hkn.trans (hjn.symm.trans hinew)) (hne k hk')
        · exact absurd (hjn.trans (hkn.symm.trans hinew)) (hne j hj')
        · exact hinj j hj' k hk' n hjn hkn
      · have hstep : Counted v ((v.newFile f).2.addCount f.dentry 1) fun d => refersTo d (some f) :=
          (Counted.addCount (v := v) (d := f.dentry) (k := 1)).files.congr fun d => by
            simp only [refersTo, @eq_comm _ d]
        refine (hstep.trans hcount).congr fun d => ?_
        have hrest : (fds.map fun j => refersTo d ((pfilp j).bind ((v.newFile f).2.addCount f.dentry 1).file)) =
            fds.map fun j => refersTo d ((pfilp j).bind v.file) := by
          refine List.map_congr_left fun j _ => ?_
          cases hy : pfilp j with
          | none => rfl
          | some y => rw [Option.bind_some, Option.bind_some, hother y (hold j y hy)]
        rw [hrest, List.map_cons, List.sum_cons, hx, Option.bind_some, hf]

theorem vfsForkfs_cases {c : Nat} (hv : v.Owned) (h : vfsForkfs v p c = some (r, w)) :
    ∃ u t, Balanced p v u (some t) ∧ t = (v.table p).getD v.stdTable ∧ (u.table c = none ∧ Balanced c u w (some t) ∨
        ∃ t', u.table c = some t' ∧ Change c u w (some t') fun d => t.refs d) := by
  simp only [vfsForkfs, Option.bind_eq_bind, Option.bind_eq_some_iff, Option.pure_def, Option.some.injEq, Prod.exists,
    Prod.mk.injEq] at h
  obtain ⟨fsp, u, hneed, filp, s, hcopies, r', w', happ, -, rfl⟩ := h
  obtain ⟨hp, hb⟩ := needProcFile_balanced hv hneed
  have ht : fsp.view u = _ := Option.some.inj ((table_eq hp).symm.trans hb.table)
  have hu := hb.owned
  obtain ⟨hmap, hnr, hfile, hfresh, hkeep, hcopy, hinj, hcount⟩ :=
    copyFiles_spec hcopies (fun i x hx => hu.lt hp hx) List.nodup_range fun _ _ => rfl
  have hfile' : ∀ x < u.nrFile, s.file x = u.file x := hfile
  -- the slots of the copy are those of the parent, with the same files
  have hslot : ∀ i n, filp i = some n → i < nrFiles ∧ (∃ f, s.file n = some f) ∧ u.nrFile ≤ n := by
    intro i n hn
    by_cases hi : i ∈ List.range nrFiles
    · cases hx : fsp.filp i with
      | none =>
        rw [hkeep i (.inr hx)] at hn
        cases hn
      | some x =>
        obtain ⟨m, hm, hle, -, hfm, f, hf⟩ := hcopy i hi x hx
        obtain rfl := Option.some.inj (hm.symm.trans hn)
        exact ⟨List.mem_range.mp hi, ⟨f, hfm.trans hf⟩, hle⟩
    · rw [hkeep i (.inl hi)] at hn
      cases hn
  have hview : (⟨c, filp, fsp.cwd⟩ : ProcFile).view s = fsp.view u := by
    rw [ProcFile.view, ProcFile.view, Table.mk.injEq]
    refine ⟨rfl, funext fun i => ?_⟩
    cases hx : fsp.filp i with
    | none => exact congrArg (Option.bind · s.file) (hkeep i (.inr hx))
    | some x =>
      have hi := List.mem_range.mpr (hu.slot p fsp i x hp hx).1
      obtain ⟨n, hn, -, -, hfn, -⟩ := hcopy i hi x hx
      exact (congrArg (Option.bind · s.file) hn).trans hfn
  have hcounted : Counted u s fun d => (fsp.view u).refs d :=
    (Counted.addCount.trans hcount).congr fun d => by
      simp only [Table.refs, view_files, view_cwd, sum_range, @eq_comm _ d]
      exact Int.add_comm _ _
  refine ⟨u, fsp.view u, ht ▸ hb, ht, ?_⟩
  obtain ⟨-, ⟨⟨fsq, hfsq⟩, rfl⟩ | ⟨hnone, rfl⟩⟩ := appendProcFile_cases happ
  · have hc : u.mapProcFile c = some fsq := by
      rw [State.mapProcFile, hmap] at hfsq
      exact hfsq
    obtain ⟨heffect, htable⟩ := hu.leak hmap hfile' (hfresh hu.fresh)
    exact .inr ⟨_, table_eq hc, heffect, (htable c).trans (table_eq hc), hcounted⟩
  · have hc : u.mapProcFile c = none := by
      rw [State.mapProcFile, hmap] at hnone
      exact hnone
    obtain ⟨heffect, -, htable⟩ := hu.append s ⟨c, filp, fsp.cwd⟩ hmap hc (hfresh hu.fresh) hfile' hslot
      (fun i j n hi hj => hinj i (List.mem_range.mpr (hslot i n hi).1) j (List.mem_range.mpr (hslot j n hj).1) n hi hj) rfl
    refine .inl ⟨table_eq_none hc, heffect, htable.trans (congrArg some hview), hcounted.files.congr fun d => ?_⟩
    rw [table_eq_none hc, tableRefs, tableRefs, Option.map_some, Option.map_none, Option.getD_some, Option.getD_none,
      Int.sub_zero]

end FengOS.Vfs
