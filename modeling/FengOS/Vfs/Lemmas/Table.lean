import FengOS.Vfs.Table
import FengOS.Vfs.Lemmas.Lookup

/-!
# Changes to one table
-/

namespace FengOS.Vfs

open FengOS.Lib

variable {fs : Fs} {v w u w' : State} {p q fd x d : Nat} {fsp fsp' : ProcFile} {f : File} {δ δ' : Nat → Int} {k : Int}
  {filp pfilp : Nat → Option Nat} {fds : List Nat} {n : Name} {ns : List Name} {r cur : Option Nat} {e : FsEntry}

/-! ## Finding tables -/

theorem mapProcFile_pid (h : v.mapProcFile p = some fsp) : fsp.pid = p := Chain.find_key h

theorem mapProcFile_set (h : v.mapProcFile fsp.pid = some fsp') :
    (v.setProcFile fsp).mapProcFile q = if q = fsp.pid then some fsp else v.mapProcFile q := Chain.find_replace h

theorem mapProcFile_append (h : v.mapProcFile fsp.pid = none) :
    { v with fileMap := Chain.append ProcFile.pid fileMapSize v.fileMap fsp }.mapProcFile q =
      if q = fsp.pid then some fsp else v.mapProcFile q := by
  have hf : State.mapProcFile { v with fileMap := Chain.append ProcFile.pid fileMapSize v.fileMap fsp } q =
      (v.mapProcFile q).or (if fsp.pid = q then some fsp else none) := Chain.find_append
  rw [hf]
  split_ifs with h₁ h₂ h₂
  · rw [h₂, h, Option.none_or]
  · exact absurd h₁.symm h₂
  · exact absurd h₂.symm h₁
  · rw [Option.or_none]

theorem table_eq (h : v.mapProcFile p = some fsp) : v.table p = some (fsp.view v) := by rw [State.table, h, Option.map_some]

theorem table_eq_none (h : v.mapProcFile p = none) : v.table p = none := by rw [State.table, h, Option.map_none]

@[simp]
theorem view_files : (fsp.view v).files fd = (fsp.filp fd).bind v.file := rfl

@[simp]
theorem view_cwd : (fsp.view v).cwd = fsp.cwd := rfl

theorem view_congr (h : ∀ i y, fsp.filp i = some y → w.file y = v.file y) : fsp.view w = fsp.view v := by
  rw [ProcFile.view, ProcFile.view, Table.mk.injEq]
  refine ⟨rfl, funext fun i => ?_⟩
  cases hy : fsp.filp i with
  | none => rfl
  | some y => exact h i y hy

/-! ## The frame -/

structure Effect (p : Nat) (v w : State) : Prop where
  owned : w.Owned
  others : ∀ q ≠ p, w.table q = v.table q

theorem Effect.refl (hv : v.Owned) : Effect p v v := ⟨hv, fun _ _ => rfl⟩

theorem Effect.trans (h₁ : Effect p v w) (h₂ : Effect p w u) : Effect p v u :=
  ⟨h₂.owned, fun q hq => (h₂.others q hq).trans (h₁.others q hq)⟩

theorem State.Owned.effect (hv : v.Owned) (hchains : Chain.Ok ProcFile.pid fileMapSize w.fileMap)
    (hothers : ∀ q ≠ p, w.mapProcFile q = v.mapProcFile q) (hfresh : ∀ x, w.nrFile ≤ x → w.file x = none)
    (hfile : ∀ x < v.nrFile, (∀ fsp i, v.mapProcFile p = some fsp → fsp.filp i ≠ some x) → w.file x = v.file x)
    (hslot : ∀ fsp i x, w.mapProcFile p = some fsp → fsp.filp i = some x → i < nrFiles ∧ (∃ f, w.file x = some f) ∧
      ((∃ fsp₀ i₀, v.mapProcFile p = some fsp₀ ∧ fsp₀.filp i₀ = some x) ∨ v.nrFile ≤ x))
    (hinj : ∀ fsp i j x, w.mapProcFile p = some fsp → fsp.filp i = some x → fsp.filp j = some x → i = j) : Effect p v w := by
  -- the files of another process are not new and not among the files of `p`
  have hlt : ∀ q fsq j x, v.mapProcFile q = some fsq → fsq.filp j = some x → x < v.nrFile := by
    intro q fsq j x hq hx
    obtain ⟨-, f, hf⟩ := hv.slot q fsq j x hq hx
    by_contra hge
    rw [hv.fresh x (by omega)] at hf
    cases hf
  have hsame : ∀ q ≠ p, ∀ fsq j x, v.mapProcFile q = some fsq → fsq.filp j = some x → w.file x = v.file x := by
    intro q hqp fsq j x hq hx
    exact hfile x (hlt q fsq j x hq hx) fun fsp i hp hi => hqp (hv.inj q p fsq fsp j i x hq hp hx hi).1
  -- what a slot of `p` holds now, no slot of another process holds
  have hdisj : ∀ q ≠ p, ∀ fsp fsq i j x, w.mapProcFile p = some fsp → v.mapProcFile q = some fsq →
      fsp.filp i = some x → fsq.filp j ≠ some x := by
    intro q hqp fsp fsq i j x hp hq hi hj
    rcases (hslot fsp i x hp hi).2.2 with ⟨fsp₀, i₀, hp₀, hi₀⟩ | hge
    · exact hqp (hv.inj q p fsq fsp₀ j i₀ x hq hp₀ hj hi₀).1
    · exact absurd (hlt q fsq j x hq hj) (by omega)
  refine ⟨⟨hchains, hfresh, ?_, ?_⟩, ?_⟩
  · intro q fsq j x hq hx
    rcases eq_or_ne q p with rfl | hqp
    · exact ⟨(hslot fsq j x hq hx).1, (hslot fsq j x hq hx).2.1⟩
    · rw [hothers q hqp] at hq
      rw [hsame q hqp fsq j x hq hx]
      exact hv.slot q fsq j x hq hx
  · intro q r fsq fsr i j x hq hr hi hj
    rcases eq_or_ne q p with rfl | hqp <;> rcases eq_or_ne r q with rfl | hrq
    · obtain rfl := Option.some.inj (hq.symm.trans hr)
      exact ⟨rfl, hinj fsq i j x hq hi hj⟩
    · rw [hothers r hrq] at hr
      exact absurd hj (hdisj r hrq fsq fsr i j x hq hr hi)
    · rw [hothers r hqp] at hq hr
      exact hv.inj r r fsq fsr i j x hq hr hi hj
    · rw [hothers q hqp] at hq
      rcases eq_or_ne r p with rfl | hrp
      · exact absurd hi (hdisj q hqp fsr fsq j i x hr hq hj)
      · rw [hothers r hrp] at hr
        exact hv.inj q r fsq fsr i j x hq hr hi hj
  · intro q hqp
    rw [State.table, State.table, hothers q hqp]
    exact Option.map_congr fun fsq hq => view_congr fun j x hx => hsame q hqp fsq j x hq hx

theorem State.Owned.lt (hv : v.Owned) (hp : v.mapProcFile p = some fsp) (hx : fsp.filp fd = some x) : x < v.nrFile := by
  obtain ⟨-, f, hf⟩ := hv.slot p fsp fd x hp hx
  by_contra hge
  rw [hv.fresh x (by omega)] at hf
  cases hf

/-! ## Counts -/

structure Counted (v w : State) (δ : Nat → Int) : Prop where
  dentry : ∀ d, w.dentry d = { v.dentry d with count := (v.dentry d).count + δ d }
  nrDentry : w.nrDentry = v.nrDentry
  rootEntry : w.rootEntry = v.rootEntry
  stdin : w.stdin = v.stdin
  stdout : w.stdout = v.stdout
  stderr : w.stderr = v.stderr

theorem Counted.refl : Counted v v fun _ => 0 := ⟨fun d => by simp, rfl, rfl, rfl, rfl, rfl⟩

theorem Counted.trans (h₁ : Counted v w δ) (h₂ : Counted w u δ') : Counted v u fun d => δ d + δ' d where
  dentry d := by
    rw [h₂.dentry, h₁.dentry]
    simp only [Dentry.mk.injEq, true_and, and_true]
    omega
  nrDentry := h₂.nrDentry.trans h₁.nrDentry
  rootEntry := h₂.rootEntry.trans h₁.rootEntry
  stdin := h₂.stdin.trans h₁.stdin
  stdout := h₂.stdout.trans h₁.stdout
  stderr := h₂.stderr.trans h₁.stderr

theorem Counted.congr (h : Counted v w δ) (he : ∀ d, δ d = δ' d) : Counted v w δ' := funext he ▸ h

theorem Counted.addCount : Counted v (v.addCount d k) fun e => if e = d then k else 0 :=
  ⟨fun _ => addCount_dentry, rfl, rfl, rfl, rfl, rfl⟩

theorem Counted.files (h : Counted v w δ) {file : Nat → Option File} {nrFile : Nat} {fileMap : Chain.Table ProcFile} :
    Counted v { w with file := file, nrFile := nrFile, fileMap := fileMap } δ := ⟨h.1, h.2, h.3, h.4, h.5, h.6⟩

theorem Counted.stdTable (h : Counted v w δ) : w.stdTable = v.stdTable := by
  simp only [State.stdTable, h.dentry, h.rootEntry, h.stdin, h.stdout, h.stderr]

theorem Counted.cached (h : Counted v w δ) : w.cached d n = v.cached d n := by simp only [State.cached, h.dentry]

theorem Counted.addChild (h : Counted v w δ) :
    Counted (v.addChild d n e) (w.addChild d n e) fun c => if c = d then δ c else if c = v.nrDentry then 0 else δ c where
  dentry c := by
    simp only [State.addChild, h.dentry, h.nrDentry, Function.update_apply]
    split_ifs with hd hnew
    · simp only [hd, Dentry.mk.injEq, true_and, and_true]
      omega
    · simp
    · rfl
  nrDentry := congrArg (· + 1) h.nrDentry
  rootEntry := h.rootEntry
  stdin := h.stdin
  stdout := h.stdout
  stderr := h.stderr

theorem child_counted (h : Counted v w δ) (hw : child fs w d n = some (r, w')) :
    ∃ v' δ', child fs v d n = some (r, v') ∧ Counted v' w' δ' := by
  rw [child, h.cached] at hw
  rw [child]
  split at hw
  · rename_i c hc
    obtain ⟨rfl, rfl⟩ := Prod.mk.inj (Option.some.inj hw)
    refine ⟨_, δ, rfl, fun e => ?_, h.2, h.3, h.4, h.5, h.6⟩
    simp only [addCount_dentry, h.dentry, Dentry.mk.injEq, true_and, and_true]
    omega
  · rw [vfsLookupInFs, h.dentry] at hw
    rw [vfsLookupInFs]
    dsimp only at hw
    split at hw
    · obtain ⟨rfl, rfl⟩ := Prod.mk.inj (Option.some.inj hw)
      exact ⟨_, δ, rfl, h⟩
    · split_ifs at hw ⊢
      · obtain ⟨rfl, rfl⟩ := Prod.mk.inj (Option.some.inj hw)
        exact ⟨_, δ, rfl, h⟩
      · obtain ⟨rfl, rfl⟩ := Prod.mk.inj (Option.some.inj hw)
        exact ⟨_, _, by rw [h.nrDentry], h.addChild⟩

theorem lookupLoop_counted (h : Counted v w δ) (hw : lookupLoop fs ns cur w = some (r, w')) :
    ∃ v', lookupLoop fs ns cur v = some (r, v') := by
  induction ns generalizing v w δ cur with
  | nil => exact ⟨v, by rw [lookupLoop, (Prod.mk.inj (Option.some.inj hw)).1]⟩
  | cons n ns ih =>
    rw [lookupLoop] at hw ⊢
    split_ifs at hw ⊢ with hlen hup hdot
    · obtain ⟨d, hd, hw⟩ := Option.bind_eq_some_iff.mp hw
      rw [h.dentry] at hw
      rw [hd, Option.bind_some]
      exact ih h hw
    · exact ih h hw
    · obtain ⟨d, hd, hw⟩ := Option.bind_eq_some_iff.mp hw
      rw [hd, Option.bind_some]
      cases hc : child fs w d n with
      | none => simp [hc] at hw
      | some s =>
        obtain ⟨o, s⟩ := s
        obtain ⟨v', δ', hv', h'⟩ := child_counted h hc
        rw [hc] at hw
        rw [hv']
        cases o with
        | none =>
          obtain ⟨rfl, rfl⟩ := Prod.mk.inj (Option.some.inj hw)
          exact ⟨v', rfl⟩
        | some e => exact ih h' hw

theorem vfsLookup_counted {cwd : Nat} {path : Name} (h : Counted v w δ) (hw : vfsLookup fs w cwd path = some (r, w')) :
    ∃ v', vfsLookup fs v cwd path = some (r, v') := by
  rw [vfsLookup, h.rootEntry] at hw
  rw [vfsLookup]
  split_ifs at hw ⊢
  · exact lookupLoop_counted h hw
  · exact lookupLoop_counted h hw

/-! ## The standard files -/

theorem refersTo_some : refersTo d (some f) = if f.dentry = d then 1 else 0 := rfl

theorem makeFilp_eq {mode entry : Nat} : v.makeFilp mode entry = (v.nrFile, { v.addCount entry 1 with
    file := Function.update v.file v.nrFile (some ⟨mode, entry, 0⟩), nrFile := v.nrFile + 1 }) := rfl

theorem stdTable_files_of_le (h : 3 ≤ fd) : v.stdTable.files fd = none := by
  simp only [State.stdTable]
  rw [if_neg (by omega), if_neg (by omega), if_neg (by omega)]

theorem stdTable_files_of_lt (h : fd < 3) : ∃ f, v.stdTable.files fd = some f := by
  simp only [State.stdTable]
  split_ifs <;> first | exact ⟨_, rfl⟩ | omega

theorem makeStd_filp (hfsp : ∀ fd, fsp.filp fd = none) :
    (v.makeStd fsp).1.filp fd = if fd < 3 then some (v.nrFile + fd) else none := by
  simp only [State.makeStd, makeFilp_eq, Function.update_apply, hfsp]
  split_ifs <;> first | rfl | omega | (rw [Option.some.injEq]; omega)

theorem makeStd_file : (v.makeStd fsp).2.file x =
    if v.nrFile ≤ x ∧ x < v.nrFile + 3 then v.stdTable.files (x - v.nrFile) else v.file x := by
  simp only [State.makeStd, makeFilp_eq, Function.update_apply, addCount_dentry, State.stdTable]
  split_ifs <;> first | rfl | omega

theorem makeStd_file_of (h : x < v.nrFile ∨ v.nrFile + 3 ≤ x) : (v.makeStd fsp).2.file x = v.file x := by
  rw [makeStd_file, if_neg (by omega)]

theorem makeStd_counted : Counted v (v.makeStd fsp).2 fun d =>
    (if d = v.stdin then 1 else 0) + (if d = v.stdout then 1 else 0) + if d = v.stderr then 1 else 0 :=
  (Counted.addCount.files.trans Counted.addCount.files).trans Counted.addCount.files

theorem makeStd_slot (hfsp : ∀ fd, fsp.filp fd = none) (h : (v.makeStd fsp).1.filp fd = some x) :
    fd < nrFiles ∧ (∃ f, (v.makeStd fsp).2.file x = some f) ∧ x = v.nrFile + fd := by
  rw [makeStd_filp hfsp] at h
  split_ifs at h with hlt
  obtain rfl := Option.some.inj h
  rw [makeStd_file, if_pos (by omega), Nat.add_sub_cancel_left]
  exact ⟨Nat.lt_trans hlt (by decide), stdTable_files_of_lt hlt, rfl⟩

theorem makeStd_view (hfsp : ∀ fd, fsp.filp fd = none) :
    (v.makeStd fsp).1.view (v.makeStd fsp).2 = ⟨fsp.cwd, v.stdTable.files⟩ := by
  rw [ProcFile.view, Table.mk.injEq]
  refine ⟨rfl, funext fun fd => ?_⟩
  rw [makeStd_filp hfsp]
  split_ifs with h
  · rw [Option.bind_some, makeStd_file, if_pos (by omega), Nat.add_sub_cancel_left]
  · rw [stdTable_files_of_le (by omega), Option.bind_none]

theorem stdTable_refs (v : State) (cwd d : Nat) : Table.refs ⟨cwd, v.stdTable.files⟩ d = (if d = v.stdin then 1 else 0) +
    (if d = v.stdout then 1 else 0) + (if d = v.stderr then 1 else 0) + if d = cwd then 1 else 0 := by
  have hsub : Finset.range 3 ⊆ Finset.range nrFiles := Finset.range_subset_range.mpr (by decide)
  have hsum : ∑ fd ∈ Finset.range nrFiles, refersTo d (v.stdTable.files fd) =
      ∑ fd ∈ Finset.range 3, refersTo d (v.stdTable.files fd) := by
    refine (Finset.sum_subset hsub fun fd _ hfd => ?_).symm
    rw [Finset.mem_range, Nat.not_lt] at hfd
    rw [stdTable_files_of_le hfd, refersTo]
  rw [Table.refs, hsum, Finset.sum_range_succ, Finset.sum_range_succ, Finset.sum_range_one]
  simp [State.stdTable, refersTo, @eq_comm _ d]

/-! ## Changes for one process -/

def tableRefs (t : Option Table) (d : Nat) : Int := (t.map (·.refs d)).getD 0

structure Change (p : Nat) (v w : State) (t : Option Table) (δ : Nat → Int) : Prop extends Effect p v w where
  table : w.table p = t
  counted : Counted v w δ

abbrev Balanced (p : Nat) (v w : State) (t : Option Table) : Prop :=
  Change p v w t fun d => tableRefs t d - tableRefs (v.table p) d

theorem Balanced.trans {t t' : Option Table} (h₁ : Balanced p v w t) (h₂ : Balanced p w u t') : Balanced p v u t' := by
  refine ⟨h₁.toEffect.trans h₂.toEffect, h₂.table, (h₁.counted.trans h₂.counted).congr fun d => ?_⟩
  rw [h₁.table]
  omega

theorem Balanced.refl (hv : v.Owned) : Balanced p v v (v.table p) :=
  ⟨.refl hv, rfl, Counted.refl.congr fun d => by omega⟩

theorem appendProcFile_cases {r : Int} (h : v.appendProcFile fsp = some (r, w)) :
    fsp.pid ≠ 0 ∧ ((∃ fsq, v.mapProcFile fsp.pid = some fsq) ∧ w = v ∨ v.mapProcFile fsp.pid = none ∧
      w = { v with fileMap := Chain.append ProcFile.pid fileMapSize v.fileMap fsp }) := by
  rw [State.appendProcFile] at h
  split_ifs at h with h₀ hs
  · obtain ⟨-, rfl⟩ := Prod.mk.inj (Option.some.inj h)
    exact ⟨h₀, .inl ⟨Option.isSome_iff_exists.mp hs, rfl⟩⟩
  · obtain ⟨-, rfl⟩ := Prod.mk.inj (Option.some.inj h)
    exact ⟨h₀, .inr ⟨by simpa using hs, rfl⟩⟩

theorem State.Owned.append (hv : v.Owned) (u : State) (fsp : ProcFile) (hmap : u.fileMap = v.fileMap)
    (hp : v.mapProcFile fsp.pid = none) (hfresh : ∀ x, u.nrFile ≤ x → u.file x = none)
    (hfile : ∀ x < v.nrFile, u.file x = v.file x)
    (hslot : ∀ i x, fsp.filp i = some x → i < nrFiles ∧ (∃ f, u.file x = some f) ∧ v.nrFile ≤ x)
    (hinj : ∀ i j x, fsp.filp i = some x → fsp.filp j = some x → i = j)
    (hw : w = { u with fileMap := Chain.append ProcFile.pid fileMapSize u.fileMap fsp }) :
    Effect fsp.pid v w ∧ w.mapProcFile fsp.pid = some fsp ∧ w.table fsp.pid = some (fsp.view u) := by
  subst hw
  have hu : ∀ q, u.mapProcFile q = v.mapProcFile q := fun q => by rw [State.mapProcFile, hmap, State.mapProcFile]
  have hw := fun q => mapProcFile_append (q := q) ((hu _).trans hp)
  have hself := (hw fsp.pid).trans (if_pos rfl)
  refine ⟨hv.effect ?_ (fun q hq => ?_) hfresh (fun x hx _ => hfile x hx) (fun fsp' i x h hi => ?_)
    (fun fsp' i j x h hi hj => ?_), hself, table_eq hself⟩
  · rw [hmap]
    exact hv.chains.append hp
  · rw [hw, if_neg hq, hu]
  · obtain rfl := Option.some.inj (hself.symm.trans h)
    exact ⟨(hslot i x hi).1, (hslot i x hi).2.1, .inr (hslot i x hi).2.2⟩
  · obtain rfl := Option.some.inj (hself.symm.trans h)
    exact hinj i j x hi hj

theorem State.Owned.set {fsp₀ : ProcFile} (hv : v.Owned) (u : State) (fsp : ProcFile) (hmap : u.fileMap = v.fileMap)
    (hp : v.mapProcFile fsp.pid = some fsp₀) (hfresh : ∀ x, u.nrFile ≤ x → u.file x = none)
    (hfile : ∀ x < v.nrFile, (∀ i, fsp₀.filp i ≠ some x) → u.file x = v.file x)
    (hslot : ∀ i x, fsp.filp i = some x → i < nrFiles ∧ (∃ f, u.file x = some f) ∧
      ((∃ i₀, fsp₀.filp i₀ = some x) ∨ v.nrFile ≤ x)) (hinj : ∀ i j x, fsp.filp i = some x → fsp.filp j = some x → i = j) :
    Effect fsp.pid v (u.setProcFile fsp) ∧ (u.setProcFile fsp).mapProcFile fsp.pid = some fsp ∧
      (u.setProcFile fsp).table fsp.pid = some (fsp.view u) := by
  have hu : ∀ q, u.mapProcFile q = v.mapProcFile q := fun q => by rw [State.mapProcFile, hmap, State.mapProcFile]
  have hw := fun q => mapProcFile_set (q := q) ((hu _).trans hp)
  have hself := (hw fsp.pid).trans (if_pos rfl)
  refine ⟨hv.effect ?_ (fun q hq => ?_) hfresh (fun x hx h => hfile x hx fun i => h fsp₀ i hp) (fun fsp' i x h hi => ?_)
    (fun fsp' i j x h hi hj => ?_), hself, table_eq hself⟩
  · rw [State.setProcFile, hmap]
    exact hv.chains.replace
  · rw [hw, if_neg hq, hu]
  · obtain rfl := Option.some.inj (hself.symm.trans h)
    obtain ⟨hlt, hf, ⟨i₀, hi₀⟩ | hge⟩ := hslot i x hi
    · exact ⟨hlt, hf, .inl ⟨fsp₀, i₀, hp, hi₀⟩⟩
    · exact ⟨hlt, hf, .inr hge⟩
  · obtain rfl := Option.some.inj (hself.symm.trans h)
    exact hinj i j x hi hj

theorem State.Owned.initProcFile (hv : v.Owned) (hp : v.mapProcFile p = none) (hw : w = { (v.initProcFile p).2 with
      fileMap := Chain.append ProcFile.pid fileMapSize v.fileMap (v.initProcFile p).1 }) :
    w.mapProcFile p = some (v.initProcFile p).1 ∧ Balanced p v w (some v.stdTable) := by
  have hnone : ∀ fd, (⟨p, fun _ => none, v.rootEntry⟩ : ProcFile).filp fd = none := fun _ => rfl
  have hslot := fun i x (h : (v.initProcFile p).1.filp i = some x) => makeStd_slot hnone h
  obtain ⟨heffect, hself, htable⟩ := hv.append (v.initProcFile p).2 (v.initProcFile p).1 rfl hp
    (fun x hx => (makeStd_file_of (.inr hx)).trans (hv.fresh x (Nat.le_trans (Nat.le_add_right _ 3) hx)))
    (fun x hx => makeStd_file_of (.inl hx))
    (fun i x hi => ⟨(hslot i x hi).1, (hslot i x hi).2.1, (hslot i x hi).2.2 ▸ Nat.le_add_right _ _⟩)
    (fun i j x hi hj => Nat.add_left_cancel ((hslot i x hi).2.2.symm.trans (hslot j x hj).2.2)) hw
  have hview : (v.initProcFile p).1.view (v.initProcFile p).2 = v.stdTable := by
    rw [State.initProcFile, makeStd_view hnone, Counted.addCount.stdTable]
    rfl
  have hcounted : Counted v (v.initProcFile p).2 _ := Counted.addCount.trans makeStd_counted
  have hrefs := fun e => stdTable_refs v v.rootEntry e
  refine ⟨hself, heffect, htable.trans (congrArg some hview), hw ▸ hcounted.files.congr fun e => ?_⟩
  rw [table_eq_none hp, tableRefs, tableRefs, Option.map_some, Option.map_none, Option.getD_some, Option.getD_none]
  refine Eq.trans ?_ (congrArg (· - 0) (hrefs e).symm)
  simp only [Int.sub_zero]
  exact Int.add_comm _ _

theorem needProcFile_balanced (hv : v.Owned) (h : v.needProcFile p = some (fsp, w)) :
    w.mapProcFile p = some fsp ∧ Balanced p v w (some ((v.table p).getD v.stdTable)) := by
  rw [State.needProcFile] at h
  split at h
  · rename_i fsq hp
    obtain ⟨rfl, rfl⟩ := Prod.mk.inj (Option.some.inj h)
    have hb := Balanced.refl (p := p) hv
    rw [table_eq hp] at hb ⊢
    exact ⟨hp, hb⟩
  · rename_i hp
    simp only [Option.bind_eq_bind, Option.bind_eq_some_iff, Option.pure_def, Option.some.injEq, Prod.exists] at h
    obtain ⟨r, u, hu, h⟩ := h
    obtain ⟨rfl, rfl⟩ := Prod.mk.inj h
    obtain ⟨-, ⟨⟨fsq, hfsq⟩, -⟩ | ⟨-, hw⟩⟩ := appendProcFile_cases hu
    · exact absurd hp (Option.ne_none_iff_exists'.mpr ⟨fsq, hfsq⟩)
    · rw [table_eq_none hp, Option.getD_none]
      exact hv.initProcFile hp hw

end FengOS.Vfs
