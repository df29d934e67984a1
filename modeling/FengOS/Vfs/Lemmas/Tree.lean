import FengOS.Vfs.Tree
import FengOS.Vfs.Lemmas.Files

/-!
# The tree through the requests
-/

namespace FengOS.Vfs

open FengOS.Lib

variable {fs : Fs} {v w u : State} {p d e c : Nat} {n path : Name} {r : Option Nat} {δ : Nat → Int} {entry : FsEntry}
  {t : Table} {call : Call} {ret : Int} {cwd : Nat}

/-! ## The tree -/

theorem home_of_parent (h : ∀ d, (w.dentry d).parent = (v.dentry d).parent) : w.home d = v.home d := by
  rw [State.home, State.home, h]

theorem State.Tree.counted (hv : v.Tree) (h : Counted v w δ) : w.Tree := by
  have hhome : ∀ d, w.home d = v.home d := fun d => home_of_parent fun d => by rw [h.dentry]
  constructor
  case root => exact h.rootEntry.trans hv.root
  case four_le => exact h.nrDentry ▸ hv.four_le
  case std => rw [h.stdin, h.stdout, h.stderr]; exact hv.std
  case parent => simpa only [h.dentry, h.nrDentry, hhome] using hv.parent
  case home_lt => simpa only [h.nrDentry, hhome] using hv.home_lt
  case mem_children => simpa only [h.dentry, h.nrDentry, hhome] using hv.mem_children
  case siblings => simpa only [h.dentry] using hv.siblings
  case name => simpa only [h.dentry, h.nrDentry] using hv.name
  case name_lt => simpa only [h.dentry, h.nrDentry] using hv.name_lt
  case root_name => simpa only [h.dentry] using hv.root_name
  case dev_name => simpa only [h.dentry] using hv.dev_name

theorem addChild_home (hv : v.Tree) (hd : d < v.nrDentry) :
    (v.addChild d n entry).home e = if e = v.nrDentry then d else v.home e := by
  have hnr := hv.four_le
  rw [State.home, State.home, addChild_dentry hd]
  split_ifs <;> first | rfl | omega | simp_all

theorem addChild_name (hd : d < v.nrDentry) (he : e ≠ v.nrDentry) :
    ((v.addChild d n entry).dentry e).name = (v.dentry e).name := by
  rw [addChild_dentry hd, if_neg he]
  split_ifs with h
  · rw [h]
  · rfl

theorem addChild_self (hd : d < v.nrDentry) : (v.addChild d n entry).dentry v.nrDentry =
    ⟨(v.dentry d).fsPid, entry.ino, 1, entry.size, entry.mode, n, some d, []⟩ := by
  rw [addChild_dentry hd, if_pos rfl]

theorem addChild_children (hd : d < v.nrDentry) : ((v.addChild d n entry).dentry e).children =
    if e = v.nrDentry then [] else if e = d then v.nrDentry :: (v.dentry d).children else (v.dentry e).children := by
  rw [addChild_dentry hd]
  split_ifs <;> rfl

theorem State.Tree.addChild (hv : v.Tree) (hd : d < v.nrDentry) (hcached : v.cached d n = none) (hn : ChildName n)
    (hlen : n.length < nameSize) : (v.addChild d n entry).Tree := by
  have hnr := hv.four_le
  have hne : ∀ x c, c ∈ (v.dentry x).children → c ≠ v.nrDentry := fun x c hc => Nat.ne_of_lt ((hv.mem_children x c).mp hc).2.1
  have hold : ∀ x, (v.dentry x).children.Pairwise fun a b =>
      ((v.addChild d n entry).dentry a).name ≠ ((v.addChild d n entry).dentry b).name := fun x =>
    (hv.siblings x).imp_of_mem fun ha hb h => by rwa [addChild_name hd (hne x _ ha), addChild_name hd (hne x _ hb)]
  constructor
  case root => exact hv.root
  case four_le => exact Nat.le_succ_of_le hnr
  case std => exact hv.std
  case parent =>
    intro x hx
    rw [addChild_nrDentry] at hx
    rw [addChild_home hv hd, addChild_dentry hd]
    rcases eq_or_ne x v.nrDentry with rfl | hxn
    · rw [if_pos rfl, if_neg (by omega), if_pos rfl]
    · rw [if_neg hxn, if_neg hxn, ← hv.parent x (by omega)]
      split_ifs with h
      · rw [h]
      · rfl
  case home_lt =>
    intro x hx hpos
    rw [addChild_nrDentry] at hx
    rw [addChild_home hv hd]
    split_ifs with h
    · omega
    · exact hv.home_lt x (by omega) hpos
  case mem_children =>
    intro x c
    have hlt := hv.home_lt c
    have hmem := hv.mem_children x c
    rw [addChild_home hv hd, addChild_children hd, addChild_nrDentry]
    by_cases hc : c = v.nrDentry
    · rw [if_pos hc]
      split_ifs with h₁ h₂
      · simp only [List.not_mem_nil, false_iff]
        omega
      · simp [hc, h₂]
        omega
      · rw [hmem]
        omega
    · rw [if_neg hc]
      split_ifs with h₁ h₂
      · simp only [List.not_mem_nil, false_iff]
        omega
      · rw [List.mem_cons, ← h₂, hmem]
        omega
      · rw [hmem]
        omega
  case siblings =>
    intro x
    rw [addChild_children hd]
    split_ifs with h₁ h₂
    · exact .nil
    · refine List.pairwise_cons.mpr ⟨fun c hc => ?_, hold d⟩
      rw [addChild_name hd (hne d c hc), addChild_self hd]
      simpa [eq_comm] using List.find?_eq_none.mp hcached c hc
    · exact hold x
  case name =>
    intro x hx hpos
    rw [addChild_nrDentry] at hx
    rcases eq_or_ne x v.nrDentry with rfl | hxn
    · rw [addChild_self hd]
      exact hn
    · rw [addChild_name hd hxn]
      exact hv.name x (by omega) hpos
  case name_lt =>
    intro x hx hpos
    rw [addChild_nrDentry] at hx
    rcases eq_or_ne x v.nrDentry with rfl | hxn
    · rw [addChild_self hd]
      exact hlen
    · rw [addChild_name hd hxn]
      exact hv.name_lt x (by omega) hpos
  case root_name =>
    rw [addChild_name hd (by omega)]
    exact hv.root_name
  case dev_name =>
    rw [addChild_name hd (by omega)]
    exact hv.dev_name

/-! ## Lookups -/

structure Looked (v w : State) : Prop where
  file : w.file = v.file
  nrFile : w.nrFile = v.nrFile
  fileMap : w.fileMap = v.fileMap
  le : v.nrDentry ≤ w.nrDentry

theorem Looked.refl : Looked v v := ⟨rfl, rfl, rfl, Nat.le_refl _⟩

theorem Looked.trans (h₁ : Looked v w) (h₂ : Looked w u) : Looked v u :=
  ⟨h₂.file.trans h₁.file, h₂.nrFile.trans h₁.nrFile, h₂.fileMap.trans h₁.fileMap, Nat.le_trans h₁.le h₂.le⟩

theorem Looked.mapProcFile (h : Looked v w) : w.mapProcFile p = v.mapProcFile p := by
  rw [State.mapProcFile, h.fileMap, State.mapProcFile]

theorem Looked.table (h : Looked v w) : w.table p = v.table p := by
  rw [State.table, State.table, h.mapProcFile]
  exact Option.map_congr fun fsp _ => view_congr fun _ _ _ => by rw [h.file]

theorem Looked.owned (h : Looked v w) (hv : v.Owned) : w.Owned := by
  constructor
  case chains => exact h.fileMap ▸ hv.chains
  case fresh => simpa only [h.file, h.nrFile] using hv.fresh
  case slot => simpa only [h.file, h.mapProcFile] using hv.slot
  case inj => simpa only [h.mapProcFile] using hv.inj

theorem Table.Inside.mono {m k : Nat} (ht : t.Inside m) (h : m ≤ k) : t.Inside k :=
  ⟨Nat.lt_of_lt_of_le ht.cwd h, fun fd f hf => Nat.lt_of_lt_of_le (ht.file fd f hf) h⟩

theorem child_looked (h : child fs v d n = some (r, w)) : Looked v w := by
  rcases child_cases h with ⟨c, -, -, rfl⟩ | ⟨-, -, rfl⟩ | ⟨entry, -, -, -, rfl⟩
  · exact ⟨rfl, rfl, rfl, Nat.le_refl _⟩
  · exact .refl
  · exact ⟨rfl, rfl, rfl, Nat.le_succ _⟩

theorem State.Inv.child (hv : v.Inv) (hd : d < v.nrDentry) (hn : ChildName n) (h : child fs v d n = some (r, w)) :
    w.Inv ∧ Looked v w ∧ ∀ e, r = some e → e < w.nrDentry := by
  have hl := child_looked h
  have hin : ∀ p t, w.table p = some t → t.Inside w.nrDentry := fun p t ht =>
    (hv.inside p t (hl.table.symm.trans ht)).mono hl.le
  rcases child_cases h with ⟨c, hc, rfl, rfl⟩ | ⟨-, rfl, rfl⟩ | ⟨entry, hcached, hlen, rfl, rfl⟩
  · refine ⟨⟨hv.tree.counted Counted.addCount, hl.owned hv.owned, hin⟩, hl, fun e he => ?_⟩
    obtain rfl := Option.some.inj he
    exact ((hv.tree.mem_children d c).mp (cached_mem hc).1).2.1
  · exact ⟨hv, hl, by simp⟩
  · refine ⟨⟨hv.tree.addChild hd hcached hn hlen, hl.owned hv.owned, hin⟩, hl, fun e he => ?_⟩
    obtain rfl := Option.some.inj he
    exact Nat.lt_succ_self _

theorem State.Tree.parent_lt (hv : v.Tree) (hd : d < v.nrDentry) (he : (v.dentry d).parent = some e) : e < v.nrDentry := by
  rw [hv.parent d hd] at he
  split_ifs at he
  obtain rfl := Option.some.inj he
  rcases Nat.eq_zero_or_pos d with rfl | hpos
  · exact hd
  · exact Nat.lt_trans (hv.home_lt d hd hpos) hd

theorem childName_of_mem (hpath : 0 ∉ path) (hn : n ∈ pathNames path) (hup : n ≠ dotdot) (hdot : n ≠ dot) : ChildName n := by
  obtain ⟨hslash, hsub⟩ := mem_of_mem_components (pathNames_components hn)
  exact ⟨hslash, fun h => hpath (hsub 0 h), hdot, hup⟩

theorem State.Tree.start_lt (hv : v.Tree) (hcwd : cwd < v.nrDentry) : v.start cwd path < v.nrDentry := by
  have := hv.four_le
  rw [State.start]
  split_ifs
  · rw [hv.root]
    omega
  · exact hcwd

theorem State.Inv.lookup (hv : v.Inv) (hcwd : cwd < v.nrDentry) (hpath : 0 ∉ path)
    (h : vfsLookup fs v cwd path = some (r, w)) : w.Inv ∧ Looked v w ∧ ∀ e, r = some e → e < w.nrDentry := by
  rw [vfsLookup_eq] at h
  obtain ⟨⟨e, hw, he, hl⟩, hr⟩ := lookupLoop_keeps (P := fun u d => u.Inv ∧ d < u.nrDentry ∧ Looked v u)
    (fun u d e ⟨hu, hd, hl⟩ he => ⟨hu, hu.tree.parent_lt hd he, hl⟩)
    (fun u d n e s ⟨hu, hd, hl⟩ hn hup hdot hc => by
      obtain ⟨hs, hl', he⟩ := hu.child hd (childName_of_mem hpath hn hup hdot) hc
      exact ⟨hs, he e rfl, hl.trans hl'⟩)
    ⟨hv, hv.tree.start_lt hcwd, .refl⟩ h
  exact ⟨hw, hl, fun e he => (hr e he).2.1⟩

/-! ## Requests -/

theorem State.Tree.stdTable (hv : v.Tree) : v.stdTable.Inside v.nrDentry := by
  have hnr := hv.four_le
  obtain ⟨h₀, h₁, h₂⟩ := hv.std
  refine ⟨?_, fun fd f hf => ?_⟩
  · simp only [State.stdTable, hv.root]
    omega
  · simp only [State.stdTable] at hf
    split_ifs at hf <;> (obtain rfl := Option.some.inj hf; dsimp only; omega)

theorem State.Inv.needed (hv : v.Inv) : ((v.table p).getD v.stdTable).Inside v.nrDentry := by
  cases h : v.table p with
  | none => exact hv.tree.stdTable
  | some t => exact hv.inside p t h

theorem State.Inv.change {t : Option Table} (hv : v.Inv) (h : Change p v w t δ)
    (ht : ∀ t', t = some t' → t'.Inside v.nrDentry) : w.Inv := by
  refine ⟨hv.tree.counted h.counted, h.owned, fun q t' hq => ?_⟩
  rw [h.counted.nrDentry]
  rcases eq_or_ne q p with rfl | hne
  · exact ht t' (h.table.symm.trans hq)
  · exact hv.inside q t' ((h.others q hne).symm.trans hq)

theorem State.Inv.balanced (hv : v.Inv) (h : Balanced p v w (some t)) (ht : t.Inside v.nrDentry) : w.Inv :=
  hv.change h fun _ he => Option.some.inj he ▸ ht

structure Kept (p : Nat) (v w : State) : Prop where
  inv : w.Inv
  others : ∀ q ≠ p, w.table q = v.table q

theorem Kept.refl (hv : v.Inv) : Kept p v v := ⟨hv, fun _ _ => rfl⟩

theorem Kept.trans (h₁ : Kept p v w) (h₂ : Kept p w u) : Kept p v u :=
  ⟨h₂.inv, fun q hq => (h₂.others q hq).trans (h₁.others q hq)⟩

theorem State.Inv.kept (hv : v.Inv) (h : Balanced p v w (some t)) (ht : t.Inside v.nrDentry) : Kept p v w :=
  ⟨hv.balanced h ht, h.others⟩

theorem Table.Inside.update {fd k : Nat} {o : Option File} (ht : t.Inside k) (ho : ∀ f, o = some f → f.dentry < k) :
    Table.Inside ⟨t.cwd, Function.update t.files fd o⟩ k := by
  refine ⟨ht.cwd, fun i f hf => ?_⟩
  simp only [Function.update_apply] at hf
  split_ifs at hf
  · exact ho f hf
  · exact ht.file i f hf

theorem State.Inv.onFile {fd r : Int} {call : Dentry → File → Int × Int} (hv : v.Inv)
    (h : v.onFile p fd call = some (r, w)) : Kept p v w := by
  obtain ⟨t, hb, hcwd, hfiles⟩ := onFile_balanced hv.owned h
  have hneed := hv.needed (p := p)
  refine hv.kept hb ⟨hcwd ▸ hneed.cwd, fun fd f hf => ?_⟩
  have hd := hfiles fd
  rw [hf, Option.map_some] at hd
  obtain ⟨g, hg, hgd⟩ := Option.map_eq_some_iff.mp hd.symm
  exact hgd ▸ hneed.file fd g hg

theorem State.Inv.need {fsp : ProcFile} (hv : v.Inv) (h : v.needProcFile p = some (fsp, w)) :
    Kept p v w ∧ w.mapProcFile p = some fsp ∧ fsp.cwd < w.nrDentry := by
  obtain ⟨hp, hb⟩ := needProcFile_balanced hv.owned h
  have hk := hv.kept hb hv.needed
  exact ⟨hk, hp, (hk.inv.inside p _ (table_eq hp)).cwd⟩

theorem State.Inv.looked (hv : v.Inv) (hcwd : cwd < v.nrDentry) (hpath : 0 ∉ path)
    (h : vfsLookup fs v cwd path = some (r, w)) : Kept p v w :=
  ⟨(hv.lookup hcwd hpath h).1, fun _ _ => (hv.lookup hcwd hpath h).2.1.table⟩

theorem vfsOpen_cases {oflag : Nat} (hv : v.Inv) (hpath : 0 ∉ path)
    (h : vfsOpen fs v p path oflag = some (ret, w)) : Kept p v w ∧
      ((∃ fd g e u, fd < nrFiles ∧ ((v.table p).getD v.stdTable).files fd = none ∧ ret = fd ∧
        vfsLookup fs v ((v.table p).getD v.stdTable).cwd path = some (some e, u) ∧
        w.table p = some ⟨((v.table p).getD v.stdTable).cwd,
          Function.update ((v.table p).getD v.stdTable).files fd (some g)⟩) ∨
      ret = -1 ∧ w.table p = some ((v.table p).getD v.stdTable) ∧
        ((∃ u, vfsLookup fs v ((v.table p).getD v.stdTable).cwd path = some (none, u)) ∨
          ∀ fd < nrFiles, ((v.table p).getD v.stdTable).files fd ≠ none)) := by
  simp only [vfsOpen, Option.bind_eq_bind, Option.bind_eq_some_iff, Option.pure_def, Prod.exists] at h
  obtain ⟨fsp, s, hneed, r, u, hlook, h⟩ := h
  obtain ⟨hk, hp, hcwd⟩ := hv.need hneed
  have hk' := hk.trans (hk.inv.looked hcwd hpath hlook)
  obtain ⟨hu, hl, he⟩ := hk.inv.lookup hcwd hpath hlook
  -- the table before the lookup, and the lookup in the state before the table
  obtain ⟨-, hb⟩ := needProcFile_balanced hv.owned hneed
  generalize (v.table p).getD v.stdTable = t at hb ⊢
  have hview : fsp.view s = t := Option.some.inj ((table_eq hp).symm.trans hb.table)
  obtain ⟨v', hv'⟩ := vfsLookup_counted hb.counted hlook
  rw [show fsp.cwd = t.cwd by rw [← hview, view_cwd]] at hv'
  cases r with
  | none =>
    obtain ⟨rfl, rfl⟩ := Prod.mk.inj (Option.some.inj h)
    exact ⟨hk', .inr ⟨rfl, hl.table.trans hb.table, .inl ⟨v', hv'⟩⟩⟩
  | some e =>
    have hpu : u.mapProcFile p = some fsp := hl.mapProcFile.trans hp
    have htu : u.table p = some t := hl.table.trans hb.table
    have hviewu : fsp.view u = t := Option.some.inj ((table_eq hpu).symm.trans htu)
    have hin := hu.inside p _ (table_eq hpu)
    rcases openEntry_cases hu.owned hpu (Option.some.inj h) with ⟨fd, g, hfree, hret, hg, hb'⟩ | ⟨hfull, hret, hc⟩
    · obtain ⟨hfd, hnone⟩ := freeFd_spec hfree
      refine ⟨hk'.trans (hu.kept hb' (hin.update fun f hf => Option.some.inj hf ▸ hg ▸ he e rfl)),
        .inl ⟨fd, g, e, v', hfd, ?_, hret, hv', hviewu ▸ hb'.table⟩⟩
      rw [← hviewu, view_files, hnone, Option.bind_none]
    · refine ⟨hk'.trans ⟨hu.change hc fun t ht => hu.inside p t ht, hc.others⟩,
        .inr ⟨hret, hc.table.trans htu, .inr fun fd hfd hnone => ?_⟩⟩
      exact freeFd_ne_none hu.owned hpu hfd (hviewu ▸ hnone) hfull

theorem State.Inv.open {oflag : Nat} (hv : v.Inv) (hpath : 0 ∉ path)
    (h : vfsOpen fs v p path oflag = some (ret, w)) : Kept p v w := (vfsOpen_cases hv hpath h).1

theorem State.Inv.close {fd r : Int} (hv : v.Inv) (h : vfsClose v p fd = some (r, w)) : Kept p v w := by
  rcases vfsClose_cases hv.owned h with rfl | ⟨fsp, hp, hb⟩
  · exact .refl hv
  · exact hv.kept hb ((hv.inside p _ (table_eq hp)).update (by simp))

theorem State.Inv.chdir (hv : v.Inv) (hpath : 0 ∉ path) (h : vfsChdir fs v p path = some (ret, w)) : Kept p v w := by
  rw [vfsChdir] at h
  split at h
  · obtain ⟨-, rfl⟩ := Prod.mk.inj (Option.some.inj h)
    exact .refl hv
  · rename_i fsp hp
    simp only [Option.bind_eq_bind, Option.bind_eq_some_iff, Option.pure_def, Prod.exists] at h
    obtain ⟨r, u, hlook, h⟩ := h
    have hcwd := (hv.inside p _ (table_eq hp)).cwd
    have hk := hv.looked (p := p) hcwd hpath hlook
    obtain ⟨hu, hl, he⟩ := hv.lookup hcwd hpath hlook
    cases r with
    | none =>
      obtain ⟨-, rfl⟩ := Prod.mk.inj (Option.some.inj h)
      exact hk
    | some e =>
      obtain ⟨-, rfl⟩ := Prod.mk.inj (Option.some.inj h)
      have hpu : u.mapProcFile p = some fsp := hl.mapProcFile.trans hp
      have hc := hu.owned.chdir e hpu
      exact hk.trans ⟨hu.change hc fun t ht => Option.some.inj ht ▸ ⟨he e rfl, (hu.inside p _ (table_eq hpu)).file⟩,
        hc.others⟩

theorem State.Inv.stat (hv : v.Inv) (hpath : 0 ∉ path) (h : vfsStat fs v p path = some (ret, w)) : Kept p v w := by
  rcases vfsStat_cases h with rfl | ⟨fsp, e, hp, hlook⟩
  · exact .refl hv
  · exact hv.looked (hv.inside p _ (table_eq hp)).cwd hpath hlook

theorem vfsGetcwd_state {size r : Int} (h : vfsGetcwd v p size = some (r, w)) : w = v := by
  rw [vfsGetcwd] at h
  split at h
  · exact (Prod.mk.inj (Option.some.inj h)).2.symm
  · simp only [Option.bind_eq_bind, Option.bind_eq_some_iff, Option.pure_def, Option.some.injEq, Prod.mk.injEq] at h
    obtain ⟨-, -, -, rfl⟩ := h
    rfl

theorem vfsMkdir_state {mode : Nat} {r : Int} (h : vfsMkdir fs v p n mode = some (r, w)) : w = v := by
  rw [vfsMkdir] at h
  split at h
  · exact (Prod.mk.inj (Option.some.inj h)).2.symm
  · dsimp only at h
    split at h <;> exact (Prod.mk.inj (Option.some.inj h)).2.symm

theorem State.Inv.freefs {r : Int} (hv : v.Inv) (h : vfsFreefs v p = some (r, w)) : Kept p v w := by
  rcases vfsFreefs_cases hv.owned h with ⟨-, rfl⟩ | ⟨t, -, hc⟩
  · exact .refl hv
  · exact ⟨hv.change hc (by simp), hc.others⟩

theorem State.Inv.execfs {r : Int} (hv : v.Inv) (h : vfsExecfs v p = some (r, w)) : Kept p v w :=
  hv.kept (vfsExecfs_balanced hv.owned h) ⟨hv.needed.cwd, hv.tree.stdTable.file⟩

theorem State.Inv.forkfs {r : Int} (hv : v.Inv) (h : vfsForkfs v p c = some (r, w)) :
    ∃ u, Kept p v u ∧ Kept c u w ∧ u.table p = some ((v.table p).getD v.stdTable) ∧
      w.table c = some ((u.table c).getD ((v.table p).getD v.stdTable)) := by
  obtain ⟨u, t, hb, ht, hcase⟩ := vfsForkfs_cases hv.owned h
  have hin : t.Inside v.nrDentry := ht ▸ hv.needed
  have hk := hv.kept hb hin
  refine ⟨u, hk, ?_⟩
  rw [← ht]
  rcases hcase with ⟨hnone, hb'⟩ | ⟨t', hsome, hc⟩
  · rw [hnone, Option.getD_none]
    exact ⟨hk.inv.kept hb' (hb.counted.nrDentry ▸ hin), hb.table, hb'.table⟩
  · rw [hsome, Option.getD_some]
    exact ⟨⟨hk.inv.change hc fun t'' ht'' => hk.inv.inside c t'' (hsome.trans ht''), hc.others⟩, hb.table, hc.table⟩

theorem State.Inv.process {r : Int} (hv : v.Inv) (hfork : ∀ pid, call.request ≠ .forkfs pid)
    (h : v.process call = some (r, w)) : Kept call.src v w := by
  rw [State.process] at h
  split at h
  · exact hv.onFile h
  · exact hv.onFile h
  · rename_i filepath _ _
    exact hv.open filepath.2 h
  · exact hv.close h
  · exact hv.onFile h
  · rw [vfsGetcwd_state h]
    exact .refl hv
  · rename_i pathname _
    exact hv.chdir pathname.2 h
  · rename_i pathname _
    exact hv.stat pathname.2 h
  · exact hv.onFile h
  · rw [vfsMkdir_state h]
    exact .refl hv
  · rename_i pid hreq
    exact absurd hreq (hfork pid)
  · exact hv.execfs h
  · exact hv.freefs h
  · obtain ⟨-, rfl⟩ := Prod.mk.inj (Option.some.inj h)
    exact .refl hv

theorem State.Inv.step (hv : v.Inv) (h : v.step call = some w) : w.Inv := by
  obtain ⟨⟨r, w⟩, hw, rfl⟩ := Option.map_eq_some_iff.mp h
  by_cases hfork : ∃ pid, call.request = .forkfs pid
  · obtain ⟨pid, hpid⟩ := hfork
    simp only [State.process, hpid] at hw
    obtain ⟨u, -, hk, -⟩ := hv.forkfs hw
    exact hk.inv
  · exact (hv.process (fun pid hpid => hfork ⟨pid, hpid⟩) hw).inv

/-! ## The first state -/

theorem mounted_dentry (root : FsEntry) (d : Nat) : (mounted root).dentry d =
    if d = 0 then ⟨ipcExt2, root.ino, 2, root.size, root.mode, [slash], some 0, [1]⟩
    else if d = 1 then ⟨ipcKernel, 0, 2, 0, 0x1b6, devName, none, [2, 3]⟩
    else if d = 2 then ⟨ipcVideo, 0, 1, 0, 0x92, videoName, none, []⟩
    else if d = 3 then ⟨ipcKb, 1, 1, 0, 0x124, keyboardName, none, []⟩ else .zero := by
  match d with
  | 0 => rfl
  | 1 => rfl
  | 2 => rfl
  | 3 => rfl
  | d + 4 => rfl

theorem mounted_home (root : FsEntry) (d : Nat) : (mounted root).home d = if d ≤ 1 then 0 else if d ≤ 3 then 1 else 0 := by
  rw [State.home, mounted_dentry]
  split_ifs <;> rfl

theorem devNames : ChildName devName ∧ ChildName videoName ∧ ChildName keyboardName :=
  ⟨⟨by decide, by decide, by decide, by decide⟩, ⟨by decide, by decide, by decide, by decide⟩,
    ⟨by decide, by decide, by decide, by decide⟩⟩

theorem mounted_inv (root : FsEntry) : (mounted root).Inv := by
  have hd := mounted_dentry root
  have hhome := mounted_home root
  have hnr : (mounted root).nrDentry = 4 := rfl
  have hlt : ∀ d < 4, d = 0 ∨ d = 1 ∨ d = 2 ∨ d = 3 := fun d _ => by omega
  have hmap : ∀ p, (mounted root).mapProcFile p = none := fun _ => rfl
  refine ⟨?_, ⟨Chain.Ok.nil, fun _ _ => rfl, ?_, ?_⟩, ?_⟩
  · constructor
    case root => rfl
    case four_le => exact Nat.le_refl 4
    case std => exact ⟨rfl, rfl, rfl⟩
    case parent =>
      intro d h
      rcases hlt d h with rfl | rfl | rfl | rfl <;> rfl
    case home_lt =>
      intro d h hpos
      rw [hhome]
      split_ifs <;> omega
    case mem_children =>
      intro e c
      rw [hd, hnr, hhome]
      split_ifs <;> simp only [List.mem_cons, List.not_mem_nil, or_false, false_iff, Dentry.zero] <;> omega
    case siblings =>
      intro e
      rw [hd]
      split_ifs
      · exact List.pairwise_singleton ..
      · refine List.pairwise_cons.mpr ⟨fun c hc => ?_, List.pairwise_singleton ..⟩
        rw [List.mem_singleton.mp hc]
        exact (by decide : videoName ≠ keyboardName)
      all_goals exact .nil
    case name =>
      intro d h hpos
      rcases hlt d h with rfl | rfl | rfl | rfl
      · omega
      · exact devNames.1
      · exact devNames.2.1
      · exact devNames.2.2
    case name_lt =>
      intro d h hpos
      rw [hd]
      split_ifs <;> first | decide | omega
    case root_name => rfl
    case dev_name => rfl
  · intro p fsp fd x h
    rw [hmap] at h
    cases h
  · intro p q fsp fsq i j x h
    rw [hmap] at h
    cases h
  · intro p t h
    rw [table_eq_none (hmap p)] at h
    cases h

theorem Reach.inv (h : Reach v) : v.Inv :=
  Run.invariant (fun _ ⟨root, he⟩ => he ▸ mounted_inv root) (fun _ _ _ hv _ hs => hv.step hs) h

end FengOS.Vfs
