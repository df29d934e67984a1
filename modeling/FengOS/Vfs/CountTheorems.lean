import FengOS.Vfs.Count
import FengOS.Vfs.Lemmas.Tree

/-!
# The balance of the counts
-/

namespace FengOS.Vfs

open FengOS.Lib

variable {fs : Fs} {v w u : State} {p d e b : Nat} {n : Name} {ns ms : List Name} {r : Option Nat} {δ : Nat → Int}
  {t : Option Table} {call : Call} {ret : Int} {path : Name}

/-! ## The excess -/

theorem tableRefs_eq : tableRefs (v.table p) d =
    Chain.weight ProcFile.pid fileMapSize v.fileMap (fun fsp => (fsp.view v).refs d) p := by
  rw [tableRefs, State.table, Option.map_map]
  rfl

theorem Effect.refs (hv : v.Owned) (h : Effect p v w) :
    w.refs d = v.refs d - tableRefs (v.table p) d + tableRefs (w.table p) d := by
  rw [tableRefs_eq, tableRefs_eq]
  refine Chain.total_change (by decide) hv.chains h.owned.chains p fun q hq => ?_
  have hq := congrArg (Option.map (Table.refs · d)) (h.others q hq)
  rwa [State.table, State.table, Option.map_map, Option.map_map] at hq

theorem Change.excess (hv : v.Owned) (h : Change p v w t δ) :
    w.excess d = v.excess d + δ d - (tableRefs t d - tableRefs (v.table p) d) := by
  rw [State.excess, State.excess, h.toEffect.refs hv, h.table, h.counted.dentry]
  dsimp only
  omega

theorem Change.excess_of_balanced (hv : v.Owned) (h : Balanced p v w t) : w.excess d = v.excess d := by
  rw [h.excess hv]
  omega

theorem Looked.refs (hv : v.Owned) (h : Looked v w) : w.refs d = v.refs d := by
  have he : Effect 0 v w := ⟨h.owned hv, fun _ _ => h.table⟩
  rw [he.refs hv, h.table]
  omega

theorem Table.Inside.refs {t : Table} {k : Nat} (ht : t.Inside k) (h : k ≤ d) : t.refs d = 0 := by
  have hcwd := ht.cwd
  rw [Table.refs, if_neg (by omega), Int.add_zero]
  refine Finset.sum_eq_zero fun fd _ => ?_
  cases hf : t.files fd with
  | none => rfl
  | some f =>
    have := ht.file fd f hf
    rw [refersTo_some, if_neg (by omega)]

theorem State.Inv.refs_eq_zero (hv : v.Inv) (h : v.nrDentry ≤ d) : v.refs d = 0 :=
  hv.owned.chains.total_eq_zero fun p _ hp => (hv.inside p _ (table_eq hp)).refs h

/-! ## Lookups -/

theorem child_excess (hv : v.Inv) (hb : b < v.nrDentry) (hnew : v.excess v.nrDentry = 0)
    (h : child fs v b n = some (some e, w)) : w.excess d = v.excess d + if d = e then 1 else 0 := by
  have hl := child_looked h
  rcases child_cases h with ⟨c, -, hr, rfl⟩ | ⟨-, hr, -⟩ | ⟨entry, -, -, hr, rfl⟩
  · obtain rfl := Option.some.inj hr
    rw [State.excess, State.excess, hl.refs hv.owned, addCount_dentry]
    dsimp only
    omega
  · cases hr
  · obtain rfl := Option.some.inj hr
    rw [State.excess, hl.refs hv.owned, addChild_dentry hb]
    split_ifs with h₁ h₂
    · rw [h₁, hnew, hv.refs_eq_zero (Nat.le_refl _)]
      rfl
    · rw [h₂, State.excess]
      simp only [List.length_cons]
      omega
    · rw [State.excess]
      omega

theorem lookupLoop_climb (hns : Dots ns) (h : lookupLoop fs (ns ++ ms) (some d) v = some (r, w)) :
    (∃ e, v.climb ns d = some e ∧ lookupLoop fs ms (some e) v = some (r, w)) ∨ v.climb ns d = none ∧ r = none ∧ w = v := by
  induction ns generalizing d with
  | nil => exact .inl ⟨d, rfl, h⟩
  | cons n ns ih =>
    have hns' : Dots ns := fun m hm => hns m (List.mem_cons_of_mem _ hm)
    rw [List.cons_append] at h
    rcases hns n List.mem_cons_self with hn | hn
    · rw [lookupLoop_dot hn] at h
      rw [State.climb, if_neg (by rw [hn]; decide)]
      exact ih hns' h
    · rw [lookupLoop_dotdot hn] at h
      rw [State.climb, if_pos hn]
      cases hp : (v.dentry d).parent with
      | none =>
        rw [hp] at h
        obtain ⟨hr, hw, -⟩ := lookupLoop_none h
        exact .inr ⟨rfl, hr, hw⟩
      | some e =>
        rw [hp] at h
        exact ih hns' h

theorem lookupLoop_dots (hns : Dots ns) (h : lookupLoop fs ns (some d) v = some (r, w)) : w = v := by
  rw [← List.append_nil ns] at h
  rcases lookupLoop_climb hns h with ⟨e, -, he⟩ | ⟨-, -, hw⟩
  · exact (Prod.mk.inj (Option.some.inj he)).2.symm
  · exact hw

theorem child_missing (h : v.Missing fs d n) : child fs v d n = some (none, v) := by
  rw [child, h.cached, vfsLookupInFs]
  dsimp only
  split
  · rfl
  · rename_i reply hreply
    rw [if_pos (h.unknown reply hreply)]

theorem lookupLoop_missing (hns : v.FirstMissing fs d ns) (h : lookupLoop fs ns (some d) v = some (r, w)) :
    r = none ∧ w = v := by
  obtain ⟨dots, n, rest, e, rfl, hdots, hdot, hup, hclimb, hmissing⟩ := hns
  rcases lookupLoop_climb hdots h with ⟨e', he', hl⟩ | ⟨hnone, -⟩
  · obtain rfl := Option.some.inj (hclimb.symm.trans he')
    by_cases hlen : n.length < filenameSize
    · rw [lookupLoop_name hlen hup hdot, child_missing hmissing] at hl
      obtain ⟨rfl, rfl⟩ := Prod.mk.inj (Option.some.inj hl)
      exact ⟨rfl, rfl⟩
    · rw [lookupLoop, if_pos (by omega)] at hl
      cases hl
  · rw [hclimb] at hnone
    cases hnone

theorem lookupLoop_all_dot (h : ∀ n ∈ ns, n = dot) : lookupLoop fs ns r v = some (r, v) := by
  induction ns with
  | nil => rfl
  | cons n ns ih =>
    rw [lookupLoop_dot (h n List.mem_cons_self)]
    exact ih fun m hm => h m (List.mem_cons_of_mem _ hm)

theorem lookupLoop_one (hns : OneName ns) (h : lookupLoop fs ns (some d) v = some (r, w)) :
    r = none ∧ w = v ∨ ∃ dots n b e, v.climb dots d = some b ∧ child fs v b n = some (some e, w) ∧ r = some e := by
  obtain ⟨dots, n, rest, rfl, hdots, hdot, hup, hrest⟩ := hns
  rcases lookupLoop_climb hdots h with ⟨b, hb, hl⟩ | ⟨-, hr, hw⟩
  · by_cases hlen : n.length < filenameSize
    · rw [lookupLoop_name hlen hup hdot] at hl
      split at hl
      · cases hl
      · rename_i w' hc
        obtain ⟨rfl, rfl⟩ := Prod.mk.inj (Option.some.inj hl)
        rcases child_cases hc with ⟨c, -, hr, -⟩ | ⟨-, -, hw⟩ | ⟨-, -, -, hr, -⟩
        · cases hr
        · exact .inl ⟨rfl, hw⟩
        · cases hr
      · rename_i e w' hc
        rw [lookupLoop_all_dot hrest] at hl
        obtain ⟨rfl, rfl⟩ := Prod.mk.inj (Option.some.inj hl)
        exact .inr ⟨dots, n, b, e, hb, hc, rfl⟩
    · rw [lookupLoop, if_pos (by omega)] at hl
      cases hl
  · exact .inl ⟨hr, hw⟩

theorem State.Tree.climb_lt (hv : v.Tree) (hd : d < v.nrDentry) (h : v.climb ns d = some e) : e < v.nrDentry := by
  induction ns generalizing d with
  | nil => exact Option.some.inj h ▸ hd
  | cons n ns ih =>
    rw [State.climb] at h
    split_ifs at h
    · obtain ⟨b, hb, h⟩ := Option.bind_eq_some_iff.mp h
      exact ih (hv.parent_lt hd hb) h
    · exact ih hd h

theorem Counted.climb (h : Counted v w δ) : w.climb ns d = v.climb ns d := by
  induction ns generalizing d with
  | nil => rfl
  | cons n ns ih =>
    rw [State.climb, State.climb, h.dentry, ih]
    exact congrArg (fun f => if n = dotdot then (v.dentry d).parent.bind f else v.climb ns d) (funext fun _ => ih)

theorem Counted.firstMissing (h : Counted v w δ) (hm : v.FirstMissing fs d ns) : w.FirstMissing fs d ns := by
  obtain ⟨dots, n, rest, e, hns, hdots, hdot, hup, hclimb, hcached, hunknown⟩ := hm
  refine ⟨dots, n, rest, e, hns, hdots, hdot, hup, h.climb.trans hclimb, h.cached.trans hcached, ?_⟩
  simpa only [h.dentry] using hunknown

/-! ## Requests -/

/-- The excess of a dentry is that of another state. -/
abbrev SameExcess (v w : State) : Prop := ∀ d, w.excess d = v.excess d

theorem needProcFile_excess {fsp : ProcFile} (hv : v.Owned) (h : v.needProcFile p = some (fsp, w)) : SameExcess v w :=
  fun _ => (needProcFile_balanced hv h).2.excess_of_balanced hv

theorem vfsOpen_excess {oflag : Nat} (hv : v.Inv)
    (hok : v.FirstMissing fs (v.start ((v.table p).getD v.stdTable).cwd path) (pathNames path) ∨
      Dots (pathNames path) ∧ ∃ fd < nrFiles, ((v.table p).getD v.stdTable).files fd = none)
    (h : vfsOpen fs v p path oflag = some (ret, w)) : SameExcess v w := by
  simp only [vfsOpen, Option.bind_eq_bind, Option.bind_eq_some_iff, Option.pure_def, Prod.exists] at h
  obtain ⟨fsp, u, hneed, r, s, hlook, h⟩ := h
  obtain ⟨hp, hb⟩ := needProcFile_balanced hv.owned hneed
  have hview : fsp.view u = _ := Option.some.inj ((table_eq hp).symm.trans hb.table)
  have hu := needProcFile_excess hv.owned hneed
  have hstart : u.start fsp.cwd path = v.start ((v.table p).getD v.stdTable).cwd path := by
    rw [State.start, State.start, hb.counted.rootEntry, ← hview, view_cwd]
  rw [vfsLookup_eq, hstart] at hlook
  rcases hok with hmissing | ⟨hdots, fd, hfd, hfree⟩
  · obtain ⟨rfl, rfl⟩ := lookupLoop_missing (hb.counted.firstMissing hmissing) hlook
    obtain ⟨-, rfl⟩ := Prod.mk.inj (Option.some.inj h)
    exact hu
  · obtain rfl := lookupLoop_dots hdots hlook
    cases r with
    | none =>
      obtain ⟨-, rfl⟩ := Prod.mk.inj (Option.some.inj h)
      exact hu
    | some e =>
      rcases openEntry_cases hb.owned hp (Option.some.inj h) with ⟨fd', g, -, -, -, hb'⟩ | ⟨hfull, -⟩
      · exact fun d => (hb'.excess_of_balanced hb.owned).trans (hu d)
      · exact absurd hfull (freeFd_ne_none hb.owned hp hfd (hview ▸ hfree))

theorem vfsChdir_excess (hv : v.Inv) (hnew : v.excess v.nrDentry = 0)
    (hok : v.table p = none ∨ v.FirstMissing fs (v.start ((v.table p).getD v.stdTable).cwd path) (pathNames path) ∨
      OneName (pathNames path)) (h : vfsChdir fs v p path = some (ret, w)) : SameExcess v w := by
  rw [vfsChdir] at h
  split at h
  · obtain ⟨-, rfl⟩ := Prod.mk.inj (Option.some.inj h)
    exact fun _ => rfl
  · rename_i fsp hp
    simp only [Option.bind_eq_bind, Option.bind_eq_some_iff, Option.pure_def, Prod.exists] at h
    obtain ⟨r, u, hlook, h⟩ := h
    rw [table_eq hp, Option.getD_some, view_cwd] at hok
    rw [vfsLookup_eq] at hlook
    rcases hok with hnone | hmissing | hone
    · cases hnone
    · obtain ⟨rfl, rfl⟩ := lookupLoop_missing hmissing hlook
      obtain ⟨-, rfl⟩ := Prod.mk.inj (Option.some.inj h)
      exact fun _ => rfl
    rcases lookupLoop_one hone hlook with ⟨rfl, rfl⟩ | ⟨dots, n, b, e, hclimb, hchild, rfl⟩
    · obtain ⟨-, rfl⟩ := Prod.mk.inj (Option.some.inj h)
      exact fun _ => rfl
    · obtain ⟨-, rfl⟩ := Prod.mk.inj (Option.some.inj h)
      have hb := hv.tree.climb_lt (hv.tree.start_lt (hv.inside p _ (table_eq hp)).cwd) hclimb
      have hl := child_looked hchild
      have hu := hl.owned hv.owned
      have hpu : u.mapProcFile p = some fsp := hl.mapProcFile.trans hp
      intro d
      rw [(hu.chdir e hpu).excess hu, child_excess hv hb hnew hchild, table_eq hpu, tableRefs, tableRefs, Option.map_some,
        Option.map_some, Option.getD_some, Option.getD_some, refs_cwd (c := fsp.cwd)]
      simp only [ProcFile.view, @eq_comm _ d]
      omega

theorem vfsStat_excess
    (hok : v.table p = none ∨ v.FirstMissing fs (v.start ((v.table p).getD v.stdTable).cwd path) (pathNames path) ∨
      Dots (pathNames path)) (h : vfsStat fs v p path = some (ret, w)) : SameExcess v w := by
  rcases vfsStat_cases h with rfl | ⟨fsp, e, hp, hlook⟩
  · exact fun _ => rfl
  · rw [table_eq hp, Option.getD_some, view_cwd] at hok
    rw [vfsLookup_eq] at hlook
    have hw : w = v := by
      rcases hok with hnone | hmissing | hdots
      · cases hnone
      · exact (lookupLoop_missing hmissing hlook).2
      · exact lookupLoop_dots hdots hlook
    exact fun _ => by rw [hw]

theorem vfsClose_excess {fd r : Int} (hv : v.Owned) (h : vfsClose v p fd = some (r, w)) : SameExcess v w := by
  rcases vfsClose_cases hv h with rfl | ⟨fsp, -, hb⟩
  · exact fun _ => rfl
  · exact fun _ => hb.excess_of_balanced hv

theorem vfsForkfs_excess {c : Nat} {r : Int} (hv : v.Owned) (hc : c ≠ p) (hnone : v.table c = none)
    (h : vfsForkfs v p c = some (r, w)) : SameExcess v w := by
  obtain ⟨u, t, hb, -, ⟨-, hb'⟩ | ⟨t', hsome, -⟩⟩ := vfsForkfs_cases hv h
  · exact fun _ => (hb'.excess_of_balanced hb.owned).trans (hb.excess_of_balanced hv)
  · rw [hb.others c hc, hnone] at hsome
    cases hsome

theorem onFile_excess {fd r : Int} {call : Dentry → File → Int × Int} (hv : v.Owned)
    (h : v.onFile p fd call = some (r, w)) : SameExcess v w := by
  obtain ⟨t, hb, -⟩ := onFile_balanced hv h
  exact fun _ => hb.excess_of_balanced hv

theorem step_excess (hv : v.Inv) (hnew : v.excess v.nrDentry = 0) (hok : CountsOk v call) (h : v.step call = some w) :
    SameExcess v w := by
  obtain ⟨⟨r, w⟩, hw, rfl⟩ := Option.map_eq_some_iff.mp h
  obtain ⟨src, request, fs⟩ := call
  cases request with
  | read fd size => exact onFile_excess hv.owned (show vfsRead fs v src fd size = _ from hw)
  | write fd size => exact onFile_excess hv.owned (show vfsWrite fs v src fd size = _ from hw)
  | «open» filepath oflag => exact vfsOpen_excess hv hok hw
  | close fd => exact vfsClose_excess hv.owned hw
  | lseek fd offset whence => exact onFile_excess hv.owned (show vfsLseek v src fd offset whence = _ from hw)
  | getcwd size => exact fun _ => by rw [vfsGetcwd_state hw]
  | chdir pathname => exact vfsChdir_excess hv hnew hok hw
  | stat pathname => exact vfsStat_excess hok hw
  | getdents fd count => exact onFile_excess hv.owned (show vfsGetdents fs v src fd count = _ from hw)
  | mkdir name mode => exact fun _ => by rw [vfsMkdir_state hw]
  | forkfs pid => exact vfsForkfs_excess hv.owned hok.1 hok.2 hw
  | execfs => exact fun _ => (vfsExecfs_balanced hv.owned hw).excess_of_balanced hv.owned
  | freefs =>
    rcases vfsFreefs_cases hv.owned hw with ⟨-, rfl⟩ | ⟨t, ht, -⟩
    · exact fun _ => rfl
    · exact absurd (ht.symm.trans hok) (by simp)
  | other =>
    obtain ⟨-, rfl⟩ := Prod.mk.inj (Option.some.inj hw)
    exact fun _ => rfl

theorem mounted_excess {root : FsEntry} (h : 4 ≤ d) : (mounted root).excess d = 0 := by
  have hrefs := (mounted_inv root).refs_eq_zero h
  rw [State.excess, hrefs, mounted_dentry, if_neg (by omega), if_neg (by omega), if_neg (by omega), if_neg (by omega)]
  rfl

/-- In such runs the count of a dentry changes by as much as its references. -/
theorem count_balance {root : FsEntry} {v : State} (hv : Run State.step CountsOk (· = mounted root) v) (d : Nat) :
    (v.dentry d).count - ((mounted root).dentry d).count =
      (v.refs d + (v.dentry d).children.length) -
        ((mounted root).refs d + ((mounted root).dentry d).children.length) := by
  have hrun : v.Inv ∧ ∀ d, v.excess d = (mounted root).excess d :=
    Run.invariant (Q := fun v => v.Inv ∧ ∀ d, v.excess d = (mounted root).excess d)
      (fun s he => by
        obtain rfl : s = mounted root := he
        exact ⟨mounted_inv root, fun _ => rfl⟩)
      (fun v call w ⟨hi, he⟩ hok hs => by
        have hnew : v.excess v.nrDentry = 0 := (he _).trans (mounted_excess hi.tree.four_le)
        exact ⟨hi.step hs, fun d => (step_excess hi hnew hok hs d).trans (he d)⟩) hv
  have hd := hrun.2 d
  rw [State.excess, State.excess] at hd
  omega

theorem count_balance_read : ∃ v, Run State.step CountsOk (· = mounted ⟨2, 0, 0⟩) v ∧
    (v.dentry 3).count = 2 ∧ (v.dentry 3).count - ((mounted ⟨2, 0, 0⟩).dentry 3).count =
      (v.refs 3 + (v.dentry 3).children.length) -
        ((mounted ⟨2, 0, 0⟩).refs 3 + ((mounted ⟨2, 0, 0⟩).dentry 3).children.length) := by
  have hstep : ((mounted ⟨2, 0, 0⟩).step ⟨5, .read 0 1, fun _ _ => none⟩).any (fun v => decide ((v.dentry 3).count = 2)) =
      true := by decide
  cases hs : (mounted ⟨2, 0, 0⟩).step ⟨5, .read 0 1, fun _ _ => none⟩ with
  | none => simp [hs] at hstep
  | some v =>
    have hok : CountsOk (mounted ⟨2, 0, 0⟩) ⟨5, .read 0 1, fun _ _ => none⟩ := trivial
    have hv : Run State.step CountsOk (· = mounted ⟨2, 0, 0⟩) v := .step (.init rfl) hok hs
    rw [hs] at hstep
    exact ⟨v, hv, of_decide_eq_true hstep, count_balance hv 3⟩

/-- Process 5 reads and asks for the status of `dev`: the count of `/dev` goes up, with no reference to it. -/
theorem count_stat : ∃ v, Reach v ∧ (v.dentry 1).count - ((mounted ⟨2, 0, 0⟩).dentry 1).count ≠
    (v.refs 1 + (v.dentry 1).children.length) -
      ((mounted ⟨2, 0, 0⟩).refs 1 + ((mounted ⟨2, 0, 0⟩).dentry 1).children.length) := by
  have hrun : Reach (mounted ⟨2, 0, 0⟩) := .init ⟨_, rfl⟩
  have hexec : (exec State.step (fun _ _ => True) (mounted ⟨2, 0, 0⟩)
      [⟨5, .read 0 1, fun _ _ => none⟩, ⟨5, .stat ⟨devName, by decide⟩, fun _ _ => none⟩]).any
      (fun v => decide ((v.dentry 1).count - ((mounted ⟨2, 0, 0⟩).dentry 1).count ≠
        (v.refs 1 + (v.dentry 1).children.length) -
          ((mounted ⟨2, 0, 0⟩).refs 1 + ((mounted ⟨2, 0, 0⟩).dentry 1).children.length))) = true := by decide +kernel
  exact Run.exists_of_exec hrun hexec

end FengOS.Vfs
