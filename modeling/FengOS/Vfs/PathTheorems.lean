import FengOS.Vfs.Lemmas.Tree

/-!
# Lookups
-/

namespace FengOS.Vfs

open FengOS.Lib

variable {fs : Fs} {v w : State} {d e : Nat} {n p q : Name} {ns : List Name}

/-! ## Composition -/

/-- A dentry in a tree where every dentry has a parent. -/
structure State.Parented (v : State) (d : Nat) : Prop where
  lt : d < v.nrDentry
  parent : ∀ e < v.nrDentry, ∃ p < v.nrDentry, (v.dentry e).parent = some p
  child_lt : ∀ e < v.nrDentry, ∀ c ∈ (v.dentry e).children, c < v.nrDentry

theorem State.WellFormed.parented (hv : v.WellFormed) (hd : d < v.nrDentry) : v.Parented d := by
  refine ⟨hd, fun e he => ?_, hv.child_lt⟩
  obtain ⟨k, hk⟩ := hv.reaches e he
  cases k with
  | zero =>
    obtain rfl := Option.some.inj hk
    exact ⟨_, he, hv.root_parent⟩
  | succ k =>
    obtain ⟨p, hp, -⟩ := Option.bind_eq_some_iff.mp hk
    exact ⟨p, hv.parent_lt e he p hp, hp⟩

theorem State.Parented.not_null (h : v.Parented d) : (v.dentry d).parent ≠ none := by
  obtain ⟨p, -, hp⟩ := h.parent d h.lt
  simp [hp]

theorem State.Parented.up (h : v.Parented d) (he : (v.dentry d).parent = some e) : v.Parented e := by
  obtain ⟨p, hlt, hp⟩ := h.parent d h.lt
  obtain rfl := Option.some.inj (hp.symm.trans he)
  exact ⟨hlt, h.parent, h.child_lt⟩

theorem State.Parented.child (h : v.Parented d) (hc : child fs v d n = some (some e, w)) : w.Parented e := by
  rcases child_cases hc with ⟨c, hcached, hr, rfl⟩ | ⟨-, hr, -⟩ | ⟨entry, -, -, hr, rfl⟩
  · obtain rfl := Option.some.inj hr
    constructor
    case lt => exact h.child_lt d h.lt e (cached_mem hcached).1
    case parent => simpa using h.parent
    case child_lt => simpa using h.child_lt
  · cases hr
  · obtain rfl := Option.some.inj hr
    constructor
    case lt => simp
    case parent =>
      intro x hx
      rw [addChild_nrDentry] at hx ⊢
      rw [addChild_dentry h.lt]
      split_ifs with h₁ h₂
      · exact ⟨d, Nat.lt_succ_of_lt h.lt, rfl⟩
      · obtain ⟨p, hlt, hp⟩ := h.parent d h.lt
        exact ⟨p, Nat.lt_succ_of_lt hlt, hp⟩
      · obtain ⟨p, hlt, hp⟩ := h.parent x (by omega)
        exact ⟨p, Nat.lt_succ_of_lt hlt, hp⟩
    case child_lt =>
      intro x hx c hc
      rw [addChild_nrDentry] at hx ⊢
      rw [addChild_dentry h.lt] at hc
      split_ifs at hc with h₁ h₂
      · cases hc
      · rcases List.mem_cons.mp hc with rfl | hc
        · exact Nat.lt_succ_self _
        · exact Nat.lt_succ_of_lt (h.child_lt d h.lt c hc)
      · exact Nat.lt_succ_of_lt (h.child_lt x (by omega) c hc)

theorem head?_append_slash (hp : p ≠ []) : (p ++ slash :: q).head? = p.head? := by
  cases p with
  | nil => exact absurd rfl hp
  | cons c p => rfl

theorem pathNames_append (hp : p ≠ []) (hlast : p.getLast? ≠ some slash) :
    pathNames (p ++ slash :: q) = pathNames p ++ names q := by
  rw [pathNames, pathNames, head?_append_slash hp]
  split
  · rename_i h
    obtain ⟨t, rfl⟩ : ∃ t, p = slash :: t := by cases p <;> simp_all
    have ht : t ≠ [] := by
      rintro rfl
      simp at hlast
    have hlast' : t.getLast? ≠ some slash := by simpa [List.getLast?_cons, List.getLast?_eq_some_getLast ht] using hlast
    rw [List.cons_append, List.tail_cons, List.tail_cons, names_append ht hlast']
  · exact names_append hp hlast

/-- Looking up `p/q` is looking up `p` and then `q` from there, with the same tree and counts. -/
theorem vfsLookup_compose (fs : Fs) (v : State) (hv : v.WellFormed) (cwd : Nat) (hcwd : cwd < v.nrDentry) (p q : Name)
    (hp : p ≠ []) (hlast : p.getLast? ≠ some slash) (hq : q.head? ≠ some slash) (hshort : Short (p ++ slash :: q)) :
    ∃ r w, vfsLookup fs v cwd p = some (r, w) ∧
      match r with
      | none => vfsLookup fs v cwd (p ++ slash :: q) = some (none, w)
      | some d => ∃ r', vfsLookup fs w d q = some r' ∧ vfsLookup fs v cwd (p ++ slash :: q) = some r' := by
  have hstart : v.Parented (v.start cwd p) := by
    refine hv.parented ?_
    rw [State.start]
    split
    · exact hv.root_lt
    · exact hcwd
  have hnull := fun (v : State) d (h : v.Parented d) => h.not_null
  have hup := fun (v : State) d e (h : v.Parented d) => h.up (e := e)
  have hchild := fun (v : State) d n e w (h : v.Parented d) (hc : child fs v d n = some (some e, w)) => h.child hc
  have hfit : ∀ n ∈ pathNames p ++ names q, n.length < nameSize := by
    intro n hn
    rw [← pathNames_append hp hlast] at hn
    exact hshort n (pathNames_components hn)
  obtain ⟨r, w, hr⟩ := lookupLoop_isSome hnull hup hchild (fun n hn => hfit n (List.mem_append_left _ hn)) hstart
  have hboth : vfsLookup fs v cwd (p ++ slash :: q) =
      lookupLoop fs (pathNames p ++ names q) (some (v.start cwd p)) v := by
    rw [vfsLookup_eq, pathNames_append hp hlast, State.start, head?_append_slash hp, State.start]
  rw [lookupLoop_append hnull hup hchild hstart, hr, Option.bind_some] at hboth
  refine ⟨r, w, by rw [vfsLookup_eq, hr], ?_⟩
  cases r with
  | none => exact hboth
  | some d =>
    have hd := (lookupLoop_keeps hup (fun v d n e w h _ _ _ => hchild v d n e w h) hstart hr).2 d rfl
    obtain ⟨r', w', hr'⟩ := lookupLoop_isSome hnull hup hchild (fun n hn => hfit n (List.mem_append_right _ hn)) hd
    have hsecond : vfsLookup fs w d q = some (r', w') := by rw [vfsLookup, if_neg hq, hr']
    exact ⟨_, hsecond, hboth.trans hr'⟩

theorem mountRoot_wellFormed (root : FsEntry) : (mountRoot root).WellFormed := by
  have hd : (mountRoot root).dentry 0 = ⟨ipcExt2, root.ino, 1, root.size, root.mode, [slash], some 0, []⟩ := by
    simp only [mountRoot, Function.update_self]
  have h0 : ∀ d < (mountRoot root).nrDentry, d = 0 := fun d hlt => Nat.lt_one_iff.mp hlt
  constructor
  case root_lt => exact Nat.one_pos
  case root_parent => exact congrArg Dentry.parent hd
  case parent_lt =>
    intro d hlt e he
    rw [h0 d hlt, hd] at he
    exact Option.some.inj he ▸ Nat.one_pos
  case child_lt =>
    intro e he d hmem
    rw [h0 e he, hd] at hmem
    cases hmem
  case linked =>
    intro e he d hmem
    rw [h0 e he, hd] at hmem
    cases hmem
  case names =>
    intro e he
    rw [h0 e he, hd]
    exact .nil
  case reaches => exact fun d hlt => ⟨0, congrArg some (h0 d hlt)⟩

def knowsAll : Fs := fun _ _ => some ⟨0, ⟨0, 0, 0⟩⟩

theorem vfsLookup_compose_root : (mountRoot ⟨2, 0, 0⟩).WellFormed ∧
    ∃ r w, vfsLookup knowsAll (mountRoot ⟨2, 0, 0⟩) 0 [0x61] = some (r, w) ∧
      match r with
      | none => vfsLookup knowsAll (mountRoot ⟨2, 0, 0⟩) 0 ([0x61] ++ slash :: [0x62]) = some (none, w)
      | some d => ∃ r', vfsLookup knowsAll w d [0x62] = some r' ∧
          vfsLookup knowsAll (mountRoot ⟨2, 0, 0⟩) 0 ([0x61] ++ slash :: [0x62]) = some r' :=
  ⟨mountRoot_wellFormed _, vfsLookup_compose knowsAll _ (mountRoot_wellFormed _) 0 Nat.one_pos [0x61] [0x62] (by decide)
    (by decide) (by decide) (by unfold Short; decide)⟩

/-! ## The grammar of paths -/

theorem State.Tree.above_eq (hv : v.Tree) (hd : d < v.nrDentry) : v.above d = v.home d := by
  rw [State.above, hv.root]
  split_ifs with h0
  · rw [h0]
    rfl
  · have hpos := Nat.pos_of_ne_zero h0
    have hlt := hv.home_lt d hd hpos
    have hfind : (List.range v.nrDentry).find? (fun e => d ∈ (v.dentry e).children) = some (v.home d) := by
      have hiff : ∀ e, d ∈ (v.dentry e).children ↔ v.home d = e := fun e => by
        rw [hv.mem_children e d]
        exact ⟨fun h => h.2.2, fun h => ⟨hpos, hd, h⟩⟩
      rw [List.find?_range_eq_some]
      simp only [hiff, decide_true, List.mem_range, Bool.not_eq_true', decide_eq_false_iff_not, true_and]
      exact ⟨by omega, fun j hj => by omega⟩
    rw [hfind, Option.getD_some]

theorem resolve_isSome (fs : Fs) (hns : ∀ n ∈ ns, n.length < nameSize) (d : Nat) (v : State) :
    ∃ r w, resolve fs ns d v = some (r, w) := by
  induction ns generalizing d v with
  | nil => exact ⟨_, _, rfl⟩
  | cons n ns ih =>
    have hns' := fun m hm => hns m (List.mem_cons_of_mem _ hm)
    rw [resolve]
    split_ifs
    · exact ih hns' _ _
    · obtain ⟨r, w, hc⟩ := child_isSome fs v d (hns n List.mem_cons_self)
      rw [hc]
      cases r with
      | none => exact ⟨_, _, rfl⟩
      | some e => exact ih hns' e w

theorem lookupLoop_none_ne (hns : ∀ n ∈ ns, n.length < nameSize) :
    (lookupLoop fs ns none v).map Prod.fst ≠ (resolve fs (ns.filter Matters) d v).map Prod.fst := by
  intro h
  cases hl : lookupLoop fs ns none v with
  | none =>
    have hfit : ∀ n ∈ ns.filter Matters, n.length < nameSize := fun n hn => hns n (List.mem_of_mem_filter hn)
    obtain ⟨r, w, hr⟩ := resolve_isSome fs hfit d v
    simp [hl, hr] at h
  | some r =>
    obtain ⟨r, w⟩ := r
    obtain ⟨rfl, rfl, hdots⟩ := lookupLoop_none hl
    have hfilter : ns.filter Matters = [] := by
      rw [List.filter_eq_nil_iff]
      intro n hn
      simp [hdots n hn, Matters]
    simp [hl, hfilter, resolve] at h

theorem lookupLoop_resolve (fs : Fs) (hv : v.Inv) (hd : d < v.nrDentry) (hns : ∀ n ∈ ns, n.length < nameSize ∧ n ≠ [])
    (hchars : ∀ n ∈ ns, slash ∉ n ∧ 0 ∉ n) :
    (UpOk fs (ns.filter Matters) d v → lookupLoop fs ns (some d) v = resolve fs (ns.filter Matters) d v) ∧
    ((lookupLoop fs ns (some d) v).map Prod.fst = (resolve fs (ns.filter Matters) d v).map Prod.fst →
      UpOk fs (ns.filter Matters) d v) := by
  induction ns generalizing d v with
  | nil => exact ⟨fun _ => rfl, fun _ => trivial⟩
  | cons n ns ih =>
    have hns' := fun m hm => hns m (List.mem_cons_of_mem _ hm)
    have hchars' := fun m hm => hchars m (List.mem_cons_of_mem _ hm)
    obtain ⟨hlen, hne⟩ := hns n List.mem_cons_self
    obtain ⟨hslash, hnul⟩ := hchars n List.mem_cons_self
    by_cases hdot : n = dot
    · rw [List.filter_cons_of_neg (by simp [hdot, Matters]), lookupLoop_dot hdot]
      exact ih hv hd hns' hchars'
    rw [List.filter_cons_of_pos (by simp [hdot, hne, Matters])]
    by_cases hup : n = dotdot
    · rw [lookupLoop_dotdot hup, resolve, if_pos hup, UpOk, if_pos hup]
      cases hp : (v.dentry d).parent with
      | none =>
        refine ⟨fun h => absurd rfl h.1, fun h => ?_⟩
        exact absurd h (lookupLoop_none_ne fun m hm => (hns' m hm).1)
      | some e =>
        have he : v.above d = e := by
          rw [hv.tree.above_eq hd]
          rw [hv.tree.parent d hd] at hp
          split_ifs at hp
          exact Option.some.inj hp
        obtain ⟨h₁, h₂⟩ := ih hv (hv.tree.parent_lt hd hp) hns' hchars'
        rw [he]
        exact ⟨fun h => h₁ h.2, fun h => ⟨by simp, h₂ h⟩⟩
    · rw [lookupLoop_name (Nat.lt_trans hlen (by decide)) hup hdot, resolve, if_neg hup, UpOk, if_neg hup]
      obtain ⟨r, w, hc⟩ := child_isSome fs v d hlen
      rw [hc]
      cases r with
      | none => exact ⟨fun _ => rfl, fun _ => trivial⟩
      | some e =>
        obtain ⟨hw, -, he⟩ := hv.child hd ⟨hslash, hnul, hdot, hup⟩ hc
        exact ih hw (he e rfl) hns' hchars'

/-! ## Empty names -/

def knowsNames : Fs := fun _ msg =>
  match msg with
  | .lookup [] _ => none
  | _ => some ⟨0, ⟨0, 0, 0⟩⟩

theorem resolve_found (hns : ∀ n ∈ ns, n.length < nameSize ∧ n ≠ []) (d : Nat) (v : State) :
    ∃ e w, resolve knowsNames ns d v = some (some e, w) := by
  induction ns generalizing d v with
  | nil => exact ⟨_, _, rfl⟩
  | cons n ns ih =>
    have hns' := fun m hm => hns m (List.mem_cons_of_mem _ hm)
    obtain ⟨hlen, hne⟩ := hns n List.mem_cons_self
    rw [resolve]
    split_ifs
    · exact ih hns' _ _
    · obtain ⟨e, w, hc⟩ : ∃ e w, child knowsNames v d n = some (some e, w) := by
        rw [child]
        split
        · exact ⟨_, _, rfl⟩
        · obtain ⟨a, n, rfl⟩ := List.exists_cons_of_ne_nil hne
          simp only [vfsLookupInFs, knowsNames, ne_eq, not_true_eq_false, if_false]
          rw [if_neg (by omega)]
          exact ⟨_, _, rfl⟩
      rw [hc]
      exact ih hns' e w

/-- A dentry of a tree without an empty name. -/
structure State.Named (v : State) (d : Nat) : Prop where
  inv : v.Inv
  lt : d < v.nrDentry
  name : ∀ c < v.nrDentry, (v.dentry c).name ≠ []

theorem State.Named.cached (h : v.Named d) : v.cached d [] = none := by
  rw [State.cached, List.find?_eq_none]
  intro c hc
  simpa using h.name c ((h.inv.tree.mem_children d c).mp hc).2.1

theorem State.Named.child (h : v.Named d) (hn : ChildName n) (hne : n ≠ []) (hc : child fs v d n = some (some e, w)) :
    w.Named e := by
  obtain ⟨hw, -, he⟩ := h.inv.child h.lt hn hc
  refine ⟨hw, he e rfl, fun c hlt => ?_⟩
  rcases child_cases hc with ⟨c', -, -, rfl⟩ | ⟨-, hr, -⟩ | ⟨entry, -, -, -, rfl⟩
  · simpa using h.name c hlt
  · cases hr
  · rw [addChild_nrDentry] at hlt
    rcases eq_or_ne c v.nrDentry with rfl | hcn
    · rw [addChild_self h.lt]
      exact hne
    · rw [addChild_name h.lt hcn]
      exact h.name c (by omega)

theorem lookupLoop_nil_mem (h : v.Named d) (hns : ∀ n ∈ ns, slash ∉ n ∧ 0 ∉ n) (hmem : [] ∈ ns) :
    lookupLoop knowsNames ns (some d) v ≠ some (some e, w) := by
  induction ns generalizing d v with
  | nil => cases hmem
  | cons n ns ih =>
    have hns' := fun m hm => hns m (List.mem_cons_of_mem _ hm)
    obtain ⟨hslash, hnul⟩ := hns n List.mem_cons_self
    by_cases hempty : n = []
    · rw [hempty, lookupLoop_name (by decide) (by decide) (by decide), child, h.cached]
      simp [vfsLookupInFs, knowsNames]
    have hmem' : [] ∈ ns := (List.mem_cons.mp hmem).resolve_left (Ne.symm hempty)
    by_cases hdot : n = dot
    · rw [lookupLoop_dot hdot]
      exact ih h hns' hmem'
    by_cases hup : n = dotdot
    · rw [lookupLoop_dotdot hup]
      cases hp : (v.dentry d).parent with
      | none =>
        intro hl
        cases (lookupLoop_none hl).1
      | some e => exact ih ⟨h.inv, h.inv.tree.parent_lt h.lt hp, h.name⟩ hns' hmem'
    · by_cases hlen : n.length < filenameSize
      · rw [lookupLoop_name hlen hup hdot]
        split
        · simp
        · simp
        · rename_i e' w' hc
          exact ih (h.child ⟨hslash, hnul, hdot, hup⟩ hempty hc) hns' hmem'
      · rw [lookupLoop, if_pos (by omega)]
        simp

theorem mounted_named (root : FsEntry) : (mounted root).Named 0 := by
  refine ⟨mounted_inv root, Nat.zero_lt_succ 3, fun c hc => ?_⟩
  rw [mounted_dentry]
  have hc : c < 4 := hc
  split_ifs
  · simp
  · decide
  · decide
  · decide
  · omega

theorem pathNames_chars {path : CString} (h : n ∈ pathNames path) : slash ∉ n ∧ 0 ∉ n := by
  obtain ⟨hslash, hsub⟩ := mem_of_mem_components (pathNames_components h)
  exact ⟨hslash, fun h0 => path.2 (hsub 0 h0)⟩

/-- Without double slashes the lookup is the reference iff no `..` leaves a dentry without `f_parent`; with one, some servers
refute it. -/
theorem vfsLookup_reference_iff (path : CString) (hshort : Short path) :
    (¬ [slash, slash] <:+: path.1 → ∀ fs v cwd, Reach v → cwd < v.nrDentry →
      ((vfsLookup fs v cwd path).map Prod.fst = (reference fs v cwd path).map Prod.fst ↔
        UpOk fs (refNames path) (v.start cwd path) v)) ∧
    ([slash, slash] <:+: path.1 → ∃ fs v cwd, Reach v ∧ cwd < v.nrDentry ∧
      (vfsLookup fs v cwd path).map Prod.fst ≠ (reference fs v cwd path).map Prod.fst) := by
  constructor
  · intro hslash fs v cwd hv hcwd
    have hns : ∀ n ∈ pathNames path, n.length < nameSize ∧ n ≠ [] := fun n hn =>
      ⟨hshort n (pathNames_components hn), fun h => hslash (nil_mem_pathNames.mp (h ▸ hn))⟩
    obtain ⟨h₁, h₂⟩ := lookupLoop_resolve fs hv.inv (hv.inv.tree.start_lt hcwd) hns fun n hn => pathNames_chars hn
    rw [filter_pathNames] at h₁ h₂
    rw [vfsLookup_eq, reference]
    exact ⟨h₂, fun h => congrArg _ (h₁ h)⟩
  · intro hslash
    refine ⟨knowsNames, mounted ⟨2, 0, 0⟩, 0, .init ⟨_, rfl⟩, by decide, fun h => ?_⟩
    have href : ∀ n ∈ refNames path, n.length < nameSize ∧ n ≠ [] := fun n hn => by
      obtain ⟨hmem, hmatters⟩ := List.mem_filter.mp hn
      exact ⟨hshort n hmem, (of_decide_eq_true hmatters).1⟩
    obtain ⟨e, w, he⟩ := resolve_found href ((mounted ⟨2, 0, 0⟩).start 0 path) (mounted ⟨2, 0, 0⟩)
    rw [vfsLookup_eq, reference, he, Option.map_some] at h
    obtain ⟨⟨r, w'⟩, hl, rfl⟩ := Option.map_eq_some_iff.mp h
    have hstart : (mounted ⟨2, 0, 0⟩).start 0 path = 0 := by
      rw [State.start]
      split_ifs <;> rfl
    rw [hstart] at hl
    exact lookupLoop_nil_mem (mounted_named _) (fun n hn => pathNames_chars hn) (nil_mem_pathNames.mpr hslash) hl

theorem vfsLookup_reference_iff_dev :
    (vfsLookup (fun _ _ => none) (mounted ⟨2, 0, 0⟩) 0 (slash :: devName)).map Prod.fst =
      (reference (fun _ _ => none) (mounted ⟨2, 0, 0⟩) 0 (slash :: devName)).map Prod.fst := by
  have hshort : Short (slash :: devName) := by
    unfold Short
    decide
  refine ((vfsLookup_reference_iff ⟨slash :: devName, by decide⟩ hshort).1 (by decide) _ _ 0 (.init ⟨⟨2, 0, 0⟩, rfl⟩)
    (by decide)).mpr ?_
  rw [show refNames (slash :: devName) = [devName] by decide, UpOk, if_neg (by decide)]
  split <;> trivial

/-- `//dev` after the mounts, with a server that knows no name. -/
theorem vfsLookup_double_slash : Reach (mounted ⟨2, 0, 0⟩) ∧
    (vfsLookup (fun _ _ => none) (mounted ⟨2, 0, 0⟩) 0 (slash :: slash :: devName)).map Prod.fst = some none ∧
    (reference (fun _ _ => none) (mounted ⟨2, 0, 0⟩) 0 (slash :: slash :: devName)).map Prod.fst = some (some 1) :=
  ⟨.init ⟨_, rfl⟩, by decide, by decide⟩

end FengOS.Vfs
