import FengOS.Vfs.Copies
import FengOS.Vfs.PathTheorems

/-!
# `vfs_lookup` and the sizes of its buffers
-/

namespace FengOS.Vfs

open FengOS.Lib

variable {fs : Fs} {v w : State} {ns : List Name} {n : Name} {d e : Nat} {cur : Option Nat}

/-! ## One component after the other -/

theorem roomy_nil : Roomy fs [] cur v := fun _ _ _ h => by simp at h

theorem roomy_cons : Roomy fs (n :: ns) cur v ↔
    (n.length < 256 ∧ ∀ d, cur = some d → v.cached d n = none → Finds fs v d n → n.length < 128) ∧
      ∀ cur' w, advance fs (cur, v) n = some (cur', w) → Roomy fs ns cur' w := by
  constructor
  · intro h
    refine ⟨h [] n ns rfl cur v rfl, fun cur' w hstep pre m post hns cur'' u hwalk => ?_⟩
    refine h (n :: pre) m post (by rw [hns, List.cons_append]) cur'' u ?_
    rw [List.foldlM_cons, hstep]
    exact hwalk
  · rintro ⟨hn, hrest⟩ pre m post hns cur' w hwalk
    cases pre with
    | nil =>
      obtain ⟨rfl, rfl⟩ := List.cons.inj hns
      obtain ⟨rfl, rfl⟩ := Prod.mk.inj (Option.some.inj hwalk)
      exact hn
    | cons p pre =>
      obtain ⟨rfl, rfl⟩ := List.cons.inj hns
      rw [List.foldlM_cons] at hwalk
      obtain ⟨⟨cur₁, v₁⟩, hstep, hwalk⟩ := Option.bind_eq_some_iff.mp hwalk
      exact hrest cur₁ v₁ hstep pre m post rfl cur' w hwalk

theorem roomy_of_short (h : ∀ n ∈ ns, n.length < 128) : Roomy fs ns cur v := by
  rintro pre n post rfl cur' w -
  have hn := h n (by simp)
  exact ⟨by omega, fun _ _ _ _ => hn⟩

theorem lookupCopies_ok : (∀ c ∈ lookupCopies fs ns cur v, c.Ok) ↔ Roomy fs ns cur v := by
  induction ns generalizing cur v with
  | nil => exact ⟨fun _ => roomy_nil, fun _ _ h => by cases h⟩
  | cons n ns ih =>
    rw [lookupCopies, roomy_cons, List.forall_mem_cons, Copy.Ok, filenameSize]
    by_cases hlen : 256 ≤ n.length
    · exact ⟨fun h => by omega, fun h => by omega⟩
    rw [if_neg hlen, advance]
    by_cases hup : n = dotdot
    · subst hup
      cases cur with
      | none => simp [dotdot]
      | some d => simp [dotdot, ih]
    by_cases hdot : n = dot
    · subst hdot
      simp [dot, dotdot, ih]
    rw [if_neg hup, if_neg hdot, if_neg hup, if_neg hdot]
    cases cur with
    | none => simp
    | some d =>
      have hname : (∀ c ∈ if v.cached d n = none ∧ Finds fs v d n then [Copy.fName n] else [], c.Ok) ↔
          (v.cached d n = none → Finds fs v d n → n.length < 128) := by
        split_ifs with h
        · rw [List.forall_mem_singleton, Copy.Ok, nameSize]
          exact ⟨fun hn _ _ => hn, fun hn => hn h.1 h.2⟩
        · exact ⟨fun _ h₁ h₂ => absurd ⟨h₁, h₂⟩ h, fun _ _ hc => by cases hc⟩
      simp only [Option.elim_some, Option.bind_some, List.forall_mem_append, hname, Option.some.injEq, forall_eq']
      rw [and_assoc]
      refine and_congr Iff.rfl (and_congr Iff.rfl ?_)
      split
      case h_1 next w hc => simp [ih]
      case h_2 => simp

theorem State.Inv.lookup_short (hv : v.Inv) (hd : d < v.nrDentry)
    (hns : ∀ n ∈ ns, n ≠ dotdot → n ≠ dot → ChildName n) (h : lookupLoop fs ns (some d) v = some (some e, w)) :
    ∀ n ∈ ns, n.length < nameSize := by
  induction ns generalizing v d with
  | nil => exact fun n hn => by cases hn
  | cons n ns ih =>
    have hns' := fun m hm => hns m (List.mem_cons_of_mem _ hm)
    rw [List.forall_mem_cons]
    by_cases hdot : n = dot
    · rw [lookupLoop_dot hdot] at h
      exact ⟨hdot ▸ by decide, ih hv hd hns' h⟩
    by_cases hup : n = dotdot
    · rw [lookupLoop_dotdot hup] at h
      refine ⟨hup ▸ by decide, ?_⟩
      cases hp : (v.dentry d).parent with
      | none =>
        rw [hp] at h
        cases (lookupLoop_none h).1
      | some p =>
        rw [hp] at h
        exact ih hv (hv.tree.parent_lt hd hp) hns' h
    by_cases hlen : n.length < filenameSize
    · rw [lookupLoop_name hlen hup hdot] at h
      split at h
      case h_1 => cases h
      case h_2 => cases (Prod.mk.inj (Option.some.inj h)).1
      case h_3 c u hc =>
          obtain ⟨hu, -, hlt⟩ := hv.child hd (hns n List.mem_cons_self hup hdot) hc
          refine ⟨?_, ih hu (hlt c rfl) hns' h⟩
          rcases child_cases hc with ⟨c', hcached, -, -⟩ | ⟨-, hnone, -⟩ | ⟨-, -, hn, -, -⟩
          · obtain ⟨hmem, hname⟩ := cached_mem hcached
            obtain ⟨hpos, hlt, -⟩ := (hv.tree.mem_children d c').mp hmem
            exact hname ▸ hv.tree.name_lt c' hlt hpos
          · cases hnone
          · exact hn
    · rw [lookupLoop, if_pos (by omega)] at h
      cases h

theorem State.Inv.copiesFit_iff {cwd : Nat} (hv : v.Inv) (hcwd : cwd < v.nrDentry) (path : CString) :
    CopiesFit fs v cwd path ↔ Roomy fs (pathNames path) (some (v.start cwd path)) v := by
  rw [CopiesFit, lookupCopies_ok, and_iff_left_iff_imp]
  rintro - ⟨n, hn, hlen⟩ d w hlook
  rw [vfsLookup_eq] at hlook
  have := hv.lookup_short (hv.tree.start_lt hcwd) (fun m hm hup hdot => childName_of_mem path.2 hm hup hdot) hlook n hn
  omega

theorem State.Inv.lookups (hv : v.Inv) {call : Call} {cwd : Nat} {path : CString} (h : v.lookups call = some (w, cwd, path)) :
    w.Inv ∧ cwd < w.nrDentry := by
  rw [State.lookups] at h
  split at h
  case h_1 =>
      obtain ⟨⟨fsp, u⟩, hneed, hr⟩ := Option.map_eq_some_iff.mp h
      simp only [Prod.mk.injEq] at hr
      obtain ⟨rfl, rfl, -⟩ := hr
      obtain ⟨hk, -, hcwd⟩ := hv.need hneed
      exact ⟨hk.inv, hcwd⟩
  case h_4 => cases h
  all_goals
      obtain ⟨fsp, hp, hr⟩ := Option.map_eq_some_iff.mp h
      simp only [Prod.mk.injEq] at hr
      obtain ⟨rfl, rfl, -⟩ := hr
      exact ⟨hv, (hv.inside _ _ (table_eq hp)).cwd⟩

/-! ## Requests with a path -/

/-- A request with a path keeps to the buffers of `vfs_lookup` exactly if the components that the walk reaches do. -/
theorem lookup_copies_fit_iff {v : State} (hv : Reach v) (call : Call) :
    (∀ w cwd path, v.lookups call = some (w, cwd, path) → CopiesFit call.fs w cwd path) ↔
      ∀ w cwd path, v.lookups call = some (w, cwd, path) →
        Roomy call.fs (pathNames path) (some (w.start cwd path)) w := by
  refine forall_congr' fun w => forall_congr' fun cwd => forall_congr' fun path => imp_congr_right fun h => ?_
  obtain ⟨hw, hcwd⟩ := hv.inv.lookups h
  exact hw.copiesFit_iff hcwd path

theorem lookup_copies_fit_short : Reach (mounted ⟨2, 0, 0⟩) ∧
    ((mounted ⟨2, 0, 0⟩).lookups ⟨5, .open ⟨[0x61], by decide⟩ 0, knowsAll⟩).isSome ∧
    ∀ w cwd path, (mounted ⟨2, 0, 0⟩).lookups ⟨5, .open ⟨[0x61], by decide⟩ 0, knowsAll⟩ = some (w, cwd, path) →
      CopiesFit knowsAll w cwd path := by
  have hv : Reach (mounted ⟨2, 0, 0⟩) := .init ⟨_, rfl⟩
  refine ⟨hv, by decide, (lookup_copies_fit_iff hv _).mpr fun w cwd path h => roomy_of_short ?_⟩
  rw [State.lookups] at h
  obtain ⟨r, -, hr⟩ := Option.map_eq_some_iff.mp h
  simp only [Prod.mk.injEq] at hr
  rw [← hr.2.2]
  decide

/-- Process 5 opens a file whose name has 128 bytes, of which 129 are copied to `f_name`. -/
theorem lookup_overruns_name : Reach (mounted ⟨2, 0, 0⟩) ∧
    ∃ w cwd path, (mounted ⟨2, 0, 0⟩).lookups ⟨5, .open ⟨List.replicate 128 0x61, by decide⟩ 0, knowsAll⟩ = some (w, cwd, path) ∧
      ¬ CopiesFit knowsAll w cwd path := by
  refine ⟨.init ⟨_, rfl⟩, ?_⟩
  have hover : ((mounted ⟨2, 0, 0⟩).lookups ⟨5, .open ⟨List.replicate 128 0x61, by decide⟩ 0, knowsAll⟩).any
      (fun r => (lookupCopies knowsAll (pathNames r.2.2) (some (r.1.start r.2.1 r.2.2)) r.1).any fun c => ¬ c.Ok) = true := by
    decide +kernel
  obtain ⟨⟨w, cwd, path⟩, hw, hover⟩ := (Option.any_eq_true _ _).mp hover
  refine ⟨w, cwd, path, hw, fun h => ?_⟩
  obtain ⟨c, hc, hnot⟩ := List.any_eq_true.mp hover
  exact of_decide_eq_true hnot (h.1 c hc)

end FengOS.Vfs
