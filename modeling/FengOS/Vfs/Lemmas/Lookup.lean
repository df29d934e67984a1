import FengOS.Vfs.Lemmas.Path

/-!
# Walks through the dentries
-/

namespace FengOS.Vfs

variable {fs : Fs} {v w : State} {d e c : Nat} {k : Int} {n : Name} {ns ms : List Name} {r : Option Nat} {cur : Option Nat}
  {entry : FsEntry} {P : State → Nat → Prop}

@[simp]
theorem addCount_dentry : (v.addCount d k).dentry e =
    { v.dentry e with count := (v.dentry e).count + if e = d then k else 0 } := by
  simp only [State.addCount, Function.update_apply]
  split
  · rename_i h
    rw [h]
  · simp

@[simp]
theorem addCount_nrDentry : (v.addCount d k).nrDentry = v.nrDentry := rfl

@[simp]
theorem addCount_rootEntry : (v.addCount d k).rootEntry = v.rootEntry := rfl

theorem addCount_cached : (v.addCount d k).cached e n = v.cached e n := by simp [State.cached]

theorem addChild_dentry (h : d < v.nrDentry) : (v.addChild d n entry).dentry e =
    if e = v.nrDentry then ⟨(v.dentry d).fsPid, entry.ino, 1, entry.size, entry.mode, n, some d, []⟩ else if e = d then
      { v.dentry d with count := (v.dentry d).count + 1, children := v.nrDentry :: (v.dentry d).children }
    else v.dentry e := by
  simp only [State.addChild, Function.update_apply]
  split
  · rename_i hd
    rw [if_neg (by omega)]
  · rfl

@[simp]
theorem addChild_nrDentry : (v.addChild d n entry).nrDentry = v.nrDentry + 1 := rfl

@[simp]
theorem addChild_rootEntry : (v.addChild d n entry).rootEntry = v.rootEntry := rfl

theorem cached_mem (h : v.cached d n = some c) : c ∈ (v.dentry d).children ∧ (v.dentry c).name = n :=
  ⟨List.mem_of_find?_eq_some h, by simpa using List.find?_some h⟩

theorem child_cases (h : child fs v d n = some (r, w)) : (∃ c, v.cached d n = some c ∧ r = some c ∧ w = v.addCount c 1) ∨
    (v.cached d n = none ∧ r = none ∧ w = v) ∨
    ∃ entry, v.cached d n = none ∧ n.length < nameSize ∧ r = some v.nrDentry ∧ w = v.addChild d n entry := by
  rw [child] at h
  split at h
  · rename_i c hc
    obtain ⟨rfl, rfl⟩ := Prod.mk.inj (Option.some.inj h)
    exact .inl ⟨c, hc, rfl, rfl⟩
  · rename_i hc
    refine .inr ?_
    rw [vfsLookupInFs] at h
    split at h
    · obtain ⟨rfl, rfl⟩ := Prod.mk.inj (Option.some.inj h)
      exact .inl ⟨hc, rfl, rfl⟩
    · rename_i reply _
      split_ifs at h with hret hlen
      · obtain ⟨rfl, rfl⟩ := Prod.mk.inj (Option.some.inj h)
        exact .inl ⟨hc, rfl, rfl⟩
      · obtain ⟨rfl, rfl⟩ := Prod.mk.inj (Option.some.inj h)
        exact .inr ⟨reply.dentry, hc, by omega, rfl, rfl⟩

theorem child_isSome (fs : Fs) (v : State) (d : Nat) (h : n.length < nameSize) : ∃ r w, child fs v d n = some (r, w) := by
  rw [child]
  split
  · exact ⟨_, _, rfl⟩
  · rw [vfsLookupInFs]
    split
    · exact ⟨_, _, rfl⟩
    · split_ifs with hret hlen
      · exact ⟨_, _, rfl⟩
      · omega
      · exact ⟨_, _, rfl⟩

theorem lookupLoop_none (h : lookupLoop fs ns none v = some (r, w)) : r = none ∧ w = v ∧ ∀ n ∈ ns, n = dot := by
  induction ns with
  | nil =>
    obtain ⟨rfl, rfl⟩ := Prod.mk.inj (Option.some.inj h)
    exact ⟨rfl, rfl, by simp⟩
  | cons n ns ih =>
    rw [lookupLoop] at h
    split_ifs at h with hlen hup hdot
    · cases h
    · obtain ⟨hr, hw, hns⟩ := ih h
      exact ⟨hr, hw, by simpa [hdot] using hns⟩
    · cases h

theorem lookupLoop_dot (h : n = dot) : lookupLoop fs (n :: ns) cur v = lookupLoop fs ns cur v := by
  subst h
  rw [lookupLoop, if_neg (by decide), if_neg (by decide), if_pos rfl]

theorem lookupLoop_dotdot (h : n = dotdot) :
    lookupLoop fs (n :: ns) (some d) v = lookupLoop fs ns (v.dentry d).parent v := by
  subst h
  rw [lookupLoop, if_neg (by decide), if_pos rfl, Option.bind_some]

theorem lookupLoop_name (hlen : n.length < filenameSize) (hup : n ≠ dotdot) (hdot : n ≠ dot) :
    lookupLoop fs (n :: ns) (some d) v =
      match child fs v d n with
      | none => none
      | some (none, w) => some (none, w)
      | some (some e, w) => lookupLoop fs ns (some e) w := by
  cases hc : child fs v d n with
  | none => simp [lookupLoop, Nat.not_le.mpr hlen, hup, hdot, hc]
  | some s => obtain ⟨_ | e, s⟩ := s <;> simp [lookupLoop, Nat.not_le.mpr hlen, hup, hdot, hc]

theorem lookupLoop_keeps (hup : ∀ v d e, P v d → (v.dentry d).parent = some e → P v e)
    (hchild : ∀ v d n e w, P v d → n ∈ ns → n ≠ dotdot → n ≠ dot → child fs v d n = some (some e, w) → P w e)
    (hd : P v d) (h : lookupLoop fs ns (some d) v = some (r, w)) : (∃ e, P w e) ∧ ∀ e, r = some e → P w e := by
  induction ns generalizing v d with
  | nil =>
    obtain ⟨rfl, rfl⟩ := Prod.mk.inj (Option.some.inj h)
    exact ⟨⟨d, hd⟩, fun e he => Option.some.inj he ▸ hd⟩
  | cons n ns ih =>
    have hchild' := fun v d n e w hP hn => hchild v d n e w hP (List.mem_cons_of_mem _ hn)
    by_cases hdot : n = dot
    · rw [lookupLoop_dot hdot] at h
      exact ih hchild' hd h
    by_cases hdotdot : n = dotdot
    · rw [lookupLoop_dotdot hdotdot] at h
      cases hp : (v.dentry d).parent with
      | none =>
        rw [hp] at h
        obtain ⟨rfl, rfl, -⟩ := lookupLoop_none h
        exact ⟨⟨d, hd⟩, by simp⟩
      | some e =>
        rw [hp] at h
        exact ih hchild' (hup v d e hd hp) h
    · by_cases hlen : n.length < filenameSize
      · rw [lookupLoop_name hlen hdotdot hdot] at h
        split at h
        · cases h
        · rename_i w' hc
          obtain ⟨rfl, rfl⟩ := Prod.mk.inj (Option.some.inj h)
          have hw : w' = v := by
            rcases child_cases hc with ⟨c, -, h, -⟩ | ⟨-, -, h⟩ | ⟨-, -, -, h, -⟩
            · cases h
            · exact h
            · cases h
          exact ⟨⟨d, hw ▸ hd⟩, by simp⟩
        · rename_i e w' hc
          exact ih hchild' (hchild v d n e w' hd List.mem_cons_self hdotdot hdot hc) h
      · rw [lookupLoop, if_pos (by omega)] at h
        cases h

theorem lookupLoop_append (hnull : ∀ v d, P v d → (v.dentry d).parent ≠ none)
    (hup : ∀ v d e, P v d → (v.dentry d).parent = some e → P v e)
    (hchild : ∀ v d n e w, P v d → child fs v d n = some (some e, w) → P w e) (hd : P v d) :
    lookupLoop fs (ns ++ ms) (some d) v = (lookupLoop fs ns (some d) v).bind fun r =>
      match r.1 with
      | none => some r
      | some e => lookupLoop fs ms (some e) r.2 := by
  induction ns generalizing v d with
  | nil => rfl
  | cons n ns ih =>
    rw [List.cons_append]
    by_cases hdot : n = dot
    · rw [lookupLoop_dot hdot, lookupLoop_dot hdot, ih hd]
    by_cases hdotdot : n = dotdot
    · obtain ⟨e, he⟩ := Option.ne_none_iff_exists'.mp (hnull v d hd)
      rw [lookupLoop_dotdot hdotdot, lookupLoop_dotdot hdotdot, he, ih (hup v d e hd he)]
    · by_cases hlen : n.length < filenameSize
      · rw [lookupLoop_name hlen hdotdot hdot, lookupLoop_name hlen hdotdot hdot]
        split
        · rfl
        · rfl
        · rename_i e w hc
          exact ih (hchild v d n e w hd hc)
      · rw [lookupLoop, lookupLoop, if_pos (by omega), if_pos (by omega), Option.bind_none]

theorem lookupLoop_isSome (hnull : ∀ v d, P v d → (v.dentry d).parent ≠ none)
    (hup : ∀ v d e, P v d → (v.dentry d).parent = some e → P v e)
    (hchild : ∀ v d n e w, P v d → child fs v d n = some (some e, w) → P w e)
    (hns : ∀ n ∈ ns, n.length < nameSize) (hd : P v d) : ∃ r w, lookupLoop fs ns (some d) v = some (r, w) := by
  induction ns generalizing v d with
  | nil => exact ⟨_, _, rfl⟩
  | cons n ns ih =>
    have hns' := fun m hm => hns m (List.mem_cons_of_mem _ hm)
    have hn := hns n List.mem_cons_self
    by_cases hdot : n = dot
    · rw [lookupLoop_dot hdot]
      exact ih hns' hd
    by_cases hdotdot : n = dotdot
    · obtain ⟨e, he⟩ := Option.ne_none_iff_exists'.mp (hnull v d hd)
      rw [lookupLoop_dotdot hdotdot, he]
      exact ih hns' (hup v d e hd he)
    · rw [lookupLoop_name (Nat.lt_trans hn (by decide)) hdotdot hdot]
      obtain ⟨r, w, hc⟩ := child_isSome fs v d hn
      rw [hc]
      cases r with
      | none => exact ⟨_, _, rfl⟩
      | some e => exact ih hns' (hchild v d n e w hd hc)

theorem vfsLookup_eq {cwd : Nat} {path : Name} :
    vfsLookup fs v cwd path = lookupLoop fs (pathNames path) (some (v.start cwd path)) v := by
  rw [vfsLookup, pathNames, State.start]
  split <;> rfl

end FengOS.Vfs
