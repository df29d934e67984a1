import FengOS.Vfs.Path
import Mathlib.Data.List.Infix
import Mathlib.Data.List.TakeWhile

/-!
# The names of a path
-/

namespace FengOS.Vfs

variable {n p q path : Name} {fuel : Nat}

theorem getfilename_word (h : slash ∉ n) : getfilename n = (n, []) := by
  have hn : ∀ c ∈ n, decide (c ≠ slash) = true := fun c hc => by simpa using ne_of_mem_of_not_mem hc h
  rw [getfilename, List.takeWhile_eq_self_iff.mpr hn, List.dropWhile_eq_nil_iff.mpr hn, List.drop_nil]

theorem getfilename_slash (h : slash ∉ n) : getfilename (n ++ slash :: q) = (n, q) := by
  have hn : ∀ c ∈ n, decide (c ≠ slash) = true := fun c hc => by simpa using ne_of_mem_of_not_mem hc h
  rw [getfilename, List.takeWhile_append_of_pos hn, List.dropWhile_append_of_pos hn]
  simp

@[elab_as_elim]
theorem path_induction {motive : Name → Prop} (word : ∀ n, slash ∉ n → motive n)
    (cons : ∀ n q, slash ∉ n → motive q → motive (n ++ slash :: q)) (path : Name) : motive path := by
  induction hl : path.length using Nat.strong_induction_on generalizing path with
  | _ l ih =>
    by_cases h : slash ∈ path
    · obtain ⟨n, q, rfl, hn⟩ := List.eq_append_cons_of_mem h
      exact cons n q hn (ih q.length (by rw [← hl]; simp; omega) q rfl)
    · exact word path h

theorem length_getfilename (h : path ≠ []) : (getfilename path).2.length < path.length := by
  have hle := (List.dropWhile_sublist (fun c => decide (c ≠ slash)) (l := path)).length_le
  have hpos := List.length_pos_of_ne_nil h
  simp only [getfilename, List.length_drop]
  omega

theorem namesLoop_eq (h : path.length ≤ fuel) : namesLoop fuel path = names path := by
  induction hl : path.length using Nat.strong_induction_on generalizing path fuel with
  | _ l ih =>
    subst hl
    by_cases hp : path = []
    · subst hp
      cases fuel <;> rfl
    · have hlt := length_getfilename hp
      obtain ⟨k, hk⟩ := Nat.exists_eq_succ_of_ne_zero (Nat.ne_of_gt (List.length_pos_of_ne_nil hp))
      obtain ⟨m, rfl⟩ := Nat.exists_eq_succ_of_ne_zero (show fuel ≠ 0 by omega)
      rw [names, hk, namesLoop, namesLoop, if_neg hp, if_neg hp, ih _ hlt (by omega) rfl, ih _ hlt (by omega) rfl]

@[simp]
theorem names_nil : names [] = [] := rfl

theorem names_of_ne_nil (h : path ≠ []) : names path = (getfilename path).1 :: names (getfilename path).2 := by
  have hlt := length_getfilename h
  obtain ⟨k, hk⟩ := Nat.exists_eq_succ_of_ne_zero (Nat.ne_of_gt (List.length_pos_of_ne_nil h))
  rw [names, hk, namesLoop, if_neg h, namesLoop_eq (by omega)]

theorem names_word (h : slash ∉ n) (hne : n ≠ []) : names n = [n] := by
  rw [names_of_ne_nil hne, getfilename_word h, names_nil]

theorem names_slash (h : slash ∉ n) : names (n ++ slash :: q) = n :: names q := by
  rw [names_of_ne_nil (by simp), getfilename_slash h]

theorem names_append (hp : p ≠ []) (hlast : p.getLast? ≠ some slash) : names (p ++ slash :: q) = names p ++ names q := by
  induction p using path_induction with
  | word n hn => rw [names_slash hn, names_word hn hp, List.singleton_append]
  | cons n r hn ih =>
    have hr : r ≠ [] := by
      rintro rfl
      simp at hlast
    have hlast' : r.getLast? ≠ some slash := by simpa [List.getLast?_cons, List.getLast?_eq_some_getLast hr] using hlast
    rw [List.append_assoc, List.cons_append, names_slash hn, names_slash hn, ih hr hlast', List.cons_append]

theorem splitOn_word (h : slash ∉ n) : n.splitOn slash = [n] :=
  List.splitOnP_eq_singleton fun c hc => by simpa using ne_of_mem_of_not_mem hc h

theorem splitOn_slash (h : slash ∉ n) : (n ++ slash :: q).splitOn slash = n :: q.splitOn slash :=
  List.splitOnP_append_cons_of_forall_mem (fun c hc => by simpa using ne_of_mem_of_not_mem hc h) _ (by simp) _

theorem mem_components (h : n ∈ names path) : n ∈ path.splitOn slash := by
  induction path using path_induction with
  | word m hm =>
    by_cases hne : m = []
    · simp [hne] at h
    · rwa [names_word hm hne, ← splitOn_word hm] at h
  | cons m q hm ih =>
    rw [names_slash hm] at h
    rw [splitOn_slash hm]
    rcases List.mem_cons.mp h with rfl | h
    · exact List.mem_cons_self
    · exact List.mem_cons_of_mem _ (ih h)

theorem filter_names : (names path).filter Matters = (path.splitOn slash).filter Matters := by
  induction path using path_induction with
  | word n hn =>
    by_cases hne : n = []
    · subst hne
      rfl
    · rw [names_word hn hne, splitOn_word hn]
  | cons n q hn ih => rw [names_slash hn, splitOn_slash hn, List.filter_cons, List.filter_cons, ih]

theorem mem_of_mem_components (h : n ∈ path.splitOn slash) : slash ∉ n ∧ ∀ c ∈ n, c ∈ path := by
  induction path using path_induction with
  | word m hm =>
    rw [splitOn_word hm, List.mem_singleton] at h
    rw [h]
    exact ⟨hm, fun _ => id⟩
  | cons m q hm ih =>
    rw [splitOn_slash hm, List.mem_cons] at h
    rcases h with rfl | h
    · exact ⟨hm, fun c hc => List.mem_append_left _ hc⟩
    · exact ⟨(ih h).1, fun c hc => List.mem_append_right _ (List.mem_cons_of_mem _ ((ih h).2 c hc))⟩

theorem infix_slash : [slash, slash] <:+: slash :: q ↔ q.head? = some slash ∨ [slash, slash] <:+: q := by
  rw [List.infix_cons_iff, List.cons_prefix_cons]
  refine or_congr ?_ Iff.rfl
  cases q with
  | nil => simp
  | cons c q =>
    simp only [List.cons_prefix_cons, List.nil_prefix, and_true, true_and, List.head?_cons, Option.some.injEq]
    exact eq_comm

theorem infix_word (h : slash ∉ n) : [slash, slash] <:+: n ++ q ↔ [slash, slash] <:+: q := by
  induction n with
  | nil => rfl
  | cons c n ih =>
    have hc : slash ≠ c := fun he => h (he ▸ List.mem_cons_self)
    rw [List.cons_append, List.infix_cons_iff, List.cons_prefix_cons, ih fun hn => h (List.mem_cons_of_mem _ hn)]
    simp [hc]

theorem nil_mem_names : [] ∈ names path ↔ path.head? = some slash ∨ [slash, slash] <:+: path := by
  induction path using path_induction with
  | word n hn =>
    have hinf : ¬ [slash, slash] <:+: n := fun h => hn (h.subset List.mem_cons_self)
    cases n with
    | nil => simp
    | cons c n =>
      have hc : c ≠ slash := fun he => hn (he ▸ List.mem_cons_self)
      simp [names_word hn, hinf, hc]
  | cons n q hn ih =>
    rw [names_slash hn, List.mem_cons, ih, infix_word hn, infix_slash]
    cases n with
    | nil => simp
    | cons c n =>
      have hc : c ≠ slash := fun he => hn (he ▸ List.mem_cons_self)
      simp [hc]

theorem nil_mem_pathNames : [] ∈ pathNames path ↔ [slash, slash] <:+: path := by
  rw [pathNames]
  split
  · rename_i h
    obtain ⟨t, rfl⟩ : ∃ t, path = slash :: t := by cases path <;> simp_all
    rw [List.tail_cons, nil_mem_names, infix_slash]
  · rename_i h
    rw [nil_mem_names]
    simp [h]

theorem filter_pathNames : (pathNames path).filter Matters = refNames path := by
  rw [pathNames, refNames]
  split
  · rename_i h
    obtain ⟨t, rfl⟩ : ∃ t, path = slash :: t := by cases path <;> simp_all
    rw [List.tail_cons, filter_names]
    have hs := splitOn_slash (n := []) (q := t) (by simp)
    rw [List.nil_append] at hs
    rw [hs, List.filter_cons_of_neg (by simp [Matters])]
  · exact filter_names

theorem pathNames_components (h : n ∈ pathNames path) : n ∈ path.splitOn slash := by
  rw [pathNames] at h
  split at h
  · rename_i hs
    obtain ⟨t, rfl⟩ : ∃ t, path = slash :: t := by cases path <;> simp_all
    have hs := splitOn_slash (n := []) (q := t) (by simp)
    rw [List.nil_append] at hs
    rw [hs]
    exact List.mem_cons_of_mem _ (mem_components h)
  · exact mem_components h

end FengOS.Vfs
