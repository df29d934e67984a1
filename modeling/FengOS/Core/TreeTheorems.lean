import FengOS.Core.Lemmas.Boot

/-!
# The process tree in every run

`do_wait` leaves a freed child on the list of children, and so does a `do_fork` that fails late; `do_exit` moves the children
to a second list and leaves their `parent`. In the runs without such steps the tree is in order.
-/

namespace FengOS.Core

open FengOS.Lib FengOS.Lib.Rendezvous

variable {strict tidy : Prop} {k : Kernel} {n p c child : Nat} {s₀ : State Nat Message}

theorem Kernel.Listed.not_mem_of_freed (h : k.Listed) (hb : k.Base) (hp : k.alive p = false) :
    p ∉ k.procHead ∧ ∀ i, p ∉ k.hashMap i := by
  have hhash : ∀ i, p ∉ k.hashMap i := fun i hi => absurd (hp.symm.trans (hb.hash_alive i p hi)) (by decide)
  refine ⟨fun hm => ?_, hhash⟩
  obtain ⟨i, hi⟩ := (h.mem p).mp hm
  exact hhash i hi

theorem Kernel.Tree.nodup (h : k.Tree n) (p : Nat) : (k.proc p).children.Nodup := by
  rw [List.nodup_iff_count]
  intro c
  by_cases hc : c ∈ (k.proc p).children
  · obtain ⟨hn, ha, hp⟩ := h.unlinked p c hc
    exact Nat.le_of_eq (h.linked p c hn ha hp)
  · rw [List.count_eq_zero.mpr hc]
    exact Nat.zero_le 1

theorem Kernel.Tree.count_eq_one (h : k.Tree n) :
    (k.proc p).children.count c = 1 ↔ (k.proc c).parent = some p ∧ n ≤ c ∧ k.alive c = true := by
  constructor
  · intro hc
    have hmem : c ∈ (k.proc p).children := List.count_pos_iff.mp (by rw [hc]; exact Nat.one_pos)
    obtain ⟨hn, ha, hp⟩ := h.unlinked p c hmem
    exact ⟨hp, hn, ha⟩
  · rintro ⟨hp, hn, ha⟩
    exact h.linked p c hn ha hp

/-! ## The search of `do_wait` -/

theorem findStopped_eq {ps : List Nat} (h : ∀ p ∈ ps, k.alive p = true) :
    findStopped k ps = .ok (ps.find? fun p => (k.proc p).state = .stopped) := by
  induction ps with
  | nil => rfl
  | cons p ps ih =>
    obtain ⟨hp, hps⟩ := List.forall_mem_cons.mp h
    have hderef : k.deref p = .ok () := if_pos hp
    unfold findStopped
    rw [hderef, List.find?_cons]
    show (if (k.proc p).state = .stopped then _ else findStopped k ps) = _
    split
    · rename_i hs
      rw [decide_eq_true hs]
      rfl
    · rename_i hs
      rw [decide_eq_false hs]
      exact ih hps

theorem exists_unmapProc {pid : Int} (h : 0 < pid) :
    ∃ hashMap, unmapProc k pid = .ok { k with hashMap := hashMap } := by
  obtain ⟨i, hi, -⟩ := hashIndex_of_pos h
  have hmap : mapProc k pid = .ok ((k.hashMap i).find? fun p => (k.proc p).pid = pid) := by
    unfold mapProc
    rw [hi]
    rfl
  unfold unmapProc
  rw [hmap]
  cases (k.hashMap i).find? fun p => (k.proc p).pid = pid with
  | none => exact ⟨k.hashMap, rfl⟩
  | some p => exact ⟨_, rfl⟩

theorem exists_reap (h : 0 < (k.proc child).pid) :
    ∃ k', reap k child = .ok k' ∧ k'.alive = Function.update k.alive child false := by
  obtain ⟨hashMap, hu⟩ := exists_unmapProc (k := k) h
  unfold reap
  rw [hu]
  exact ⟨_, rfl, rfl⟩

theorem Kernel.Tree.exists_waitTail (h : k.Tree n) (hb : k.Base) (hc : c ∈ k.cur.children)
    (hs : (k.proc c).state = .stopped) : ∃ child k', waitTail k = .ok k' ∧ (k.proc child).parent = some k.current ∧
      (k.proc child).state = .stopped ∧ k'.alive = Function.update k.alive child false := by
  have hstate : ∀ p, ((k.setCur { k.cur with signal := 0 }).proc p).state = (k.proc p).state := set_field _ rfl
  have hpid : ∀ p, ((k.setCur { k.cur with signal := 0 }).proc p).pid = (k.proc p).pid := set_pid rfl
  have hfind : findStopped (k.setCur { k.cur with signal := 0 }) k.cur.children =
      .ok (k.cur.children.find? fun p => (k.proc p).state = .stopped) := by
    have halive : ∀ p ∈ k.cur.children, (k.setCur { k.cur with signal := 0 }).alive p = true :=
      fun p hp => (h.unlinked k.current p hp).2.1
    rw [findStopped_eq halive]
    simp only [hstate]
  have hsome : (k.cur.children.find? fun p => (k.proc p).state = .stopped).isSome := by
    rw [List.find?_isSome]
    exact ⟨c, hc, decide_eq_true hs⟩
  obtain ⟨child, hchild⟩ := Option.isSome_iff_exists.mp hsome
  have hstopped : (k.proc child).state = .stopped := by simpa using List.find?_some hchild
  obtain ⟨-, halive, hparent⟩ := h.unlinked k.current child (List.mem_of_find?_eq_some hchild)
  have hpos : 0 < ((k.setCur { k.cur with signal := 0 }).proc child).pid := by
    rw [hpid]
    exact hb.pid_of_stopped (by rw [Proc.phase, hstopped]; rfl) halive
  obtain ⟨k', hreap, hk'⟩ := exists_reap hpos
  refine ⟨child, toUser k', ?_, hparent, hstopped, hk'⟩
  unfold waitTail
  dsimp only
  rw [setCur_cur, hfind, hchild]
  show reap _ child >>= _ = _
  rw [hreap]
  rfl

/-! ## The tree -/

/-- A freed process is in no list; in tidy runs the children of a process are those it is the parent of, each once, until
they are reaped, and `do_wait` frees one that has exited. -/
theorem process_tree_consistent (n : Nat) :
    (∀ k : Kernel, k.ReachBoot n → ∀ p, k.alive p = false → p ∉ k.procHead ∧ ∀ i, p ∉ k.hashMap i) ∧
    ∀ k : Kernel, k.ReachTidy n →
      (∀ p c, (k.proc p).children.count c = 1 ↔ (k.proc c).parent = some p ∧ n ≤ c ∧ k.alive c = true) ∧
      (∀ p, (k.proc p).children.Nodup) ∧
      (∀ p c, k.alive c = false → c ∉ (k.proc p).children) ∧
      ∀ c, n ≤ c → k.alive c = true → (k.proc c).parent = some k.current → (k.proc c).state = .stopped →
        ∃ child k', waitTail k = .ok k' ∧ (k.proc child).parent = some k.current ∧
          (k.proc child).state = .stopped ∧ k'.alive = Function.update k.alive child false := by
  refine ⟨fun k hk p hp => ?_, fun k hk => ?_⟩
  · obtain ⟨hkin, s₀, hinv⟩ := hk.kin
    exact hkin.listed.not_mem_of_freed hinv.base hp
  · obtain ⟨hkin, s₀, hinv⟩ := hk.kin
    have htree := hkin.tree trivial
    refine ⟨fun p c => htree.count_eq_one, htree.nodup, fun p c ha hc => ?_, fun c hn ha hp hs => ?_⟩
    · exact absurd (ha.symm.trans (htree.unlinked p c hc).2.1) (by decide)
    · have hcount : k.cur.children.count c = 1 := htree.linked k.current c hn ha hp
      exact htree.exists_waitTail hinv.base (List.count_pos_iff.mp (hcount ▸ Nat.one_pos)) hs

/-- The second of two modules forks and waits, and the child exits. -/
def forkAndExit : List Action :=
  [.timer, .call (.recv ipcAll default), .call (.fork ⟨true, true, default⟩), .resume, .call (.send 3 default), .resume,
    .resume, .call .wait, .resume, .call (.recv ipcAll default), .call (.exit 0 default), .resume,
    .call (.send 129 default), .resume]

/-- The child of the second module has exited, and the second module is running. -/
def Kernel.ChildExited (k : Kernel) : Prop :=
  k.alive 3 = true ∧ (k.proc 3).parent = some k.current ∧ (k.proc 3).state = .stopped ∧ k.current = 2

instance : DecidablePred Kernel.ChildExited := fun _ => inferInstanceAs (Decidable (_ ∧ _))

theorem process_tree_childExited : ∃ k : Kernel, k.ReachTidy 3 ∧ k.ChildExited ∧ (k.proc 2).children.count 3 = 1 ∧
    ∃ k', waitTail k = .ok k' := by
  have hexec : (procInit 24 [2, 3]).toOption.any (fun k => (exec Kernel.step (fun k a => k.PidLeft a ∧ k.Tidy a) k
      forkAndExit).any fun k => decide k.ChildExited) = true := by decide +kernel
  obtain ⟨k, hk, hexited⟩ := exists_boot_of_exec (by decide) (by decide) hexec
  obtain ⟨halive, hparent, hstate, hcur⟩ := id hexited
  obtain ⟨hcount, -, -, hwait⟩ := (process_tree_consistent 3).2 k hk
  obtain ⟨_, k', hk', -⟩ := hwait 3 (Nat.le_refl 3) halive hparent hstate
  exact ⟨k, hk, hexited, (hcount 2 3).mpr ⟨hcur ▸ hparent, Nat.le_refl 3, halive⟩, k', hk'⟩

/-- The child has been freed and is on the list of its parent. -/
def Kernel.Dangling (k : Kernel) : Prop := k.alive 3 = false ∧ (k.proc 2).children = [3]

instance : DecidablePred Kernel.Dangling := fun _ => inferInstanceAs (Decidable (_ ∧ _))

/-- The same run with the end of `do_wait`. -/
theorem reaped_child_listed : ∃ k : Kernel, k.ReachBoot 3 ∧ k.Dangling := by
  have hexec : (procInit 24 [2, 3]).toOption.any (fun k => (exec Kernel.step Kernel.PidLeft k
      (forkAndExit ++ [.resume])).any fun k => decide k.Dangling) = true := by decide +kernel
  exact exists_boot_of_exec (by decide) (by decide) hexec

end FengOS.Core
