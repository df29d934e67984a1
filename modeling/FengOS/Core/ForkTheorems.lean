import FengOS.Core.Fork
import FengOS.Core.Lemmas.Kin
import FengOS.Mm.CopyTheorems

/-!
# A fork that fails is not clean
-/

namespace FengOS.Core

open FengOS.Lib FengOS.Mm

variable {memMap : Nat → Page} {nr fuel page order : Nat} {s : Machine} {alloc alloc' : BuddySys} {cur : ProcMm}
  {k k' : Kernel} {w w' : World} {retval : BitVec 64} {ret : Int}

/-! ## The block for the `proc_t` -/

theorem alloc_some (hinv : alloc.Inv memMap nr) (ho : order < maxOrder) (h : alloc.alloc order = (some page, alloc')) :
    alloc'.Inv memMap nr ∧ (∀ y, alloc'.Avail memMap nr y ↔ alloc.Avail memMap nr y ∧ ¬ InBlock order page y) ∧
      ∀ y, InBlock order page y → alloc.Avail memMap nr y := by
  rcases hinv.alloc_cases ho with he | ⟨p, b, he, hinv', -⟩
  · rw [he] at h
    cases h
  · rw [he] at h
    cases h
    have hnew : ∀ y, BuddySys.Allocated ⟨b, (page, order) :: alloc.live⟩ y ↔ InBlock order page y ∨ alloc.Allocated y := by
      intro y
      simp [BuddySys.Allocated]
    refine ⟨hinv', fun y => ?_, fun y hy => ⟨hinv'.usable y ((hnew y).mpr (.inl hy)), ?_⟩⟩
    · rw [BuddySys.Avail, hnew, BuddySys.Avail]
      tauto
    · rintro ⟨l, hl, hyl⟩
      exact (List.pairwise_cons.mp hinv'.disjoint).1 l hl y ⟨hy, hyl⟩

theorem freeCount_alloc (hinv : alloc.Inv memMap nr) (ho : order < maxOrder)
    (h : alloc.alloc order = (some page, alloc')) : alloc.freeCount nr = alloc'.freeCount nr + 2 ^ order := by
  obtain ⟨hinv', havail, hblock⟩ := alloc_some hinv ho h
  have hperm : ((List.range nr).filter fun y => alloc.FreePage y).Perm
      (((List.range nr).filter fun y => alloc'.FreePage y) ++ (List.range (2 ^ order)).map (page + ·)) := by
    have hin : ∀ y, y ∈ (List.range (2 ^ order)).map (page + ·) ↔ InBlock order page y := by
      intro y
      simp only [List.mem_map, List.mem_range, InBlock]
      constructor
      · rintro ⟨i, hi, rfl⟩
        omega
      · rintro ⟨hle, hlt⟩
        exact ⟨y - page, by omega, by omega⟩
    refine (List.perm_ext_iff_of_nodup (List.nodup_range.filter _) ?_).mpr fun y => ?_
    · refine List.nodup_append.mpr ⟨List.nodup_range.filter _, ?_, ?_⟩
      · exact List.nodup_range.map (fun a b he => Nat.add_left_cancel he)
      · rintro y hy z hz rfl
        exact ((havail y).mp ((mem_freeList hinv').mp hy)).2 ((hin y).mp hz)
    · rw [List.mem_append, mem_freeList hinv, mem_freeList hinv', hin, havail]
      constructor
      · intro hy
        by_cases hb : InBlock order page y
        · exact .inr hb
        · exact .inl ⟨hy, hb⟩
      · rintro (hy | hy)
        · exact hy.1
        · exact hblock y hy
  have hlength := hperm.length_eq
  rw [List.length_append, List.length_map, List.length_range] at hlength
  exact hlength

theorem agree_memset (hinv : s.alloc.Inv memMap nr) (ho : order < maxOrder) (h : s.alloc.alloc order = (some page, alloc')) :
    Agree memMap nr s (memset s.mem (virtual page) 0 (pageSize * (1 <<< order))) := by
  obtain ⟨-, -, hblock⟩ := alloc_some hinv ho h
  intro y hy b hb
  have hpos : pageSize * (1 <<< order) ≠ 0 := by
    rw [Nat.one_shiftLeft]
    exact Nat.mul_ne_zero (by decide) (Nat.two_pow_pos order).ne'
  rw [memset, if_neg hpos]
  refine Mem.write_apply ?_
  by_contra hin
  refine hy (hblock y ?_)
  rw [Nat.one_shiftLeft] at hin
  simp only [InFrame, virtual, pageSize] at hb hin
  exact ⟨by omega, by omega⟩

/-! ## The process table -/

theorem newProc_toOption (hglobal : 0 ≤ k.globalPid) (hpid : k.globalPid + 1 < ipcSignal) : (newProc k).toOption =
    if (k.cur.children.take 1).all k.alive then some (k.nextProc, newProcLinked k) else none := by
  rw [newProc, allocPid_eq hglobal hpid]
  dsimp only
  rw [Kernel.derefAll]
  split
  · rename_i hall
    have hall' : (k.cur.children.take 1).all k.alive = true := hall
    rw [if_pos hall']
    rfl
  · rename_i hall
    have hall' : ¬ (k.cur.children.take 1).all k.alive = true := hall
    rw [if_neg hall']
    rfl

theorem forkLink_zero {child : Nat} (hpid : 0 < (k.proc child).pid) (hne : k.current ≠ child) :
    ∃ k', forkLink k child { (default : Message) with retval := 0 } = .ok k' ∧
      (forkTail k' child).procHead = k.procHead ++ [child] ∧ (k'.proc child).pid = (k.proc child).pid ∧
      ((forkTail k' child).proc child).pid = (k.proc child).pid := by
  obtain ⟨i, hi, -⟩ := hashIndex_of_pos hpid
  let k₁ : Kernel :=
    { k with procHead := k.procHead ++ [child], hashMap := Function.update k.hashMap i (k.hashMap i ++ [child]) }
  refine ⟨k₁.setCur { k₁.cur with kont := .forkTail child }, ?_, ?_⟩
  · rw [forkLink, if_neg (by simp)]
    dsimp only
    rw [hashProc, hi]
    rfl
  · simp [k₁, forkTail, toUser, Kernel.setCur, Kernel.set, Kernel.cur, Function.update_of_ne hne.symm]

/-! ## The result -/

/-- There are pages for the `proc_t`, all tables and all pages, the file server agrees, and the first child is not gone. -/
structure ForkMet (memMap : Nat → Page) (nr : Nat) (w : World) (cur : ProcMm) (retval : BitVec 64) : Prop where
  block : ∃ p, w.machine.alloc.FreeRun memMap nr kernelStackOrder p
  pages : (treeNodes cur.ranges).length + 1 + 2 ^ kernelStackOrder ≤ w.machine.alloc.freeCount nr
  retval : retval = 0
  children : (w.kernel.cur.children.take 1).all w.kernel.alive = true

theorem forkFailed_children (hne : k.current ≠ k.nextProc) :
    (forkFailed (newProcLinked k) k.nextProc).cur.children = k.nextProc :: k.cur.children := by
  have hcur := newProcLinked_proc_current hne
  rw [forkFailed, toUser, Kernel.setCur, Kernel.set, Kernel.cur]
  dsimp only
  rw [Function.update_self]
  exact congrArg Proc.children hcur

theorem not_clean_of_faild (hne : w.kernel.current ≠ w.kernel.nextProc) {machine : Machine} {pgd : Option Nat}
    (h : forkProcess fuel w cur retval = some (faild ⟨newProcLinked w.kernel, machine⟩ w.kernel.nextProc page pgd)) :
    ¬ ForkClean fuel w cur retval := by
  rintro ⟨ret, w', h', hclean⟩
  rw [h] at h'
  obtain ⟨rfl, rfl⟩ := Prod.mk.inj (Option.some.inj h')
  rcases hclean with hforked | hrefused
  · have hhead : w.kernel.procHead = w.kernel.procHead ++ [w.kernel.nextProc] := hforked.1
    have hlength := congrArg List.length hhead
    simp at hlength
  · have hchildren := (forkFailed_children hne).symm.trans hrefused.children
    have hlength := congrArg List.length hchildren
    simp at hlength

theorem backed_after (hinv : s.alloc.Inv memMap nr) (hback : Backed s cur.pgd)
    (hranges : ∀ r ∈ cur.ranges, MappedRange s.mem cur.pgd r) (h : s.alloc.alloc kernelStackOrder = (some page, alloc')) :
    Backed ⟨memset s.mem (virtual page) 0 (pageSize * (1 <<< kernelStackOrder)), alloc'⟩ cur.pgd ∧
      ∀ r ∈ cur.ranges, MappedRange (memset s.mem (virtual page) 0 (pageSize * (1 <<< kernelStackOrder))) cur.pgd r := by
  have ho : kernelStackOrder < maxOrder := by decide
  have hagree := agree_memset hinv ho h
  obtain ⟨hinv', havail, -⟩ := alloc_some hinv ho h
  constructor
  · intro addr haddr a ha
    rw [BackedAt.walk_eq hinv (hback addr haddr) hagree haddr] at ha
    obtain ⟨f, rfl, hf⟩ := hback addr haddr a ha
    refine ⟨f, rfl, fun hfree => hf (hinv.freePage_iff.mpr ?_)⟩
    exact ((havail f).mp (hinv'.freePage_iff.mp hfree)).1
  · intro r hr
    obtain ⟨hstart, hlast, hle, hbound, hmapped⟩ := hranges r hr
    refine ⟨hstart, hlast, hle, hbound, fun a hlo hhi => ?_⟩
    rw [BackedAt.translate_eq hinv (hback a (by omega)) hagree (by omega)]
    exact hmapped a hlo hhi

def forkRest (k : Kernel) (child page : Nat) (retval : BitVec 64) : Option ProcMm × Machine → Option (Int × World)
  | (none, machine) => some (faild ⟨k, machine⟩ child page none)
  | (some mm, machine) =>
    if retval ≠ 0 then some (faild ⟨k, machine⟩ child page (some mm.pgd))
    else (forkLink k child { (default : Message) with retval := retval }).toOption.bind fun k' =>
      some ((k'.proc child).pid, ⟨forkTail k' child, machine⟩)

theorem forkProcess_eq {child : Nat} (hblock : w.machine.alloc.alloc kernelStackOrder = (some page, alloc'))
    (hproc : (newProc w.kernel).toOption = some (child, k)) : forkProcess fuel w cur retval =
    (copyMm fuel ⟨memset w.machine.mem (virtual page) 0 (pageSize * (1 <<< kernelStackOrder)), alloc'⟩ cur).bind
      (forkRest k child page retval) := by
  rw [forkProcess, hblock]
  dsimp only
  rw [hproc]
  rfl

theorem forkRest_zero (page : Nat) (hne : w.kernel.current ≠ w.kernel.nextProc) (hglobal : 0 ≤ w.kernel.globalPid) (mm : ProcMm)
    (machine : Machine) : ∃ ret w', forkRest (newProcLinked w.kernel) w.kernel.nextProc page 0 (some mm, machine) =
      some (ret, w') ∧ Forked w ret w' := by
  have hpid : ((newProcLinked w.kernel).proc w.kernel.nextProc).pid = w.kernel.globalPid + 1 := by
    rw [newProcLinked_proc_child hne]
    rfl
  have hpos : 0 < ((newProcLinked w.kernel).proc w.kernel.nextProc).pid := by omega
  obtain ⟨k', hlink, hhead, hret, htail⟩ := forkLink_zero hpos hne
  refine ⟨(k'.proc w.kernel.nextProc).pid, ⟨forkTail k' w.kernel.nextProc, machine⟩, ?_, hhead, hret.trans htail.symm, ?_⟩
  · rw [forkRest, if_neg (by simp), hlink]
    rfl
  · rw [hret]
    exact hpos

theorem clean_iff_copied {m₀ : Machine} (hne : w.kernel.current ≠ w.kernel.nextProc) (hglobal : 0 ≤ w.kernel.globalPid)
    (hfork : forkProcess fuel w cur retval =
      (copyMm fuel m₀ cur).bind (forkRest (newProcLinked w.kernel) w.kernel.nextProc page retval)) :
    ForkClean fuel w cur retval ↔ (∃ mm s', copyMm fuel m₀ cur = some (some mm, s')) ∧ retval = 0 := by
  cases hcopy : copyMm fuel m₀ cur with
  | none =>
    rw [hcopy] at hfork
    refine iff_of_false ?_ fun ⟨⟨_, _, h⟩, _⟩ => (nomatch h)
    rintro ⟨ret, w', h', -⟩
    rw [hfork] at h'
    cases h'
  | some r =>
    obtain ⟨mm, machine⟩ := r
    rw [hcopy, Option.bind_some] at hfork
    cases mm with
    | none => exact iff_of_false (not_clean_of_faild hne hfork) fun ⟨⟨_, _, h⟩, _⟩ => (nomatch h)
    | some mm =>
      by_cases hretval : retval = 0
      · subst hretval
        obtain ⟨ret, w', hrest, hforked⟩ := forkRest_zero page hne hglobal mm machine
        exact iff_of_true ⟨ret, w', hfork.trans hrest, .inl hforked⟩ ⟨⟨mm, machine, rfl⟩, rfl⟩
      · rw [forkRest, if_pos hretval] at hfork
        exact iff_of_false (not_clean_of_faild hne hfork) fun ⟨_, h⟩ => hretval h

/-- A `do_fork` in which something fails is never clean; any other makes the child. -/
theorem fork_clean_iff (halloc : BuddySys.Reach memMap nr w.machine.alloc) (hnr : nr < 2 ^ 32)
    (hback : Backed w.machine cur.pgd) (hranges : ∀ r ∈ cur.ranges, MappedRange w.machine.mem cur.pgd r)
    (hne : w.kernel.current ≠ w.kernel.nextProc) (hglobal : 0 ≤ w.kernel.globalPid)
    (hpid : w.kernel.globalPid + 1 < ipcSignal) (hfuel : pageCount cur.ranges < fuel) :
    ForkClean fuel w cur retval ↔ ForkMet memMap nr w cur retval := by
  have hinv := halloc.inv
  have hnr' : nr ≤ maxFrame := Nat.le_trans (Nat.le_of_lt hnr) (by decide)
  have ho : kernelStackOrder < maxOrder := by decide
  have hrun := hinv.exists_alloc_iff ho
  cases hblock : w.machine.alloc.alloc kernelStackOrder with
  | mk r alloc' =>
    cases r with
    | none =>
      have hfork : forkProcess fuel w cur retval = some (0, ⟨toUser w.kernel, w.machine⟩) := by
        rw [forkProcess, hblock]
      refine iff_of_false ?_ fun hmet => ?_
      · rintro ⟨ret, w', h', hclean⟩
        rw [hfork] at h'
        cases h'
        rcases hclean with hforked | hrefused
        · exact Int.lt_irrefl 0 hforked.2.2
        · exact Int.lt_irrefl 0 hrefused.ret
      · obtain ⟨page, s', hsome⟩ := hrun.mpr hmet.block
        rw [hblock] at hsome
        cases hsome
    | some page =>
      obtain ⟨hback', hranges'⟩ := backed_after hinv hback hranges hblock
      have hcopy := copyMm_iff (alloc_some hinv ho hblock).1 hnr' hback' hranges' hfuel
      have hcount := freeCount_alloc hinv ho hblock
      have hproc := newProc_toOption hglobal hpid
      by_cases hchildren : (w.kernel.cur.children.take 1).all w.kernel.alive = true
      · rw [if_pos hchildren] at hproc
        rw [clean_iff_copied hne hglobal (forkProcess_eq hblock hproc), hcopy]
        dsimp only
        constructor
        · rintro ⟨hpages, hretval⟩
          exact ⟨hrun.mp ⟨page, alloc', hblock⟩, by omega, hretval, hchildren⟩
        · intro hmet
          have hpages := hmet.pages
          exact ⟨by omega, hmet.retval⟩
      · rw [if_neg hchildren] at hproc
        have hfork : forkProcess fuel w cur retval = none := by
          rw [forkProcess, hblock]
          dsimp only
          rw [hproc]
          rfl
        refine iff_of_false ?_ fun hmet => hchildren hmet.children
        rintro ⟨ret, w', h', -⟩
        rw [hfork] at h'
        cases h'

/-! ### A small world -/

def forkKernel : Kernel :=
  { proc := fun _ => Proc.unused, alive := fun p => p == 1, procHead := [1], hashMap := fun _ => [], current := 1
    globalPid := 128, nextProc := 2, maxIntr := 0, hwProc := fun _ => 0, log := [] }

def forkWorld : World := ⟨forkKernel, sixteenFramesMachine⟩

def emptyMm : ProcMm := ⟨0, virtual 0, [], 0, 0, 0, 0⟩

/-- A process with one page forks. -/
theorem fork_clean_iff_onePage : ∃ s, mapPages (virtual 0) sixteenFramesMachine [0x1000] = some ([virtual 4], s) ∧
    ForkClean 2 ⟨forkKernel, s⟩ onePageMm 0 := by
  obtain ⟨s, hmaps, hcount, ⟨p, hblock⟩, hreach, hback, hranges⟩ := exists_onePage
  have hpages : (treeNodes onePageMm.ranges).length + 1 + 2 ^ kernelStackOrder ≤ s.alloc.freeCount 16 := by
    rw [hcount]
    decide
  have hrun := (hreach.inv.exists_alloc_iff (show 1 < maxOrder by decide)).mp ⟨p, (s.alloc.alloc 1).2, Prod.ext hblock rfl⟩
  refine ⟨s, hmaps, (fork_clean_iff (w := ⟨forkKernel, s⟩) hreach (by decide) hback hranges ?_ ?_ ?_ (by decide)).mpr
    ⟨hrun, hpages, rfl, rfl⟩⟩
  · exact show forkKernel.current ≠ forkKernel.nextProc by decide
  · exact show 0 ≤ forkKernel.globalPid by decide
  · exact show forkKernel.globalPid + 1 < ipcSignal by decide

/-- The file server refuses: the child is gone, but stays on the list. Without pages the parent gets 0. -/
theorem fork_leaves_child :
    (∃ w', forkProcess 1 forkWorld emptyMm 1 = some (-1, w') ∧ forkWorld.kernel.cur.children = [] ∧
      w'.kernel.cur.children = [2] ∧ w'.kernel.alive 2 = false) ∧
    ∃ w', forkProcess 1 ⟨forkKernel, ⟨fun _ => 0, BuddySys.init firstReserved 0⟩⟩ emptyMm 0 = some (0, w') := by
  exact ⟨⟨_, rfl, rfl, rfl, rfl⟩, _, rfl⟩

end FengOS.Core
