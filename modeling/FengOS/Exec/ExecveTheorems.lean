import FengOS.Exec.Execve
import FengOS.Exec.Lemmas.Args
import FengOS.Mm.Lemmas.Alloc
import FengOS.Vfs.TableTheorems

/-!
# What `execve` leaves behind
-/

namespace FengOS.Exec

open FengOS.Lib
open FengOS.Mm (Machine Phdr freePage getZeroedPage virtual pageSize)

variable {env : ExecEnv} {x x' y : ExecSys} {fd r : Int} {fds : Nat → Bool} {objs : List Nat} {vars vars' : Mm.LoadVars}

/-! ## Requests of the call -/

theorem others_table {v w : Vfs.State} {p : Nat} {t : Vfs.Table} {calls : List Vfs.Call} (hv : v.Inv)
    (ht : v.table p = some t) (hothers : ∀ call ∈ calls, call.src ≠ p) (h : calls.foldlM Vfs.State.step v = some w) :
    w.Inv ∧ w.table p = some t := by
  induction calls generalizing v with
  | nil =>
    obtain rfl := Option.some.inj h
    exact ⟨hv, ht⟩
  | cons call calls ih =>
    rw [List.foldlM_cons] at h
    obtain ⟨u, hu, h⟩ := Option.bind_eq_some_iff.mp h
    have hsame := (hv.others hu (Ne.symm (hothers call List.mem_cons_self))).resolve_right (by simp [ht])
    exact ih (hv.step hu) (hsame.trans ht)
      (fun call hcall => hothers call (List.mem_cons_of_mem _ hcall)) h

structure Holding (pid : Nat) (fds : Nat → Bool) (objs : List Nat) (x : ExecSys) : Prop where
  inv : x.vfs.Inv
  table : ∃ t, x.vfs.table pid = some t ∧ ∀ fd, (t.files fd).isSome = fds fd
  objs : x.objs = objs

theorem Holding.machine (h : Holding env.pid fds objs x) (s : Machine) (mm : Mm.ProcMm) :
    Holding env.pid fds objs { x with machine := s, mm := mm } := ⟨h.inv, h.table, h.objs⟩

theorem Holding.onFile {request : Vfs.Request} (fd : Int)
    (hothers : ∀ n, ∀ call ∈ env.others n, call.src ≠ env.pid) (hx : Holding env.pid fds objs x)
    (hcall : ∃ call, x.vfs.process ⟨env.pid, request, env.fs x.nr⟩ = x.vfs.onFile env.pid fd call)
    (h : x.request env request = some (r, x')) : Holding env.pid fds objs x' := by
  simp only [ExecSys.request, Option.bind_eq_bind, Option.bind_eq_some_iff, Prod.exists, Option.pure_def,
    Option.some.injEq] at h
  obtain ⟨r, v, hv, w, hw, h⟩ := h
  obtain ⟨-, rfl⟩ := Prod.mk.inj h
  obtain ⟨call, hcall⟩ := hcall
  rw [hcall] at hv
  obtain ⟨t, ht, hfds⟩ := hx.table
  obtain ⟨t', hb, -, hfiles⟩ := Vfs.onFile_balanced hx.inv.owned hv
  obtain ⟨hinv, htable⟩ := others_table (hx.inv.onFile hv).inv hb.table (hothers x.nr) hw
  refine ⟨hinv, ⟨t', htable, fun i => ?_⟩, hx.objs⟩
  have hi := congrArg Option.isSome (hfiles i)
  rw [Option.isSome_map, Option.isSome_map, ht, Option.getD_some] at hi
  exact hi.trans (hfds i)

section
variable (hothers : ∀ n, ∀ call ∈ env.others n, call.src ≠ env.pid)
include hothers

theorem Holding.readExec {n : Nat} (hx : Holding env.pid fds objs x) (h : readExec env x fd n = some (r, x')) :
    Holding env.pid fds objs x' :=
  hx.onFile fd hothers ⟨fun d f => Vfs.moved (env.fs x.nr d.fsPid (.read n d.ino d.size f.pos)) f.pos, rfl⟩ h

theorem Holding.lseekExec {offset : Int} (hx : Holding env.pid fds objs x) (h : lseekExec env x fd offset = some (r, x')) :
    Holding env.pid fds objs x' :=
  hx.onFile fd hothers ⟨fun _ f => if offset < 0 then (-1, f.pos) else (offset, offset), rfl⟩ h

/-! ## Segments -/

theorem Holding.readPart (hx : Holding env.pid fds objs x) (h : readPart env fd x vars = some (x', vars')) :
    Holding env.pid fds objs x' := by
  rw [Exec.readPart] at h
  split at h
  · simp only [Option.bind_eq_bind, Option.bind_eq_some_iff, Prod.exists, Option.pure_def, Option.some.injEq] at h
    obtain ⟨n, y, hy, h⟩ := h
    obtain ⟨rfl, -⟩ := Prod.mk.inj h
    exact (hx.readExec hothers hy).machine _ _
  · obtain ⟨rfl, -⟩ := Prod.mk.inj (Option.some.inj h)
    exact hx

omit hothers in
theorem Holding.zeroPart (hx : Holding env.pid fds objs x) (h : zeroPart x vars = some (x', vars')) :
    Holding env.pid fds objs x' := by
  obtain ⟨r, -, he⟩ := Option.map_eq_some_iff.mp h
  obtain ⟨rfl, -⟩ := Prod.mk.inj he
  exact hx.machine _ _

theorem Holding.loadPages {n : Nat} (hx : Holding env.pid fds objs x) (h : loadPages env fd n x vars = some x') :
    Holding env.pid fds objs x' := by
  induction n generalizing x vars with
  | zero =>
    obtain rfl := Option.some.inj h
    exact hx
  | succ n ih =>
    simp only [Exec.loadPages, Option.bind_eq_bind, Option.bind_eq_some_iff, Prod.exists] at h
    obtain ⟨page, s, -, y, vars₁, hy, z, vars₂, hz, h⟩ := h
    exact ih (((hx.machine s x.mm).readPart hothers hy).zeroPart hz) h

theorem Holding.loadSegments {phdrs : List Phdr} (hx : Holding env.pid fds objs x)
    (h : loadSegments env fd phdrs x = some x') : Holding env.pid fds objs x' := by
  induction phdrs generalizing x with
  | nil =>
    obtain rfl := Option.some.inj h
    exact hx
  | cons phdr phdrs ih =>
    rw [Exec.loadSegments] at h
    split_ifs at h
    · exact ih hx h
    · simp only [Option.bind_eq_bind, Option.bind_eq_some_iff, Prod.exists] at h
      obtain ⟨r, y, hy, z, hz, h⟩ := h
      exact ih (((hx.machine x.machine _).lseekExec hothers hy).loadPages hothers hz) h

end

/-! ## The call -/

theorem Holding.kmalloc {size obj o : Nat} (hx : Holding env.pid fds objs x) (h : kmalloc x size obj = some (o, x')) :
    o ≠ 0 ∧ Holding env.pid fds (o :: objs) x' := by
  rw [Exec.kmalloc] at h
  split_ifs at h with hnull
  obtain ⟨rfl, rfl⟩ := Prod.mk.inj (Option.some.inj h)
  exact ⟨fun h => hnull (.inr h), hx.inv, hx.table, congrArg (obj :: ·) hx.objs⟩

theorem Holding.kfree {o : Nat} (hx : Holding env.pid fds objs x) (ho : o ≠ 0) :
    Holding env.pid fds (objs.erase o) (kfree x o) := by
  rw [Exec.kfree, if_neg ho]
  exact ⟨hx.inv, hx.table, congrArg (List.erase · o) hx.objs⟩

theorem Holding.newStack {argv envp endStack : Nat} (hx : Holding env.pid fds objs x)
    (h : newStack x argv envp = some (endStack, x')) : Holding env.pid fds objs x' := by
  simp only [Exec.newStack, Option.bind_eq_bind, Option.bind_eq_some_iff, Prod.exists, Option.pure_def, Option.some.injEq] at h
  obtain ⟨high, s₁, -, low, s₂, -, endStack', mem, -, h⟩ := h
  obtain ⟨-, rfl⟩ := Prod.mk.inj h
  exact hx.machine _ _

theorem Holding.keepArgs {argv envp argsbuf argv' envp' : Nat} (hx : Holding env.pid fds objs x)
    (h : keepArgs x argv envp = some (r, argsbuf, argv', envp', x')) : Holding env.pid fds objs x' := by
  simp only [Exec.keepArgs, Option.bind_eq_bind, Option.bind_eq_some_iff, Prod.exists, Option.pure_def, Option.some.injEq,
    Prod.mk.injEq] at h
  obtain ⟨page, s, -, ret, mem, a, e, -, -, -, -, -, rfl⟩ := h
  exact hx.machine _ x.mm

theorem Holding.loadProgram {ehdr argsbuf argv envp : Nat} {header : Ehdr} {out : Outcome}
    (hothers : ∀ n, ∀ call ∈ env.others n, call.src ≠ env.pid) (hx : Holding env.pid fds (ehdr :: objs) x) (hehdr : ehdr ≠ 0)
    (h : loadProgram env x fd ehdr header argsbuf argv envp = some (out, x')) :
    Holding env.pid fds objs x' ∧ out ≠ .failed := by
  simp only [Exec.loadProgram, Option.bind_eq_bind, Option.bind_eq_some_iff, Prod.exists, Option.pure_def,
    Option.some.injEq] at h
  obtain ⟨endStack, x₁, hx₁, table, x₂, hx₂, r₁, x₃, hx₃, r₂, x₄, hx₄, x₅, hx₅, h⟩ := h
  obtain ⟨rfl, rfl⟩ := Prod.mk.inj h
  obtain ⟨htable, hk⟩ := (hx.newStack hx₁).kmalloc hx₂
  have hl := ((hk.lseekExec hothers hx₃).readExec hothers hx₄).loadSegments hothers hx₅
  have herase : ((table :: ehdr :: objs).erase ehdr).erase table = objs := by
    rw [List.erase_cons]
    split
    · rename_i heq
      rw [beq_iff_eq.mp heq, List.erase_cons_head]
    · rw [List.erase_cons_head, List.erase_cons_head]
  have hfree := herase ▸ (hl.kfree hehdr).kfree htable
  exact ⟨hfree.machine _ _, by simp⟩

/-! ## Pages -/

theorem freePage_live {alloc : Mm.BuddySys} {addr : Nat} {l : Nat × Nat} (h : l ∈ (freePage alloc addr).live) :
    l ∈ alloc.live ∧ virtual l.1 ≠ Mm.pageLowerAlign addr := by
  simpa [freePage, Mm.BuddySys.free] using h

theorem freePage_zero {alloc : Mm.BuddySys} : freePage alloc 0 = alloc := by
  have hlive : alloc.live.filter (fun l => virtual l.1 ≠ Mm.pageLowerAlign 0) = alloc.live := by
    refine List.filter_eq_self.mpr fun l _ => ?_
    have : virtual l.1 ≠ Mm.pageLowerAlign 0 := by
      rw [show Mm.pageLowerAlign 0 = 0 from rfl, virtual, Mm.kernelOffset]
      omega
    simpa using this
  rw [freePage, Mm.BuddySys.free, hlive, Mm.freePages, if_pos rfl]

theorem keepArgs_live {argv envp argsbuf argv' envp' : Nat} (h : keepArgs x argv envp = some (r, argsbuf, argv', envp', x'))
    {l : Nat × Nat} (hl : l ∈ (freePage x'.machine.alloc argsbuf).live) : l ∈ x.machine.alloc.live := by
  simp only [keepArgs, getZeroedPage, Mm.BuddySys.alloc, Option.bind_eq_bind, Option.bind_eq_some_iff, Prod.exists,
    Option.pure_def, Option.some.injEq, Prod.mk.injEq] at h
  obtain ⟨page, s, hs, ret, mem, a, e, -, -, rfl, -, -, rfl⟩ := h
  obtain ⟨hl', hne⟩ := freePage_live hl
  cases halloc : Mm.allocPages x.machine.alloc.buddy 0 with
  | mk o b =>
    cases o with
    | none => simp [halloc] at hs
    | some p =>
      simp only [halloc, Option.some.injEq, Prod.mk.injEq] at hs
      obtain ⟨rfl, rfl⟩ := hs
      rw [Mm.pageLowerAlign_virtual] at hne
      rcases List.mem_cons.mp hl' with rfl | hl'
      · exact absurd rfl hne
      · exact hl'

/-! ## What is left -/

theorem openExec_cases {path : Vfs.CString} (hothers : ∀ n, ∀ call ∈ env.others n, call.src ≠ env.pid) (hx : x.vfs.Inv)
    (h : openExec env x path = some (fd, x')) : (0 ≤ fd ∧ ¬ OpenFails (env.fs x.nr) x.vfs env.pid path ∧
      x'.machine = x.machine ∧ ∃ k fds, descriptor x.vfs env.pid k = none ∧ fds k = true ∧ Holding env.pid fds x.objs x') ∨
    (fd < 0 ∧ OpenFails (env.fs x.nr) x.vfs env.pid path ∧ (∀ k, descriptor x'.vfs env.pid k = descriptor x.vfs env.pid k) ∧
      x'.machine = x.machine ∧ x'.mm = x.mm ∧ x'.objs = x.objs) := by
  simp only [openExec, ExecSys.request, Option.bind_eq_bind, Option.bind_eq_some_iff, Prod.exists, Option.pure_def,
    Option.some.injEq, Prod.mk.injEq] at h
  obtain ⟨ret, y, ⟨ret', v, hv, w, hw, rfl, rfl⟩, rfl, rfl⟩ := h
  obtain ⟨hk, hcases⟩ := Vfs.vfsOpen_cases hx path.2 (show Vfs.vfsOpen _ _ _ _ _ = _ from hv)
  rcases hcases with ⟨k, g, e, u, hk64, hnone, rfl, hlook, htable⟩ | ⟨rfl, htable, hfails⟩
  · obtain ⟨hinv, htable⟩ := others_table hk.inv htable (hothers x.nr) hw
    have hlt : k < 64 := hk64
    refine .inl ⟨?_, ?_, rfl, k, _, hnone, ?_, hinv, ⟨_, htable, fun _ => rfl⟩, rfl⟩
    · rw [toInt_eq (by omega) (by omega)]
      omega
    · rintro (hmissing | hfull)
      · rw [hlook] at hmissing
        cases hmissing
      · exact hfull k hk64 hnone
    · dsimp only
      rw [Function.update_self, Option.isSome_some]
  · obtain ⟨-, htable⟩ := others_table hk.inv htable (hothers x.nr) hw
    refine .inr ⟨by decide, ?_, fun k => ?_, rfl, rfl, rfl⟩
    · rcases hfails with ⟨u, hu⟩ | hfull
      · exact .inl (by rw [hu]; rfl)
      · exact .inr hfull
    · rw [descriptor, descriptor, htable, Option.getD_some]

theorem Holding.residue {out : Outcome} {k : Nat} (h : Holding env.pid fds objs x') (hk : descriptor x.vfs env.pid k = none)
    (hfd : fds k = true) : ¬ NoResidue env.pid x out x' := by
  intro hno
  obtain ⟨t, ht, hfds⟩ := h.table
  have hnone := hno.descriptors k hk
  rw [descriptor, ht, Option.getD_some] at hnone
  have hk' := hfds k
  rw [hnone, hfd] at hk'
  cases hk'

theorem request_machine {request : Vfs.Request} (h : x.request env request = some (r, x')) : x'.machine = x.machine := by
  simp only [ExecSys.request, Option.bind_eq_bind, Option.bind_eq_some_iff, Prod.exists, Option.pure_def, Option.some.injEq,
    Prod.mk.injEq] at h
  obtain ⟨ret, v, -, w, -, -, rfl⟩ := h
  rfl

theorem kmalloc_machine {size obj o : Nat} (h : kmalloc x size obj = some (o, x')) : x'.machine = x.machine := by
  rw [kmalloc] at h
  split_ifs at h
  obtain ⟨-, rfl⟩ := Prod.mk.inj (Option.some.inj h)
  rfl

theorem Holding.execFailed {ehdr argsbuf : Nat} {out : Outcome} (hx : Holding env.pid fds (ehdr :: objs) x) (hehdr : ehdr ≠ 0)
    (h : execFailed x ehdr argsbuf = (out, x')) :
    Holding env.pid fds objs x' ∧ x'.machine.alloc = freePage x.machine.alloc argsbuf := by
  obtain ⟨-, rfl⟩ := Prod.mk.inj h
  have hfree := (hx.kfree hehdr).machine ((Exec.kfree x ehdr).freePage argsbuf).machine (Exec.kfree x ehdr).mm
  rw [List.erase_cons_head] at hfree
  refine ⟨hfree, ?_⟩
  rw [Exec.kfree, if_neg hehdr]
  rfl

theorem Holding.execOpened {out : Outcome} {argv envp : Nat} (hothers : ∀ n, ∀ call ∈ env.others n, call.src ≠ env.pid)
    (hx : Holding env.pid fds objs x) (h : execOpened env x fd argv envp = some (out, x')) :
    Holding env.pid fds objs x' ∧ (out = .failed → ∀ l ∈ x'.machine.alloc.live, l ∈ x.machine.alloc.live) := by
  simp only [Exec.execOpened, Option.bind_eq_bind, Option.bind_eq_some_iff, Prod.exists, Option.pure_def] at h
  obtain ⟨ehdr, x₁, hx₁, n, x₂, hx₂, h⟩ := h
  obtain ⟨hehdr, hk⟩ := hx.kmalloc hx₁
  have hr := hk.readExec hothers hx₂
  have hmach : x₂.machine = x.machine := (request_machine hx₂).trans (kmalloc_machine hx₁)
  split_ifs at h
  · obtain ⟨hend, halloc⟩ := hr.execFailed hehdr (Option.some.inj h)
    rw [halloc, freePage_zero, hmach]
    exact ⟨hend, fun _ l hl => hl⟩
  · obtain ⟨hend, halloc⟩ := hr.execFailed hehdr (Option.some.inj h)
    rw [halloc, freePage_zero, hmach]
    exact ⟨hend, fun _ l hl => hl⟩
  · simp only [Option.bind_eq_some_iff, Prod.exists] at h
    obtain ⟨ret, argsbuf, argv', envp', x₃, hx₃, h⟩ := h
    have ha := hr.keepArgs hx₃
    split_ifs at h
    · obtain ⟨hend, halloc⟩ := ha.execFailed hehdr (Option.some.inj h)
      rw [halloc]
      exact ⟨hend, fun _ l hl => hmach ▸ keepArgs_live hx₃ hl⟩
    · obtain ⟨hend, hout⟩ := ha.loadProgram hothers hehdr h
      exact ⟨hend, fun h => absurd h hout⟩

/-- A call leaves nothing behind exactly if the program cannot be opened; otherwise the descriptor stays. -/
theorem execve_residue_iff {path : Vfs.CString} {argv envp : Nat} {out : Outcome} (hv : Vfs.Reach x.vfs)
    (hothers : ∀ n, ∀ call ∈ env.others n, call.src ≠ env.pid) (h : doExecve env x path argv envp = some (out, x')) :
    (NoResidue env.pid x out x' ↔ OpenFails (env.fs x.nr) x.vfs env.pid path) ∧ x'.objs = x.objs ∧
      (out = .failed → ∀ l ∈ x'.machine.alloc.live, l ∈ x.machine.alloc.live) := by
  obtain ⟨⟨fd, x₁⟩, hopen, h⟩ := Option.bind_eq_some_iff.mp h
  rcases openExec_cases hothers hv.inv hopen with ⟨hfd, hfails, hmach, k, fds, hk, hfdk, hx₁⟩ |
    ⟨hfd, hfails, hdesc, hmach, hmm, hobjs⟩
  · -- the descriptor stays to the end
    dsimp only at h
    rw [if_neg (by omega)] at h
    obtain ⟨hend, hlive⟩ := hx₁.execOpened hothers h
    exact ⟨⟨fun hno => absurd hno (hend.residue hk hfdk), fun h => absurd h hfails⟩, hend.objs, fun ho l hl => hmach ▸ hlive ho l hl⟩
  · dsimp only at h
    rw [if_pos hfd] at h
    obtain ⟨rfl, rfl⟩ := Prod.mk.inj (Option.some.inj h)
    have hmach' : ((kfree x₁ 0).freePage 0).machine = x.machine := by
      rw [ExecSys.freePage, kfree, if_pos rfl, hmach, freePage_zero]
    refine ⟨⟨fun _ => hfails, fun _ => ⟨fun k hk => (hdesc k).trans hk, hobjs, fun l hl => .inl (hmach' ▸ hl), fun _ => ?_⟩⟩,
      hobjs, fun _ l hl => hmach' ▸ hl⟩
    rw [hmach']
    exact ⟨hmm, fun a => ⟨rfl, rfl⟩⟩

def started : ExecSys where
  vfs := Vfs.mounted ⟨2, 0, 0⟩
  machine := ⟨fun _ => 0, ⟨⟨fun _ => ⟨false, false, none⟩, fun _ => [], []⟩, []⟩⟩
  mm := .fresh 0
  objs := []
  nr := 0

/-- Process 5 is alone and no server replies. -/
def alone : ExecEnv where
  pid := 5
  fs _ := Vfs.silent
  others _ := []
  data _ _ := 0
  ehdr := 1
  phdrTable := 2

theorem execve_residue_iff_missing : ∃ out x', doExecve alone started ⟨[0x73, 0x68], by decide⟩ 0 0 = some (out, x') ∧
    NoResidue 5 started out x' := by
  have hsome : (doExecve alone started ⟨[0x73, 0x68], by decide⟩ 0 0).isSome := by decide
  obtain ⟨⟨out, x'⟩, h⟩ := Option.isSome_iff_exists.mp hsome
  refine ⟨out, x', h, (execve_residue_iff (.init ⟨_, rfl⟩) (fun _ _ hcall => absurd hcall List.not_mem_nil) h).1.mpr ?_⟩
  exact .inl (by decide)

/-- The header of `dev` cannot be read. The call fails and leaves descriptor 3. -/
theorem execve_short_read : ∃ x', doExecve alone started ⟨Vfs.devName, by decide⟩ 0 0 = some (.failed, x') ∧
    ¬ NoResidue 5 started .failed x' := by
  have hrun : (doExecve alone started ⟨Vfs.devName, by decide⟩ 0 0).any
      (fun x => decide (x.1 = .failed ∧ (descriptor x.2.vfs 5 3).isSome)) = true := by decide
  obtain ⟨⟨out, x'⟩, h, hx⟩ := (Option.any_eq_true _ _).mp hrun
  obtain ⟨rfl, hfd⟩ := of_decide_eq_true hx
  refine ⟨x', h, fun hno => ?_⟩
  rw [hno.descriptors 3 (by decide)] at hfd
  cases hfd

end FengOS.Exec
