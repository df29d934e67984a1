import FengOS.Ext2.Lemmas.Cache
import FengOS.Vfs.RepliesTheorems
import FengOS.Vfs.Sizes

/-!
# Sizes in the dentries and in the inodes
-/

namespace FengOS.Vfs

open FengOS.Lib

variable {s s' : Servers} {o : Op} {v w : State} {fs fs' fs₁ fs₂ : Ext2.Fs} {d fuel : Nat} {n : Name} {ns : List Name}
  {cur r : Option Nat} {buf : Nat → UInt8} {δ : Nat → Int} {fd : Int} {fsp : ProcFile}

/-! ## Inodes that are held -/

/-- The inode of every dentry of ext2 is in the map, with the size that the dentry has. -/
def Held (v : State) (fs : Ext2.Fs) : Prop :=
  ∀ d, (v.dentry d).fsPid = ipcExt2 →
    ∃ inode, fs.cache (v.dentry d).ino = some inode ∧ Ext2.iSize inode = (v.dentry d).size

theorem Held.counted (h : Held v fs) (hc : Counted v w δ) : Held w fs := by
  intro d hd
  rw [hc.dentry] at hd ⊢
  exact h d hd

theorem Held.of_dentry (h : Held v fs) (hd : w.dentry = v.dentry) : Held w fs := by
  unfold Held
  rw [hd]
  exact h

theorem Held.loaded (h : Held v fs) (hl : Ext2.Loaded fs fs') : Held v fs' := by
  intro d hd
  obtain ⟨inode, hcache, hsize⟩ := h d hd
  exact ⟨inode, hl.of_cache hcache, hsize⟩

theorem Held.keepsSize {ino : Nat} (h : Held v fs) (hk : Ext2.KeepsSize ino fs fs') : Held v fs' := by
  intro d hd
  obtain ⟨inode, hcache, hsize⟩ := h d hd
  by_cases hino : (v.dentry d).ino = ino
  · rw [hino] at hcache ⊢
    obtain ⟨inode', hcache', hsize'⟩ := hk.size inode hcache
    exact ⟨inode', hcache', hsize'.trans hsize⟩
  · rw [hk.other _ hino]
    exact ⟨inode, hcache, hsize⟩

theorem Held.addChild {entry : FsEntry} (h : Held v fs)
    (hentry : (v.dentry d).fsPid = ipcExt2 → ∃ inode, fs.cache entry.ino = some inode ∧ Ext2.iSize inode = entry.size) :
    Held (v.addChild d n entry) fs := by
  intro e he
  simp only [State.addChild, Function.update_apply] at he ⊢
  split
  · rename_i hed
    rw [if_pos hed] at he
    exact h d he
  · rename_i hed
    rw [if_neg hed] at he
    split
    · rename_i hnew
      rw [if_pos hnew] at he
      exact hentry he
    · rename_i hnew
      rw [if_neg hnew] at he
      exact h e he

theorem Held.fileSize (h : Held v fs) (hd : (v.dentry d).fsPid = ipcExt2) :
    (v.dentry d).size = Ext2.fileSize fs (v.dentry d).ino := by
  obtain ⟨inode, hcache, hsize⟩ := h d hd
  rw [Ext2.fileSize_of_cache hcache, hsize]

/-! ## Lookups -/

theorem serveAll_append {msgs msgs' : List (Nat × FsMsg)} : serveAll fuel buf fs (msgs ++ msgs') =
    (serveAll fuel buf fs msgs).bind fun fs => serveAll fuel buf fs msgs' := by
  induction msgs generalizing fs with
  | nil => rfl
  | cons m msgs ih =>
    obtain ⟨pid, msg⟩ := m
    simp only [List.cons_append, serveAll, ih]
    split
    · rw [Option.bind_assoc]
    · rfl

theorem serve_loaded (fuel : Nat) (buf : Nat → UInt8) (n : Name) (pino : Nat) (h : Ext2.Loaded fs fs') :
    (serve fuel buf fs' (.lookup n pino)).map Prod.fst = (serve fuel buf fs (.lookup n pino)).map Prod.fst := by
  have hanswer := congrArg (Option.map fun e : Option Ext2.Dentry =>
    (e.elim ⟨-1, ⟨0, 0, 0⟩⟩ fun e => ⟨0, ⟨e.fIno, e.fSize, e.fMode⟩⟩ : FsReply)) (h.ext2Lookup (fs.sb.blockSize + 1) fuel n pino)
  simpa only [serve, h.sb, Option.map_map, Function.comp_def] using hanswer

theorem serve_lookup {pino : Nat} {reply : FsReply} (h : serve fuel buf fs (.lookup n pino) = some (reply, fs')) :
    Ext2.Loaded fs fs' ∧ (reply.retval = 0 → ∃ inode, fs'.cache reply.dentry.ino = some inode ∧
      Ext2.iSize inode = reply.dentry.size) := by
  obtain ⟨⟨entry, fs''⟩, hlookup, he⟩ := Option.map_eq_some_iff.mp h
  obtain ⟨rfl, rfl⟩ := Prod.mk.inj he
  obtain ⟨hloaded, hentry⟩ := Ext2.ext2Lookup_loaded hlookup
  refine ⟨hloaded, fun hret => ?_⟩
  cases entry with
  | none => cases hret
  | some e => exact hentry e rfl

def childMsgs (v : State) (d : Nat) (n : Name) : List (Nat × FsMsg) :=
  if v.cached d n = none then [((v.dentry d).fsPid, .lookup n (v.dentry d).ino)] else []

theorem child_new {answers : Fs} (hc : v.cached d n = none) (h : child answers v d n = some (r, w)) :
    w = v ∨ ∃ reply, answers (v.dentry d).fsPid (.lookup n (v.dentry d).ino) = some reply ∧ reply.retval = 0 ∧
      w = v.addChild d n reply.dentry := by
  rw [child, hc] at h
  dsimp only at h
  rw [vfsLookupInFs] at h
  split at h
  · cases h
    exact .inl rfl
  · rename_i reply hreply
    split_ifs at h with hret hlen
    · cases h
      exact .inl rfl
    · cases h
      exact .inr ⟨reply, hreply, not_not.mp hret, rfl⟩

theorem Held.child (hl : Ext2.Loaded s.ext2 fs₁) (hv : Held v fs₁) (h : child (s.answers o) v d n = some (r, w))
    (hserve : serveAll o.fuel o.op.buf fs₁ (childMsgs v d n) = some fs₂) : Ext2.Loaded fs₁ fs₂ ∧ Held w fs₂ := by
  unfold childMsgs at hserve
  split at hserve
  · rename_i hc
    rw [serveAll] at hserve
    split at hserve
    · -- a lookup in ext2
      rename_i hpid
      obtain ⟨⟨reply, fs₂'⟩, hreply, he⟩ := Option.bind_eq_some_iff.mp hserve
      obtain rfl := Option.some.inj he
      obtain ⟨hloaded, hentry⟩ := serve_lookup hreply
      refine ⟨hloaded, ?_⟩
      rcases child_new hc h with rfl | ⟨reply', hreply', hret, rfl⟩
      · exact hv.loaded hloaded
      · -- the answer is the one that the walk has got
        have hsame := serve_loaded o.fuel o.op.buf n (v.dentry d).ino hl
        rw [hreply, Option.map_some] at hsame
        rw [Servers.answers, if_pos hpid, ← hsame] at hreply'
        obtain rfl := Option.some.inj hreply'
        exact (hv.loaded hloaded).addChild fun _ => hentry hret
    · -- another server
      rename_i hpid
      obtain rfl := Option.some.inj hserve
      refine ⟨.refl, ?_⟩
      rcases child_new hc h with rfl | ⟨reply, -, -, rfl⟩
      · exact hv
      · exact hv.addChild fun hpid' => absurd hpid' hpid
  · rename_i hc
    obtain rfl := Option.some.inj hserve
    refine ⟨.refl, ?_⟩
    obtain ⟨c, hc⟩ := Option.ne_none_iff_exists'.mp hc
    rw [Vfs.child, hc] at h
    cases h
    exact hv.counted Counted.addCount

theorem lookupMsgs_name {answers : Fs} (hlen : n.length < filenameSize) (hup : n ≠ dotdot) (hdot : n ≠ dot) :
    lookupMsgs answers (n :: ns) (some d) v = childMsgs v d n ++
      match child answers v d n with
      | some (some next, v) => lookupMsgs answers ns (some next) v
      | _ => [] := by
  rw [lookupMsgs, if_neg (Nat.not_le.mpr hlen), if_neg hup, if_neg hdot]
  rfl

theorem Held.walk (hl : Ext2.Loaded s.ext2 fs₁) (hv : Held v fs₁) (h : lookupLoop (s.answers o) ns cur v = some (r, w))
    (hserve : serveAll o.fuel o.op.buf fs₁ (lookupMsgs (s.answers o) ns cur v) = some fs₂) : Held w fs₂ := by
  induction ns generalizing cur v fs₁ with
  | nil =>
    cases h
    cases hserve
    exact hv
  | cons n ns ih =>
    cases cur with
    | none =>
      obtain ⟨-, rfl, hdots⟩ := lookupLoop_none h
      have hdot := hdots n List.mem_cons_self
      subst hdot
      rw [lookupLoop_dot rfl] at h
      rw [lookupMsgs, if_neg (by decide), if_neg (by decide), if_pos rfl] at hserve
      exact ih hl hv h hserve
    | some d =>
      by_cases hup : n = dotdot
      · rw [lookupLoop_dotdot hup] at h
        subst hup
        rw [lookupMsgs, if_neg (by decide), if_pos rfl] at hserve
        exact ih hl hv h hserve
      by_cases hdot : n = dot
      · rw [lookupLoop_dot hdot] at h
        subst hdot
        rw [lookupMsgs, if_neg (by decide), if_neg (by decide), if_pos rfl] at hserve
        exact ih hl hv h hserve
      by_cases hlen : filenameSize ≤ n.length
      · rw [lookupLoop, if_pos hlen] at h
        cases h
      rw [lookupLoop_name (Nat.not_le.mp hlen) hup hdot] at h
      rw [lookupMsgs_name (Nat.not_le.mp hlen) hup hdot, serveAll_append] at hserve
      obtain ⟨fs', hfirst, hrest⟩ := Option.bind_eq_some_iff.mp hserve
      cases hchild : Vfs.child (s.answers o) v d n with
      | none =>
        rw [hchild] at h
        cases h
      | some result =>
        obtain ⟨next, u⟩ := result
        obtain ⟨hl', hu⟩ := hv.child hl hchild hfirst
        rw [hchild] at h hrest
        cases next with
        | none =>
          cases h
          cases hrest
          exact hu
        | some e => exact ih (hl.trans hl') hu h hrest

/-! ## Requests -/

theorem Servers.process_cases {ret : Int} (h : s.process o = some (ret, s')) :
    s.vfs.process (s.call o) = some (ret, s'.vfs) ∧
      serveAll o.fuel o.op.buf s.ext2 (s.vfs.forwarded (s.call o)) = some s'.ext2 := by
  simp only [Servers.process, Option.bind_eq_bind, Option.bind_eq_some_iff, Option.pure_def, Option.some.injEq,
    Prod.exists, Prod.mk.injEq] at h
  obtain ⟨r, v, hv, fs, hfs, rfl, rfl⟩ := h
  exact ⟨hv, hfs⟩

theorem openFile_neg {pid : Nat} : v.openFile pid (-1) = none := by
  unfold State.openFile State.getfilp
  cases v.needProcFile pid <;> rfl

theorem openFile_eq {p i : Nat} (hp : v.mapProcFile p = some fsp) (hi : i < nrFiles) :
    v.openFile p i = ((fsp.filp i).bind v.file).map fun f => (v.dentry f.dentry, f) := by
  have hget : v.getfilp p i = some (fsp.filp i, v) := by
    have hrange : 0 ≤ (i : Int) ∧ (i : Int) < nrFiles := ⟨Int.natCast_nonneg i, Int.ofNat_lt.mpr hi⟩
    rw [State.getfilp, State.needProcFile, hp]
    simp only [Option.bind_eq_bind, Option.bind_some, if_pos hrange, Int.toNat_natCast]
    rfl
  rw [State.openFile, hget]
  cases hx : fsp.filp i with
  | none => rfl
  | some x => cases hf : v.file x <;> simp [hf]

theorem openEntry_dentry {entry oflag : Nat} (h : v.openEntry fsp entry oflag = (fd, w)) :
    w.dentry = (v.addCount entry 1).dentry := by
  rw [openEntry_eq] at h
  split at h <;> cases h <;> rfl

theorem openEntry_append {p entry oflag : Nat} {e : Dentry} {f : File}
    (hp : v.mapProcFile p = some fsp) (happend : oflag &&& oAppend ≠ 0) (h : v.openEntry fsp entry oflag = (fd, w))
    (hfile : w.openFile p fd = some (e, f)) : e = w.dentry entry ∧ f.pos = e.size := by
  rw [openEntry_eq] at h
  cases hfree : fsp.freeFd with
  | none =>
    rw [hfree] at h
    cases h
    rw [openFile_neg] at hfile
    cases hfile
  | some i =>
    rw [hfree] at h
    cases h
    obtain ⟨hi, -⟩ := freeFd_spec hfree
    obtain rfl := mapProcFile_pid hp
    have hp' : (v.opened entry oflag).mapProcFile (fsp.setFilp i (some v.nrFile)).pid = some fsp := hp
    have hset : ((v.opened entry oflag).setProcFile (fsp.setFilp i (some v.nrFile))).mapProcFile fsp.pid =
      some (fsp.setFilp i (some v.nrFile)) := (mapProcFile_set hp').trans (if_pos rfl)
    have hslot : (fsp.setFilp i (some v.nrFile)).filp i = some v.nrFile := Function.update_self ..
    have hnew : ((v.opened entry oflag).setProcFile (fsp.setFilp i (some v.nrFile))).file v.nrFile =
      some (v.openedFile entry oflag) := Function.update_self ..
    rw [openFile_eq hset hi, hslot, Option.bind_some, hnew, Option.map_some] at hfile
    cases hfile
    refine ⟨rfl, ?_⟩
    have hsize : (((v.opened entry oflag).setProcFile (fsp.setFilp i (some v.nrFile))).dentry entry).size =
      ((v.addCount entry 1).dentry entry).size := rfl
    rw [State.openedFile, if_pos happend]
    dsimp only
    rw [hsize, addCount_dentry]

theorem Held.open {filepath : CString} {oflag : Nat} (hinv : s.vfs.Inv) (hheld : Held s.vfs s.ext2)
    (hop : o.op = .open filepath oflag) (hv : s.vfs.process (s.call o) = some (fd, w))
    (hserve : serveAll o.fuel o.op.buf s.ext2 (s.vfs.forwarded (s.call o)) = some fs') :
    Held w fs' ∧ (oflag &&& oAppend ≠ 0 → ∀ e f, w.openFile o.src fd = some (e, f) → ∃ d, e = w.dentry d ∧ f.pos = e.size) := by
  have hreq : (s.call o).request = .open filepath oflag := by
    rw [Servers.call, hop]
    rfl
  rw [State.process, hreq] at hv
  dsimp only at hv
  simp only [vfsOpen, Option.bind_eq_bind, Option.bind_eq_some_iff, Option.pure_def, Prod.exists] at hv
  obtain ⟨fsp, u, hneed, r, u', hlook, hv⟩ := hv
  obtain ⟨hk, hp, hcwd⟩ := hinv.need hneed
  obtain ⟨-, hb⟩ := needProcFile_balanced hinv.owned hneed
  have hlooked := (hk.inv.lookup hcwd filepath.2 hlook).2.1
  have hmsgs : s.vfs.forwarded (s.call o) = lookupMsgs (s.answers o) (pathNames filepath)
      (some (u.start fsp.cwd filepath)) u := by
    rw [State.forwarded, hreq]
    dsimp only
    rw [State.pathMsgs, State.lookups, hreq]
    dsimp only
    rw [hneed]
    exact List.append_nil _
  rw [hmsgs] at hserve
  rw [vfsLookup_eq] at hlook
  have hheld' : Held u' fs' := (hheld.counted hb.counted).walk .refl hlook hserve
  cases r with
  | none =>
    cases hv
    refine ⟨hheld', fun _ e f hfile => ?_⟩
    rw [openFile_neg] at hfile
    cases hfile
  | some entry =>
    have hentry := Option.some.inj hv
    refine ⟨?_, fun happend e f hfile => ⟨entry, openEntry_append (hlooked.mapProcFile.trans hp) happend hentry hfile⟩⟩
    exact (hheld'.counted Counted.addCount).of_dentry (openEntry_dentry hentry)

theorem Held.close {fd ret : Int} (hinv : v.Inv) (hheld : Held v fs) {p : Nat} (h : vfsClose v p fd = some (ret, w)) :
    Held w fs := by
  rcases vfsClose_cases hinv.owned h with rfl | ⟨fsp, -, hb⟩
  · exact hheld
  · exact hheld.counted hb.counted

theorem Held.write {size : Nat} {buf : Nat → UInt8} (hheld : Held s.vfs s.ext2) (hop : o.op = .write fd size buf)
    (hok : WritesNothing s o) (hserve : serveAll o.fuel o.op.buf s.ext2 (s.vfs.forwarded (s.call o)) = some fs') :
    Held s.vfs fs' := by
  have hreq : (s.call o).request = .write fd size := by
    rw [Servers.call, hop]
    rfl
  rw [State.forwarded, hreq] at hserve
  dsimp only at hserve
  rw [WritesNothing, hop] at hok
  cases hfile : s.vfs.openFile (s.call o).src fd with
  | none =>
    rw [hfile] at hserve
    cases hserve
    exact hheld
  | some r =>
    obtain ⟨d, f⟩ := r
    rw [hfile] at hserve
    simp only [Option.toList_some, List.map_cons, List.map_nil, serveAll] at hserve
    split at hserve
    · rename_i hpid
      obtain ⟨⟨reply, fs''⟩, hreply, he⟩ := Option.bind_eq_some_iff.mp hserve
      obtain rfl := Option.some.inj he
      obtain ⟨⟨r, fs''⟩, hwrite, he⟩ := Option.map_eq_some_iff.mp hreply
      obtain ⟨-, rfl⟩ := Prod.mk.inj he
      exact hheld.keepsSize (Ext2.keepsSize_ext2Write (hok d f hfile hpid) hwrite)
    · cases hserve
      exact hheld

theorem Held.process {ret : Int} (hinv : s.vfs.Inv) (hheld : Held s.vfs s.ext2) (hok : WritesNothing s o)
    (h : s.process o = some (ret, s')) : Held s'.vfs s'.ext2 := by
  obtain ⟨hv, hserve⟩ := Servers.process_cases h
  cases hop : o.op with
  | «open» filepath oflag => exact (hheld.open hinv hop hv hserve).1
  | write fd size buf =>
    have hwrite := hheld.write hop hok hserve
    rw [State.process, Servers.call, hop] at hv
    obtain ⟨t, hb, -⟩ := onFile_balanced hinv.owned hv
    exact hwrite.counted hb.counted
  | lseek fd offset whence =>
    rw [State.forwarded, Servers.call, hop] at hserve
    rw [← show s.ext2 = s'.ext2 from Option.some.inj hserve]
    rw [State.process, Servers.call, hop] at hv
    obtain ⟨t, hb, -⟩ := onFile_balanced hinv.owned hv
    exact hheld.counted hb.counted
  | close fd =>
    rw [State.forwarded, Servers.call, hop] at hserve
    rw [← show s.ext2 = s'.ext2 from Option.some.inj hserve]
    rw [State.process, Servers.call, hop] at hv
    exact hheld.close hinv hv

/-! ## Runs -/

theorem Servers.Booted.held (h : s.Booted) : Held s.vfs s.ext2 := by
  obtain ⟨disk, bad, junk, hmount, hvfs⟩ := h
  obtain ⟨inode, hcache⟩ := Ext2.ext2Mount_cache hmount
  intro d hd
  rw [hvfs, mounted_dentry] at hd ⊢
  split_ifs at hd ⊢ with h₀ h₁ h₂ h₃
  · exact ⟨inode, hcache, (Ext2.fileSize_of_cache hcache).symm⟩
  · cases hd
  · cases hd
  · cases hd
  · cases hd

/-- If nothing is written to files of ext2, the sizes agree in every state of every run. -/
theorem sizes_agree (s : Servers) (h : Run Servers.step WritesNothing Servers.Booted s) : SizesAgree s := by
  have hinvariant : s.vfs.Inv ∧ Held s.vfs s.ext2 := by
    refine h.invariant (Q := fun s => s.vfs.Inv ∧ Held s.vfs s.ext2) ?_ ?_
    · intro s hs
      obtain ⟨disk, bad, junk, hmount, hvfs⟩ := id hs
      exact ⟨hvfs ▸ mounted_inv _, hs.held⟩
    · rintro s o s' ⟨hinv, hheld⟩ hok hstep
      obtain ⟨⟨ret, s''⟩, hprocess, rfl⟩ := Option.map_eq_some_iff.mp hstep
      have hv := (Servers.process_cases hprocess).1
      exact ⟨hinv.step (Option.map_eq_some_iff.mpr ⟨_, hv, rfl⟩), hheld.process hinv hok hprocess⟩
  obtain ⟨hinv, hheld⟩ := hinvariant
  refine ⟨fun d hd => hheld.fileSize hd, ?_⟩
  intro o filepath oflag fd s' hop happend hprocess e f hfile hpid
  obtain ⟨hv, hserve⟩ := Servers.process_cases hprocess
  obtain ⟨hheld', hend⟩ := hheld.open hinv hop hv hserve
  obtain ⟨d, rfl, hpos⟩ := hend happend e f hfile
  rw [hpos, hheld'.fileSize hpid]

/-! ### A file of one byte -/

/-- An image with the root directory in block 6; the blocks before it and the first two inodes are in use. -/
def rootImage (bitmap : Nat) : Mem :=
  (((Ext2.smallImage 1 0 16384 bitmap).store (4 * 2048) 3 1).store (5 * 2048 + 128 + 40) 6 4).write (6 * 2048)
    (Ext2.newdirBlock 2048 2 2) 2048

def fileImage : Mem :=
  let entry : Mem := ((((rootImage 255).store 12304 12 2).store 12312 3 4).store 12316 2024 2).store 12318 1 1
  (((entry.store 12320 97 1).store 10500 1 4).store 10524 4 4).store 10536 7 4

def openAppend (pid : Nat) : Op := ⟨pid, .open ⟨[slash, 97], by decide⟩ oAppend, fun _ _ => none, 2⟩

def writeByte (pid : Nat) (c : UInt8) : Op := ⟨pid, .write 3 1 fun _ => c, fun _ _ => none, 2⟩

def boot (fs : Ext2.Fs) : Servers :=
  ⟨mounted ⟨Ext2.ext2RootIno, Ext2.fileSize fs Ext2.ext2RootIno, Ext2.iMode (Ext2.getinode fs Ext2.ext2RootIno).1⟩, fs⟩

theorem sizes_agree_opened : ∃ s, (s.vfs.dentry 4).fsPid = ipcExt2 ∧ (s.vfs.dentry 4).ino = 3 ∧
    (s.vfs.dentry 4).size = 1 ∧ SizesAgree s := by
  have hrun : (Ext2.ext2Mount fileImage (fun _ => false) 0).any (fun fs => ((boot fs).step (openAppend 9)).any fun s =>
      (s.vfs.dentry 4).fsPid = ipcExt2 ∧ (s.vfs.dentry 4).ino = 3 ∧ (s.vfs.dentry 4).size = 1) = true := by decide
  obtain ⟨fs, hmount, hfs⟩ := (Option.any_eq_true _ _).mp hrun
  obtain ⟨s, hstep, hs⟩ := (Option.any_eq_true _ _).mp hfs
  obtain ⟨hpid, hino, hsize⟩ := of_decide_eq_true hs
  have hok : WritesNothing (boot fs) (openAppend 9) := trivial
  exact ⟨s, hpid, hino, hsize, sizes_agree s (.step (.init ⟨_, _, _, hmount, rfl⟩) hok hstep)⟩

/-- A process appends the byte 7; another one opens the file with `O_APPEND` and writes 8 over it. -/
theorem append_overwrites : ∃ s s', Run Servers.step (fun _ _ => True) Servers.Booted s ∧ ¬ SizesAgree s ∧
    (Ext2.ext2Read s.ext2 3 1 1).map Prod.fst = some [7] ∧
    exec Servers.step (fun _ _ => True) s [openAppend 10, writeByte 10 8] = some s' ∧
    (Ext2.ext2Read s'.ext2 3 1 1).map Prod.fst = some [8] := by
  have hrun : (Ext2.ext2Mount fileImage (fun _ => false) 0).any (fun fs =>
      (exec Servers.step (fun _ _ => True) (boot fs) [openAppend 9, writeByte 9 7]).any fun s =>
        ((s.vfs.dentry 4).fsPid = ipcExt2 ∧ (s.vfs.dentry 4).size ≠ Ext2.fileSize s.ext2 (s.vfs.dentry 4).ino ∧
          (Ext2.ext2Read s.ext2 3 1 1).map Prod.fst = some [7]) ∧
        (exec Servers.step (fun _ _ => True) s [openAppend 10, writeByte 10 8]).any fun s' =>
          (Ext2.ext2Read s'.ext2 3 1 1).map Prod.fst = some [8]) = true := by
    decide +kernel
  obtain ⟨fs, hmount, hfs⟩ := (Option.any_eq_true _ _).mp hrun
  obtain ⟨s, hexec, hs⟩ := (Option.any_eq_true _ _).mp hfs
  obtain ⟨⟨hpid, hsize, hread⟩, hnext⟩ := of_decide_eq_true hs
  obtain ⟨s', hexec', hs'⟩ := (Option.any_eq_true _ _).mp hnext
  have hboot : Run Servers.step (fun _ _ => True) Servers.Booted (boot fs) := .init ⟨_, _, _, hmount, rfl⟩
  exact ⟨s, s', hboot.exec hexec, fun h => hsize (h.dentry 4 hpid), hread, hexec', of_decide_eq_true hs'⟩

end FengOS.Vfs
