import FengOS.Vfs.Replies
import FengOS.Vfs.PathTheorems

/-!
# Failures that clients see
-/

namespace FengOS.Vfs

open FengOS.Lib

variable {fs : Fs} {v w : State} {call : Call} {pid : Nat} {fd : Int} {ns : List Name} {cur : Option Nat}
  {f : Dentry → File → Int × Int} {m : Nat × FsMsg}

/-! ## Descriptors out of range -/

theorem onFile_bad (hfd : ¬ (0 ≤ fd ∧ fd < nrFiles)) : v.onFile pid fd f = (v.needProcFile pid).map fun r => (-1, r.2) := by
  rw [State.onFile, State.getfilp]
  cases v.needProcFile pid with
  | none => rfl
  | some r =>
    simp only [Option.bind_eq_bind, Option.bind_some, Option.pure_def, if_neg hfd]
    rfl

theorem onFile_untouched_iff (hfd : ¬ (0 ≤ fd ∧ fd < nrFiles)) :
    (∃ w, v.onFile pid fd f = some (-1, w) ∧ v.Untouched w) ↔ (v.mapProcFile pid).isSome := by
  rw [onFile_bad hfd, State.needProcFile]
  cases hpid : v.mapProcFile pid with
  | some fsp => exact ⟨fun _ => rfl, fun _ => ⟨v, rfl, fun _ => rfl, fun _ => rfl, fun _ => rfl⟩⟩
  | none =>
    refine ⟨?_, by simp⟩
    rintro ⟨w, hw, htouch⟩
    obtain ⟨⟨fsp, u⟩, hneed, hw⟩ := Option.map_eq_some_iff.mp hw
    obtain ⟨-, rfl⟩ := Prod.mk.inj hw
    obtain ⟨⟨r, u'⟩, happend, hu⟩ := Option.bind_eq_some_iff.mp hneed
    obtain ⟨-, rfl⟩ := Prod.mk.inj (Option.some.inj hu)
    have hnone : (v.initProcFile pid).2.mapProcFile (v.initProcFile pid).1.pid = none := hpid
    obtain ⟨-, ⟨⟨fsq, hfsq⟩, -⟩ | ⟨-, hu⟩⟩ := appendProcFile_cases happend
    · cases hfsq.symm.trans hnone
    · have hmap : u'.mapProcFile pid = some (v.initProcFile pid).1 := by
        rw [hu]
        exact (mapProcFile_append hnone).trans (if_pos rfl)
      cases hmap.symm.trans ((htouch.table pid).trans hpid)

/-- A descriptor out of range is refused without a change exactly if the process has a table and it is no `close`. -/
theorem bad_descriptor_iff (v : State) (call : Call) {fd : Int} (hreq : call.request.fd = some fd)
    (hfd : ¬ (0 ≤ fd ∧ fd < nrFiles)) :
    (∃ w, v.process call = some (-1, w) ∧ v.Untouched w) ↔
      call.request ≠ .close fd ∧ (v.mapProcFile call.src).isSome := by
  rw [State.process]
  cases h : call.request <;> rw [h] at hreq <;> cases hreq
  case close =>
      refine ⟨?_, fun hne => absurd rfl hne.1⟩
      rintro ⟨w, hw, -⟩
      cases hpid : v.mapProcFile call.src with
      | none => simp [vfsClose, hpid] at hw
      | some fsp => simp [vfsClose, hpid, if_neg hfd] at hw
  all_goals
      rw [and_iff_right (by simp)]
      exact onFile_untouched_iff hfd

theorem bad_descriptor_read : ∃ v, Reach v ∧ (v.mapProcFile 5).isSome ∧
    ∃ w, v.process ⟨5, .read 64 1, fun _ _ => none⟩ = some (-1, w) ∧ v.Untouched w := by
  have hrun : Reach (mounted ⟨2, 0, 0⟩) := .init ⟨_, rfl⟩
  have hexec : (exec State.step (fun _ _ => True) (mounted ⟨2, 0, 0⟩) [⟨5, .read 0 1, fun _ _ => none⟩]).any
      (fun v => decide ((v.mapProcFile 5).isSome = true)) = true := by decide
  obtain ⟨v, hv, hpid⟩ := Run.exists_of_exec hrun hexec
  exact ⟨v, hv, hpid, (bad_descriptor_iff v ⟨5, .read 64 1, fun _ _ => none⟩ rfl (by decide)).mpr ⟨nofun, hpid⟩⟩

/-- `close` of 64 reads behind the table, and a read from it counts a reference for a process without one. -/
theorem bad_descriptor_used : (∃ v, Reach v ∧ (v.mapProcFile 5).isSome ∧ (v.process ⟨5, .close 64, fun _ _ => none⟩).isNone) ∧
    Reach (mounted ⟨2, 0, 0⟩) ∧ ((mounted ⟨2, 0, 0⟩).process ⟨5, .read 64 1, fun _ _ => none⟩).any fun r =>
      r.1 = -1 ∧ (r.2.dentry 0).count = ((mounted ⟨2, 0, 0⟩).dentry 0).count + 1 := by
  have hrun : Reach (mounted ⟨2, 0, 0⟩) := .init ⟨_, rfl⟩
  have hexec : (exec State.step (fun _ _ => True) (mounted ⟨2, 0, 0⟩) [⟨5, .read 0 1, fun _ _ => none⟩]).any
      (fun v => decide ((v.mapProcFile 5).isSome = true ∧ (v.process ⟨5, .close 64, fun _ _ => none⟩).isNone = true)) = true := by
    decide
  exact ⟨Run.exists_of_exec hrun hexec, hrun, by decide⟩

/-! ## Negative answers -/

theorem lookupMsgs_spec (hm : m ∈ lookupMsgs fs ns cur v) : (∃ name pino, m.2 = .lookup name pino) ∧
      ∀ reply, fs m.1 m.2 = some reply → reply.retval < 0 → ∃ w, lookupLoop fs ns cur v = some (none, w) := by
  induction ns generalizing cur v with
  | nil => cases hm
  | cons n ns ih =>
    rw [lookupMsgs] at hm
    rw [lookupLoop]
    split_ifs at hm ⊢ with hlen hup hdot
    · cases hm
    · cases cur with
      | none => cases hm
      | some d => exact ih hm
    · exact ih hm
    · cases cur with
      | none => cases hm
      | some d =>
        rw [Option.elim_some] at hm
        rw [Option.bind_some]
        rcases List.mem_append.mp hm with hm | hm
        · split_ifs at hm with hcached
          · obtain rfl := List.mem_singleton.mp hm
            refine ⟨⟨_, _, rfl⟩, fun reply hreply hneg => ⟨v, ?_⟩⟩
            have hchild : child fs v d n = some (none, v) := by
              rw [child, hcached]
              dsimp only
              rw [vfsLookupInFs, hreply]
              exact if_pos (Int.ne_of_lt hneg)
            rw [hchild]
          · cases hm
        · split at hm
          case h_1 next w hchild =>
              rw [hchild]
              exact ih hm
          case h_2 => cases hm

theorem reply_of_lookup_none {cwd : Nat} {path : CString} {u : State} (h : v.lookups call = some (w, cwd, path))
    (hlook : vfsLookup call.fs w cwd path = some (none, u)) : v.reply call = some (-1, u) := by
  rw [State.reply, State.process]
  rw [State.lookups] at h
  split at h
  case h_1 hreq =>
      obtain ⟨⟨fsp, w'⟩, hneed, hr⟩ := Option.map_eq_some_iff.mp h
      simp only [Prod.mk.injEq] at hr
      obtain ⟨rfl, rfl, rfl⟩ := hr
      rw [hreq]
      simp only [vfsOpen, hneed, hlook, Option.bind_eq_bind, Option.bind_some]
      rfl
  case h_4 => cases h
  all_goals
      rename_i hreq
      obtain ⟨fsp, hp, hr⟩ := Option.map_eq_some_iff.mp h
      simp only [Prod.mk.injEq] at hr
      obtain ⟨rfl, rfl, rfl⟩ := hr
      rw [hreq]
      simp only [vfsChdir, vfsStat, hp, hlook, Option.bind_eq_bind, Option.bind_some]
      rfl

theorem onFile_of_openFile {d : Dentry} {g : File} (h : v.openFile pid fd = some (d, g)) :
    ∃ w, v.onFile pid fd f = some ((f d g).1, w) := by
  simp only [State.openFile, Option.bind_eq_bind, Option.bind_eq_some_iff, Option.pure_def, Option.some.injEq,
    Prod.exists, Prod.mk.injEq] at h
  obtain ⟨filp, w, hfilp, x, rfl, g', hg, rfl, rfl⟩ := h
  rw [State.onFile, hfilp]
  simp only [Option.bind_eq_bind, Option.bind_some, hg]
  exact ⟨_, rfl⟩

theorem toInt_getsThrough {r : Int} : ((r < 0 → toInt r < 0) ∧ (0 ≤ r → toInt r = r)) ↔
    if 0 ≤ r then r < 2 ^ 31 else 2 ^ 31 ≤ r % 2 ^ 32 := by
  rw [toInt]
  split_ifs with h <;> omega

theorem reports_single {g : Int → Int} (hreq : ∀ pathname, call.request ≠ .stat pathname)
    (hm : v.forwarded call = [m]) (hcount : m.2.IsCount)
    (hreply : ∀ reply, call.fs m.1 m.2 = some reply → ∃ w, v.reply call = some (g reply.retval, w)) :
    Reports v call ↔ ∀ reply, call.fs m.1 m.2 = some reply →
      (reply.retval < 0 → g reply.retval < 0) ∧ (0 ≤ reply.retval → g reply.retval = reply.retval) := by
  constructor
  · intro h reply hr
    obtain ⟨w, hw⟩ := hreply reply hr
    refine ⟨fun hneg => ?_, fun hpos => ?_⟩
    · obtain ⟨r, w', hw', hlt⟩ := h.failed m (by rw [hm]; exact List.mem_cons_self) reply hr hneg
      obtain ⟨rfl, -⟩ := Prod.mk.inj (Option.some.inj (hw.symm.trans hw'))
      exact hlt
    · obtain ⟨w', hw'⟩ := h.count m (by rw [hm]; exact List.mem_cons_self) hcount reply hr hpos
      exact (Prod.mk.inj (Option.some.inj (hw.symm.trans hw'))).1
  · intro h
    constructor
    case failed =>
      intro m' hm' reply hr hneg
      rw [hm, List.mem_singleton] at hm'
      subst hm'
      obtain ⟨w, hw⟩ := hreply reply hr
      exact ⟨_, w, hw, (h reply hr).1 hneg⟩
    case count =>
      intro m' hm' _ reply hr hpos
      rw [hm, List.mem_singleton] at hm'
      subst hm'
      obtain ⟨w, hw⟩ := hreply reply hr
      exact ⟨w, by rw [hw, (h reply hr).2 hpos]⟩
    case stat => exact fun pathname _ hstat => absurd hstat (hreq pathname)

theorem walk_reported {cwd : Nat} {path : CString} (h : v.lookups call = some (w, cwd, path))
    (hm : m ∈ lookupMsgs call.fs (pathNames path) (some (w.start cwd path)) w) :
    (∃ name pino, m.2 = .lookup name pino) ∧ ∀ reply, call.fs m.1 m.2 = some reply → reply.retval < 0 →
      ∃ r w, v.reply call = some (r, w) ∧ r < 0 := by
  obtain ⟨hlookup, hfailed⟩ := lookupMsgs_spec hm
  refine ⟨hlookup, fun reply hr hneg => ?_⟩
  obtain ⟨u, hu⟩ := hfailed reply hr hneg
  exact ⟨-1, u, reply_of_lookup_none h (vfsLookup_eq ▸ hu), by decide⟩

theorem reports_lookups (hm : ∀ m ∈ v.forwarded call, (∃ name pino, m.2 = .lookup name pino) ∧
      ∀ reply, call.fs m.1 m.2 = some reply → reply.retval < 0 → ∃ r w, v.reply call = some (r, w) ∧ r < 0)
    (hstat : ∀ pathname w, call.request = .stat pathname → v.reply call ≠ some (0, w)) :
    Reports v call ↔ ∀ m ∈ v.forwarded call, ∀ reply, call.fs m.1 m.2 = some reply → m.2.GetsThrough reply.retval := by
  constructor
  · intro _ m hmem reply _
    obtain ⟨name, pino, hlookup⟩ := (hm m hmem).1
    rw [hlookup]
    trivial
  · intro _
    constructor
    case failed => exact fun m hmem => (hm m hmem).2
    case count =>
      intro m hmem hcount
      obtain ⟨name, pino, hlookup⟩ := (hm m hmem).1
      rw [hlookup] at hcount
      exact hcount.elim
    case stat => exact fun pathname w hreq hw => absurd hw (hstat pathname w hreq)

theorem reports_found {msgs : List (Nat × FsMsg)} {inode : Nat} (hmsgs : v.forwarded call = msgs ++ [(pid, .stat inode)])
    (hm : ∀ m ∈ msgs, (∃ name pino, m.2 = .lookup name pino) ∧
      ∀ reply, call.fs m.1 m.2 = some reply → reply.retval < 0 → ∃ r w, v.reply call = some (r, w) ∧ r < 0)
    (hreply : v.reply call = some (if (call.fs pid (.stat inode)).isNone then -1 else 0, w)) :
    Reports v call ↔ ∀ m ∈ v.forwarded call, ∀ reply, call.fs m.1 m.2 = some reply → m.2.GetsThrough reply.retval := by
  have hzero : ∀ reply, call.fs pid (.stat inode) = some reply → v.reply call = some (0, w) := by
    intro reply hr
    rw [hreply, hr]
    rfl
  rw [hmsgs, List.forall_mem_append, List.forall_mem_singleton]
  constructor
  · intro h
    refine ⟨fun m hmem reply _ => ?_, fun reply hr => ?_⟩
    · obtain ⟨name, pino, hlookup⟩ := (hm m hmem).1
      rw [hlookup]
      trivial
    · show 0 ≤ reply.retval
      by_contra hneg
      obtain ⟨r, w', hw', hlt⟩ := h.failed (pid, .stat inode) (by rw [hmsgs]; simp) reply hr (by omega)
      obtain ⟨rfl, -⟩ := Prod.mk.inj (Option.some.inj ((hzero reply hr).symm.trans hw'))
      exact absurd hlt (by decide)
  · rintro ⟨-, hstat⟩
    constructor
    case failed =>
      intro m hmem reply hr hneg
      rw [hmsgs] at hmem
      rcases List.mem_append.mp hmem with hmem | hmem
      · exact (hm m hmem).2 reply hr hneg
      · obtain rfl := List.mem_singleton.mp hmem
        exact absurd hneg (Int.not_lt.mpr (hstat reply hr))
    case count =>
      intro m hmem hcount
      rw [hmsgs] at hmem
      rcases List.mem_append.mp hmem with hmem | hmem
      · obtain ⟨name, pino, hlookup⟩ := (hm m hmem).1
        rw [hlookup] at hcount
        exact hcount.elim
      · obtain rfl := List.mem_singleton.mp hmem
        exact hcount.elim
    case stat =>
      intro pathname w' _ hw'
      cases hr : call.fs pid (.stat inode) with
      | none =>
        rw [hreply, hr] at hw'
        cases (Prod.mk.inj (Option.some.inj hw')).1
      | some reply => exact ⟨pid, inode, reply, by rw [hmsgs]; simp, hr, hstat reply hr⟩

theorem reports_stat {pathname : CString} (hreq : call.request = .stat pathname) :
    Reports v call ↔ ∀ m ∈ v.forwarded call, ∀ reply, call.fs m.1 m.2 = some reply → m.2.GetsThrough reply.retval := by
  have hreply : v.reply call = (vfsStat call.fs v call.src pathname).map fun r => (toInt r.1, r.2) := by
    rw [State.reply, State.process, hreq]
    rfl
  cases hp : v.mapProcFile call.src with
  | none =>
    have hnil : v.forwarded call = [] := by
      rw [State.forwarded, hreq]
      simp [State.pathMsgs, State.lookups, hreq, hp]
    refine reports_lookups (fun m hm => by rw [hnil] at hm; cases hm) fun _ w _ hw => ?_
    rw [hreply, vfsStat, hp] at hw
    cases (Prod.mk.inj (Option.some.inj hw)).1
  | some fsp =>
    have hlookups : v.lookups call = some (v, fsp.cwd, pathname) := by
      rw [State.lookups, hreq, hp]
      rfl
    have hmsgs : v.forwarded call = lookupMsgs call.fs (pathNames pathname) (some (v.start fsp.cwd pathname)) v ++
        statMsgs (vfsLookup call.fs v fsp.cwd pathname) := by
      rw [State.forwarded, hreq]
      simp [State.pathMsgs, hlookups, hreq]
    have hwalk := fun m hm => walk_reported (m := m) hlookups hm
    rw [vfsStat, hp] at hreply
    dsimp only at hreply
    cases hlook : vfsLookup call.fs v fsp.cwd pathname with
    | none =>
      rw [hlook, show statMsgs none = [] from rfl, List.append_nil] at hmsgs
      rw [hlook] at hreply
      refine reports_lookups (fun m hm => hwalk m (hmsgs ▸ hm)) fun _ w _ hw => ?_
      cases hreply.symm.trans hw
    | some r =>
      obtain ⟨_ | entry, u⟩ := r
      · rw [hlook, show statMsgs (some (none, u)) = [] from rfl, List.append_nil] at hmsgs
        rw [hlook] at hreply
        refine reports_lookups (fun m hm => hwalk m (hmsgs ▸ hm)) fun _ w _ hw => ?_
        cases (Prod.mk.inj (Option.some.inj (hreply.symm.trans hw))).1
      · rw [hlook, statMsgs] at hmsgs
        rw [hlook] at hreply
        refine reports_found (w := u) hmsgs hwalk (hreply.trans ?_)
        cases hr : call.fs (u.dentry entry).fsPid (.stat (u.dentry entry).ino) <;> simp [hr, toInt]

theorem reports_option {α : Type} {o : Option α} {m : α → Nat × FsMsg} {g : Int → Int}
    (hreq : ∀ pathname, call.request ≠ .stat pathname) (hm : v.forwarded call = o.toList.map m)
    (hcount : ∀ a, (m a).2.IsCount)
    (hreply : ∀ a reply, o = some a → call.fs (m a).1 (m a).2 = some reply → ∃ w, v.reply call = some (g reply.retval, w))
    (hg : ∀ a r, ((r < 0 → g r < 0) ∧ (0 ≤ r → g r = r)) ↔ (m a).2.GetsThrough r) :
    Reports v call ↔ ∀ m ∈ v.forwarded call, ∀ reply, call.fs m.1 m.2 = some reply → m.2.GetsThrough reply.retval := by
  cases o with
  | none =>
    have hnil : v.forwarded call = [] := hm
    exact reports_lookups (fun m hmem => by rw [hnil] at hmem; cases hmem) fun pathname _ hstat => absurd hstat (hreq pathname)
  | some a =>
    have hone : v.forwarded call = [m a] := hm
    rw [reports_single hreq hone (hcount a) fun reply => hreply a reply rfl, hone, List.forall_mem_singleton]
    exact forall_congr' fun reply => imp_congr_right fun _ => hg a reply.retval

theorem reports_path (hreq : ∀ pathname, call.request ≠ .stat pathname) (hm : v.forwarded call = v.pathMsgs call) :
    Reports v call ↔ ∀ m ∈ v.forwarded call, ∀ reply, call.fs m.1 m.2 = some reply → m.2.GetsThrough reply.retval := by
  refine reports_lookups (fun m hmem => ?_) fun pathname _ hstat => absurd hstat (hreq pathname)
  rw [hm, State.pathMsgs] at hmem
  split at hmem
  case h_1 => cases hmem
  case h_2 w cwd path hlookups =>
      refine walk_reported hlookups ?_
      split at hmem
      case h_1 pathname hstat => exact absurd hstat (hreq pathname)
      case h_2 => rwa [List.append_nil] at hmem

theorem reports_onFile (msg : Dentry → File → FsMsg) (g : Int → Int) (hreq : ∀ pathname, call.request ≠ .stat pathname)
    (hm : v.forwarded call = (v.openFile call.src fd).toList.map fun r => (r.1.fsPid, msg r.1 r.2))
    (hreply : v.reply call = (v.onFile call.src fd f).map fun r => (call.request.narrow r.1, r.2))
    (hcount : ∀ d e, (msg d e).IsCount)
    (hg : ∀ d e reply, call.fs d.fsPid (msg d e) = some reply → call.request.narrow (f d e).1 = g reply.retval)
    (hthrough : ∀ d e r, ((r < 0 → g r < 0) ∧ (0 ≤ r → g r = r)) ↔ (msg d e).GetsThrough r) :
    Reports v call ↔ ∀ m ∈ v.forwarded call, ∀ reply, call.fs m.1 m.2 = some reply → m.2.GetsThrough reply.retval := by
  refine reports_option hreq hm (fun a => hcount a.1 a.2) (fun a reply ha hr => ?_) fun a r => hthrough a.1 a.2 r
  obtain ⟨w, hw⟩ := onFile_of_openFile (f := f) ha
  exact ⟨w, by rw [hreply, hw, Option.map_some, hg a.1 a.2 reply hr]⟩

/-- Exactly if no result changes as an `int`, and no `MSG_FSSTAT` fails. -/
theorem reports_iff (v : State) (call : Call) : Reports v call ↔
    ∀ m ∈ v.forwarded call, ∀ reply, call.fs m.1 m.2 = some reply → m.2.GetsThrough reply.retval := by
  cases hreq : call.request
  case read fd size =>
      have hreply : v.reply call = (vfsRead call.fs v call.src fd size).map fun r => (call.request.narrow r.1, r.2) := by
        rw [State.reply, State.process, hreq]
      refine reports_onFile (fun d e => .read size d.ino d.size e.pos) toInt (by simp [hreq])
        (by rw [State.forwarded, hreq]) hreply (fun _ _ => trivial) (fun d e reply hr => ?_) fun _ _ _ => toInt_getsThrough
      rw [hreq, hr]
      rfl
  case write fd size =>
      have hreply : v.reply call = (vfsWrite call.fs v call.src fd size).map fun r => (call.request.narrow r.1, r.2) := by
        rw [State.reply, State.process, hreq]
      refine reports_onFile (fun d e => .write size d.ino d.size e.pos) toInt (by simp [hreq])
        (by rw [State.forwarded, hreq]) hreply (fun _ _ => trivial) (fun d e reply hr => ?_) fun _ _ _ => toInt_getsThrough
      rw [hreq, hr]
      rfl
  case getdents fd count =>
      have hreply : v.reply call = (vfsGetdents call.fs v call.src fd count).map fun r => (call.request.narrow r.1, r.2) := by
        rw [State.reply, State.process, hreq]
      refine reports_onFile (fun d e => .getdents d.ino e.pos count) (fun r => if r < 0 then -1 else r) (by simp [hreq])
        (by rw [State.forwarded, hreq]) hreply (fun _ _ => trivial) (fun d e reply hr => ?_) fun _ _ r => ?_
      · rw [hreq, hr]
        dsimp only [Request.narrow]
        split <;> rfl
      · refine iff_of_true ⟨fun hneg => ?_, fun hpos => if_neg (by omega)⟩ trivial
        rw [if_pos hneg]
        decide
  case mkdir name mode =>
      have hm : v.forwarded call = (v.mapProcFile call.src).toList.map fun fsp =>
          ((v.dentry fsp.cwd).fsPid, .mkdir (v.dentry fsp.cwd).ino name mode) := by rw [State.forwarded, hreq]
      refine reports_option (by simp [hreq]) hm (fun _ => trivial) (fun fsp reply hp hr => ⟨v, ?_⟩)
        fun _ _ => toInt_getsThrough
      rw [State.reply, State.process, hreq]
      simp only [vfsMkdir, hp, hr]
      rfl
  case stat pathname => exact reports_stat hreq
  all_goals exact reports_path (by simp [hreq]) (by rw [State.forwarded, hreq])

def statVideo : Call := ⟨5, .stat ⟨devName ++ slash :: videoName, by decide⟩, fun _ _ => some ⟨-1, ⟨0, 0, 0⟩⟩⟩

/-- The device refuses the only message, and the client is told that the call succeeded. -/
theorem stat_hides_failure : ∃ v, Reach v ∧ (v.forwarded statVideo).length = 1 ∧
    ((v.reply statVideo).any fun r => r.1 = 0) ∧ ¬ Reports v statVideo := by
  have hrun : Reach (mounted ⟨2, 0, 0⟩) := .init ⟨_, rfl⟩
  have hexec : (exec State.step (fun _ _ => True) (mounted ⟨2, 0, 0⟩) [⟨5, .read 0 1, fun _ _ => none⟩]).any
      (fun v => decide ((v.forwarded statVideo).length = 1 ∧ ((v.reply statVideo).any fun r => r.1 = 0) = true)) = true := by
    decide
  obtain ⟨v, hv, hlen, hzero⟩ := Run.exists_of_exec hrun hexec
  refine ⟨v, hv, hlen, hzero, fun h => ?_⟩
  obtain ⟨m, hm⟩ := List.length_eq_one_iff.mp hlen
  obtain ⟨r, w, hw, hlt⟩ := h.failed m (by rw [hm]; exact List.mem_cons_self) ⟨-1, ⟨0, 0, 0⟩⟩ rfl (by decide)
  rw [hw, Option.any_some, decide_eq_true_eq] at hzero
  omega

end FengOS.Vfs
