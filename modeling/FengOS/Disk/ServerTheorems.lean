import FengOS.Core.Lemmas.Calls
import FengOS.Disk.Server
import Mathlib.Data.List.Basic

/-!
# The disk server answers its clients
-/

namespace FengOS.Disk

open FengOS.Core FengOS.Lib

variable {s : Server} {S S' : System} {dev : Device} {status : Status} {after : After} {e : Event} {write : Bool}
  {s' : Server}

/-! ## What the server is for -/

def Loc.Awaits : Loc → Prop
  | .identify | .intr _ _ => True
  | _ => False

def Loc.Serving (loc : Loc) : Prop := loc ≠ .identify ∧ loc ≠ .fail

def Server.serving (s : Server) : List Int :=
  match s.loc with
  | .intr _ _ | .send => [s.mess.src]
  | _ => []

/-- The clients have been answered in turn, each once, except the one being served; the server has not sent to itself. -/
structure System.Protocol (S : System) : Prop where
  replies : S.received = S.sent ++ S.server.serving
  self : S.server.pid ∉ S.sent

/-- The server goes on; interrupts come when it waits for them, and the messages it sends are received. -/
def System.serve (S : System) (dev : Device) : System :=
  match S.server.loc with
  | .identify | .intr _ _ => ((S.step .intr).bind (·.step (.run dev))).getD S
  | .sending _ => (S.step .taken).getD S
  | _ => (S.step (.run dev)).getD S

def System.serveAll : Nat → (Nat → Device) → System → System
  | 0, _, S => S
  | n + 1, devs, S => serveAll n (fun i => devs (i + 1)) (S.serve (devs 0))

/-- The server waits for requests, and all that have come have been received and answered. -/
structure System.Drained (S : System) (clients : List Int) : Prop where
  loc : S.server.loc = .recv
  queue : S.queue = []
  received : S.received = clients
  sent : S.sent = clients

/-- An interrupt comes only while the server waits for one. -/
def System.Sound (S : System) : Event → Prop
  | .intr => S.server.loc.Awaits
  | _ => True

abbrev System.ReachSound : System → Prop := Run System.step System.Sound System.Init

/-! ## The work on a request -/

/-- The server works on the same request, or replies to it. -/
structure Serves (s s' : Server) : Prop where
  pid : s'.pid = s.pid
  src : s'.mess.src = s.mess.src
  loc : s'.loc = .send ∨ ∃ write after, s'.loc = .intr write after

theorem Serves.loc_ne (h : Serves s s') (dst : Int) : s'.loc ≠ .sending dst := by
  rcases h.loc with hl | ⟨write, after, hl⟩ <;> rw [hl] <;> nofun

theorem Serves.loc_serving (h : Serves s s') : s'.loc.Serving := by
  rcases h.loc with hl | ⟨write, after, hl⟩ <;> rw [hl] <;> exact ⟨nofun, nofun⟩

theorem reply_serves (s : Server) (retval : BitVec 64) : Serves s (s.reply retval) := ⟨rfl, rfl, .inl rfl⟩

theorem transfer_serves {pos size : Nat} (h : transfer s pos size write after = some s') :
    Serves s s' ∧ s'.loc = .intr write after := by
  rw [transfer] at h
  split at h
  · cases h
  · split at h
    · cases h
    · cases h
      exact ⟨⟨rfl, rfl, .inr ⟨write, after, rfl⟩⟩, rfl⟩

theorem serves_getD {pos size : Nat} (h : Serves s s') : Serves s ((transfer s pos size write after).getD s') := by
  cases ht : transfer s pos size write after with
  | none => exact h
  | some t => exact (transfer_serves ht).1

theorem partRead_serves (s : Server) (base : Nat) : Serves s (partRead s base) := serves_getD (reply_serves s _)

theorem diskPartHeader_serves (s : Server) (status : Status) (dev : Device) : Serves s (diskPartHeader s status dev) := by
  rw [diskPartHeader]
  split
  · exact partRead_serves s _
  · exact serves_getD (partRead_serves s _)

theorem handle_serves (s : Server) (dev : Device) : Serves s (s.handle dev) := by
  rw [Server.handle]
  split
  · exact serves_getD (reply_serves s _)
  · split
    · rw [diskPart]
      split
      · exact serves_getD (diskPartHeader_serves s _ dev)
      · exact partRead_serves s _
    · exact ⟨rfl, rfl, .inl rfl⟩

theorem finish_serves (s : Server) (status : Status) (dev : Device) (after : After) :
    Serves s (s.finish status dev after) := by
  cases after with
  | reply => exact reply_serves s _
  | header => exact diskPartHeader_serves s status dev
  | entry => exact partRead_serves s _
  | part base => exact reply_serves s _

/-- `disk_read` and `disk_write`. -/
def diskWork (s : Server) (dev : Device) (write : Bool) : Status × Server :=
  if write then diskWrite s dev else diskRead s dev

theorem diskWork_keeps (s : Server) (dev : Device) (write : Bool) : (diskWork s dev write).2.pid = s.pid ∧
    (diskWork s dev write).2.mess = s.mess ∧ (diskWork s dev write).2.loc = s.loc := by
  rw [diskWork, diskRead, diskWrite]
  split
  · split
    · exact ⟨rfl, rfl, rfl⟩
    · split <;> exact ⟨rfl, rfl, rfl⟩
  · split <;> exact ⟨rfl, rfl, rfl⟩

theorem interrupted_eq (h : s.loc = .intr write after) : s.interrupted dev =
    if (diskWork s dev write).1 = .undone then (diskWork s dev write).2
    else (diskWork s dev write).2.finish (diskWork s dev write).1 dev after := by
  rw [Server.interrupted, h]
  rfl

theorem interrupted_serves (h : s.loc = .intr write after) : Serves s (s.interrupted dev) := by
  obtain ⟨hpid, hmess, hloc⟩ := diskWork_keeps s dev write
  rw [interrupted_eq h]
  split
  · exact ⟨hpid, by rw [hmess], .inr ⟨write, after, hloc.trans h⟩⟩
  · have hs := finish_serves (diskWork s dev write).2 (diskWork s dev write).1 dev after
    exact ⟨hs.pid.trans hpid, hs.src.trans (by rw [hmess]), hs.loc⟩

/-! ## The invariant -/

structure System.Inv (S : System) : Prop where
  protocol : S.Protocol
  intr : S.hasIntr = true → S.server.loc.Awaits
  queue : ∀ m ∈ S.queue, m.src ≠ S.server.pid
  serving : ∀ client ∈ S.server.serving, client ≠ S.server.pid
  sending : ∀ dst, S.server.loc = .sending dst → dst ≠ S.server.pid

theorem Serves.serving (h : Serves s s') : s'.serving = [s.mess.src] := by
  rw [Server.serving, ← h.src]
  rcases h.loc with hl | ⟨write, after, hl⟩ <;> rw [hl]

theorem Server.serving_of_loc {loc : Loc} (hloc : s.loc = loc) (h : ∀ write after, loc ≠ .intr write after)
    (hsend : loc ≠ .send) : s.serving = [] := by
  rw [Server.serving, hloc]
  cases loc with
  | intr write after => exact absurd rfl (h write after)
  | send => exact absurd rfl hsend
  | identify | fail | recv | sending => rfl

theorem System.Inv.idle (h : S.Inv) (hn : ¬ S.server.loc.Awaits) : S.hasIntr = false := by
  cases hi : S.hasIntr with
  | false => rfl
  | true => exact absurd (h.intr hi) hn

theorem System.Inv.recvAll (h : S.Inv) (hloc : S.server.loc = .recv) (hs : S.recvAll dev = some S') : S'.Inv := by
  have hidle := h.idle (by rw [hloc]; exact id)
  rw [System.recvAll, hidle] at hs
  cases hq : S.queue with
  | nil => simp [hq] at hs
  | cons m queue =>
    rw [hq] at hs
    cases hs
    have hserves := handle_serves { S.server with mess := m } dev
    have hm : m.src ≠ S.server.pid := h.queue m (by simp [hq])
    have hreplies := h.protocol.replies
    rw [Server.serving_of_loc hloc nofun nofun, List.append_nil] at hreplies
    constructor
    case protocol =>
      refine ⟨?_, by rw [hserves.pid]; exact h.protocol.self⟩
      rw [hserves.serving]
      exact congrArg (· ++ [m.src]) hreplies
    case intr =>
      intro hi
      cases hi
    case queue =>
      intro m' hm'
      rw [hserves.pid]
      exact h.queue m' (by rw [hq]; exact List.mem_cons_of_mem m hm')
    case serving =>
      intro client hc
      rw [hserves.serving] at hc
      rw [List.mem_singleton.mp hc, hserves.pid]
      exact hm
    case sending =>
      intro dst hd
      exact absurd hd (hserves.loc_ne dst)

theorem System.Inv.recvIntr (h : S.Inv) (hloc : S.server.loc = .intr write after)
    (hs : S.recvIntr dev = some S') : S'.Inv := by
  have hserving : S.server.serving = [S.server.mess.src] := by rw [Server.serving, hloc]
  have hserves : Serves S.server (S.server.interrupted dev) := interrupted_serves hloc
  rw [System.recvIntr] at hs
  split at hs
  · cases hs
    constructor
    case protocol =>
      refine ⟨?_, by rw [hserves.pid]; exact h.protocol.self⟩
      rw [hserves.serving, ← hserving]
      exact h.protocol.replies
    case intr =>
      intro hi
      cases hi
    case queue =>
      rw [hserves.pid]
      exact h.queue
    case serving =>
      rw [hserves.serving, ← hserving, hserves.pid]
      exact h.serving
    case sending =>
      intro dst hd
      exact absurd hd (hserves.loc_ne dst)
  · cases hs

theorem System.Inv.identify (h : S.Inv) (hloc : S.server.loc = .identify) (hs : S.recvIntr dev = some S') : S'.Inv := by
  have hreplies := h.protocol.replies
  rw [Server.serving_of_loc hloc nofun nofun, List.append_nil] at hreplies
  rw [System.recvIntr] at hs
  split at hs
  · cases hs
    rw [Server.interrupted, hloc]
    dsimp only
    split <;>
      exact ⟨⟨by rw [hreplies]; exact (List.append_nil _).symm, h.protocol.self⟩, nofun, h.queue, nofun, nofun⟩
  · cases hs

theorem System.Inv.send (h : S.Inv) (hloc : S.server.loc = .send) (hidle : S.hasIntr = false) : S.send.Inv := by
  have hserving : S.server.serving = [S.server.mess.src] := by rw [Server.serving, hloc]
  have hother := h.serving S.server.mess.src (by rw [hserving]; exact List.mem_singleton_self _)
  constructor
  case protocol =>
    refine ⟨?_, fun hmem => ?_⟩
    · have hreplies := h.protocol.replies
      rw [hserving] at hreplies
      exact hreplies.trans (List.append_nil _).symm
    · rcases List.mem_append.mp hmem with hmem | hmem
      · exact h.protocol.self hmem
      · exact hother (List.mem_singleton.mp hmem).symm
  case intr =>
    intro hi
    exact absurd (hidle.symm.trans hi) nofun
  case queue => exact h.queue
  case serving => exact nofun
  case sending =>
    rintro dst hd
    cases hd
    exact hother

theorem System.Inv.step (h : S.Inv) (hs : S.step e = some S') (hsound : S.Sound e) : S'.Inv := by
  cases e with
  | request client msg =>
    rw [System.step] at hs
    split at hs
    · cases hs
    · rename_i hne
      cases hs
      refine ⟨⟨h.protocol.replies, h.protocol.self⟩, h.intr, fun m hm => ?_, h.serving, h.sending⟩
      rcases List.mem_append.mp hm with hm | hm
      · exact h.queue m hm
      · rw [List.mem_singleton.mp hm]
        exact hne
  | intr =>
    cases hs
    exact ⟨⟨h.protocol.replies, h.protocol.self⟩, fun _ => hsound, h.queue, h.serving, h.sending⟩
  | run dev =>
    rw [System.step] at hs
    cases hloc : S.server.loc with
    | recv =>
      rw [hloc] at hs
      exact h.recvAll hloc hs
    | identify =>
      rw [hloc] at hs
      exact h.identify hloc hs
    | intr write after =>
      rw [hloc] at hs
      exact h.recvIntr hloc hs
    | send =>
      rw [hloc] at hs
      cases hs
      exact h.send hloc (h.idle (by rw [hloc]; exact id))
    | fail | sending =>
      rw [hloc] at hs
      cases hs
  | taken =>
    rw [System.step] at hs
    cases hloc : S.server.loc with
    | sending dst =>
      rw [hloc] at hs
      dsimp only at hs
      split at hs
      · cases hs
      · cases hs
        have hserving := Server.serving_of_loc hloc nofun nofun
        refine ⟨⟨?_, h.protocol.self⟩, ?_, h.queue, nofun, nofun⟩
        · have hreplies := h.protocol.replies
          rw [hserving] at hreplies
          exact hreplies
        · intro hi
          exact absurd ((h.idle (by rw [hloc]; exact id)).symm.trans hi) nofun
    | identify | fail | recv | intr | send =>
      rw [hloc] at hs
      cases hs

theorem System.ReachSound.inv (h : S.ReachSound) : S.Inv := by
  apply Run.invariant _ _ h
  · rintro S ⟨hloc, hidle, hqueue, hreceived, hsent⟩
    have hserving := Server.serving_of_loc hloc nofun nofun
    refine ⟨⟨by rw [hserving, hreceived, hsent]; rfl, by rw [hsent]; nofun⟩, fun hi => ?_, ?_, ?_, ?_⟩
    · exact absurd (hidle.symm.trans hi) nofun
    · rw [hqueue]
      nofun
    · rw [hserving]
      nofun
    · rw [hloc]
      nofun
  · exact fun S e S' hinv hsound hs => hinv.step hs hsound

/-! ## Every request is answered -/

def After.stage : After → Nat
  | .reply | .part _ => 0
  | .entry => 1
  | .header => 2

def Loc.rank : Loc → Nat
  | .intr _ after => 3 + after.stage
  | .send => 2
  | .sending _ => 1
  | _ => 0

theorem rank_getD {pos size n : Nat} (hafter : 3 + after.stage ≤ n)
    (h : s'.loc.rank ≤ n) : ((transfer s pos size write after).getD s').loc.rank ≤ n := by
  cases ht : transfer s pos size write after with
  | none => exact h
  | some t =>
    rw [Option.getD_some, (transfer_serves ht).2]
    exact hafter

theorem partRead_rank (s : Server) (base : Nat) : (partRead s base).loc.rank ≤ 3 :=
  rank_getD (Nat.le_refl 3) (Nat.le_succ 2)

theorem diskPartHeader_rank (s : Server) (status : Status) (dev : Device) : (diskPartHeader s status dev).loc.rank ≤ 4 := by
  have hpart : ∀ base, (partRead s base).loc.rank ≤ 4 := fun base => Nat.le_succ_of_le (partRead_rank s base)
  rw [diskPartHeader]
  split
  · exact hpart _
  · refine rank_getD (Nat.le_refl 4) ?_
    rw [diskPartEntry]
    exact hpart _

theorem finish_rank (s : Server) (status : Status) (dev : Device) (after : After) :
    (s.finish status dev after).loc.rank < 3 + after.stage := by
  cases after with
  | reply | part => exact Nat.lt_succ_self 2
  | entry =>
    rw [Server.finish, diskPartEntry]
    exact Nat.lt_succ_of_le (partRead_rank s _)
  | header =>
    rw [Server.finish]
    exact Nat.lt_succ_of_le (diskPartHeader_rank s status dev)

theorem diskWork_size (h : (diskWork s dev write).1 = .undone) : (diskWork s dev write).2.size < s.size := by
  rw [diskWork] at h ⊢
  split at h
  · rw [diskWrite] at h ⊢
    split at h
    · cases h
    · split at h
      · rename_i hne hlt
        simp only [*, if_true, if_false, Bool.false_eq_true]
        have : 0 < sectorSize := by decide
        omega
      · cases h
  · rw [diskRead] at h ⊢
    split at h
    · cases h
    · dsimp only at h
      split at h
      · cases h
      · rename_i hwrite hne hsize
        simp only [hwrite, hne, if_false, Bool.false_eq_true]
        have hmod : s.position % sectorSize < sectorSize := Nat.mod_lt _ (by decide)
        omega

theorem interrupted_lt (h : s.loc = .intr write after) : (s.interrupted dev).loc.rank < s.loc.rank ∨
      (s.interrupted dev).loc.rank = s.loc.rank ∧ (s.interrupted dev).size < s.size := by
  rw [interrupted_eq h]
  split
  · rename_i hundone
    exact .inr ⟨by rw [(diskWork_keeps s dev write).2.2], diskWork_size hundone⟩
  · rw [h]
    exact .inl (finish_rank _ _ dev after)

def System.clients (S : System) : List Int := S.received ++ S.queue.map (·.src)

/-- One system call brings the server closer to the end of its work. -/
structure System.Progress (S S' : System) : Prop where
  inv : S'.Inv
  serving : S'.server.loc.Serving
  clients : S'.clients = S.clients
  lt : S'.queue.length < S.queue.length ∨ S'.queue.length = S.queue.length ∧
    (S'.server.loc.rank < S.server.loc.rank ∨
      S'.server.loc.rank = S.server.loc.rank ∧ S'.server.size < S.server.size)

theorem System.Inv.progress (h : S.Inv) (hserving : S.server.loc.Serving)
    (hbusy : S.server.loc = .recv → S.queue ≠ []) (dev : Device) : S.Progress (S.serve dev) := by
  cases hloc : S.server.loc with
  | identify => exact absurd hloc hserving.1
  | fail => exact absurd hloc hserving.2
  | recv =>
    obtain ⟨m, queue, hq⟩ := List.exists_cons_of_ne_nil (hbusy hloc)
    have hidle := h.idle (by rw [hloc]; exact id)
    have hserve : S.recvAll dev = some (S.serve dev) := by
      simp [System.serve, System.step, System.recvAll, hloc, hidle, hq]
    have hinv := h.recvAll hloc hserve
    rw [System.recvAll, hidle, hq] at hserve
    rw [← Option.some.inj hserve] at hinv ⊢
    exact ⟨hinv, (handle_serves _ dev).loc_serving, by simp [System.clients, hq], .inl (by simp [hq])⟩
  | intr write after =>
    have hserve : S.serve dev = { S with hasIntr := false, server := S.server.interrupted dev } := by
      simp [System.serve, System.step, System.recvIntr, hloc]
    have hintr : ({ S with hasIntr := true } : System).Inv :=
      h.step (e := .intr) rfl (by rw [System.Sound, hloc]; trivial)
    have hinv := @System.Inv.recvIntr _ _ dev _ _ hintr hloc rfl
    rw [hserve]
    exact ⟨hinv, (interrupted_serves hloc).loc_serving, rfl, .inr ⟨rfl, interrupted_lt hloc⟩⟩
  | send =>
    have hserve : S.serve dev = S.send := by simp [System.serve, System.step, hloc]
    rw [hserve]
    refine ⟨h.send hloc (h.idle (by rw [hloc]; exact id)), ⟨nofun, nofun⟩, rfl, .inr ⟨rfl, .inl ?_⟩⟩
    rw [hloc]
    exact Nat.lt_succ_self 1
  | sending dst =>
    have hstep : S.step .taken = some { S with server := { S.server with loc := .recv } } := by
      simp [System.step, hloc, h.sending dst hloc]
    have hserve : S.serve dev = { S with server := { S.server with loc := .recv } } := by
      simp [System.serve, hloc, hstep]
    rw [hserve]
    refine ⟨h.step hstep trivial, ⟨nofun, nofun⟩, rfl, .inr ⟨rfl, .inl ?_⟩⟩
    rw [hloc]
    exact Nat.lt_succ_self 0

/-- By induction on the requests, then the transfers, then what is left of the transfer. -/
theorem System.Inv.drains {S : System} (h : S.Inv) (hserving : S.server.loc.Serving) (devs : Nat → Device) :
    ∃ n, (System.serveAll n devs S).Drained S.clients := by
  by_cases hdone : S.server.loc = .recv ∧ S.queue = []
  · obtain ⟨hloc, hqueue⟩ := hdone
    have hreplies := h.protocol.replies
    rw [Server.serving_of_loc hloc nofun nofun, List.append_nil] at hreplies
    have hclients : S.clients = S.received := by simp [System.clients, hqueue]
    exact ⟨0, hloc, hqueue, hclients.symm, hreplies.symm.trans hclients.symm⟩
  · have hp := h.progress hserving (fun hloc hqueue => hdone ⟨hloc, hqueue⟩) (devs 0)
    obtain ⟨n, hn⟩ := hp.inv.drains hp.serving fun i => devs (i + 1)
    rw [hp.clients] at hn
    exact ⟨n + 1, hn⟩
termination_by (S.queue.length, S.server.loc.rank, S.server.size)
decreasing_by
  rcases hp.lt with hl | ⟨hq, hl | ⟨hr, hl⟩⟩
  · exact .left _ _ hl
  · rw [hq]
    exact .right _ (.left _ _ hl)
  · rw [hq, hr]
    exact .right _ (.right _ hl)

/-- If interrupts come only when waited for, the server answers the clients in turn, no one else, and every request. -/
theorem disk_protocol (h : S.ReachSound) : S.Protocol ∧ (∀ dst, S.server.loc = .sending dst → dst ≠ S.server.pid) ∧
    (S.server.loc.Serving → ∀ devs, ∃ n, (System.serveAll n devs S).Drained S.clients) :=
  ⟨h.inv.protocol, h.inv.sending, fun hserving devs => h.inv.drains hserving devs⟩

instance : DecidablePred Loc.Awaits
  | .identify | .intr _ _ => isTrue trivial
  | .fail | .recv | .send | .sending _ => isFalse id

instance (S : System) (e : Event) : Decidable (S.Sound e) :=
  match e with
  | .intr => inferInstanceAs (Decidable S.server.loc.Awaits)
  | .request _ _ | .run _ | .taken => isTrue trivial

def sampleSystem : System :=
  { server := { pid := 3, loc := .identify, mess := default, position := 0, size := 0, sectorPerDrq := 0 }
    hasIntr := false, queue := [], received := [], sent := [] }

def sampleDevice : Device := { (default : Device) with lba := 0x100, sectorPerDrq := 1 }

theorem sampleSystem_init : sampleSystem.Init := ⟨rfl, rfl, rfl, rfl, rfl⟩

theorem disk_protocol_two : ∃ S : System, S.ReachSound ∧ S.clients = [7, 8] ∧ S.server.loc = .send ∧
    S.Protocol ∧ (∀ devs, ∃ n, (System.serveAll n devs S).Drained [7, 8]) := by
  obtain ⟨S, hreach, hclients, hloc⟩ := Run.exists_of_exec
    (Q := fun S : System => S.clients = [7, 8] ∧ S.server.loc = .send)
    (Run.init sampleSystem_init : sampleSystem.ReachSound)
    (by decide : (exec System.step System.Sound sampleSystem
      [.intr, .run sampleDevice, .request 7 default, .request 8 default, .run sampleDevice]).any _ = true)
  obtain ⟨hprotocol, _, hlive⟩ := disk_protocol hreach
  refine ⟨S, hreach, hclients, hloc, hprotocol, fun devs => ?_⟩
  rw [← hclients]
  exact hlive (by rw [hloc]; exact ⟨nofun, nofun⟩) devs

/-! ## A stray interrupt -/

/-- `do_recv` with an interrupt pending. -/
def intrMessage (m : Message) (pid : Int) : Message := (({ m with src := pid } : Message).setType msgIntr).setFirst intrOk

theorem intrMessage_type (m : Message) (pid : Int) : (intrMessage m pid).type = msgIntr := by
  rw [intrMessage, Message.setFirst, Message.type, Message.setType, BitVec.setWidth_append, dif_pos (Nat.le_refl 32)]
  decide

theorem handle_of_type (ht : s.mess.type ≠ msgBdevTransfer) (hp : s.mess.type ≠ msgBdevPart) :
    s.handle dev = { s with loc := .send } := by
  rw [Server.handle, if_neg ht, if_neg hp]

theorem System.stray_sends_self (hloc : S.server.loc = .recv) (hi : S.hasIntr = true) (dev : Device) :
    ∃ S', (S.step (.run dev)).bind (·.step (.run dev)) = some S' ∧ S'.server.loc = .sending S'.server.pid ∧
      S'.server.pid ∈ S'.sent := by
  let s : Server := { S.server with mess := intrMessage S.server.mess S.server.pid }
  let S₁ : System := { S with hasIntr := false, server := { s with loc := .send } }
  have hhandle : s.handle dev = { s with loc := .send } := by
    have htype : s.mess.type = msgIntr := intrMessage_type _ _
    exact handle_of_type (by rw [htype]; decide) (by rw [htype]; decide)
  have hrun : S.step (.run dev) = some S₁ := by
    rw [System.step, hloc]
    dsimp only
    rw [System.recvAll, if_pos hi]
    exact congrArg (fun t => some { S with hasIntr := false, server := t }) hhandle
  refine ⟨S₁.send, ?_, rfl, ?_⟩
  · rw [hrun]
    rfl
  · exact List.mem_append_right _ (List.mem_singleton_self _)

theorem System.step_stuck (hloc : S.server.loc = .sending S.server.pid) (hs : S.step e = some S') :
    S'.server = S.server := by
  cases e with
  | request client msg =>
    rw [System.step] at hs
    split at hs
    · cases hs
    · cases hs
      rfl
  | intr =>
    cases hs
    rfl
  | run dev => simp [System.step, hloc] at hs
  | taken => simp [System.step, hloc] at hs

theorem System.stuck_forever (hloc : S.server.loc = .sending S.server.pid)
    (h : Run System.step (fun _ _ => True) (· = S) S') : S'.server = S.server := by
  apply Run.invariant (Q := fun T => T.server = S.server) _ _ h
  · rintro _ rfl
    rfl
  · intro T e T' hT _ hs
    rw [← hT]
    exact T.step_stuck (by rw [hT]; exact hloc) hs

/-! ## The kernel below -/

/-- What the model keeps of the kernel while the server runs. -/
structure System.Agrees (S : System) (k : Kernel) : Prop where
  pid : k.cur.pid = S.server.pid
  hasIntr : k.cur.hasIntr = S.hasIntr
  queue : S.queue = k.cur.waitProc.map fun p => (k.proc p).msg

theorem System.Agrees.recvAll {k k' : Kernel} {msg : Message} {caller : RecvCaller} (h : S.Agrees k)
    (hr : doRecv k ipcAll { S.server.mess with src := k.cur.pid } caller = .ok (.returned k' msg)) :
    ∃ S', S.recvAll dev = some S' ∧ S'.server = { S.server with mess := msg }.handle dev := by
  rw [doRecv, if_pos rfl, Core.recvAll] at hr
  rw [System.recvAll, ← h.hasIntr]
  split at hr
  · rename_i hi
    rw [takeIntr, h.pid] at hr
    cases hr
    rw [if_pos hi]
    exact ⟨_, rfl, rfl⟩
  · rename_i hi
    rw [if_neg hi, h.queue]
    cases hw : k.cur.waitProc with
    | nil =>
      rw [hw] at hr
      cases hr
    | cons source rest =>
      rw [hw] at hr
      obtain ⟨_, _, hr⟩ := bind_eq_ok hr
      cases hr
      exact ⟨_, rfl, rfl⟩

/-- An interrupt after the initialization: the server sends to itself and never goes on. -/
theorem disk_sends_to_itself : ∃ S : System, Run System.step (fun _ _ => True) System.Init S ∧
    S.server.pid ∈ S.sent ∧ ∀ S', Run System.step (fun _ _ => True) (· = S) S' → S'.server = S.server := by
  obtain ⟨S, hreach, hloc, hi⟩ := Run.exists_of_exec
    (Q := fun S : System => S.server.loc = .recv ∧ S.hasIntr = true)
    (Run.init sampleSystem_init : Run System.step (fun _ _ => True) System.Init sampleSystem)
    (by decide : (exec System.step _ sampleSystem [.intr, .run sampleDevice, .intr]).any _ = true)
  obtain ⟨S', hrun, hloc', hmem⟩ := S.stray_sends_self hloc hi sampleDevice
  obtain ⟨S₁, hs₁, hs'⟩ := Option.bind_eq_some_iff.mp hrun
  exact ⟨S', (hreach.step trivial hs₁).step trivial hs', hmem, fun T hT => System.stuck_forever hloc' hT⟩

end FengOS.Disk
