import FengOS.Exec.Lemmas.Setup

/-!
# `setup_args` and its buffer
-/

namespace FengOS.Exec

open FengOS.Lib

variable {mem mem' : Mem} {argv envp bufend bufsize argc envc src dst n i sp b : Nat} {xs ys : List (Nat × List UInt8)}
  {v v' : ArgVars} {ok : Bool}

/-! ## The recorded areas -/

def Outside (b : Nat) (areas : List Area) : Prop := ∀ area ∈ areas, b < area.1 ∨ area.1 + area.2 ≤ b

theorem outside_append {areas areas' : List Area} : Outside b (areas ++ areas') ↔ Outside b areas ∧ Outside b areas' :=
  List.forall_mem_append

theorem outside_cons {area : Area} {areas : List Area} :
    Outside b (area :: areas) ↔ (b < area.1 ∨ area.1 + area.2 ≤ b) ∧ Outside b areas := List.forall_mem_cons

theorem memcpy_frame {dest s : Nat} (h : memcpy mem dest s n = some mem') (hb : b < dest ∨ dest + n ≤ b) :
    mem' b = mem b := by
  unfold memcpy at h
  split at h
  · rw [← Option.some.inj h, memcpy_apply hb]
  · cases h

theorem storePtr_frame {a p : Nat} (h : storePtr mem a p = some mem') (hb : b < a ∨ a + 8 ≤ b) : mem' b = mem b := by
  unfold storePtr at h
  split at h
  · rw [← Option.some.inj h, Mem.store_apply hb]
  · cases h

theorem argRound_frame {area : Area} (h : argRound true src dst i v = some (some (area, v')))
    (hb : Outside b [area, (dst + 8 * i, 8)]) : v'.mem b = v.mem b := by
  simp only [argRound, Option.bind_eq_bind, Option.bind_eq_some_iff] at h
  obtain ⟨s, -, size, -, left, -, h⟩ := h
  split at h
  · cases h
  · obtain ⟨mem₁, hcopy, mem₂, hstore, h⟩ := by simpa only [Option.bind_eq_some_iff] using h
    simp only [Option.pure_def, Option.some.injEq, Prod.mk.injEq] at h
    obtain ⟨rfl, rfl⟩ := h
    simp only [outside_cons] at hb
    exact (storePtr_frame hstore hb.2.1).trans (memcpy_frame hcopy hb.1)

theorem argLoop_frame (h : argLoop true src dst n i v = some (ok, v')) (hb : Outside b (argWrites src dst n i v)) :
    v'.mem b = v.mem b := by
  induction n generalizing i v with
  | zero =>
    simp only [argLoop, Option.bind_eq_bind, Option.bind_eq_some_iff, Option.pure_def, Option.some.injEq,
      Prod.mk.injEq] at h
    obtain ⟨mem, hstore, -, rfl⟩ := h
    exact storePtr_frame hstore (outside_cons.mp hb).1
  | succ n ih =>
    rw [argLoop_succ_eq] at h
    obtain ⟨r, hround, h⟩ := Option.bind_eq_some_iff.mp h
    cases r with
    | none =>
      obtain ⟨-, rfl⟩ := Prod.mk.inj (Option.some.inj h)
      rfl
    | some r =>
      rw [(argWrites_succ hround).1] at hb
      have hboth : Outside b ([r.1, (dst + 8 * i, 8)] ++ argWrites src dst n (i + 1) r.2) := hb
      rw [outside_append] at hboth
      rw [ih h hboth.2, argRound_frame hround hboth.1]

theorem setupArgs_eq (bufend : Nat) (size : Int) (hargc : count mem argv = some argc) (henvc : count mem envp = some envc) :
    setupArgs mem argv envp bufend size =
      (argLoop true argv (newArgv bufend argc) argc 0 (setupStart mem bufend size argc envc)).bind fun r =>
        if r.1 then (argLoop true envp (newEnvp bufend argc envc) envc 0 r.2).bind fun r =>
          if r.1 then storeArglist r.2 argc (newArgv bufend argc) (newEnvp bufend argc envc) else some (0, r.2.mem)
        else some (0, r.2.mem) := by
  unfold setupStart newEnvp newArgv
  simp only [setupArgs, hargc, henvc, Option.bind_eq_bind, Option.bind_some, Nat.not_lt_zero, if_false, Option.pure_def]

theorem setupWrites_eq (bufend : Nat) (size : Int) (hargc : count mem argv = some argc) (henvc : count mem envp = some envc) :
    setupWrites mem argv envp bufend size =
      argWrites argv (newArgv bufend argc) argc 0 (setupStart mem bufend size argc envc) ++ writesAfter (fun v =>
          argWrites envp (newEnvp bufend argc envc) envc 0 v ++
            writesAfter (fun v => [(arglistAt v, 8), (arglistAt v + 8, 8), (arglistAt v + 16, 8)])
              (argLoop true envp (newEnvp bufend argc envc) envc 0 v))
          (argLoop true argv (newArgv bufend argc) argc 0 (setupStart mem bufend size argc envc)) := by
  rw [setupWrites, hargc, henvc]

theorem storeArglist_eq {newargv newenvp : Nat} : storeArglist v argc newargv newenvp =
    (storePtr v.mem (arglistAt v) argc).bind fun mem => (storePtr mem (arglistAt v + 8) newargv).bind fun mem =>
      (storePtr mem (arglistAt v + 16) newenvp).bind fun mem => some (arglistAt v, mem) := by
  unfold arglistAt
  simp only [storeArglist, Nat.not_lt_zero, if_false, Option.bind_eq_bind, Option.pure_def]

theorem setupArgs_frame {size : Int} (h : setupArgs mem argv envp bufend size = some (sp, mem'))
    (hb : Outside b (setupWrites mem argv envp bufend size)) : mem' b = mem b := by
  have hcounts : ∃ argc envc, count mem argv = some argc ∧ count mem envp = some envc := by
    simp only [setupArgs, Option.bind_eq_bind, Option.bind_eq_some_iff] at h
    obtain ⟨argc, hargc, envc, henvc, -⟩ := h
    exact ⟨argc, envc, hargc, henvc⟩
  obtain ⟨argc, envc, hargc, henvc⟩ := hcounts
  rw [setupArgs_eq bufend size hargc henvc] at h
  rw [setupWrites_eq bufend size hargc henvc, outside_append] at hb
  obtain ⟨⟨ok, v₁⟩, h₁, h⟩ := Option.bind_eq_some_iff.mp h
  have hfirst : v₁.mem b = mem b := argLoop_frame h₁ hb.1
  rw [h₁] at hb
  cases ok with
  | false =>
    obtain ⟨-, rfl⟩ := Prod.mk.inj (Option.some.inj h)
    exact hfirst
  | true =>
    have hb₂ := outside_append.mp hb.2
    obtain ⟨⟨ok, v₂⟩, h₂, h⟩ := Option.bind_eq_some_iff.mp h
    have hsecond : v₂.mem b = v₁.mem b := argLoop_frame h₂ hb₂.1
    rw [h₂] at hb₂
    cases ok with
    | false =>
      obtain ⟨-, rfl⟩ := Prod.mk.inj (Option.some.inj h)
      exact hsecond.trans hfirst
    | true =>
      simp only [if_true, storeArglist_eq, Option.bind_eq_some_iff, Option.some.injEq, Prod.mk.injEq] at h
      obtain ⟨mem₁, hs₁, mem₂, hs₂, mem₃, hs₃, -, rfl⟩ := h
      simp only [writesAfter, outside_cons] at hb₂
      obtain ⟨-, hw₁, hw₂, hw₃, -⟩ := hb₂
      rw [storePtr_frame hs₃ hw₃, storePtr_frame hs₂ hw₂, storePtr_frame hs₁ hw₁, hsecond, hfirst]

/-! ## Strings that fit -/

theorem stringsSize_cons {s : List UInt8} {ss : List (List UInt8)} : stringsSize (s :: ss) = s.length + 1 + stringsSize ss := by
  simp [stringsSize]

theorem accepted_of_size {room : Nat} {ss : List (List UInt8)} (hsize : stringsSize ss ≤ room) (hroom : room < 2 ^ 31) :
    Accepted room (ss.map argLen) ∧ (ss.map argLen).sum = stringsSize ss := by
  induction ss generalizing room with
  | nil => exact ⟨trivial, rfl⟩
  | cons s ss ih =>
    rw [stringsSize_cons] at hsize
    have hlen : argLen s = (s.length + 1 : Nat) := argLen_of_short (by omega)
    have hrest : stringsSize ss ≤ room - (s.length + 1) := by omega
    obtain ⟨hacc, hsum⟩ := ih hrest (by omega)
    rw [List.map_cons, Accepted, List.sum_cons, stringsSize_cons, hsum, hlen, ← Int.ofNat_sub (by omega)]
    exact ⟨⟨by omega, by omega, hacc⟩, by push_cast; ring⟩

theorem map_argLen (xs ys : List (Nat × List UInt8)) : (xs.map Prod.snd ++ ys.map Prod.snd).map argLen =
    (xs.map fun x => argLen x.2) ++ ys.map fun x => argLen x.2 := by
  simp only [List.map_append, List.map_map, Function.comp_def]

/-! ## Arrays that fit -/

section Buffer

variable (h : SetupBuffer mem argv envp bufend bufsize xs ys)

include h

theorem SetupBuffer.counts (hxs : xs.length < 2 ^ 31) (hys : ys.length < 2 ^ 31) :
    count mem argv = some xs.length ∧ count mem envp = some ys.length := ⟨h.argvVec.count hxs, h.envpVec.count hys⟩

theorem SetupBuffer.arrays_eq (hroom : 8 * (xs.length + ys.length + 2) ≤ bufsize) :
    newArgv bufend xs.length = bufend - 8 * (xs.length + 1) ∧
      newEnvp bufend xs.length ys.length = bufend - 8 * (xs.length + ys.length + 2) := by
  have hsize := h.room
  have hlt := h.lt
  unfold newEnvp newArgv toSize
  omega

theorem SetupBuffer.first (hroom : 8 * (xs.length + ys.length + 2) ≤ bufsize) :
    FillPre (argv + 8 * 0) (newArgv bufend xs.length + 8 * 0) (bufend - bufsize) bufend
      (bufsize - 8 * (xs.length + ys.length + 2)) xs (setupStart mem bufend bufsize xs.length ys.length) := by
  have hsize := h.room
  have hsmall := h.size_lt
  have harea : bufend - (bufend - bufsize) = bufsize := by omega
  obtain ⟨hargv, henvp⟩ := h.arrays_eq hroom
  constructor
  case vec => exact fun hne => (h.argvVec.vec hne).2
  case away =>
    rw [harea]
    exact fun hne => h.argvApart (h.argvVec.vec hne).1
  case above => omega
  case below => omega
  case inside =>
    rw [harea]
    exact h.inside
  case lt => exact h.lt
  case small => omega
  case cur =>
    simp only [setupStart, henvp]
    omega
  case left =>
    simp only [setupStart]
    rw [toInt_eq (by omega) (by omega)]
    omega

theorem SetupBuffer.second (hroom : 8 * (xs.length + ys.length + 2) ≤ bufsize) {rest : Nat}
    (hrest : rest ≤ bufsize - 8 * (xs.length + ys.length + 2)) (hcur : v.cur = bufend - bufsize + rest) (hleft : v.left = rest)
    (hframe : ∀ b, b < bufend - bufsize ∨ bufend ≤ b → v.mem b = mem b) :
    FillPre (envp + 8 * 0) (newEnvp bufend xs.length ys.length + 8 * 0) (bufend - bufsize) bufend rest ys v := by
  have hsize := h.room
  have hsmall := h.size_lt
  have harea : bufend - (bufend - bufsize) = bufsize := by omega
  obtain ⟨-, henvp⟩ := h.arrays_eq hroom
  have haway : ys ≠ [] → ∀ area ∈ vecAreas envp ys, area.Apart (bufend - bufsize, bufend - (bufend - bufsize)) := by
    rw [harea]
    exact fun hne => h.envpApart (h.envpVec.vec hne).1
  constructor
  case vec => exact fun hne => (h.envpVec.vec hne).2.of_frame (by omega) (haway hne) hframe
  case away => exact haway
  case above => omega
  case below => omega
  case inside =>
    rw [harea]
    exact h.inside
  case lt => exact h.lt
  case small => omega
  case cur => exact hcur
  case left => exact hleft

theorem SetupBuffer.arglist {rest : Nat} (hcur : v.cur = bufend - bufsize + rest) (hrest : rest ≤ bufsize) :
    (bufend - bufsize ≤ arglistAt v ∧ arglistAt v + 8 ≤ bufend ↔ 24 ≤ rest) ∧
      (24 ≤ rest → arglistAt v = bufend - bufsize + (rest - rest % 8 - 24)) := by
  have haligned := h.aligned
  have hsizeAligned := h.sizeAligned
  have hsize := h.room
  have hlt := h.lt
  have hsmall := h.size_lt
  unfold arglistAt toSize
  rw [hcur]
  omega

theorem SetupBuffer.respects_of_loops {v₁ v₂ : ArgVars} {rest : Nat} (hxs : xs.length < 2 ^ 31) (hys : ys.length < 2 ^ 31)
    (h₁ : argLoop true argv (newArgv bufend xs.length) xs.length 0 (setupStart mem bufend bufsize xs.length ys.length) =
      some (true, v₁)) (h₂ : argLoop true envp (newEnvp bufend xs.length ys.length) ys.length 0 v₁ = some (true, v₂))
    (hin₁ : AllInside (bufend - bufsize) bufend (argWrites argv (newArgv bufend xs.length) xs.length 0
      (setupStart mem bufend bufsize xs.length ys.length)))
    (hin₂ : AllInside (bufend - bufsize) bufend (argWrites envp (newEnvp bufend xs.length ys.length) ys.length 0 v₁))
    (hcur : v₂.cur = bufend - bufsize + rest) (hle : rest ≤ bufsize)
    (hrest : (rest : Int) = bufsize - 8 * (xs.length + ys.length + 2) -
      ((xs.map Prod.snd ++ ys.map Prod.snd).map argLen).sum) :
    SetupRespects mem argv envp bufend bufsize (xs.map Prod.snd) (ys.map Prod.snd) ↔
      SetupFits bufsize (xs.map Prod.snd) (ys.map Prod.snd) := by
  obtain ⟨hargc, henvc⟩ := h.counts hxs hys
  obtain ⟨hwords, hat⟩ := h.arglist hcur hle
  have hsize := h.room
  have hwrites := setupWrites_eq bufend bufsize hargc henvc
  have hargs := setupArgs_eq bufend bufsize hargc henvc
  simp only [h₁, h₂, writesAfter] at hwrites
  simp only [h₁, h₂, Option.bind_some, if_true, storeArglist_eq] at hargs
  constructor
  · intro hresp
    by_contra hfit
    obtain ⟨sp, mem', hret, hnull⟩ := hresp.returns
    have hword := hresp.inside (arglistAt v₂, 8) (by simp [hwrites])
    have hpos := hat (hwords.mp hword)
    rw [hargs] at hret
    simp only [Option.bind_eq_some_iff, Option.some.injEq, Prod.mk.injEq] at hret
    obtain ⟨-, -, -, -, -, -, hsp, -⟩ := hret
    have hzero := hnull hfit
    omega
  · intro hfit
    have hfit' := hfit
    unfold SetupFits at hfit'
    rw [List.length_map, List.length_map] at hfit'
    have hstrings : stringsSize (xs.map Prod.snd ++ ys.map Prod.snd) ≤ bufsize := by omega
    obtain ⟨-, hsum⟩ := accepted_of_size hstrings h.size_lt
    have hroom : 24 ≤ rest := by omega
    have heq := hat hroom
    have hcanon : Canonical (arglistAt v₂) 24 := h.inside.mono (by omega) (by omega)
    rw [storePtr_eq (hcanon.mono (Nat.le_refl _) (by omega)), Option.bind_some,
      storePtr_eq (hcanon.mono (by omega) (by omega)), Option.bind_some,
      storePtr_eq (hcanon.mono (by omega) (by omega)), Option.bind_some] at hargs
    refine ⟨?_, _, _, hargs, fun hn => absurd hfit hn⟩
    rw [hwrites]
    refine List.forall_mem_append.mpr ⟨hin₁, List.forall_mem_append.mpr ⟨hin₂, ?_⟩⟩
    simp only [List.forall_mem_cons]
    exact ⟨by omega, by omega, by omega, fun _ hmem => absurd hmem List.not_mem_nil⟩

theorem SetupBuffer.respects_iff_of_room (hroom : 8 * (xs.length + ys.length + 2) ≤ bufsize) :
    SetupRespects mem argv envp bufend bufsize (xs.map Prod.snd) (ys.map Prod.snd) ↔
      SetupFits bufsize (xs.map Prod.snd) (ys.map Prod.snd) ∨
        Refused (bufsize - 8 * (xs.length + ys.length + 2) : Nat) ((xs.map Prod.snd ++ ys.map Prod.snd).map argLen) := by
  have hsmall := h.size_lt
  obtain ⟨hargc, henvc⟩ := h.counts (by omega) (by omega)
  have hwrites := setupWrites_eq bufend bufsize hargc henvc
  have hargs := setupArgs_eq bufend bufsize hargc henvc
  have hfitAcc : SetupFits bufsize (xs.map Prod.snd) (ys.map Prod.snd) →
      Accepted (bufsize - 8 * (xs.length + ys.length + 2) : Nat) ((xs.map Prod.snd ++ ys.map Prod.snd).map argLen) := by
    intro hfit
    unfold SetupFits at hfit
    rw [List.length_map, List.length_map] at hfit
    exact (accepted_of_size (by omega) (by omega)).1
  rw [map_argLen, accepted_append] at hfitAcc
  rw [map_argLen, refused_append]
  by_cases href : Refused (bufsize - 8 * (xs.length + ys.length + 2) : Nat) (xs.map fun x => argLen x.2)
  · obtain ⟨v₁, h₁, hin₁⟩ := (h.first hroom).refused href
    simp only [h₁, writesAfter, List.append_nil] at hwrites
    simp only [h₁, Option.bind_some, Bool.false_eq_true, if_false] at hargs
    refine ⟨fun _ => Or.inr (Or.inl href), fun _ => ⟨?_, _, _, hargs, fun _ => rfl⟩⟩
    rw [hwrites]
    exact hin₁
  by_cases hacc : Accepted (bufsize - 8 * (xs.length + ys.length + 2) : Nat) (xs.map fun x => argLen x.2)
  case neg =>
    have h₁ := (h.first hroom).stuck href hacc
    rw [h₁, Option.bind_none] at hargs
    refine ⟨fun hresp => ?_, fun hor => ?_⟩
    · obtain ⟨sp, mem', hret, -⟩ := hresp.returns
      rw [hargs] at hret
      cases hret
    · rcases hor with hfit | hr | hr
      · exact absurd (hfitAcc hfit).1 hacc
      · exact absurd hr href
      · exact absurd hr.1 hacc
  case pos =>
    obtain ⟨v₁, rest, h₁, hin₁, hrest, hle, hcur, hleft, hframe⟩ := (h.first hroom).accepted hacc
    have hsecond := h.second hroom hle hcur hleft hframe
    rw [← hrest] at hfitAcc ⊢
    by_cases href₂ : Refused rest (ys.map fun x => argLen x.2)
    · obtain ⟨v₂, h₂, hin₂⟩ := hsecond.refused href₂
      simp only [h₁, h₂, writesAfter, List.append_nil] at hwrites
      simp only [h₁, h₂, Option.bind_some, Bool.false_eq_true, if_false, if_true] at hargs
      refine ⟨fun _ => Or.inr (Or.inr ⟨hacc, href₂⟩), fun _ => ⟨?_, _, _, hargs, fun _ => rfl⟩⟩
      rw [hwrites]
      exact List.forall_mem_append.mpr ⟨hin₁, hin₂⟩
    by_cases hacc₂ : Accepted rest (ys.map fun x => argLen x.2)
    case neg =>
      have h₂ := hsecond.stuck href₂ hacc₂
      simp only [h₁, h₂, Option.bind_some, if_true, Option.bind_none] at hargs
      refine ⟨fun hresp => ?_, fun hor => ?_⟩
      · obtain ⟨sp, mem', hret, -⟩ := hresp.returns
        rw [hargs] at hret
        cases hret
      · rcases hor with hfit | hr | hr
        · exact absurd (hfitAcc hfit).2 hacc₂
        · exact absurd hr href
        · exact absurd hr.2 href₂
    case pos =>
      obtain ⟨v₂, rest₂, h₂, hin₂, hrest₂, hle₂, hcur₂, -, -⟩ := hsecond.accepted hacc₂
      rw [h.respects_of_loops (by omega) (by omega) h₁ h₂ hin₁ hin₂ hcur₂ (by omega) (by
        rw [map_argLen, List.sum_append, hrest₂, hrest]
        omega)]
      refine ⟨Or.inl, fun hor => ?_⟩
      rcases hor with hfit | hr | hr
      · exact hfit
      · exact absurd hr href
      · exact absurd hr.2 href₂

/-! ## Arrays that do not fit -/

theorem SetupBuffer.length_lt (hresp : SetupRespects mem argv envp bufend bufsize (xs.map Prod.snd) (ys.map Prod.snd)) :
    xs.length < 2 ^ 31 ∧ ys.length < 2 ^ 31 := by
  obtain ⟨sp, mem', hret, -⟩ := hresp.returns
  simp only [setupArgs, Option.bind_eq_bind, Option.bind_eq_some_iff] at hret
  obtain ⟨argc, hargc, envc, henvc, -⟩ := hret
  exact ⟨h.argvVec.length_lt hargc, h.envpVec.length_lt henvc⟩

theorem SetupBuffer.not_inside (hroom : bufsize < 8 * (xs.length + ys.length + 2)) (hxs : xs.length < 2 ^ 31)
    (hys : ys.length < 2 ^ 31) {len : Int} (hpos : 0 ≤ len) (hlen : len < 2 ^ 31) :
    ¬ (bufend - bufsize ≤ toSize (newEnvp bufend xs.length ys.length - len) ∧
      toSize (newEnvp bufend xs.length ys.length - len) + toSize len ≤ bufend) := by
  have hlt := h.lt
  have hsize := h.room
  unfold newEnvp newArgv toSize
  omega

theorem SetupBuffer.fires (hroom : bufsize < 8 * (xs.length + ys.length + 2)) (hxs : xs.length < 2 ^ 31)
    (hys : ys.length < 2 ^ 31) {z : Nat × List UInt8} {zs : List (Nat × List UInt8)} (hvec : Vec v.mem (src + 8 * 0) (z :: zs))
    (hcur : v.cur = newEnvp bufend xs.length ys.length)
    (hin : AllInside (bufend - bufsize) bufend (argWrites src dst (n + 1) 0 v)) (hrun : argLoop true src dst (n + 1) 0 v ≠ none) :
    TestFires v.left (argLen z.2) := by
  cases hround : argRound true src dst 0 v with
  | none => exact absurd (by rw [argLoop_succ_eq, hround, Option.bind_none]) hrun
  | some r =>
    cases r with
    | none => exact fires_of_argRound hvec hround
    | some r =>
      obtain ⟨hpos, harea⟩ := argRound_area hvec hround
      rw [(argWrites_succ hround).1] at hin
      have hfirst := hin r.1 List.mem_cons_self
      rw [harea, hcur] at hfirst
      dsimp only at hfirst
      exact absurd hfirst (h.not_inside hroom hxs hys hpos (argLen_bounds z.2).2)

theorem SetupBuffer.first_nil (hsize : 8 ≤ bufsize) : ∃ v₁,
    argLoop true argv (newArgv bufend 0) 0 0 (setupStart mem bufend bufsize 0 ys.length) = some (true, v₁) ∧
      v₁.cur = newEnvp bufend 0 ys.length ∧ v₁.left = toInt (bufsize - (0 + ys.length + 2) * 8) ∧
      ∀ b, b < bufend - bufsize ∨ bufend ≤ b → v₁.mem b = mem b := by
  have hroom := h.room
  have hlt := h.lt
  have hargv : newArgv bufend 0 + 8 * 0 = bufend - 8 := by
    unfold newArgv toSize
    omega
  have hslot : Canonical (newArgv bufend 0 + 8 * 0) 8 := by
    rw [hargv]
    exact h.inside.mono (by omega) (by omega)
  refine ⟨{ setupStart mem bufend bufsize 0 ys.length with mem := mem.store (newArgv bufend 0 + 8 * 0) 0 8 }, ?_, rfl, rfl,
    fun b hb => ?_⟩
  · rw [argLoop, setupStart, storePtr_eq hslot]
    rfl
  · rw [hargv]
    exact Mem.store_apply (by omega)

end Buffer

theorem SetupBuffer.respects_iff_cons {x : Nat × List UInt8} (h : SetupBuffer mem argv envp bufend bufsize (x :: xs) ys)
    (hroom : bufsize < 8 * ((x :: xs).length + ys.length + 2)) (hxs : (x :: xs).length < 2 ^ 31) (hys : ys.length < 2 ^ 31) :
    SetupRespects mem argv envp bufend bufsize ((x :: xs).map Prod.snd) (ys.map Prod.snd) ↔
      TestFires (toInt (bufsize - ((x :: xs).length + ys.length + 2) * 8)) (argLen x.2) := by
  obtain ⟨hargc, henvc⟩ := h.counts hxs hys
  have hwrites := setupWrites_eq bufend bufsize hargc henvc
  have hargs := setupArgs_eq bufend bufsize hargc henvc
  have hvec : Vec (setupStart mem bufend bufsize (x :: xs).length ys.length).mem (argv + 8 * 0) (x :: xs) :=
    (h.argvVec.vec (List.cons_ne_nil _ _)).2
  constructor
  · intro hresp
    have hin := hresp.inside
    obtain ⟨sp, mem', hret, -⟩ := hresp.returns
    rw [hwrites] at hin
    rw [hargs] at hret
    obtain ⟨r, hrun, -⟩ := Option.bind_eq_some_iff.mp hret
    exact h.fires hroom hxs hys hvec rfl (List.forall_mem_append.mp hin).1 (Option.ne_none_iff_exists'.mpr ⟨r, hrun⟩)
  · intro hfires
    obtain ⟨hloop, hnone⟩ := loop_of_fires (newArgv bufend (x :: xs).length) xs.length hvec hfires
    rw [← List.length_cons (a := x)] at hloop hnone
    simp only [hloop, hnone, writesAfter, List.append_nil] at hwrites
    simp only [hloop, Option.bind_some, Bool.false_eq_true, if_false] at hargs
    refine ⟨?_, _, _, hargs, fun _ => rfl⟩
    rw [hwrites]
    exact fun area harea => absurd harea List.not_mem_nil

theorem SetupBuffer.respects_iff_nil (h : SetupBuffer mem argv envp bufend bufsize [] ys)
    (hroom : bufsize < 8 * (0 + ys.length + 2)) (hys : ys.length < 2 ^ 31) :
    SetupRespects mem argv envp bufend bufsize [] (ys.map Prod.snd) ↔ 8 ≤ bufsize ∧
      Refused (toInt (bufsize - (0 + ys.length + 2) * 8)) (((ys.map Prod.snd).take 1).map argLen) := by
  obtain ⟨hargc, henvc⟩ := h.counts (Nat.two_pow_pos 31) hys
  have hwrites := setupWrites_eq bufend bufsize hargc henvc
  have hargs := setupArgs_eq bufend bufsize hargc henvc
  have hsize := h.room
  have hlt := h.lt
  have hargv : newArgv bufend 0 + 8 * 0 = bufend - 8 := by
    have haligned := h.aligned
    unfold newArgv toSize
    omega
  simp only [List.length_nil] at hwrites hargs
  by_cases hword : 8 ≤ bufsize
  case neg =>
    refine ⟨fun hresp => ?_, fun hmet => absurd hmet.1 hword⟩
    have hnull := hresp.inside (newArgv bufend 0 + 8 * 0, 8) (by simp [hwrites, argWrites])
    rw [hargv] at hnull
    omega
  case pos =>
    obtain ⟨v₁, hloop, hcur, hleft, hframe⟩ := h.first_nil hword
    simp only [hloop, writesAfter] at hwrites
    simp only [hloop, Option.bind_some, if_true] at hargs
    have hnull : AllInside (bufend - bufsize) bufend
        (argWrites argv (newArgv bufend 0) 0 0 (setupStart mem bufend bufsize 0 ys.length)) := by
      refine List.forall_mem_singleton.mpr ?_
      dsimp only
      omega
    cases ys with
    | nil =>
      refine ⟨fun hresp => ?_, fun hmet => absurd hmet.2 not_false⟩
      have hsecond := hresp.inside (newEnvp bufend 0 0 + 8 * 0, 8) (by simp [hwrites, argWrites])
      have haligned := h.aligned
      have hsizeAligned := h.sizeAligned
      simp only [List.length_nil] at hroom
      unfold newEnvp newArgv toSize at hsecond
      omega
    | cons y ys =>
      have hvec : Vec v₁.mem (envp + 8 * 0) (y :: ys) := by
        obtain ⟨hne, hvec⟩ := h.envpVec.vec (List.cons_ne_nil y ys)
        refine hvec.of_frame (Nat.sub_le bufend bufsize) ?_ hframe
        rw [show bufend - (bufend - bufsize) = bufsize by omega]
        exact h.envpApart hne
      rw [List.map_cons, List.take_succ_cons, List.take_zero, List.map_cons, List.map_nil, refused_singleton, ← hleft]
      constructor
      · intro hresp
        have hin := hresp.inside
        obtain ⟨sp, mem', hret, -⟩ := hresp.returns
        rw [hwrites] at hin
        rw [hargs] at hret
        obtain ⟨r, hrun, -⟩ := Option.bind_eq_some_iff.mp hret
        exact ⟨hword, h.fires hroom (Nat.two_pow_pos 31) hys hvec hcur
          (List.forall_mem_append.mp (List.forall_mem_append.mp hin).2).1 (Option.ne_none_iff_exists'.mpr ⟨r, hrun⟩)⟩
      · rintro ⟨-, hfires⟩
        obtain ⟨hloop₂, hnone⟩ := loop_of_fires (newEnvp bufend 0 (y :: ys).length) ys.length hvec hfires
        rw [← List.length_cons (a := y)] at hloop₂ hnone
        simp only [hloop₂, hnone, List.append_nil] at hwrites
        simp only [hloop₂, Option.bind_some, Bool.false_eq_true, if_false] at hargs
        refine ⟨?_, _, _, hargs, fun _ => rfl⟩
        rw [hwrites]
        exact hnull

/-- `setup_args` respects its buffer exactly if everything fits or the test fires before a write outside. -/
theorem setup_args_respects_iff {mem : Mem} {argv envp bufend bufsize : Nat} {xs ys : List (Nat × List UInt8)}
    (h : SetupBuffer mem argv envp bufend bufsize xs ys) :
    SetupRespects mem argv envp bufend bufsize (xs.map Prod.snd) (ys.map Prod.snd) ↔
      SetupMet bufsize (xs.map Prod.snd) (ys.map Prod.snd) := by
  have hsmall := h.size_lt
  unfold SetupMet
  rw [List.length_map, List.length_map]
  by_cases hroom : 8 * (xs.length + ys.length + 2) ≤ bufsize
  · have hleft : toInt (bufsize - (xs.length + ys.length + 2) * 8) = (bufsize - 8 * (xs.length + ys.length + 2) : Nat) := by
      rw [toInt_eq (by omega) (by omega)]
      omega
    rw [h.respects_iff_of_room hroom, if_pos hroom, hleft]
    have hword : xs.map Prod.snd = [] → 8 ≤ bufsize := fun _ => by omega
    exact or_congr_right ⟨fun hr => ⟨by omega, by omega, hword, hr⟩, fun hr => hr.2.2.2⟩
  · have hfit : ¬ SetupFits bufsize (xs.map Prod.snd) (ys.map Prod.snd) := by
      unfold SetupFits
      rw [List.length_map, List.length_map]
      omega
    rw [if_neg hroom, or_iff_right hfit]
    rw [Nat.not_le] at hroom
    have hlengths : ∀ {p : Prop}, (xs.length < 2 ^ 31 → ys.length < 2 ^ 31 →
        (SetupRespects mem argv envp bufend bufsize (xs.map Prod.snd) (ys.map Prod.snd) ↔ p)) →
        (SetupRespects mem argv envp bufend bufsize (xs.map Prod.snd) (ys.map Prod.snd) ↔
          xs.length < 2 ^ 31 ∧ ys.length < 2 ^ 31 ∧ p) := by
      intro p hp
      refine ⟨fun hresp => ?_, fun hall => (hp hall.1 hall.2.1).mpr hall.2.2⟩
      obtain ⟨hxs, hys⟩ := h.length_lt hresp
      exact ⟨hxs, hys, (hp hxs hys).mp hresp⟩
    refine hlengths fun hxs hys => ?_
    cases xs with
    | nil =>
      rw [List.map_nil, List.nil_append]
      rw [h.respects_iff_nil hroom hys]
      exact and_congr_left fun _ => ⟨fun hword _ => hword, fun hword => hword rfl⟩
    | cons x xs =>
      rw [h.respects_iff_cons hroom hxs hys, List.map_cons, List.cons_append, List.take_succ_cons, List.take_zero,
        List.map_cons, List.map_nil, refused_singleton]
      exact ⟨fun hfires => ⟨fun hnil => absurd hnil (List.cons_ne_nil _ _), hfires⟩, fun hmet => hmet.2⟩

/-- A memory with the vector of one string, the letter a, at 0x2000. -/
def oneArg : Mem := fun a => if a = 0x2001 then 0x30 else if a = 0x3000 then 97 else 0

theorem oneArg_buffer : SetupBuffer oneArg 0x2000 0 0x1000 64 [(0x3000, [97])] [] where
  aligned := rfl
  sizeAligned := rfl
  size_lt := by decide
  room := by decide
  lt := by decide
  inside := by decide
  argvVec := .inr ⟨by decide, ⟨by decide, by decide, by decide, by decide, by decide⟩, by
    refine List.forall_mem_singleton.mpr ⟨by simp, fun i hi => ?_, rfl, by decide⟩
    obtain rfl : i = 0 := Nat.lt_one_iff.mp hi
    rfl⟩
  envpVec := .inl ⟨rfl, rfl⟩
  argvApart := by
    intro _ area harea
    simp only [vecAreas, List.map_cons, List.map_nil, List.mem_cons, List.not_mem_nil, or_false] at harea
    rcases harea with rfl | rfl
    · exact .inr (by decide)
    · exact .inr (by decide)
  envpApart hne := absurd rfl hne

theorem setup_args_respects_oneArg : SetupRespects oneArg 0x2000 0 0x1000 64 [[97]] [] :=
  (setup_args_respects_iff oneArg_buffer).mpr (.inl (by unfold SetupFits; decide))

/-- In a buffer of four words without strings the arrays take two, and three words are written below it. -/
theorem setup_args_overruns : SetupBuffer (fun _ => 0) 0 0 0x1000 32 [] [] ∧ ¬ SetupFits 32 [] [] ∧
    (∃ mem', setupArgs (fun _ => 0) 0 0 0x1000 32 = some (0xfd8, mem')) ∧ ¬ SetupRespects (fun _ => 0) 0 0 0x1000 32 [] [] := by
  refine ⟨⟨rfl, rfl, by decide, by decide, by decide, by decide, .inl ⟨rfl, rfl⟩, .inl ⟨rfl, rfl⟩, fun hne => absurd rfl hne,
    fun hne => absurd rfl hne⟩, by unfold SetupFits; decide, ?_, fun hresp => ?_⟩
  · have hexec : (setupArgs (fun _ => 0) 0 0 0x1000 32).map Prod.fst = some 0xfd8 := by decide
    obtain ⟨⟨sp, mem'⟩, hrun, rfl⟩ := Option.map_eq_some_iff.mp hexec
    exact ⟨mem', hrun⟩
  · have hwrite : ((0xfd8, 8) : Area) ∈ setupWrites (fun _ => 0) 0 0 0x1000 32 := by decide
    have hinside := hresp.inside _ hwrite
    revert hinside
    decide

end FengOS.Exec
