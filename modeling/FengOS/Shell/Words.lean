import FengOS.Libc.Strings
import Mathlib.Data.List.Range

/-!
# The splitters of the shell (`shell/main.c`)

Both cut a string in place and keep pointers, here indices, to its parts in a vector. There is no result if one is stored
behind it.
-/

namespace FengOS.Shell

open FengOS.Lib FengOS.Libc

/-- The string, the vector and the number of pointers in it. -/
structure Split where
  buf : Mem
  argv : Nat → Option Nat
  argc : Nat

/-- A pointer is stored in a vector of `cap` entries. -/
def Split.store (cap : Nat) (w : Split) (i : Nat) : Option Split :=
  if w.argc < cap then some { w with argv := Function.update w.argv w.argc (some i), argc := w.argc + 1 } else none

def Split.clear (w : Split) (i : Nat) : Split := { w with buf := Function.update w.buf i 0 }

/-- A round of `parse_cmd`; `next` says that a word may begin. -/
def parseRound (w : Split) (next : Bool) (i : Nat) : Option (Split × Bool) :=
  if isspace (w.buf i) then some (w.clear i, true)
  else if next then (w.store 32 i).map fun w => (w, false)
  else some (w, next)

def parseLoop (buf : Mem) : Nat → Option (Split × Bool)
  | 0 => some (⟨buf, fun _ => none, 0⟩, true)
  | n + 1 => (parseLoop buf n).bind fun (w, next) => parseRound w next n

/-- With the vector `cargv` of `main`. -/
def parseCmd (buf : Mem) (length : Nat) : Option Split := (parseLoop buf length).map Prod.fst

def pathEq : Mem := fun i => [80, 65, 84, 72, 61].getD i 0

def findPath (envp : List CStr) : Option CStr := envp.find? fun e => (strncmp 0 pathEq e.bytes 5).1 == 0

def isColon (c : UInt8) : Bool := c == 58

/-- The inner loop of `setup_envpath`, with at most `left` rounds. -/
def skipPart (buf : Mem) : Nat → Nat → Nat
  | 0, path => path
  | left + 1, path => if buf path ≠ 0 ∧ !isColon (buf path) then skipPart buf left (path + 1) else path

/-- The outer loop; there is no result if it needs more than `rounds` tests. -/
def envLoop (left : Nat) : Nat → Split → Nat → Option Split
  | 0, _, _ => none
  | rounds + 1, w, path =>
    if w.buf path = 0 then some w
    else (w.store 16 path).bind fun w =>
      let path := skipPart w.buf left path
      if w.buf path ≠ 0 then envLoop left rounds (w.clear path) (path + 1) else envLoop left rounds w path

/-- With the vector `envpath`. -/
def setupEnvpath (envp : List CStr) : Option (Int × Option Split) :=
  match findPath envp with
  | none => some (-1, none)
  | some e => (envLoop e.len (e.len + 1) ⟨fun i => e.bytes (5 + i), fun _ => none, 0⟩ 0).map fun w => (0, some w)

/-! ## What they should do -/

/-- Where the parts of the first `n` characters begin. -/
def starts (sep : UInt8 → Bool) (empty : Bool) (buf : Mem) (n : Nat) : List Nat :=
  (List.range n).filter fun a => (a == 0 || sep (buf (a - 1))) && (empty || !sep (buf a))

/-- The part from `a` to `b`: there is no separator in it, and it ends at one or at the end. -/
def IsPart (sep : UInt8 → Bool) (buf : Mem) (length a b : Nat) : Prop :=
  a ≤ b ∧ b ≤ length ∧ (∀ i, a ≤ i → i < b → sep (buf i) = false) ∧ (b = length ∨ sep (buf b))

/-- The vector has exactly these parts, with a null pointer behind them, and each ends with a NUL. -/
structure Split.Right (cap : Nat) (sep : UInt8 → Bool) (parts : List Nat) (buf : Mem) (length : Nat) (w : Split) : Prop where
  argc : w.argc = parts.length
  argv : ∀ k, w.argv k = parts[k]?
  room : w.argc < cap
  ends : ∀ a ∈ parts, ∀ b, IsPart sep buf length a b → (∀ i, a ≤ i → i < b → w.buf i = buf i) ∧ w.buf b = 0

/-- The components of a path: the last one begins behind the last colon, even if it is empty. -/
def components (buf : Mem) (length : Nat) : List Nat := starts isColon true buf (length + 1)

def ParseRight (buf : Mem) (length : Nat) : Prop :=
  ∃ w, parseCmd buf length = some w ∧ w.Right 32 isspace (starts isspace false buf length) buf length

def EnvRight (envp : List CStr) : Prop :=
  ∀ e, findPath envp = some e → ∃ w, setupEnvpath envp = some (0, some w) ∧
    w.Right 16 isColon (components (fun i => e.bytes (5 + i)) (e.len - 5)) (fun i => e.bytes (5 + i)) (e.len - 5)

/-- There are at most 15 components, and the last one is not empty. -/
def PathFits (e : CStr) : Prop :=
  (components (fun i => e.bytes (5 + i)) (e.len - 5)).length < 16 ∧ 5 < e.len ∧ e.bytes (e.len - 1) ≠ 58

variable {sep : UInt8 → Bool} {empty : Bool} {buf : Mem} {cap n length : Nat}

theorem starts_succ : starts sep empty buf (n + 1) =
    starts sep empty buf n ++ if (n == 0 || sep (buf (n - 1))) && (empty || !sep (buf n)) then [n] else [] := by
  simp only [starts, List.range_succ, List.filter_append]
  congr 1
  cases hn : (n == 0 || sep (buf (n - 1))) && (empty || !sep (buf n)) <;> simp [hn]

/-- The string with the separators before `n` replaced. -/
def cut (sep : UInt8 → Bool) (buf : Mem) (n : Nat) : Mem := fun i => if i < n ∧ sep (buf i) then 0 else buf i

theorem cut_succ : cut sep buf (n + 1) = if sep (buf n) then Function.update (cut sep buf n) n 0 else cut sep buf n := by
  funext i
  rcases eq_or_ne i n with rfl | hne
  · cases hsep : sep (buf i) <;> simp [cut, hsep]
  · have hiff : i < n + 1 ↔ i < n := by omega
    cases hsep : sep (buf n) <;> simp [cut, hne, hiff]

/-- Where the separators are replaced, and the vector has these parts. -/
def Split.of (buf : Mem) (parts : List Nat) : Split := ⟨buf, fun k => parts[k]?, parts.length⟩

theorem Split.store_of {parts : List Nat} {i : Nat} :
    (Split.of buf parts).store cap i = if parts.length < cap then some (Split.of buf (parts ++ [i])) else none := by
  have hargv : Function.update (fun k => parts[k]?) parts.length (some i) = fun k => (parts ++ [i])[k]? := by
    funext k
    rcases lt_trichotomy k parts.length with hlt | rfl | hgt
    · simp [hlt.ne, List.getElem?_append_left hlt]
    · simp
    · rw [Function.update_of_ne hgt.ne', List.getElem?_eq_none hgt.le,
        List.getElem?_eq_none (by simpa using Nat.succ_le_of_lt hgt)]
  simp only [Split.store, Split.of, hargv, List.length_append, List.length_singleton]

/-- What a splitter makes of the first `n` characters. -/
def splitAt (cap : Nat) (sep : UInt8 → Bool) (empty : Bool) (buf : Mem) (n : Nat) : Option Split :=
  if (starts sep empty buf n).length ≤ cap then some (Split.of (cut sep buf n) (starts sep empty buf n)) else none

theorem cut_zero : cut sep buf 0 = buf := by
  funext i
  simp [cut]

theorem cut_self : cut sep buf n n = buf n := by simp [cut]

theorem parseLoop_eq :
    parseLoop buf n = (splitAt 32 isspace false buf n).map fun w => (w, n == 0 || isspace (buf (n - 1))) := by
  induction n with
  | zero => simp [parseLoop, splitAt, Split.of, starts, cut_zero]
  | succ n ih =>
    rw [parseLoop, ih, splitAt, splitAt, starts_succ, cut_succ]
    obtain ⟨parts, hparts⟩ : ∃ parts, starts isspace false buf n = parts := ⟨_, rfl⟩
    obtain ⟨next, hnext⟩ : ∃ next, (n == 0 || isspace (buf (n - 1))) = next := ⟨_, rfl⟩
    rw [hparts, hnext]
    by_cases hroom : parts.length ≤ 32
    · cases hsep : isspace (buf n) with
      | true => simp [hroom, parseRound, Split.of, Split.clear, cut_self, hsep]
      | false =>
        cases next with
        | true =>
          have hround : parseRound (Split.of (cut isspace buf n) parts) true n =
              ((Split.of (cut isspace buf n) parts).store 32 n).map fun w => (w, false) := by
            simp [parseRound, Split.of, cut_self, hsep]
          by_cases hlt : parts.length < 32 <;>
            simp [hroom, hround, Split.store_of, hlt, hsep, Nat.succ_le_iff]
        | false => simp [hroom, parseRound, Split.of, cut_self, hsep]
    · have hmore : ¬ parts.length + 1 ≤ 32 := by omega
      cases next <;> cases isspace (buf n) <;> simp [hroom, hmore]

theorem parseCmd_eq : parseCmd buf length = splitAt 32 isspace false buf length := by
  simp [parseCmd, parseLoop_eq, Function.comp_def]

/-! ## The loops of `setup_envpath` -/

variable {p q left rounds : Nat}

theorem starts_part (hle : p ≤ q) (hstart : (p == 0 || sep (buf (p - 1))) = true)
    (hpart : ∀ i, p ≤ i → i < q → sep (buf i) = false) :
    starts sep true buf (q + 1) = starts sep true buf p ++ [p] := by
  induction q, hle using Nat.le_induction with
  | base => simp [starts_succ, hstart]
  | succ q hle ih =>
    rw [starts_succ, ih fun i hi hlt => hpart i hi (by omega)]
    simp [hpart q hle (by omega)]

theorem cut_part (hle : p ≤ q) (hpart : ∀ i, p ≤ i → i < q → sep (buf i) = false) : cut sep buf q = cut sep buf p := by
  funext i
  by_cases hi : p ≤ i ∧ i < q
  · simp [cut, hpart i hi.1 hi.2]
  · simp only [cut, show i < q ↔ i < p by omega]

theorem skipPart_spec (hnul : buf length = 0) (hp : p ≤ length) (hleft : length - p ≤ left) :
    p ≤ skipPart buf left p ∧ skipPart buf left p ≤ length ∧
      (∀ i, p ≤ i → i < skipPart buf left p → buf i ≠ 0 ∧ isColon (buf i) = false) ∧
      (buf (skipPart buf left p) = 0 ∨ isColon (buf (skipPart buf left p))) := by
  induction left generalizing p with
  | zero =>
    obtain rfl : p = length := by omega
    exact ⟨le_refl _, le_refl _, fun i hi hlt => absurd hi (not_le.mpr hlt), .inl hnul⟩
  | succ left ih =>
    rw [skipPart]
    split
    case isTrue hskip =>
      have hlt : p < length := lt_of_le_of_ne hp fun h => hskip.1 (h ▸ hnul)
      obtain ⟨hle, hlen, hpart, hend⟩ := ih (p := p + 1) hlt (by omega)
      refine ⟨by omega, hlen, fun i hi hq => ?_, hend⟩
      rcases eq_or_lt_of_le hi with rfl | hi
      · simpa using hskip
      · exact hpart i hi hq
    case isFalse hstop =>
      refine ⟨le_refl _, hp, fun i hi hlt => absurd hi (not_le.mpr hlt), ?_⟩
      by_cases hz : buf p = 0
      · exact .inl hz
      · exact .inr (by simpa [hz] using hstop)

theorem envLoop_eq (hne : ∀ i < length, buf i ≠ 0) (hnul : buf length = 0) (hp : p ≤ length) (hleft : length ≤ left)
    (hrounds : length - p < rounds) (hstart : p < length → (p == 0 || isColon (buf (p - 1))) = true)
    (hroom : (starts isColon true buf p).length ≤ 16) :
    envLoop left rounds (Split.of (cut isColon buf p) (starts isColon true buf p)) p =
      splitAt 16 isColon true buf length := by
  induction rounds generalizing p with
  | zero => omega
  | succ rounds ih =>
    rw [envLoop, show (Split.of (cut isColon buf p) (starts isColon true buf p)).buf p = buf p from cut_self]
    rcases eq_or_lt_of_le hp with rfl | hlt
    · rw [if_pos hnul, splitAt, if_pos hroom]
    rw [if_neg (hne p hlt), Split.store_of]
    have hcutnul : cut isColon buf p length = 0 := by simp [cut, not_lt.mpr hp, hnul]
    obtain ⟨q, hq⟩ : ∃ q, skipPart (cut isColon buf p) left p = q := ⟨_, rfl⟩
    obtain ⟨hle, hlen, hskip, hend⟩ := skipPart_spec hcutnul hp (by omega : length - p ≤ left)
    rw [hq] at hle hlen hskip hend
    have hcut : ∀ i, p ≤ i → cut isColon buf p i = buf i := fun i hi => by simp [cut, not_lt.mpr hi]
    have hpart : ∀ i, p ≤ i → i < q → isColon (buf i) = false := fun i hi h => by simpa [hcut i hi] using (hskip i hi h).2
    have hparts := starts_part hle (hstart hlt) hpart
    rw [hcut q hle] at hend
    by_cases hfull : (starts isColon true buf p).length < 16
    · rw [if_pos hfull]
      simp only [Option.bind_some, show (Split.of (cut isColon buf p) (starts isColon true buf p ++ [p])).buf =
        cut isColon buf p from rfl, hq, hcut q hle]
      rcases eq_or_lt_of_le hlen with rfl | hlen
      -- the last component: the loop ends at the NUL
      · have hall : starts isColon true buf q = starts isColon true buf p ++ [p] := by
          have h := starts_part (Nat.le_sub_one_of_lt hlt) (hstart hlt) fun i hi h => hpart i hi (by omega)
          rwa [show q - 1 + 1 = q by omega] at h
        rw [if_neg (not_not.mpr hnul), ← hall, ← cut_part hle hpart]
        exact ih (le_refl _) (by omega) (fun h => absurd h (lt_irrefl _)) (by simp [hall, Nat.succ_le_of_lt hfull])
      · have hcolon : isColon (buf q) = true := hend.resolve_left (hne q hlen)
        have hclear : (Split.of (cut isColon buf p) (starts isColon true buf p ++ [p])).clear q =
            Split.of (cut isColon buf (q + 1)) (starts isColon true buf (q + 1)) := by
          rw [hparts, cut_succ, if_pos hcolon, cut_part hle hpart]
          rfl
        rw [if_pos (hne q hlen), hclear]
        exact ih hlen (by omega) (fun _ => by simp [hcolon]) (by simp [hparts, Nat.succ_le_of_lt hfull])
    · have hone : starts isColon true buf (p + 1) = starts isColon true buf p ++ [p] :=
        starts_part (le_refl p) (hstart hlt) fun i hi h => absurd hi (not_le.mpr h)
      have hmore := ((List.range_sublist.mpr (Nat.succ_le_of_lt hlt)).filter
        fun a => (a == 0 || isColon (buf (a - 1))) && (true || !isColon (buf a))).length_le
      change (starts isColon true buf (p + 1)).length ≤ (starts isColon true buf length).length at hmore
      rw [hone, List.length_append, List.length_singleton] at hmore
      rw [if_neg hfull, Option.bind_none, splitAt, if_neg (by omega)]

theorem setupEnvpath_eq {envp : List CStr} {e : CStr} (h : findPath envp = some e) (hlen : 5 ≤ e.len) :
    setupEnvpath envp =
      (splitAt 16 isColon true (fun i => e.bytes (5 + i)) (e.len - 5)).map fun w => (0, some w) := by
  have hloop := envLoop_eq (p := 0) (fun i hi => e.ne_zero (5 + i) (by omega))
    (show e.bytes (5 + (e.len - 5)) = 0 by rw [Nat.add_sub_cancel' hlen, e.nul]) (Nat.zero_le _)
    (Nat.sub_le e.len 5) (show e.len - 5 - 0 < e.len + 1 by omega) (fun _ => rfl) (by simp [starts])
  rw [setupEnvpath, h, ← hloop]
  simp [Split.of, starts, cut_zero]

theorem split_ends (hnul : buf length = 0) {a b : Nat} (h : IsPart sep buf length a b) :
    (∀ i, a ≤ i → i < b → cut sep buf length i = buf i) ∧ cut sep buf length b = 0 := by
  obtain ⟨-, hle, hpart, hend⟩ := h
  refine ⟨fun i ha hb => by simp [cut, hpart i ha hb], ?_⟩
  rcases hend with rfl | hsep
  · simp [cut, hnul]
  · rcases eq_or_lt_of_le hle with rfl | hlt
    · simp [cut, hnul]
    · simp [cut, hlt, hsep]

/-- A splitter is right iff it finds the parts it should find and they leave room. -/
theorem exists_right_iff {parts : List Nat} (hnul : buf length = 0) :
    (∃ w, splitAt cap sep empty buf length = some w ∧ w.Right cap sep parts buf length) ↔
      starts sep empty buf length = parts ∧ parts.length < cap := by
  rw [splitAt]
  constructor
  · rintro ⟨w, hw, hright⟩
    split at hw
    · cases hw
      exact ⟨List.ext_getElem? hright.argv, hright.argc ▸ hright.room⟩
    · cases hw
  · rintro ⟨rfl, hroom⟩
    rw [if_pos hroom.le]
    exact ⟨_, rfl, rfl, fun _ => rfl, hroom, fun a _ b h => split_ends hnul h⟩

theorem components_eq_iff : starts isColon true buf length = components buf length ↔ 0 < length ∧ buf (length - 1) ≠ 58 := by
  rw [components, starts_succ, List.self_eq_append_right]
  cases length with
  | zero => simp
  | succ n => simp [isColon]

theorem five_le_len {envp : List CStr} {e : CStr} (h : findPath envp = some e) : 5 ≤ e.len := by
  have hpath := List.find?_some h
  rw [beq_iff_eq, strncmp_eq_zero_iff (by decide)] at hpath
  by_contra hlt
  have hnul : pathEq e.len = 0 := (hpath e.len (by omega)).trans e.nul
  have hne : ∀ k < 5, pathEq k ≠ 0 := by decide
  exact hne e.len (by omega) hnul

/-- `parse_cmd` is right iff there are at most 31 words, `setup_envpath` iff at most 15 components and the last is not empty.
-/
theorem splitters_right_iff (buf : Mem) (length : Nat) (hnul : buf length = 0) (envp : List CStr) :
    (ParseRight buf length ↔ (starts isspace false buf length).length < 32) ∧
    (EnvRight envp ↔ ∀ e, findPath envp = some e → PathFits e) := by
  constructor
  · rw [ParseRight, parseCmd_eq, exists_right_iff hnul]
    simp
  · refine forall₂_congr fun e he => ?_
    have hlen := five_le_len he
    have hend : e.bytes (5 + (e.len - 5)) = 0 := by rw [Nat.add_sub_cancel' hlen, e.nul]
    have hset : ∀ w, setupEnvpath envp = some (0, some w) ↔
        splitAt 16 isColon true (fun i => e.bytes (5 + i)) (e.len - 5) = some w := by
      intro w
      simp [setupEnvpath_eq he hlen]
    simp only [hset]
    rw [@exists_right_iff _ _ (fun i => e.bytes (5 + i)) _ _ _ hend, components_eq_iff, PathFits, and_comm]
    refine and_congr_right fun _ => ?_
    constructor
    · rintro ⟨hpos, hlast⟩
      exact ⟨by omega, by rwa [show 5 + (e.len - 5 - 1) = e.len - 1 by omega] at hlast⟩
    · rintro ⟨hpos, hlast⟩
      exact ⟨by omega, by rwa [show 5 + (e.len - 5 - 1) = e.len - 1 by omega]⟩

/-- A string of these characters. -/
def cstr (l : List UInt8) (hne : ∀ i < l.length, l.getD i 0 ≠ 0) (hlen : l.length < 2 ^ 48) : CStr where
  bytes i := l.getD i 0
  len := l.length
  nul := by simp
  ne_zero := hne
  len_lt := hlen

/-- The line `ls -l  /bin` and the strings `TERM=vt` and `PATH=/:/bin:.`. -/
theorem splitters_right_words :
    let line : Mem := fun i => [108, 115, 32, 45, 108, 32, 32, 47, 98, 105, 110].getD i 0
    let envp := [cstr [84, 69, 82, 77, 61, 118, 116] (by decide) (by decide),
      cstr [80, 65, 84, 72, 61, 47, 58, 47, 98, 105, 110, 58, 46] (by decide) (by decide)]
    ParseRight line 11 ∧ starts isspace false line 11 = [0, 3, 7] ∧
    EnvRight envp ∧ (findPath envp).map (fun e => components (fun i => e.bytes (5 + i)) (e.len - 5)) = some [0, 2, 7] := by
  have hright := splitters_right_iff (fun i => [108, 115, 32, 45, 108, 32, 32, 47, 98, 105, 110].getD i 0) 11 rfl
    [cstr [84, 69, 82, 77, 61, 118, 116] (by decide) (by decide),
      cstr [80, 65, 84, 72, 61, 47, 58, 47, 98, 105, 110, 58, 46] (by decide) (by decide)]
  refine ⟨hright.1.mpr (by decide), by decide, hright.2.mpr fun e he => ?_, by decide⟩
  cases he
  exact ⟨by decide, by decide, by decide⟩

/-- 33 words do not fit, and 32 leave no room for the null pointer. -/
theorem parse_cmd_wrong : parseCmd (fun i => if i = 65 then 0 else if i % 2 = 0 then 97 else 32) 65 = none ∧
    ¬ ParseRight (fun i => if i = 63 then 0 else if i % 2 = 0 then 97 else 32) 63 := by
  refine ⟨?_, fun h => ?_⟩
  · rw [parseCmd_eq, splitAt, if_neg (by decide)]
  · rw [ParseRight, parseCmd_eq, exists_right_iff (by decide)] at h
    exact absurd h.2 (by decide)

end FengOS.Shell
