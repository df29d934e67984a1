import FengOS.Exec.Lemmas.Args
import FengOS.Exec.Setup

/-!
# Lemmas on what `setup_args` writes
-/

namespace FengOS.Exec

open FengOS.Lib

variable {mem mem' : Mem} {argv envp bufend src dst n i lo hi room : Nat} {s : List UInt8} {ss ss' : List (List UInt8)}
  {x : Nat × List UInt8} {xs ys : List (Nat × List UInt8)} {v v' : ArgVars} {down : Bool} {left : Int}
  {lens lens' : List Int}

/-! ## Lengths -/

theorem argLen_bounds (s : List UInt8) : -2 ^ 31 ≤ argLen s ∧ argLen s < 2 ^ 31 := by
  unfold argLen toInt
  omega

theorem toInt_strlen_eq : toInt ((toSize (toInt (s.length : Int)) : Nat) + 1) = argLen s := by
  unfold argLen toInt toSize
  omega

theorem argLen_of_short (h : s.length + 1 < 2 ^ 31) : argLen s = s.length + 1 := toInt_eq (by omega) (by omega)

theorem argLen_le (s : List UInt8) : argLen s ≤ s.length + 1 := by
  unfold argLen toInt
  omega

/-! ## One round -/

theorem argLoop_succ_eq : argLoop down src dst (n + 1) i v =
    (argRound down src dst i v).bind fun r => r.elim (some (false, v)) fun r => argLoop down src dst n (i + 1) r.2 := by
  simp only [argLoop, argRound, Option.bind_eq_bind, Option.bind_assoc]
  refine Option.bind_congr fun s _ => Option.bind_congr fun size _ => Option.bind_congr fun left _ => ?_
  split
  · rfl
  · simp only [Option.bind_assoc]
    rfl

theorem argRound_eq (hvec : Vec v.mem (src + 8 * i) (x :: xs)) : argRound down src dst i v =
    (subInt v.left (argLen x.2)).bind fun left => if left < 0 then some none else
      (memcpy v.mem (place down v.cur (argLen x.2)).1 x.1 (toSize (argLen x.2))).bind fun mem =>
        (storePtr mem (dst + 8 * i) (place down v.cur (argLen x.2)).1).bind fun mem =>
          some (some (((place down v.cur (argLen x.2)).1, toSize (argLen x.2)),
            ⟨mem, (place down v.cur (argLen x.2)).2, left⟩)) := by
  obtain ⟨hcanon, hload, -, -⟩ := hvec.pointers
  have hstr := (hvec.strings x List.mem_cons_self).strlen
  simp only [argRound, loadPtr_eq hcanon, hload, hstr, Option.bind_eq_bind, Option.bind_some, toInt_strlen_eq,
    Option.pure_def]

theorem argRound_of_fires (hvec : Vec v.mem (src + 8 * i) (x :: xs)) (h : TestFires v.left (argLen x.2)) :
    argRound down src dst i v = some none := by
  unfold TestFires at h
  rw [argRound_eq hvec, subInt, if_pos (by omega), Option.bind_some, if_pos (by omega)]

theorem fires_of_argRound (hvec : Vec v.mem (src + 8 * i) (x :: xs)) (h : argRound down src dst i v = some none) :
    TestFires v.left (argLen x.2) := by
  rw [argRound_eq hvec] at h
  obtain ⟨left, hsub, h⟩ := Option.bind_eq_some_iff.mp h
  split at h
  case isFalse =>
    obtain ⟨mem, -, h⟩ := Option.bind_eq_some_iff.mp h
    obtain ⟨mem, -, h⟩ := Option.bind_eq_some_iff.mp h
    cases Option.some.inj h
  case isTrue hneg =>
    unfold subInt at hsub
    split at hsub
    · cases hsub
      unfold TestFires
      omega
    · cases hsub

theorem argRound_stuck (hvec : Vec v.mem (src + 8 * i) (x :: xs)) (h : ¬ TestFires v.left (argLen x.2))
    (hlen : ¬ (0 ≤ argLen x.2 ∧ argLen x.2 ≤ v.left)) : argRound down src dst i v = none := by
  unfold TestFires at h
  have hbounds := argLen_bounds x.2
  rw [argRound_eq hvec, subInt]
  split
  case isFalse => rfl
  case isTrue hint =>
    have hfault : ∀ dest, memcpy v.mem dest x.1 (toSize (argLen x.2)) = none := by
      intro dest
      refine if_neg fun hboth => ?_
      have hle := hboth.1.le
      unfold toSize at hle
      omega
    rw [Option.bind_some, if_neg (by omega), hfault, Option.bind_none]

theorem argRound_area {area : Area} (hvec : Vec v.mem (src + 8 * i) (x :: xs))
    (h : argRound true src dst i v = some (some (area, v'))) :
    0 ≤ argLen x.2 ∧ area = (toSize (v.cur - argLen x.2), toSize (argLen x.2)) := by
  by_cases hfires : TestFires v.left (argLen x.2)
  · rw [argRound_of_fires hvec hfires] at h
    cases h
  by_cases hlen : 0 ≤ argLen x.2 ∧ argLen x.2 ≤ v.left
  · refine ⟨hlen.1, ?_⟩
    rw [argRound_eq hvec] at h
    obtain ⟨left, -, h⟩ := Option.bind_eq_some_iff.mp h
    split at h
    · cases h
    · obtain ⟨mem, -, h⟩ := Option.bind_eq_some_iff.mp h
      obtain ⟨mem, -, h⟩ := Option.bind_eq_some_iff.mp h
      simp only [place, if_true, Option.some.injEq, Prod.mk.injEq] at h
      exact h.1.symm
  · rw [argRound_stuck hvec hfires hlen] at h
    cases h

theorem memcpy_apply {dest b : Nat} (h : b < dest ∨ dest + n ≤ b) : Mm.memcpy mem dest src n b = mem b := by
  induction n generalizing mem dest src with
  | zero => rfl
  | succ n ih => rw [Mm.memcpy, ih (by omega), Function.update_of_ne (by omega)]

/-! ## The counters -/

theorem Pointers.countLoop_none {p : Nat} {as : List Nat} (rounds : Nat) (h : Pointers mem (p + 8 * i) as)
    (hr : rounds ≤ as.length) : Exec.countLoop mem p rounds i = none := by
  induction as generalizing i rounds with
  | nil =>
    obtain rfl : rounds = 0 := Nat.le_zero.mp hr
    rfl
  | cons a as ih =>
    obtain ⟨hcanon, hload, hne, htail⟩ := h
    cases rounds with
    | zero => rfl
    | succ rounds =>
      rw [Exec.countLoop, loadPtr_eq hcanon, hload, Option.bind_eq_bind, Option.bind_some, if_pos hne]
      exact ih rounds htail (Nat.le_of_succ_le_succ hr)

theorem ArgVec.length_lt {p : Nat} (h : ArgVec mem p xs) (hcount : Exec.count mem p = some n) : xs.length < 2 ^ 31 := by
  rcases h with ⟨-, rfl⟩ | ⟨hne, hvec⟩
  · exact Nat.two_pow_pos 31
  · by_contra hlen
    have hnone : Exec.countLoop mem p (2 ^ 31) 0 = none :=
      hvec.pointers.countLoop_none (i := 0) _ (by rw [List.length_map]; omega)
    rw [Exec.count, if_neg hne, hnone] at hcount
    cases hcount

/-! ## The loops inside the buffer -/

/-- Before the rounds for `xs`, what is copied and the arrays are between `lo + room` and `hi`. -/
structure FillPre (src dst lo hi room : Nat) (xs : List (Nat × List UInt8)) (v : ArgVars) : Prop where
  vec : xs ≠ [] → Vec v.mem src xs
  away : xs ≠ [] → ∀ area ∈ vecAreas src xs, area.Apart (lo, hi - lo)
  above : lo + room ≤ dst
  below : dst + 8 * (xs.length + 1) ≤ hi
  inside : Canonical lo (hi - lo)
  lt : hi < 2 ^ 64
  small : hi < lo + 2 ^ 31
  cur : v.cur = lo + room
  left : v.left = room

def AllInside (lo hi : Nat) (areas : List Area) : Prop := ∀ area ∈ areas, lo ≤ area.1 ∧ area.1 + area.2 ≤ hi

theorem Vec.of_frame {p : Nat} (h : Vec mem p xs) (hle : lo ≤ hi) (haway : ∀ area ∈ vecAreas p xs, area.Apart (lo, hi - lo))
    (hframe : ∀ b, b < lo ∨ hi ≤ b → mem' b = mem b) : Vec mem' p xs := by
  refine h.congr fun area harea b hlo hhi => hframe b ?_
  have hapart := haway area harea
  unfold Area.Apart at hapart
  simp only at hapart
  omega

theorem FillPre.round (h : FillPre (src + 8 * i) (dst + 8 * i) lo hi room (x :: xs) v) (hpos : 0 ≤ argLen x.2)
    (hle : argLen x.2 ≤ room) : ∃ len v', argLen x.2 = (len : Nat) ∧ len ≤ room ∧
      argRound true src dst i v = some (some ((lo + (room - len), len), v')) ∧
      FillPre (src + 8 * (i + 1)) (dst + 8 * (i + 1)) lo hi (room - len) xs v' ∧
      ∀ b, b < lo ∨ hi ≤ b → v'.mem b = v.mem b := by
  obtain ⟨len, hlen⟩ := Int.eq_ofNat_of_zero_le hpos
  rw [hlen] at hle
  have hvec := h.vec (List.cons_ne_nil _ _)
  have hstr := hvec.strings x List.mem_cons_self
  have habove := h.above
  have hbelow := h.below
  have hlt := h.lt
  have hsmall := h.small
  rw [List.length_cons] at hbelow
  have hroom : len ≤ room := by omega
  have hplace : place true v.cur (len : Int) = (lo + (room - len), lo + (room - len)) := by
    rw [place, if_pos rfl, h.cur]
    have hsub : ((lo + room : Nat) : Int) - len = (lo + (room - len) : Nat) := by omega
    rw [hsub, toSize_natCast (by omega)]
  have hstrlen : argLen x.2 ≤ x.2.length + 1 := argLen_le x.2
  have hcopy : memcpy v.mem (lo + (room - len)) x.1 len = some (Mm.memcpy v.mem (lo + (room - len)) x.1 len) :=
    if_pos ⟨h.inside.mono (by omega) (by omega), hstr.inside.mono (Nat.le_refl _) (by omega)⟩
  have hslot : Canonical (dst + 8 * i) 8 := h.inside.mono (by omega) (by omega)
  have hframe : ∀ b, b < lo ∨ hi ≤ b →
      (Mm.memcpy v.mem (lo + (room - len)) x.1 len).store (dst + 8 * i) (lo + (room - len)) 8 b = v.mem b := by
    intro b hb
    rw [Mem.store_apply (by omega), memcpy_apply (by omega)]
  refine ⟨len, ⟨(Mm.memcpy v.mem (lo + (room - len)) x.1 len).store (dst + 8 * i) (lo + (room - len)) 8, lo + (room - len),
    ((room - len : Nat) : Int)⟩, hlen, hroom, ?_, ?_, hframe⟩
  · rw [argRound_eq hvec, hlen, hplace, toSize_natCast (by omega), subInt, h.left, if_pos (by omega), Option.bind_some,
      if_neg (by omega), hcopy, Option.bind_some, storePtr_eq hslot, Option.bind_some, Int.ofNat_sub hroom]
  · have haway := h.away (List.cons_ne_nil _ _)
    have hrest : ∀ area ∈ vecAreas (src + 8 * (i + 1)) xs, area.Apart (lo, hi - lo) := by
      intro area harea
      rcases List.mem_cons.mp harea with rfl | hmem
      · exact (haway _ List.mem_cons_self).mono (by simp) (by simp; omega) (Nat.le_refl _) (Nat.le_refl _)
      · exact haway area (List.mem_cons_of_mem _ (List.mem_cons_of_mem _ hmem))
    have htail : Vec v.mem (src + 8 * (i + 1)) xs :=
      ⟨hvec.pointers.2.2.2, fun y hy => hvec.strings y (List.mem_cons_of_mem _ hy)⟩
    exact ⟨fun _ => htail.of_frame (by omega) hrest hframe, fun _ => hrest, by omega, by omega, h.inside, hlt, hsmall, rfl,
      rfl⟩

def Accepted : Int → List Int → Prop
  | _, [] => True
  | left, len :: lens => 0 ≤ len ∧ len ≤ left ∧ Accepted (left - len) lens

theorem accepted_append : Accepted left (lens ++ lens') ↔ Accepted left lens ∧ Accepted (left - lens.sum) lens' := by
  induction lens generalizing left with
  | nil => simp [Accepted]
  | cons len lens ih => rw [List.cons_append, Accepted, Accepted, ih, List.sum_cons, Int.sub_sub, and_assoc, and_assoc]

theorem refused_append :
    Refused left (lens ++ lens') ↔ Refused left lens ∨ Accepted left lens ∧ Refused (left - lens.sum) lens' := by
  induction lens generalizing left with
  | nil => simp [Refused, Accepted]
  | cons len lens ih =>
    rw [List.cons_append, Refused, Refused, Accepted, ih, List.sum_cons, Int.sub_sub]
    tauto

theorem refused_singleton {len : Int} : Refused left [len] ↔ TestFires left len := by
  simp [Refused]

theorem argWrites_succ {area : Area} (h : argRound true src dst i v = some (some (area, v'))) :
    argWrites src dst (n + 1) i v = area :: (dst + 8 * i, 8) :: argWrites src dst n (i + 1) v' ∧
      argLoop true src dst (n + 1) i v = argLoop true src dst n (i + 1) v' := by
  rw [argLoop_succ_eq, argWrites, h]
  exact ⟨rfl, rfl⟩

theorem loop_of_fires (dst n : Nat) (hvec : Vec v.mem (src + 8 * i) (x :: xs)) (h : TestFires v.left (argLen x.2)) :
    argLoop true src dst (n + 1) i v = some (false, v) ∧ argWrites src dst (n + 1) i v = [] := by
  have hround : argRound true src dst i v = some none := argRound_of_fires hvec h
  rw [argLoop_succ_eq, argWrites, hround]
  exact ⟨rfl, rfl⟩

theorem AllInside.round (h : FillPre src dst lo hi room (x :: xs) v) {len : Nat} {areas : List Area} (hlen : len ≤ room)
    (hareas : AllInside lo hi areas) : AllInside lo hi ((lo + (room - len), len) :: (dst, 8) :: areas) := by
  have habove := h.above
  have hbelow := h.below
  rw [List.length_cons] at hbelow
  refine List.forall_mem_cons.mpr ⟨?_, List.forall_mem_cons.mpr ⟨?_, hareas⟩⟩
  · simp only
    omega
  · simp only
    omega

theorem FillPre.refused (h : FillPre (src + 8 * i) (dst + 8 * i) lo hi room xs v) (href : Refused room (xs.map fun x => argLen x.2)) :
    ∃ v', argLoop true src dst xs.length i v = some (false, v') ∧ AllInside lo hi (argWrites src dst xs.length i v) := by
  induction xs generalizing i room v with
  | nil => exact absurd href not_false
  | cons x xs ih =>
    rw [List.length_cons]
    rw [List.map_cons, Refused] at href
    rcases href with hfires | ⟨hpos, hle, href⟩
    · rw [← h.left] at hfires
      obtain ⟨hloop, hwrites⟩ := loop_of_fires dst xs.length (h.vec (List.cons_ne_nil _ _)) hfires
      rw [hwrites]
      exact ⟨v, hloop, fun area harea => absurd harea List.not_mem_nil⟩
    · obtain ⟨len, v', hlen, hroom, hround, hnext, -⟩ := h.round hpos hle
      obtain ⟨hwrites, hloop⟩ := argWrites_succ (n := xs.length) hround
      rw [hlen, ← Int.ofNat_sub hroom] at href
      obtain ⟨v'', hrun, hareas⟩ := ih hnext href
      rw [hwrites, hloop]
      exact ⟨v'', hrun, hareas.round h hroom⟩

theorem FillPre.accepted (h : FillPre (src + 8 * i) (dst + 8 * i) lo hi room xs v)
    (hacc : Accepted room (xs.map fun x => argLen x.2)) : ∃ v' rest, argLoop true src dst xs.length i v = some (true, v') ∧
      AllInside lo hi (argWrites src dst xs.length i v) ∧ (rest : Nat) = (room : Int) - (xs.map fun x => argLen x.2).sum ∧
      rest ≤ room ∧ v'.cur = lo + rest ∧ v'.left = rest ∧ ∀ b, b < lo ∨ hi ≤ b → v'.mem b = v.mem b := by
  induction xs generalizing i room v with
  | nil =>
    have habove := h.above
    have hbelow := h.below
    simp only [List.length_nil, Nat.zero_add, Nat.mul_one] at hbelow
    have hslot : Canonical (dst + 8 * i) 8 := h.inside.mono (by omega) (by omega)
    refine ⟨{ v with mem := v.mem.store (dst + 8 * i) 0 8 }, room, ?_, ?_, by simp, Nat.le_refl _, h.cur, h.left, ?_⟩
    · simp [argLoop, storePtr_eq hslot]
    · exact List.forall_mem_singleton.mpr ⟨by simp only; omega, hbelow⟩
    · exact fun b hb => Mem.store_apply (by omega)
  | cons x xs ih =>
    rw [List.map_cons, Accepted] at hacc
    obtain ⟨hpos, hle, hacc⟩ := hacc
    obtain ⟨len, v₁, hlen, hroom, hround, hnext, hframe⟩ := h.round hpos hle
    obtain ⟨hwrites, hloop⟩ := argWrites_succ (n := xs.length) hround
    rw [hlen, ← Int.ofNat_sub hroom] at hacc
    obtain ⟨v', rest, hrun, hareas, hrest, hrestle, hcur, hleft, hframe'⟩ := ih hnext hacc
    rw [List.length_cons, hwrites, hloop, List.map_cons, List.sum_cons, hlen]
    refine ⟨v', rest, hrun, hareas.round h hroom, ?_, by omega, hcur, hleft, fun b hb => ?_⟩
    · rw [hrest, Int.ofNat_sub hroom, Int.sub_sub]
    · rw [hframe' b hb, hframe b hb]

theorem FillPre.stuck (h : FillPre (src + 8 * i) (dst + 8 * i) lo hi room xs v)
    (href : ¬ Refused room (xs.map fun x => argLen x.2)) (hacc : ¬ Accepted room (xs.map fun x => argLen x.2)) :
    argLoop true src dst xs.length i v = none := by
  induction xs generalizing i room v with
  | nil => exact absurd trivial hacc
  | cons x xs ih =>
    rw [List.map_cons, Refused, not_or] at href
    rw [List.map_cons, Accepted] at hacc
    by_cases hlen : 0 ≤ argLen x.2 ∧ argLen x.2 ≤ room
    · obtain ⟨len, v', heq, hroom, hround, hnext, -⟩ := h.round hlen.1 hlen.2
      rw [List.length_cons, (argWrites_succ hround).2]
      rw [heq, ← Int.ofNat_sub hroom] at href hacc
      exact ih hnext (fun hr => href.2 ⟨by omega, by omega, hr⟩) (fun ha => hacc ⟨by omega, by omega, ha⟩)
    · rw [← h.left] at href hlen
      rw [List.length_cons, argLoop_succ_eq, argRound_stuck (h.vec (List.cons_ne_nil _ _)) href.1 hlen, Option.bind_none]

end FengOS.Exec
