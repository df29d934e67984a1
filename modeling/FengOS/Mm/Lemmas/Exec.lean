import FengOS.Mm.Exec
import FengOS.Mm.Lemmas.Copy

/-!
# The pages that `do_execve` fills
-/

namespace FengOS.Mm

open FengOS.Lib

variable {memMap : Nat → Page} {nr root : Nat} {s s' s₁ : Machine} {t t' t₁ : Radix Nat} {a b c e f g n o u v y : Nat}
  {m : Mem} {file : ExecFile} {P Q : Nat → Prop} {w w' : Nat → Option UInt8}

/-! ## `memset` -/

theorem memsetLoop_none {value : UInt8} (ha : a ≤ 2 ^ 47) (hn : 2 ^ 47 < a + n) : memsetLoop v value n m a = none := by
  induction n generalizing m a with
  | zero => omega
  | succ n ih =>
    rw [memsetLoop, userAddr]
    split
    · cases translate m v a with
      | none => rfl
      | some b => exact ih (by omega) (by omega)
    · rfl

theorem memsetUser_zero {value : UInt8} (ha : a ≤ 2 ^ 47) : memsetUser v m a value 0 = none :=
  memsetLoop_none ha (by omega)

theorem path_congr (h : a / 2 ^ 12 = u / 2 ^ 12) : path a = path u := by
  simp only [path, List.cons.injEq, and_true]
  omega

theorem Space.userAddr_eq (hs : Space memMap nr s t) (hroot : t [] = some root) (ha : a < 2 ^ 47) :
    userAddr s.mem (virtual root) a = (t (path a)).map fun f => virtual f + a % 2 ^ 12 := by
  rw [userAddr, if_pos ha, hs.translate_eq hroot ha]

theorem write_page_apply {data : Nat → UInt8} (hfit : a % 2 ^ 12 + n ≤ 2 ^ 12) (hb : InFrame y b) (hne : y ≠ g) :
    m.write (virtual g + a % 2 ^ 12) data n b = m b := by
  refine Mem.write_apply ?_
  by_contra hin
  have hps : pageSize = 2 ^ 12 := rfl
  exact hne (hb.eq ⟨by omega, by omega⟩)

theorem Space.memsetUser_eq (hs : Space memMap nr s t) (value : UInt8) (hroot : t [] = some root) (ha : a < 2 ^ 47)
    (hg : t (path a) = some g) (hn : 0 < n) (hfit : a % 2 ^ 12 + n ≤ 2 ^ 12) :
    memsetUser (virtual root) s.mem a value n = some (s.mem.write (virtual g + a % 2 ^ 12) (fun _ => value) n) := by
  have hgo : ∀ k j, j + k = n →
      memsetLoop (virtual root) value k (s.mem.write (virtual g + a % 2 ^ 12) (fun _ => value) j) (a + j) =
        some (s.mem.write (virtual g + a % 2 ^ 12) (fun _ => value) n) := by
    intro k
    induction k with
    | zero =>
      rintro j rfl
      rfl
    | succ k ih =>
      intro j hj
      -- the tables are the same after `j` of the bytes
      have hspace := hs.write_page (m := s.mem.write (virtual g + a % 2 ^ 12) (fun _ => value) j) hg (Nat.le_refl 4)
        fun y b hb hne => write_page_apply (by omega) hb hne
      have haddr := hspace.userAddr_eq hroot (show a + j < 2 ^ 47 by omega)
      rw [path_congr (show (a + j) / 2 ^ 12 = a / 2 ^ 12 by omega), hg, Option.map_some] at haddr
      have hoffset : virtual g + (a + j) % 2 ^ 12 = virtual g + a % 2 ^ 12 + j := by omega
      dsimp only at haddr
      rw [memsetLoop, haddr, Option.bind_eq_bind, Option.bind_some, hoffset, ← Mem.write_succ]
      exact ih (j + 1) (by omega)
  have hrounds : (n + (2 ^ 64 - 1)) % 2 ^ 64 + 1 = n := by omega
  have h₀ := hgo n 0 (Nat.zero_add n)
  rw [Mem.write_zero] at h₀
  rw [memsetUser, hrounds]
  exact h₀

/-! ## What has been written -/

def view (s : Machine) (t : Radix Nat) (a : Nat) : Option UInt8 := (t (path a)).map fun g => s.mem (virtual g + a % 2 ^ 12)

theorem Space.userByte_eq (hs : Space memMap nr s t) (hroot : t [] = some root) (ha : a < 2 ^ 47) :
    userByte s (virtual root) a = view s t a := by
  rw [userByte, hs.userAddr_eq hroot ha, Option.map_map]
  rfl

structure Filled (memMap : Nat → Page) (nr : Nat) (P : Nat → Prop) (w : Nat → Option UInt8) (s : Machine) (t : Radix Nat)
    (s' : Machine) (t' : Radix Nat) : Prop where
  space : Space memMap nr s' t'
  inv : s'.alloc.Inv memMap nr
  old : ∀ π f, t π = some f → t' π = some f
  new : ∀ π f, t' π = some f → t π = some f ∨ s.alloc.Avail memMap nr f
  avail : ∀ y, s'.alloc.Avail memMap nr y → s.alloc.Avail memMap nr y
  pages : ∀ a < 2 ^ 47, ¬ P a → t' (path a) = t (path a)
  wrote : ∀ a < 2 ^ 47, ∀ x, w a = some x → view s' t' a = some x
  kept : ∀ a < 2 ^ 47, w a = none → ∀ x, view s t a = some x → view s' t' a = some x
  frames : ∀ y, ¬ s.alloc.Avail memMap nr y → (∀ π, t π ≠ some y) → ∀ b, InFrame y b → s'.mem b = s.mem b

theorem Filled.refl (hs : Space memMap nr s t) (hinv : s.alloc.Inv memMap nr) :
    Filled memMap nr (fun _ => False) (fun _ => none) s t s t where
  space := hs
  inv := hinv
  old _ _ := id
  new _ _ := Or.inl
  avail _ := id
  pages _ _ _ := rfl
  wrote _ _ _ := nofun
  kept _ _ _ _ := id
  frames _ _ _ _ _ := rfl

theorem Filled.congr (h : Filled memMap nr P w s t s' t') (hP : ∀ a, P a → Q a) (hw : ∀ a, w a = w' a) :
    Filled memMap nr Q w' s t s' t' where
  __ := h
  pages a ha hQ := h.pages a ha fun hPa => hQ (hP a hPa)
  wrote a ha x hx := h.wrote a ha x ((hw a).trans hx)
  kept a ha hx := h.kept a ha ((hw a).trans hx)

theorem Filled.trans (h : Filled memMap nr P w s t s₁ t₁) (h' : Filled memMap nr Q w' s₁ t₁ s' t') :
    Filled memMap nr (fun a => P a ∨ Q a) (fun a => (w' a).or (w a)) s t s' t' where
  space := h'.space
  inv := h'.inv
  old π f hf := h'.old π f (h.old π f hf)
  new π f hf := by
    rcases h'.new π f hf with hf' | hav
    · exact h.new π f hf'
    · exact Or.inr (h.avail f hav)
  avail y hy := h.avail y (h'.avail y hy)
  pages a ha hPQ := (h'.pages a ha fun hQ => hPQ (Or.inr hQ)).trans (h.pages a ha fun hP => hPQ (Or.inl hP))
  wrote a ha x hx := by
    cases hw' : w' a with
    | some x' =>
      rw [hw', Option.some_or] at hx
      exact h'.wrote a ha x (hw'.trans hx)
    | none =>
      rw [hw', Option.none_or] at hx
      exact h'.kept a ha hw' x (h.wrote a ha x hx)
  kept a ha hnone x hx := by
    obtain ⟨hw', hw⟩ := Option.or_eq_none_iff.mp hnone
    exact h'.kept a ha hw' x (h.kept a ha hw x hx)
  frames y hy hty b hb := by
    have hty₁ : ∀ π, t₁ π ≠ some y := fun π hπ => (h.new π y hπ).elim (hty π) hy
    rw [h'.frames y (fun hav => hy (h.avail y hav)) hty₁ b hb]
    exact h.frames y hy hty b hb

theorem Grown.filled (h : Grown memMap nr (fun π => π ≠ [] ∧ π <:+ path u) s t s' t') (hs : Space memMap nr s t)
    (hu : u < 2 ^ 47) : Filled memMap nr (fun a => a / 2 ^ 12 = u / 2 ^ 12) (fun _ => none) s t s' t' where
  space := h.space
  inv := h.inv
  old := h.old
  new π f hf := (h.new π f hf).imp_right fun hnew => hnew.2.2
  avail y hy := ((h.avail y).mp hy).1
  pages a ha hne := h.other ha hu hne
  wrote _ _ _ := nofun
  kept a ha _ x hx := by
    obtain ⟨g, hg, rfl⟩ := Option.map_eq_some_iff.mp hx
    have hleaf : ∀ π, t π = some g → 4 ≤ π.length := by
      intro π hπ
      rw [hs.ok.inj π _ g hπ hg]
      exact Nat.le_refl 4
    rw [view, h.old _ g hg, Option.map_some, h.frame_eq (hs.held _ g hg) hleaf (inFrame_mod g a)]
  frames y hy hty b hb := h.frame_eq hy (fun π hπ => absurd hπ (hty π)) hb

def span (lo hi : Nat) (byte : Nat → UInt8) (a : Nat) : Option UInt8 := if lo ≤ a ∧ a < hi then some (byte a) else none

theorem Space.write_filled (hs : Space memMap nr s t) (data : Nat → UInt8) (hinv : s.alloc.Inv memMap nr) (hu : u < 2 ^ 47)
    (hg : t (path u) = some g) (hfit : u % 2 ^ 12 + n ≤ 2 ^ 12) :
    Filled memMap nr (fun _ => False) (span u (u + n) fun a => data (a - u)) s t
      { s with mem := s.mem.write (virtual g + u % 2 ^ 12) data n } t where
  space := hs.write_page hg (Nat.le_refl 4) fun y b hb hne => write_page_apply hfit hb hne
  inv := hinv
  old _ _ := id
  new _ _ := Or.inl
  avail _ := id
  pages _ _ _ := rfl
  wrote a ha x hx := by
    obtain ⟨⟨hlo, hhi⟩, hx⟩ := Option.ite_none_right_eq_some.mp hx
    have hoffset : a % 2 ^ 12 = u % 2 ^ 12 + (a - u) := by omega
    rw [view, path_congr (show a / 2 ^ 12 = u / 2 ^ 12 by omega), hg, Option.map_some, hoffset, ← Nat.add_assoc]
    dsimp only
    rw [Mem.write_add (by omega)]
    exact hx
  kept a ha hnone x hx := by
    have hout : ¬ (u ≤ a ∧ a < u + n) := fun hin => by simp [span, hin] at hnone
    obtain ⟨f, hf, rfl⟩ := Option.map_eq_some_iff.mp hx
    rw [view, hf, Option.map_some]
    dsimp only
    rcases eq_or_ne f g with rfl | hne
    · have hpage : a / 2 ^ 12 = u / 2 ^ 12 := (path_eq_iff ha hu).mp (hs.ok.inj _ _ f hf hg)
      rw [Mem.write_apply (by omega)]
    · rw [write_page_apply hfit (inFrame_mod f a) hne]
  frames y hy hty b hb := write_page_apply hfit hb fun he => hty _ (he ▸ hg)

/-! ## A round -/

theorem Space.readPart_eq (hs : Space memMap nr s t) (hroot : t [] = some root) (hg : t (path c) = some g) (hc : c < 2 ^ 47)
    (hce : c ≤ e) (he : e ≤ 2 ^ 47) (hread : o + f ≤ file.size) : readPart file (virtual root) s.mem ⟨e, f, c, o⟩ =
      some (s.mem.write (virtual g + c % 2 ^ 12) (fun i => file.byte (o + i)) (min f (e - c)),
        ⟨e, f - min f (e - c), c + min f (e - c), o + min f (e - c)⟩) := by
  rcases Nat.eq_zero_or_pos f with rfl | hf
  · simp [readPart, Mem.write_zero]
  · have hleft : (e + (2 ^ 64 - c)) % 2 ^ 64 = e - c := by omega
    have hsize : (if f < e - c then f else e - c) = min f (e - c) := by
      split <;> omega
    have hn : min (min f (e - c)) (file.size - o) = min f (e - c) := by omega
    have hmod : (c + min f (e - c)) % 2 ^ 64 = c + min f (e - c) := by omega
    simp only [readPart, readExec, hleft, hsize, hn, hmod, if_pos hf, if_true, hs.kmap_eq hroot hc hg]

theorem Space.zeroPart_eq (hs : Space memMap nr s t) (hroot : t [] = some root) (hg : t (path c) = some g)
    (hce : c < e) (he : e ≤ 2 ^ 47) (hfit : c % 2 ^ 12 + (e - c) ≤ 2 ^ 12) : zeroPart (virtual root) s.mem ⟨e, 0, c, o⟩ =
      some (s.mem.write (virtual g + c % 2 ^ 12) (fun _ => 0) (e - c), ⟨e, 0, e, o⟩) := by
  have hleft : (e + (2 ^ 64 - c)) % 2 ^ 64 = e - c := by omega
  have hmod : (c + (e - c)) % 2 ^ 64 = e := by omega
  have hset := hs.memsetUser_eq 0 hroot (by omega) hg (show 0 < e - c by omega) hfit
  simp only [zeroPart, hleft, hmod, hset, if_true]
  rfl

theorem zeroPart_none (he : e ≤ 2 ^ 47) : zeroPart v m ⟨e, 0, e, o⟩ = none := by
  have hleft : (e + (2 ^ 64 - e)) % 2 ^ 64 = 0 := by omega
  simp only [zeroPart, hleft, memsetUser_zero he, if_true]
  rfl

def loadByte (file : ExecFile) (c f o a : Nat) : UInt8 := if a < c + f then file.byte (o + (a - c)) else 0

theorem Space.round_ok (hs : Space memMap nr s t) (hinv : s.alloc.Inv memMap nr) (hroot : t [] = some root)
    (hg : t (path c) = some g) (hce : c < e) (hec : e ≤ c / 2 ^ 12 * 2 ^ 12 + 2 ^ 12) (he : e ≤ 2 ^ 47)
    (hread : o + f ≤ file.size) (hne : c + f ≠ e) :
    ∃ m, ((readPart file (virtual root) s.mem ⟨e, f, c, o⟩).bind fun r => zeroPart (virtual root) r.1 r.2) =
        some (m, ⟨e, f - min f (e - c), e, o + min f (e - c)⟩) ∧
      Filled memMap nr (fun _ => False) (span c e (loadByte file c f o)) s t { s with mem := m } t := by
  have hc : c < 2 ^ 47 := by omega
  have hfile := hs.write_filled (n := min f (e - c)) (fun i => file.byte (o + i)) hinv hc hg (by omega)
  rw [hs.readPart_eq hroot hg hc (Nat.le_of_lt hce) he hread, Option.bind_some]
  dsimp only
  rcases Nat.lt_or_ge f (e - c) with hlt | hge
  · -- the file part ends in this page
    have hpath := path_congr (show (c + f) / 2 ^ 12 = c / 2 ^ 12 by omega)
    have hzero := hfile.space.zeroPart_eq (c := c + f) (o := o + f) hroot (hpath ▸ hg) (show c + f < e by omega) he
      (by omega)
    have hclear := hfile.space.write_filled (u := c + f) (n := e - (c + f)) (fun _ => 0) hinv (by omega) (hpath ▸ hg)
      (by omega)
    rw [Nat.min_eq_left (Nat.le_of_lt hlt)] at hfile hzero hclear ⊢
    rw [Nat.sub_self]
    refine ⟨_, hzero, (hfile.trans hclear).congr (fun _ => or_self_iff.mp) fun a => ?_⟩
    simp only [span, loadByte]
    split_ifs <;> first | rfl | omega
  · rw [Nat.min_eq_right hge] at hfile ⊢
    have hsum : c + (e - c) = e := by omega
    rw [hsum] at hfile ⊢
    refine ⟨_, by rw [zeroPart, if_neg (by dsimp only; omega)], hfile.congr (fun _ => id) fun a => ?_⟩
    simp only [span, loadByte]
    split_ifs <;> first | rfl | omega

theorem Space.round_none (hs : Space memMap nr s t) (hroot : t [] = some root) (hg : t (path c) = some g) (hf : 0 < f)
    (he : c + f ≤ 2 ^ 47) (hread : o + f ≤ file.size) :
    ((readPart file (virtual root) s.mem ⟨c + f, f, c, o⟩).bind fun r => zeroPart (virtual root) r.1 r.2) = none := by
  rw [hs.readPart_eq hroot hg (by omega) (Nat.le_add_right c f) he hread, Option.bind_some, Nat.add_sub_cancel_left,
    Nat.min_self, Nat.sub_self]
  exact zeroPart_none he

/-! ## The pages of a segment -/

theorem loadPages_succ (hu : u + 2 ^ 12 < 2 ^ 64) : loadPages file v (n + 1) s ⟨u, f, c, o⟩ = (mapPage s v u).bind fun r =>
    ((readPart file v r.2.mem ⟨u + 2 ^ 12, f, c, o⟩).bind fun p => zeroPart v p.1 p.2).bind fun q =>
      loadPages file v n { r.2 with mem := q.1 } q.2 := by
  have hnext : (u + pageSize) % 2 ^ 64 = u + 2 ^ 12 := Nat.mod_eq_of_lt hu
  simp only [loadPages, hnext, Option.bind_assoc]
  rfl

structure Pending (file : ExecFile) (n u f c o : Nat) : Prop where
  aligned : u % 2 ^ 12 = 0
  bound : u + n * 2 ^ 12 ≤ 2 ^ 47
  first : u ≤ c
  page : 0 < n → c < u + 2 ^ 12
  fits : c + f ≤ u + n * 2 ^ 12
  readable : o + f ≤ file.size

theorem Pending.next (h : Pending file (n + 1) u f c o) :
    Pending file n (u + 2 ^ 12) (f - min f (u + 2 ^ 12 - c)) (u + 2 ^ 12) (o + min f (u + 2 ^ 12 - c)) := by
  obtain ⟨h₁, h₂, h₃, h₄, h₅, h₆⟩ := h
  exact ⟨by omega, by omega, by omega, by omega, by omega, by omega⟩

theorem Pending.span_next (h : Pending file (n + 1) u f c o) (a : Nat) : (span (u + 2 ^ 12) (u + 2 ^ 12 + n * 2 ^ 12)
        (loadByte file (u + 2 ^ 12) (f - min f (u + 2 ^ 12 - c)) (o + min f (u + 2 ^ 12 - c))) a).or
      (span c (u + 2 ^ 12) (loadByte file c f o) a) = span c (u + (n + 1) * 2 ^ 12) (loadByte file c f o) a := by
  have hpage := h.page (Nat.succ_pos n)
  have hfirst := h.first
  generalize hnext : u + 2 ^ 12 = e at hpage ⊢
  have hlast : u + (n + 1) * 2 ^ 12 = e + n * 2 ^ 12 := by omega
  rw [hlast]
  generalize n * 2 ^ 12 = k
  simp only [span, loadByte]
  by_cases ha : e ≤ a ∧ a < e + k
  · have hlt : a < e + (f - min f (e - c)) ↔ a < c + f := by omega
    have hpos : c + f ≤ a ∨ o + min f (e - c) + (a - e) = o + (a - c) := by omega
    rw [if_pos ha, if_pos (show c ≤ a ∧ a < e + k by omega), Option.some_or]
    simp only [hlt]
    split
    · rw [hpos.resolve_left (by omega)]
    · rfl
  · rw [if_neg ha, Option.none_or]
    exact if_congr (by omega) rfl rfl

section Pages

variable (hs : Space memMap nr s t) (hinv : s.alloc.Inv memMap nr) (hnr : nr ≤ maxFrame) (hroot : t [] = some root)

include hs hinv hnr hroot

theorem Space.loadPages_round (hp : Pending file (n + 1) u f c o) (hmap : mapPage s (virtual root) u = some (v, s₁))
    (hne : c + f ≠ u + 2 ^ 12) :
    ∃ m t₁, loadPages file (virtual root) (n + 1) s ⟨u, f, c, o⟩ = loadPages file (virtual root) n { s₁ with mem := m }
        ⟨u + 2 ^ 12, f - min f (u + 2 ^ 12 - c), u + 2 ^ 12, o + min f (u + 2 ^ 12 - c)⟩ ∧
      Filled memMap nr (fun a => a / 2 ^ 12 = u / 2 ^ 12) (span c (u + 2 ^ 12) (loadByte file c f o)) s t
        { s₁ with mem := m } t₁ := by
  obtain ⟨h₁, h₂, h₃, h₄, h₅, h₆⟩ := hp
  have hu : u < 2 ^ 47 := by omega
  obtain ⟨g, t₁, rfl, hg, hgrown⟩ := hs.mapPage_grown hinv hnr hroot hu hmap
  rw [path_congr (show u / 2 ^ 12 = c / 2 ^ 12 by omega)] at hg
  obtain ⟨m, hround, hfilled⟩ := hgrown.space.round_ok hgrown.inv (hgrown.old [] root hroot) hg (h₄ (by omega)) (by omega)
    (by omega) h₆ hne
  refine ⟨m, t₁, ?_, ((hgrown.filled hs hu).trans hfilled).congr (fun _ => Or.rec id False.elim) fun a => Option.or_none⟩
  rw [loadPages_succ (by omega), hmap, Option.bind_some]
  dsimp only
  rw [hround, Option.bind_some]

theorem Space.loadPages_stop (hp : Pending file (n + 1) u f c o) (hend : c + f = u + 2 ^ 12) :
    loadPages file (virtual root) (n + 1) s ⟨u, f, c, o⟩ = none := by
  obtain ⟨h₁, h₂, h₃, h₄, h₅, h₆⟩ := hp
  rw [loadPages_succ (by omega)]
  cases hmap : mapPage s (virtual root) u with
  | none => rfl
  | some r =>
    obtain ⟨g, t₁, -, hg, hgrown⟩ := hs.mapPage_grown hinv hnr hroot (by omega) hmap
    rw [path_congr (show u / 2 ^ 12 = c / 2 ^ 12 by omega)] at hg
    rw [Option.bind_some, ← hend,
      hgrown.space.round_none (hgrown.old [] root hroot) hg (by omega) (by omega) h₆, Option.bind_none]

theorem Space.loadPages_ok (hp : Pending file n u f c o) (h : loadPages file (virtual root) n s ⟨u, f, c, o⟩ = some s') :
    (0 < f → (c + f) % 2 ^ 12 ≠ 0) ∧ ∃ t', Filled memMap nr (fun a => u ≤ a ∧ a < u + n * 2 ^ 12)
      (span c (u + n * 2 ^ 12) (loadByte file c f o)) s t s' t' := by
  induction n generalizing s t u f c o with
  | zero =>
    obtain rfl := Option.some.inj h
    obtain ⟨h₁, h₂, h₃, h₄, h₅, h₆⟩ := hp
    refine ⟨by omega, t, (Filled.refl hs hinv).congr (fun _ => False.elim) fun a => ?_⟩
    exact (if_neg (by omega)).symm
  | succ n ih =>
    obtain ⟨h₁, h₂, h₃, h₄, h₅, h₆⟩ := id hp
    by_cases hne : c + f = u + 2 ^ 12
    · rw [hs.loadPages_stop hinv hnr hroot hp hne] at h
      cases h
    · have hrun := h
      rw [loadPages_succ (by omega)] at hrun
      obtain ⟨⟨v, s₁⟩, hmap, -⟩ := Option.bind_eq_some_iff.mp hrun
      obtain ⟨m, t₁, hround, hfilled⟩ := hs.loadPages_round hinv hnr hroot hp hmap hne
      rw [hround] at h
      obtain ⟨hend, t', hrest⟩ := ih hfilled.space hfilled.inv (hfilled.old [] root hroot) hp.next h
      refine ⟨by omega, t', (hfilled.trans hrest).congr ?_ hp.span_next⟩
      omega

theorem Space.exists_loadPages (hp : Pending file n u f c o) (hend : 0 < f → (c + f) % 2 ^ 12 ≠ 0)
    (hfree : 4 * n ≤ s.alloc.freeCount nr) : ∃ s', loadPages file (virtual root) n s ⟨u, f, c, o⟩ = some s' ∧
      s.alloc.freeCount nr ≤ s'.alloc.freeCount nr + 4 * n := by
  induction n generalizing s t u f c o with
  | zero => exact ⟨s, rfl, Nat.le_refl _⟩
  | succ n ih =>
    obtain ⟨h₁, h₂, h₃, h₄, h₅, h₆⟩ := id hp
    obtain ⟨v, s₁, hmap, hcount⟩ := exists_mapPage (a := virtual root) hinv (by omega) (show u < 2 ^ 47 by omega)
    obtain ⟨m, t₁, hround, hfilled⟩ := hs.loadPages_round hinv hnr hroot hp hmap (by omega)
    obtain ⟨s', h, hcount'⟩ := ih hfilled.space hfilled.inv (hfilled.old [] root hroot) hp.next (by omega)
      (by dsimp only; omega)
    exact ⟨s', hround.trans h, by dsimp only at hcount'; omega⟩

end Pages

/-! ## The segments -/

theorem ElfOk.tail {p : Phdr} {segs : List Phdr} (h : ElfOk file (p :: segs)) : ElfOk file segs where
  sizes q hq := h.sizes q (List.mem_cons_of_mem p hq)
  bound q hq := h.bound q (List.mem_cons_of_mem p hq)
  readable q hq := h.readable q (List.mem_cons_of_mem p hq)
  ascending := (List.pairwise_cons.mp h.ascending).2

section Segment

variable {p : Phdr} {segs : List Phdr} (h : ElfOk file segs) (hp : p ∈ segs)

include h hp

theorem ElfOk.last_eq : p.start + p.pageNum * 2 ^ 12 = p.last ∧ p.last % 2 ^ 12 = 0 ∧ p.last ≤ 2 ^ 47 ∧
    p.pVaddr + p.pMemsz ≤ p.last ∧ p.last < p.pVaddr + p.pMemsz + 2 ^ 12 := by
  have hbound := h.bound p hp
  have hmod : (p.pVaddr + p.pMemsz) % 2 ^ 64 = p.pVaddr + p.pMemsz := by omega
  have hlast : p.last =
      ((p.pVaddr + p.pMemsz) / 2 ^ 12 + if (p.pVaddr + p.pMemsz) % 2 ^ 12 > 0 then 1 else 0) * 2 ^ 12 := by
    rw [Phdr.last, hmod]
    refine Nat.mod_eq_of_lt (show (_ / 2 ^ 12 + if _ % 2 ^ 12 > 0 then 1 else 0) * 2 ^ 12 < 2 ^ 64 from ?_)
    split <;> omega
  have hstart : p.start = p.pVaddr / 2 ^ 12 * 2 ^ 12 := rfl
  have hnum : p.pageNum = (p.last - p.start) / 2 ^ 12 := by
    rw [Phdr.pageNum]
    simp only [pageSize]
    split at hlast <;> omega
  rw [hnum]
  split at hlast <;> omega

theorem ElfOk.pending : Pending file p.pageNum p.start p.pFilesz p.pVaddr p.pOffset := by
  obtain ⟨hlast, halign, hbound, hend, hend'⟩ := h.last_eq hp
  have hstart : p.start = p.pVaddr / 2 ^ 12 * 2 ^ 12 := rfl
  have hsize := h.sizes p hp
  exact ⟨by omega, by omega, by omega, by omega, by omega, h.readable p hp⟩

end Segment

def Phdr.written (file : ExecFile) (p : Phdr) : Nat → Option UInt8 :=
  span p.pVaddr p.last (loadByte file p.pVaddr p.pFilesz p.pOffset)

def written (file : ExecFile) : List Phdr → Nat → Option UInt8
  | [], _ => none
  | p :: segs, a => (written file segs a).or (p.written file a)

def InSegs (segs : List Phdr) (a : Nat) : Prop := ∃ p ∈ segs, p.start ≤ a ∧ a < p.last

section Segments

variable {phdr : Phdr} {phdrs : List Phdr} {psegs psegs' : List Seg}

theorem loads_skip (h : phdr.pType ≠ ptLoad) : loads (phdr :: phdrs) = loads phdrs :=
  List.filter_cons_of_neg (by simpa using h)

theorem loads_cons (h : phdr.pType = ptLoad) : loads (phdr :: phdrs) = phdr :: loads phdrs :=
  List.filter_cons_of_pos (by simpa using h)

theorem loadSegments_skip (h : phdr.pType ≠ ptLoad) :
    loadSegments file v psegs s (phdr :: phdrs) = loadSegments file v psegs s phdrs := by
  rw [loadSegments, if_pos h]

theorem loadSegments_load (h : phdr.pType = ptLoad) (hlength : psegs.length < procMmSegSize) :
    loadSegments file v psegs s (phdr :: phdrs) =
      (loadPages file v phdr.pageNum s ⟨phdr.start, phdr.pFilesz, phdr.pVaddr, phdr.pOffset⟩).bind fun s =>
        loadSegments file v (psegs ++ [⟨phdr.pVaddr, (phdr.pVaddr + phdr.pMemsz) % 2 ^ 64⟩]) s phdrs := by
  rw [loadSegments, if_neg (not_not.mpr h), if_neg (Nat.not_le.mpr hlength)]
  rfl

theorem loadSegments_full (h : phdr.pType = ptLoad) (hlength : procMmSegSize ≤ psegs.length) :
    loadSegments file v psegs s (phdr :: phdrs) = none := by
  rw [loadSegments, if_neg (not_not.mpr h), if_pos hlength]

variable (hs : Space memMap nr s t) (hinv : s.alloc.Inv memMap nr) (hnr : nr ≤ maxFrame) (hroot : t [] = some root)

include hs hinv hnr hroot

theorem Space.loadSegments_ok (hok : ElfOk file (loads phdrs)) (hlength : psegs.length ≤ procMmSegSize)
    (h : loadSegments file (virtual root) psegs s phdrs = some (psegs', s')) :
    psegs.length + (loads phdrs).length ≤ procMmSegSize ∧
      (∀ p ∈ loads phdrs, 0 < p.pFilesz → (p.pVaddr + p.pFilesz) % 2 ^ 12 ≠ 0) ∧
      ∃ t', Filled memMap nr (InSegs (loads phdrs)) (written file (loads phdrs)) s t s' t' := by
  induction phdrs generalizing s t psegs with
  | nil =>
    cases h
    exact ⟨hlength, nofun, t, (Filled.refl hs hinv).congr (fun _ => False.elim) fun _ => rfl⟩
  | cons phdr phdrs ih =>
    by_cases htype : phdr.pType = ptLoad
    · rcases Nat.lt_or_ge psegs.length procMmSegSize with hlt | hge
      · rw [loads_cons htype] at hok ⊢
        rw [loadSegments_load htype hlt] at h
        obtain ⟨s₁, hpages, h⟩ := Option.bind_eq_some_iff.mp h
        have hmem : phdr ∈ phdr :: loads phdrs := List.mem_cons_self
        obtain ⟨hend, t₁, hfilled⟩ := hs.loadPages_ok hinv hnr hroot (hok.pending hmem) hpages
        obtain ⟨hcount, hends, t', hrest⟩ := ih hfilled.space hfilled.inv (hfilled.old [] root hroot) hok.tail
          (by rw [List.length_append]; exact hlt) h
        rw [(hok.last_eq hmem).1] at hfilled
        refine ⟨by simp at hcount ⊢; omega, List.forall_mem_cons.mpr ⟨hend, hends⟩, t',
          (hfilled.trans hrest).congr ?_ fun _ => rfl⟩
        rintro a (ha | ⟨p, hp, ha⟩)
        · exact ⟨phdr, hmem, ha⟩
        · exact ⟨p, List.mem_cons_of_mem phdr hp, ha⟩
      · rw [loadSegments_full htype hge] at h
        cases h
    · rw [loads_skip htype] at hok ⊢
      rw [loadSegments_skip htype] at h
      exact ih hs hinv hroot hok hlength h

theorem Space.exists_loadSegments (hok : ElfOk file (loads phdrs))
    (hlength : psegs.length + (loads phdrs).length ≤ procMmSegSize)
    (hend : ∀ p ∈ loads phdrs, 0 < p.pFilesz → (p.pVaddr + p.pFilesz) % 2 ^ 12 ≠ 0)
    (hfree : 4 * segPages (loads phdrs) ≤ s.alloc.freeCount nr) :
    ∃ psegs' s', loadSegments file (virtual root) psegs s phdrs = some (psegs', s') := by
  induction phdrs generalizing s t psegs with
  | nil => exact ⟨psegs, s, rfl⟩
  | cons phdr phdrs ih =>
    by_cases htype : phdr.pType = ptLoad
    · rw [loads_cons htype] at hok hlength hend hfree
      rw [List.length_cons] at hlength
      obtain ⟨hend₁, hend⟩ := List.forall_mem_cons.mp hend
      simp only [segPages, List.map_cons, List.sum_cons] at hfree ih
      have hpending := hok.pending List.mem_cons_self
      obtain ⟨s₁, hpages, hcount⟩ := hs.exists_loadPages hinv hnr hroot hpending hend₁ (by omega)
      obtain ⟨-, t₁, hfilled⟩ := hs.loadPages_ok hinv hnr hroot hpending hpages
      rw [loadSegments_load htype (by omega), hpages, Option.bind_some]
      exact ih hfilled.space hfilled.inv (hfilled.old [] root hroot) hok.tail (by simp; omega) hend (by omega)
    · rw [loads_skip htype] at hok hlength hend hfree
      rw [loadSegments_skip htype]
      exact ih hs hinv hroot hok hlength hend hfree

end Segments

end FengOS.Mm
