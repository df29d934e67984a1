import FengOS.Keyboard.Scancode
import Mathlib.Tactic.SplitIfs

/-!
# What `annlysis_scancode` decodes
-/

namespace FengOS.Keyboard

variable {s : Scanner} {d : Decoder} {kbf : Kbf} {code : UInt8}

/-! ## The code as it is: no prefix is ever recognised -/

def Scanner.Deaf (s : Scanner) : Prop := s.preCode ≠ 0xe0 ∧ s.preCode ≠ 0xe1

def bareStep (kbf : Kbf) (code : UInt8) : Option UInt8 × Kbf :=
  if code = 0xe0 ∨ code = 0xe1 then (none, kbf) else plainCode kbf code

theorem deaf_init : Scanner.init.Deaf := ⟨by decide, by decide⟩

theorem Scanner.Deaf.step (h : s.Deaf) (code : UInt8) : (annlysisScancode s code).2.Deaf := by
  have hprefix : toChar 0xe1 = -31 := by decide
  unfold annlysisScancode
  split
  · simp [Scanner.Deaf, hprefix]
  · split
    · simp [Scanner.Deaf, hprefix]
    · rw [if_neg h.2, if_neg h.1]
      exact h

theorem Scanner.Deaf.view (h : s.Deaf) (code : UInt8) :
    ((annlysisScancode s code).1, (annlysisScancode s code).2.kbf) = bareStep s.kbf code := by
  unfold annlysisScancode bareStep
  by_cases h₁ : code = 0xe1
  · rw [if_pos h₁, if_pos (Or.inr h₁)]
  · rw [if_neg h₁]
    by_cases h₀ : code = 0xe0
    · rw [if_pos h₀, if_pos (Or.inl h₀)]
    · rw [if_neg h₀, if_neg h.2, if_neg h.1, if_neg (not_or.mpr ⟨h₀, h₁⟩)]

theorem idle_iff : Idle kbf code ↔ bareStep kbf code = (none, kbf) := by
  unfold Idle bareStep
  by_cases h : code = 0xe0 ∨ code = 0xe1
  · rw [if_pos h]
    exact iff_of_true (h.elim Or.inl fun h => Or.inr (Or.inl h)) rfl
  · rw [if_neg h, ← or_assoc]
    exact ⟨fun hor => hor.resolve_left h, Or.inr⟩

/-! ## The right keys -/

def Kbf.NoRight (kbf : Kbf) : Prop := kbf.ctrlR = false ∧ kbf.altR = false

theorem Kbf.NoRight.plainCode (h : kbf.NoRight) (code : UInt8) : (plainCode kbf code).2.NoRight := by
  unfold Keyboard.plainCode
  dsimp only
  split_ifs <;> exact h

theorem Kbf.NoRight.bareStep (h : kbf.NoRight) (code : UInt8) : (bareStep kbf code).2.NoRight := by
  unfold Keyboard.bareStep
  split
  · exact h
  · exact h.plainCode code

theorem Kbf.NoRight.extendedCode_eq (h : kbf.NoRight) : extendedCode kbf code = kbf ↔ code ≠ 0x1d ∧ code ≠ 0x38 := by
  obtain ⟨shiftL, shiftR, ctrlL, ctrlR, altL, altR⟩ := kbf
  obtain ⟨hctrl, halt⟩ := h
  dsimp only at hctrl halt
  subst hctrl halt
  unfold extendedCode
  split_ifs <;> simp_all

theorem bareStep_ne_extendedCode (h : kbf.NoRight) (hcode : code = 0x1d ∨ code = 0x38) :
    bareStep kbf code ≠ (none, extendedCode kbf code) := by
  obtain ⟨hctrl, halt⟩ := h
  intro heq
  rcases hcode with rfl | rfl
  · have hflag := congrArg (fun r => r.2.ctrlR) heq
    exact Bool.false_ne_true (hctrl.symm.trans hflag)
  · have hflag := congrArg (fun r => r.2.altR) heq
    exact Bool.false_ne_true (halt.symm.trans hflag)

/-! ## Against the decoder that is meant -/

theorem Decoder.view_iff (h : d.kbf.NoRight) (code : UInt8) :
    bareStep d.kbf code = ((d.step code).1, (d.step code).2.kbf) ↔ d.Harmless code := by
  obtain ⟨mode, kbf⟩ := d
  unfold Decoder.Harmless
  rw [idle_iff]
  cases mode with
  | plain =>
    refine iff_of_true ?_ (Or.inl rfl)
    unfold bareStep Decoder.step
    by_cases h₁ : code = 0xe1
    · simp [h₁]
    · by_cases h₀ : code = 0xe0
      · simp [h₀]
      · simp [h₀, h₁]
  | extended =>
    simp only [Decoder.step, reduceCtorEq, false_or, forall_const]
    constructor
    · intro heq
      have hcode : code ≠ 0x1d ∧ code ≠ 0x38 :=
        not_or.mp fun hcode => bareStep_ne_extendedCode h hcode heq
      exact ⟨by rw [heq, h.extendedCode_eq.mpr hcode], hcode⟩
    · rintro ⟨hidle, hcode⟩
      rw [hidle, h.extendedCode_eq.mpr hcode]
  | skipping left =>
    rcases left with _ | _ | left <;>
      simp only [Decoder.step, reduceCtorEq, false_or, false_implies, and_true]

theorem views_eq_iff (codes : List UInt8) (hs : s.Deaf) (hd : d.kbf.NoRight) (hkbf : s.kbf = d.kbf) :
    views annlysisScancode Scanner.kbf s codes = views Decoder.step Decoder.kbf d codes ↔ d.HarmlessAll codes := by
  induction codes generalizing s d with
  | nil => exact iff_of_true rfl trivial
  | cons code codes ih =>
    have hview := hs.view code
    rw [hkbf] at hview
    have hhead := Decoder.view_iff hd code
    rw [← hview] at hhead
    rw [views, views, List.cons.injEq, Decoder.HarmlessAll, hhead]
    refine and_congr_right fun hharmless => ih (hs.step code) ?_ (congrArg Prod.snd (hhead.mpr hharmless))
    rw [show (d.step code).2.kbf = (bareStep d.kbf code).2 by rw [(Decoder.view_iff hd code).mpr hharmless]]
    exact hd.bareStep code

/-- `annlysis_scancode` is right exactly if every code behind a prefix does nothing without it and is no right key. -/
theorem decodes_iff (codes : List UInt8) : Decodes codes ↔ Decoder.init.HarmlessAll codes :=
  views_eq_iff codes deaf_init ⟨rfl, rfl⟩ rfl

/-- The right control key is taken for the left one. -/
theorem right_ctrl_is_left : views annlysisScancode Scanner.kbf Scanner.init [0xe0, 0x1d] =
    [(none, Kbf.none), (none, { Kbf.none with ctrlL := true })] ∧ ¬ Decodes [0xe0, 0x1d] := by
  refine ⟨by decide, ?_⟩
  unfold Decodes
  decide

end FengOS.Keyboard
