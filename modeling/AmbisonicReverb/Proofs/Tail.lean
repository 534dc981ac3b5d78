import Mathlib
import AmbisonicReverb.Proofs.Absorption

/-!
# Tails

What decays by a factor in each step comes ever closer to zero, and is never zero if numbers are
exact. It is flushing that ends a tail. `Flushed` reads the definitions with exact numbers and with
the threshold of the signals, 1e-30.

**Theorem (`tail_ends`).** A reflection that gets no more input comes to exact silence, from every
state, and stays silent. With gain 0 the lowpass decays by its damping in every step, whatever the
input is.

The registers come to rest one after the other. The lowpass decays by its damping until it is
flushed (`exists_lowpass_eq_zero`), and the input of the allpass is the lowpass. From then on the
output of the allpass decays by its own coefficient (`exists_allpassOut_eq_zero`).
-/

namespace AmbisonicReverb

/-! ## Flushed numbers -/

/-- A magnitude below the threshold becomes zero. -/
noncomputable def flushed (x : ℝ) : ℝ := if |x| < 1e-30 then 0 else x

theorem flushed_of_lt {x : ℝ} (h : |x| < 1e-30) : flushed x = 0 := if_pos h

theorem flushed_zero : flushed 0 = 0 := flushed_of_lt (by norm_num)

theorem flushed_of_le {x : ℝ} (h : 1e-30 ≤ x) : flushed x = x :=
  if_neg (not_lt.mpr (h.trans (le_abs_self x)))

theorem flushed_of_nonneg {x : ℝ} (h : 0 ≤ x) : flushed x = if x < 1e-30 then 0 else x := by
  unfold flushed
  rw [abs_of_nonneg h]

theorem flushed_flushed (x : ℝ) : flushed (flushed x) = flushed x := by
  by_cases h : |x| < 1e-30
  · rw [flushed_of_lt h, flushed_zero]
  · have hkeep : flushed x = x := if_neg h
    rw [hkeep, hkeep]

/-- A gain makes nothing audible again. -/
theorem flushed_flushed_mul {x g : ℝ} (hlow : 0 ≤ g) (hhigh : g ≤ 1) :
    flushed (flushed x * g) = flushed (x * g) := by
  by_cases h : |x| < 1e-30
  · have hsmall : |x * g| < 1e-30 := by
      rw [abs_mul, abs_of_nonneg hlow]
      exact (mul_le_of_le_one_right (abs_nonneg x) hhigh).trans_lt h
    rw [flushed_of_lt h, flushed_of_lt hsmall, zero_mul, flushed_zero]
  · have hkeep : flushed x = x := if_neg h
    rw [hkeep]

theorem abs_flushed_le (x : ℝ) : |flushed x| ≤ |x| := by
  unfold flushed
  split_ifs
  · rw [abs_zero]
    exact abs_nonneg x
  · exact le_refl _

section

variable {u : ℕ → ℝ} {q : ℝ} {T : ℕ}

theorem abs_le_pow_mul (h : ∀ t, T ≤ t → u (t + 1) = flushed (q * u t)) (i : ℕ) :
    |u (T + i)| ≤ |q| ^ i * |u T| := by
  induction i with
  | zero => rw [pow_zero, one_mul, Nat.add_zero]
  | succ i ih =>
    calc |u (T + i + 1)| ≤ |q * u (T + i)| := by
          rw [h (T + i) (Nat.le_add_right T i)]
          exact abs_flushed_le _
      _ = |q| * |u (T + i)| := abs_mul q _
      _ ≤ |q| * (|q| ^ i * |u T|) := mul_le_mul_of_nonneg_left ih (abs_nonneg q)
      _ = |q| ^ (i + 1) * |u T| := by rw [pow_succ', mul_assoc]

/-- What decays and is flushed is zero from some step on. -/
theorem exists_eq_zero_of_decay (hq : |q| < 1)
    (h : ∀ t, T ≤ t → u (t + 1) = flushed (q * u t)) : ∃ N, ∀ t, N ≤ t → u t = 0 := by
  have hpos : (0 : ℝ) < 1e-30 / (|u T| + 1) := by positivity
  obtain ⟨i, hi⟩ := exists_pow_lt_of_lt_one hpos hq
  have hsmall : |q * u (T + i)| < 1e-30 := by
    calc |q * u (T + i)| = |q| * |u (T + i)| := abs_mul q _
      _ ≤ 1 * |u (T + i)| := mul_le_mul_of_nonneg_right hq.le (abs_nonneg _)
      _ = |u (T + i)| := one_mul _
      _ ≤ |q| ^ i * |u T| := abs_le_pow_mul h i
      _ ≤ |q| ^ i * (|u T| + 1) :=
        mul_le_mul_of_nonneg_left (le_add_of_nonneg_right zero_le_one) (by positivity)
      _ < 1e-30 := (lt_div_iff₀ (by positivity)).mp hi
  refine ⟨T + i + 1, fun t ht => ?_⟩
  induction t, ht using Nat.le_induction with
  | base => rw [h (T + i) (Nat.le_add_right T i), flushed_of_lt hsmall]
  | succ t ht ih => rw [h t (by omega), ih, mul_zero, flushed_zero]

end

/-- The real numbers, with the threshold below which signals are flushed. -/
def Flushed : Type := ℝ

noncomputable instance : Elementary Flushed := realElementary 1e-30

/-- Flushed signals are filtered as they are. -/
instance : Widening Flushed Flushed where
  widen x := x
  narrow x := x

namespace Flushed

def toReal (x : Flushed) : ℝ := x

section

variable (x y : Flushed)

@[simp] theorem toReal_zero : (0 : Flushed).toReal = 0 := rfl

@[simp] theorem toReal_one : (1 : Flushed).toReal = 1 := rfl

@[simp] theorem toReal_add : (x + y).toReal = x.toReal + y.toReal := rfl

@[simp] theorem toReal_sub : (x - y).toReal = x.toReal - y.toReal := rfl

@[simp] theorem toReal_neg : (-x).toReal = -x.toReal := rfl

@[simp] theorem toReal_mul : (x * y).toReal = x.toReal * y.toReal := rfl

@[simp] theorem toReal_flush : (Scalar.flush x).toReal = flushed x.toReal := by
  have hiff : (-Scalar.tiny < x ∧ x < Scalar.tiny) ↔ |x.toReal| < 1e-30 := by
    show (-(1e-30 : ℝ) < x.toReal ∧ x.toReal < 1e-30) ↔ _
    exact abs_lt.symm
  unfold Scalar.flush flushed
  by_cases h : |x.toReal| < 1e-30
  · rw [if_pos (hiff.mpr h), if_pos h, toReal_zero]
  · rw [if_neg (mt hiff.mp h), if_neg h]

end

end Flushed

/-- The number in one channel of a sample. -/
noncomputable def Sample.level (s : Sample Flushed) (a : Channel) : ℝ := (s.channel a).toReal

theorem Sample.eq_zero_of_level {s : Sample Flushed} (h : ∀ a, s.level a = 0) : s = 0 :=
  ext_channel fun a => (h a).trans (congrArg Flushed.toReal (channel_zero a)).symm

/-! ## Registers without input -/

namespace Reflection

/-- The filter has these coefficients, and any signal. -/
def Has {α : Type} [Scalar α] (gain damping eta : α) (f : Reflection α) : Prop :=
  f.reset = f.tune gain damping eta

section

variable {α : Type} [Scalar α] {gain damping eta : α} {f : Reflection α}

theorem Has.coefficients (h : f.Has gain damping eta) :
    f.b1 = gain * (1 - damping) ∧ f.a2 = -damping ∧ f.eta = eta :=
  ⟨congrArg b1 h, congrArg a2 h, congrArg Reflection.eta h⟩

theorem Has.after (h : f.Has gain damping eta) (v : ℕ → Sample α) (t : ℕ) :
    (f.after v t).Has gain damping eta := by
  induction t with
  | zero => exact h
  | succ t ih => exact ih

/-- A filter with silent registers is as it was set. -/
theorem Has.eq_tune (h : f.Has gain damping eta) (hlow : f.lowpass = 0) (hin : f.allpassIn = 0)
    (hout : f.allpassOut = 0) : f = f.tune gain damping eta := by
  rw [← h]
  cases f
  subst hlow hin hout
  rfl

end

variable {gain damping eta : Flushed} {f : Reflection Flushed}

theorem level_lowpass_filter (h : f.Has gain damping eta) (s : Sample Flushed) (a : Channel) :
    (f.filter s).2.lowpass.level a =
      flushed (s.level a * (gain.toReal * (1 - damping.toReal)) +
        damping.toReal * f.lowpass.level a) := by
  obtain ⟨hb1, ha2, -⟩ := h.coefficients
  unfold Sample.level
  rw [channel_lowpass_filter, hb1, ha2]
  simp only [Flushed.toReal_flush, Flushed.toReal_sub, Flushed.toReal_mul, Flushed.toReal_neg,
    Flushed.toReal_one]
  refine congrArg flushed ?_
  ring

/-- Without input the lowpass decays by its damping. -/
theorem level_lowpass_filter_zero (h : f.Has gain damping eta) (a : Channel) :
    (f.filter 0).2.lowpass.level a = flushed (damping.toReal * f.lowpass.level a) := by
  have hzero : (0 : Sample Flushed).level a = 0 := congrArg Flushed.toReal (Sample.channel_zero a)
  rw [level_lowpass_filter h, hzero, zero_mul, zero_add]

theorem level_allpassOut_filter (h : f.Has gain damping eta) (s : Sample Flushed) (a : Channel) :
    (f.filter s).2.allpassOut.level a =
      flushed ((f.filter s).2.lowpass.level a * eta.toReal + f.allpassIn.level a +
        -eta.toReal * f.allpassOut.level a) := by
  obtain ⟨-, -, heta⟩ := h.coefficients
  unfold Sample.level
  rw [allpassOut_filter, channel_filter, heta]
  simp only [Flushed.toReal_flush, Flushed.toReal_sub, Flushed.toReal_add, Flushed.toReal_mul]
  refine congrArg flushed ?_
  ring

/-- The lowpass comes to rest. -/
theorem exists_lowpass_eq_zero (h : f.Has gain damping eta) (hlow : 0 ≤ damping.toReal)
    (hhigh : damping.toReal < 1) (a : Channel) :
    ∃ N, ∀ t, N ≤ t → (f.after (fun _ => 0) t).lowpass.level a = 0 := by
  have hdecay : |damping.toReal| < 1 := by rwa [abs_of_nonneg hlow]
  exact exists_eq_zero_of_decay (T := 0) hdecay fun t _ =>
    level_lowpass_filter_zero (h.after (fun _ => 0) t) a

/-- After the lowpass, the allpass comes to rest. -/
theorem exists_allpassOut_eq_zero (h : f.Has gain damping eta) (heta : |eta.toReal| < 1)
    {a : Channel} {T : ℕ} (hT : ∀ t, T ≤ t → (f.after (fun _ => 0) t).lowpass.level a = 0) :
    ∃ N, ∀ t, N ≤ t → (f.after (fun _ => 0) t).allpassOut.level a = 0 := by
  have hdecay : |-eta.toReal| < 1 := by rwa [abs_neg]
  refine exists_eq_zero_of_decay (T := T + 1) hdecay fun t ht => ?_
  obtain ⟨s, rfl⟩ : ∃ s, t = s + 1 := ⟨t - 1, by omega⟩
  have hlowpass : (f.after (fun _ => 0) (s + 1 + 1)).lowpass.level a = 0 := hT _ (by omega)
  have hin : (f.after (fun _ => 0) (s + 1)).allpassIn.level a = 0 := hT (s + 1) (by omega)
  have hout := level_allpassOut_filter (h.after (fun _ => 0) (s + 1)) 0 a
  have hout : (f.after (fun _ => 0) (s + 1 + 1)).allpassOut.level a =
      flushed ((f.after (fun _ => 0) (s + 1 + 1)).lowpass.level a * eta.toReal +
        (f.after (fun _ => 0) (s + 1)).allpassIn.level a +
        -eta.toReal * (f.after (fun _ => 0) (s + 1)).allpassOut.level a) := hout
  rw [hout, hlowpass, hin, zero_mul, zero_add, zero_add]

theorem exists_registers_eq_zero (h : f.Has gain damping eta) (hlow : 0 ≤ damping.toReal)
    (hhigh : damping.toReal < 1) (heta : |eta.toReal| < 1) (a : Channel) :
    ∃ N, ∀ t, N ≤ t → (f.after (fun _ => 0) t).lowpass.level a = 0 ∧
      (f.after (fun _ => 0) t).allpassIn.level a = 0 ∧
      (f.after (fun _ => 0) t).allpassOut.level a = 0 := by
  obtain ⟨T, hT⟩ := exists_lowpass_eq_zero h hlow hhigh a
  obtain ⟨N, hN⟩ := exists_allpassOut_eq_zero h heta hT
  refine ⟨max (T + 1) N, fun t ht => ⟨hT t (by omega), ?_, hN t (by omega)⟩⟩
  obtain ⟨s, rfl⟩ : ∃ s, t = s + 1 := ⟨t - 1, by omega⟩
  exact hT (s + 1) (by omega)

/-- All channels come to rest, and the filter is as it was set. -/
theorem exists_after_eq_reset (h : f.Has gain damping eta) (hlow : 0 ≤ damping.toReal)
    (hhigh : damping.toReal < 1) (heta : |eta.toReal| < 1) :
    ∃ N, ∀ t, N ≤ t → f.after (fun _ => 0) t = f.reset := by
  choose N hN using exists_registers_eq_zero h hlow hhigh heta
  refine ⟨Finset.univ.sup N, fun t ht => ?_⟩
  have hle : ∀ a, N a ≤ t := fun a => (Finset.le_sup (Finset.mem_univ a)).trans ht
  have hset : f.reset = (f.after (fun _ => 0) t).tune gain damping eta := h
  rw [hset]
  refine (h.after _ t).eq_tune ?_ ?_ ?_
  · exact Sample.eq_zero_of_level fun a => (hN a t (hle a)).1
  · exact Sample.eq_zero_of_level fun a => (hN a t (hle a)).2.1
  · exact Sample.eq_zero_of_level fun a => (hN a t (hle a)).2.2

/-- With gain 0 nothing comes into the lowpass, and flushing makes it only smaller. -/
theorem abs_level_lowpass_le (h : f.Has 0 damping eta) (hlow : 0 ≤ damping.toReal)
    (s : Sample Flushed) (a : Channel) :
    |(f.filter s).2.lowpass.level a| ≤ damping.toReal * |f.lowpass.level a| := by
  rw [level_lowpass_filter h, Flushed.toReal_zero, zero_mul, mul_zero, zero_add]
  calc |flushed (damping.toReal * f.lowpass.level a)| ≤ |damping.toReal * f.lowpass.level a| :=
        abs_flushed_le _
    _ = damping.toReal * |f.lowpass.level a| := by rw [abs_mul, abs_of_nonneg hlow]

/-- **Tails end.** Without input a reflection in any state comes to exact silence and stays there.
With gain 0 each channel of its lowpass decays by the damping, whatever comes in. -/
theorem tail_ends (h : f.Has gain damping eta) (hlow : 0 ≤ damping.toReal)
    (hhigh : damping.toReal < 1) (heta : |eta.toReal| < 1) :
    (∃ N, ∀ t, N ≤ t → f.after (fun _ => 0) t = f.reset ∧ f.response (fun _ => 0) t = 0) ∧
      (gain = 0 → ∀ (v : ℕ → Sample Flushed) (t : ℕ) (a : Channel),
        |(f.after v (t + 1)).lowpass.level a| ≤
          damping.toReal * |(f.after v t).lowpass.level a|) := by
  constructor
  · obtain ⟨N, hN⟩ := exists_after_eq_reset h hlow hhigh heta
    refine ⟨N, fun t ht => ⟨hN t ht, ?_⟩⟩
    show (f.after (fun _ => 0) (t + 1)).allpassOut = 0
    rw [hN (t + 1) (by omega)]
    rfl
  · rintro rfl v t a
    exact abs_level_lowpass_le (h.after v t) hlow (v t) a

/-- A filter with the slowest tail that a reverb sets, full of signal. -/
noncomputable def loud : Reflection Flushed :=
  { silent.tune 0 0.999 (-0.87) with
    lowpass := ⟨1, 1, 1, 1⟩
    allpassIn := ⟨1, 0, -1, 0⟩
    allpassOut := ⟨0, 1, 0, -1⟩ }

theorem tail_ends_loud :
    (loud.Has 0 0.999 (-0.87) ∧ 0 ≤ (0.999 : Flushed).toReal ∧ (0.999 : Flushed).toReal < 1 ∧
      |(-0.87 : Flushed).toReal| < 1) ∧
      (∃ N, ∀ t, N ≤ t →
        loud.after (fun _ => 0) t = loud.reset ∧ loud.response (fun _ => 0) t = 0) ∧
      ∀ (v : ℕ → Sample Flushed) (t : ℕ) (a : Channel),
        |(loud.after v (t + 1)).lowpass.level a| ≤
          (0.999 : Flushed).toReal * |(loud.after v t).lowpass.level a| := by
  have hhas : loud.Has 0 0.999 (-0.87) := rfl
  have hlow : 0 ≤ (0.999 : Flushed).toReal := by
    show (0 : ℝ) ≤ 0.999
    norm_num
  have hhigh : (0.999 : Flushed).toReal < 1 := by
    show (0.999 : ℝ) < 1
    norm_num
  have heta : |(-0.87 : Flushed).toReal| < 1 := by
    show |(-0.87 : ℝ)| < 1
    norm_num [abs_lt]
  obtain ⟨hsilent, hdecay⟩ := tail_ends hhas hlow hhigh heta
  exact ⟨⟨hhas, hlow, hhigh, heta⟩, hsilent, hdecay rfl⟩

end Reflection

end AmbisonicReverb
