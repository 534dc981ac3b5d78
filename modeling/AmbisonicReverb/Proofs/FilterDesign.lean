import Mathlib
import AmbisonicReverb.Proofs.TransferFunction

/-!
# Filters pass what they are designed to pass

A section is designed in two steps. It gets its zeros and poles with gain 1, and the magnitude of
its response where it is to pass then becomes the divisor of its gain. So it matters that this
magnitude exists and is not zero.

**Theorem (`design_selects`).** For all frequencies above zero, high- and low-pass sections are
stable, with gain 1 at one end of the frequencies and 0 at the other one. A band-pass for an octave,
as long as its lower edge is at most 0.49 of the sample rate, has stable sections, gain 1 at the
geometric mean of its edges and 0 at both ends. No normalisation divides by zero.

The response at an angle is a quotient of two pairs of points, evaluated on the unit circle
(`Biquad.toComplex_response_setGainZeroPole`). The poles are inside the circle, so that their pair
does not vanish there (`PolarPoint.Inside.eval_pair_ne_zero`). The zeros are on the circle, at one
of its two real points, and the edges of a band stay away from both.
-/

namespace AmbisonicReverb

open Polynomial

/-! ## Magnitudes -/

/-- Factoring out the larger part does not change the magnitude. -/
theorem Phasor.norm_eq (p : Phasor ℝ) : p.norm = ‖p.toComplex‖ := by
  let hi := max |p.re| |p.im|
  let lo := min |p.re| |p.im|
  have hnorm : ‖p.toComplex‖ = √(hi ^ 2 + lo ^ 2) := by
    rw [Complex.norm_def, Complex.normSq_apply]
    show √(p.re * p.re + p.im * p.im) = √(max |p.re| |p.im| ^ 2 + min |p.re| |p.im| ^ 2)
    rw [← abs_mul_abs_self p.re, ← abs_mul_abs_self p.im]
    congr 1
    rcases le_total |p.re| |p.im| with h | h
    · rw [max_eq_right h, min_eq_left h]
      ring
    · rw [max_eq_left h, min_eq_right h]
      ring
  have heq : p.norm = if 0 < hi then hi * √(1 + lo / hi * (lo / hi)) else |p.re| + |p.im| := by
    unfold norm
    simp only [Scalar.abs_eq_abs, Scalar.isFinite_eq, Scalar.isNaN_eq_false, Bool.not_true,
      Bool.false_and, Bool.false_eq_true, if_false, not_false_eq_true, and_true,
      Scalar.maxNum_eq_max, Scalar.minNum_eq_min]
    rfl
  rw [heq, hnorm]
  split_ifs with h
  · have hparts : hi ^ 2 + lo ^ 2 = hi ^ 2 * (1 + lo / hi * (lo / hi)) := by field_simp
    rw [hparts, Real.sqrt_mul (sq_nonneg hi), Real.sqrt_sq h.le]
  · obtain ⟨hre, him⟩ := max_le_iff.mp (not_lt.mp h)
    have hhi : hi = 0 := le_antisymm (not_lt.mp h) ((abs_nonneg p.re).trans (le_max_left _ _))
    have hlo : lo = 0 :=
      le_antisymm ((min_le_left _ _).trans hre) (le_min (abs_nonneg _) (abs_nonneg _))
    rw [hhi, hlo, le_antisymm hre (abs_nonneg _), le_antisymm him (abs_nonneg _)]
    simp

theorem Phasor.norm_nonneg (p : Phasor ℝ) : 0 ≤ p.norm := by
  rw [norm_eq]
  positivity

/-- How a signal of a frequency changes in one sample of delay. -/
noncomputable def delayAt (angle : ℝ) : ℂ := Complex.exp (-angle * Complex.I)

theorem norm_delayAt (angle : ℝ) : ‖delayAt angle‖ = 1 := by
  unfold delayAt
  rw [← Complex.ofReal_neg, Complex.norm_exp_ofReal_mul_I]

theorem delayAt_zero : delayAt 0 = 1 := by simp [delayAt]

theorem delayAt_pi : delayAt Real.pi = -1 := by
  unfold delayAt
  rw [neg_mul, Complex.exp_neg, Complex.exp_pi_mul_I, inv_neg, inv_one]

theorem im_delayAt (angle : ℝ) : (delayAt angle).im = -Real.sin angle := by
  unfold delayAt
  rw [← Complex.ofReal_neg, Complex.exp_ofReal_mul_I_im, Real.sin_neg]

/-! ## Points -/

namespace PolarPoint

/-- The point is inside the unit circle. -/
def Inside (p : PolarPoint ℝ) : Prop := p.radius ∈ Set.Ico (0 : ℝ) 1

variable {p : PolarPoint ℝ}

theorem norm_toComplex (h : 0 ≤ p.radius) : ‖p.toComplex‖ = p.radius := by
  unfold toComplex
  rw [norm_mul, Complex.norm_exp_ofReal_mul_I, mul_one, Complex.norm_real, Real.norm_of_nonneg h]

theorem eval_pair (p : PolarPoint ℝ) (z : ℂ) :
    p.pair.eval z = (1 - p.toComplex * z) * (1 - (starRingEnd ℂ) p.toComplex * z) := by
  simp [pair]

/-- Points inside the unit circle are not met on it. -/
theorem Inside.eval_pair_ne_zero (h : p.Inside) {z : ℂ} (hz : ‖z‖ = 1) : p.pair.eval z ≠ 0 := by
  obtain ⟨hnonneg, hlt⟩ := h
  have hfactor : ∀ ζ : ℂ, ‖ζ‖ = p.radius → 1 - ζ * z ≠ 0 := by
    intro ζ hζ heq
    have hone : ‖ζ * z‖ = 1 := by rw [← sub_eq_zero.mp heq, norm_one]
    rw [norm_mul, hz, mul_one, hζ] at hone
    exact hlt.ne hone
  rw [eval_pair]
  refine mul_ne_zero (hfactor _ (norm_toComplex hnonneg)) (hfactor _ ?_)
  rw [RCLike.norm_conj, norm_toComplex hnonneg]

end PolarPoint

/-! ## Sections -/

namespace Biquad

/-- What the frequency response divides by. -/
noncomputable def denominator (f : Biquad ℝ) (angle : ℝ) : Phasor ℝ :=
  let z := Phasor.unit (-angle)
  Phasor.addReal 1 (z.scale f.a1) + (z * z).scale f.a2

/-- The poles are inside the unit circle: the coefficients are in the stability triangle. -/
structure Stable (f : Biquad ℝ) : Prop where
  a2_lt : |f.a2| < 1
  a1_lt : |f.a1| < 1 + f.a2

/-- The response has a magnitude at the angle, by which a gain can be divided. -/
structure Normalisable (f : Biquad ℝ) (angle : ℝ) : Prop where
  denominator_ne_zero : (f.denominator angle).norm ≠ 0
  response_ne_zero : (f.response angle).norm ≠ 0

section

variable (f : Biquad ℝ) (gain : ℝ) (zeros poles : PolarPoint ℝ) (angle : ℝ)

theorem toComplex_denominator :
    (f.denominator angle).toComplex = aeval (delayAt angle) f.transfer.denominator := by
  unfold denominator transfer delayAt
  simp only [Phasor.toComplex_add, Phasor.toComplex_addReal, Phasor.toComplex_scale,
    Phasor.toComplex_mul, Phasor.toComplex_unit, map_add, map_mul, map_one, aeval_C, aeval_X,
    Complex.coe_algebraMap, Complex.ofReal_neg, Complex.ofReal_one, sq]

theorem toComplex_denominator_setGainZeroPole :
    ((f.setGainZeroPole gain zeros poles).denominator angle).toComplex =
      poles.pair.eval (delayAt angle) := by
  rw [toComplex_denominator, ← eval_map_algebraMap, denominator_setGainZeroPole]

theorem toComplex_response_setGainZeroPole :
    ((f.setGainZeroPole gain zeros poles).response angle).toComplex =
      gain * (zeros.pair.eval (delayAt angle) / poles.pair.eval (delayAt angle)) := by
  rw [toComplex_response]
  unfold TransferFunction.value
  simp only [← eval_map_algebraMap, numerator_setGainZeroPole, denominator_setGainZeroPole,
    eval_mul, eval_C]
  exact mul_div_assoc _ _ _

theorem norm_response_setGainZeroPole :
    ((f.setGainZeroPole gain zeros poles).response angle).norm =
      |gain| * ‖zeros.pair.eval (delayAt angle) / poles.pair.eval (delayAt angle)‖ := by
  rw [Phasor.norm_eq, toComplex_response_setGainZeroPole, norm_mul, Complex.norm_real,
    Real.norm_eq_abs]

variable {poles}

theorem stable_setGainZeroPole (h : poles.Inside) :
    (f.setGainZeroPole gain zeros poles).Stable := by
  obtain ⟨hnonneg, hlt⟩ := h
  have hcos : |Real.cos poles.angle| ≤ 1 := Real.abs_cos_le_one _
  refine ⟨?_, ?_⟩
  · show |poles.radius * poles.radius| < 1
    rw [abs_mul_self]
    nlinarith
  · show |-2.0 * poles.radius * Real.cos poles.angle| < 1 + poles.radius * poles.radius
    calc |-2.0 * poles.radius * Real.cos poles.angle|
        = 2 * poles.radius * |Real.cos poles.angle| := by
          rw [abs_mul, abs_mul, abs_of_nonneg hnonneg]
          norm_num
      _ ≤ 2 * poles.radius := mul_le_of_le_one_right (by positivity) hcos
      _ < 1 + poles.radius * poles.radius := by nlinarith [sq_pos_of_pos (sub_pos.mpr hlt)]

variable {zeros angle}

theorem normalisable_setGainZeroPole (h : poles.Inside)
    (hzeros : zeros.pair.eval (delayAt angle) ≠ 0) :
    (f.setGainZeroPole 1 zeros poles).Normalisable angle := by
  have hpoles := h.eval_pair_ne_zero (norm_delayAt angle)
  constructor
  · rw [Phasor.norm_eq, toComplex_denominator_setGainZeroPole]
    exact norm_ne_zero_iff.mpr hpoles
  · rw [norm_response_setGainZeroPole, abs_one, one_mul]
    exact norm_ne_zero_iff.mpr (div_ne_zero hzeros hpoles)

end

/-! ## High- and low-pass sections -/

/-- A section with gain 1, before it is normalised. -/
noncomputable def unscaled (zeros poles : PolarPoint ℝ) : Biquad ℝ :=
  identity.setGainZeroPole 1 zeros poles

/-- The section is stable and passes one frequency as it is, and the other one not at all. -/
structure Selects (zeros poles : PolarPoint ℝ) (pass stop : ℝ) (f : Biquad ℝ) : Prop where
  eq : f = (unscaled zeros poles).setGainZeroPole
    (1 / ((unscaled zeros poles).response pass).norm) zeros poles
  normalisable : (unscaled zeros poles).Normalisable pass
  stable : f.Stable
  norm_pass : (f.response pass).norm = 1
  norm_stop : (f.response stop).norm = 0

section

variable {zeros poles : PolarPoint ℝ}

theorem norm_response_unscaled (angle : ℝ) : ((unscaled zeros poles).response angle).norm =
    ‖zeros.pair.eval (delayAt angle) / poles.pair.eval (delayAt angle)‖ := by
  unfold unscaled
  rw [norm_response_setGainZeroPole, abs_one, one_mul]

/-- A new gain scales the response. -/
theorem norm_response_scaled {gain : ℝ} (h : 0 ≤ gain) (angle : ℝ) :
    (((unscaled zeros poles).setGainZeroPole gain zeros poles).response angle).norm =
      gain * ((unscaled zeros poles).response angle).norm := by
  rw [norm_response_setGainZeroPole, norm_response_unscaled, abs_of_nonneg h]

theorem selects_normalisedAt (h : poles.Inside) {pass stop : ℝ}
    (hpass : zeros.pair.eval (delayAt pass) ≠ 0) (hstop : zeros.pair.eval (delayAt stop) = 0) :
    (normalisedAt pass zeros poles).Selects zeros poles pass stop := by
  let gain : ℝ := 1 / ((unscaled zeros poles).response pass).norm
  have hnormalisable : (unscaled zeros poles).Normalisable pass :=
    normalisable_setGainZeroPole identity h hpass
  have hgain : 0 ≤ gain := one_div_nonneg.mpr (Phasor.norm_nonneg _)
  refine ⟨rfl, hnormalisable, stable_setGainZeroPole _ _ _ h, ?_, ?_⟩
  · show (((unscaled zeros poles).setGainZeroPole gain zeros poles).response pass).norm = 1
    rw [norm_response_scaled hgain]
    exact one_div_mul_cancel hnormalisable.response_ne_zero
  · show (((unscaled zeros poles).setGainZeroPole gain zeros poles).response stop).norm = 0
    rw [norm_response_setGainZeroPole, hstop, zero_div, norm_zero, mul_zero]

end

theorem nyquist_eq : (nyquist : ℝ) = Real.pi := by
  unfold nyquist
  show 2 * Real.pi / 2.0 = Real.pi
  norm_num

theorem eval_pair_zeroAtDC (z : ℂ) : zeroAtDC.pair.eval z = (1 - z) ^ 2 := by
  have hpoint : (zeroAtDC : PolarPoint ℝ).toComplex = 1 := by
    simp [zeroAtDC, PolarPoint.toComplex]
  rw [PolarPoint.eval_pair, hpoint, map_one, one_mul, sq]

theorem eval_pair_zeroAtNyquist (z : ℂ) : zeroAtNyquist.pair.eval z = (1 + z) ^ 2 := by
  have hpoint : (zeroAtNyquist : PolarPoint ℝ).toComplex = -1 := by
    unfold zeroAtNyquist PolarPoint.toComplex
    rw [nyquist_eq, Complex.exp_pi_mul_I, Complex.ofReal_one, one_mul]
  rw [PolarPoint.eval_pair, hpoint, map_neg, map_one, neg_one_mul, sub_neg_eq_add, sq]

theorem eval_zeroAtDC_zero : zeroAtDC.pair.eval (delayAt 0) = 0 := by
  rw [eval_pair_zeroAtDC, delayAt_zero, sub_self, sq, zero_mul]

theorem eval_zeroAtNyquist_nyquist : zeroAtNyquist.pair.eval (delayAt nyquist) = 0 := by
  rw [eval_pair_zeroAtNyquist, nyquist_eq, delayAt_pi, add_neg_cancel, sq, zero_mul]

section

variable {frequency sampleRate : ℝ}

/-- The pole comes closer to the centre as its frequency grows. -/
theorem inside_pole (h : 0 < frequency) (hrate : 0 < sampleRate) :
    (pole frequency sampleRate).Inside := by
  have hexponent : -2.0 * frequency / sampleRate < 0 := by
    apply div_neg_of_neg_of_pos _ hrate
    linarith
  refine ⟨Real.rpow_nonneg (by norm_num) _, ?_⟩
  exact Real.rpow_lt_one_of_one_lt_of_neg (by norm_num) hexponent

theorem selects_highpass (h : 0 < frequency) (hrate : 0 < sampleRate) :
    (highpass frequency sampleRate).Selects zeroAtDC (pole frequency sampleRate) nyquist 0 := by
  refine selects_normalisedAt (inside_pole h hrate) ?_ eval_zeroAtDC_zero
  rw [eval_pair_zeroAtDC, nyquist_eq, delayAt_pi]
  norm_num

theorem selects_lowpass (h : 0 < frequency) (hrate : 0 < sampleRate) :
    (lowpass frequency sampleRate).Selects zeroAtNyquist (pole frequency sampleRate) 0 nyquist := by
  refine selects_normalisedAt (inside_pole h hrate) ?_ eval_zeroAtNyquist_nyquist
  rw [eval_pair_zeroAtNyquist, delayAt_zero]
  norm_num

end

end Biquad

/-! ## Band-passes -/

namespace BandPass

open Biquad (zeroAtDC zeroAtNyquist pole)

/-- The sections of a band-pass before they are normalised. -/
noncomputable def unscaled (low high sampleRate : ℝ) : BandPass ℝ :=
  ⟨.unscaled zeroAtDC (pole low sampleRate), .unscaled zeroAtNyquist (pole high sampleRate)⟩

/-- The angle of the geometric mean of the edges. -/
noncomputable def centreAngle (low high sampleRate : ℝ) : ℝ :=
  Elementary.tau * Elementary.sqrt (low * high) / sampleRate

/-- The edges of the band are in order and below the highest frequency, and the sections are stable.
Together they pass the middle of the band as it is, and the ends of the frequencies not at all. -/
structure Selects (low high sampleRate : ℝ) (f : BandPass ℝ) : Prop where
  low_pos : 0 < low
  low_le_high : low ≤ high
  high_le : high ≤ 0.49 * sampleRate
  eq : f = { unscaled low high sampleRate with
    highpass := (unscaled low high sampleRate).highpass.setGainZeroPole
      (1 / ((unscaled low high sampleRate).response (centreAngle low high sampleRate)).norm)
      zeroAtDC (pole low sampleRate) }
  normalisable_highpass :
    (unscaled low high sampleRate).highpass.Normalisable (centreAngle low high sampleRate)
  normalisable_lowpass :
    (unscaled low high sampleRate).lowpass.Normalisable (centreAngle low high sampleRate)
  response_ne_zero :
    ((unscaled low high sampleRate).response (centreAngle low high sampleRate)).norm ≠ 0
  stable_highpass : f.highpass.Stable
  stable_lowpass : f.lowpass.Stable
  norm_centre : (f.response (centreAngle low high sampleRate)).norm = 1
  norm_zero : (f.response 0).norm = 0
  norm_nyquist : (f.response Biquad.nyquist).norm = 0

theorem norm_response (f : BandPass ℝ) (angle : ℝ) :
    (f.response angle).norm =
      (f.highpass.response angle).norm * (f.lowpass.response angle).norm := by
  unfold response
  rw [Phasor.norm_eq, Phasor.toComplex_mul, norm_mul, Phasor.norm_eq, Phasor.norm_eq]

section

variable {low high sampleRate : ℝ}

/-- Both edges are between the ends of the frequencies, and so is their geometric mean. -/
theorem centreAngle_mem (hrate : 0 < sampleRate) (hlow : 0 < low) (hle : low ≤ high)
    (hhigh : high ≤ 0.49 * sampleRate) : centreAngle low high sampleRate ∈ Set.Ioo 0 Real.pi := by
  have hpos : 0 < √(low * high) := Real.sqrt_pos.mpr (mul_pos hlow (hlow.trans_le hle))
  have hmean : √(low * high) ≤ high := by
    rw [Real.sqrt_le_left (hlow.le.trans hle), sq]
    exact mul_le_mul_of_nonneg_right hle (hlow.le.trans hle)
  have hpi := Real.pi_pos
  show 2 * Real.pi * √(low * high) / sampleRate ∈ _
  constructor
  · positivity
  · rw [div_lt_iff₀ hrate]
    nlinarith

theorem eval_pairs_ne_zero {angle : ℝ} (h : angle ∈ Set.Ioo 0 Real.pi) :
    zeroAtDC.pair.eval (delayAt angle) ≠ 0 ∧ zeroAtNyquist.pair.eval (delayAt angle) ≠ 0 := by
  have him : (delayAt angle).im ≠ 0 := by
    rw [im_delayAt, neg_ne_zero]
    exact (Real.sin_pos_of_mem_Ioo h).ne'
  have hreal : ∀ a : ℝ, delayAt angle ≠ a := by
    rintro a ha
    rw [ha] at him
    exact him (Complex.ofReal_im a)
  rw [Biquad.eval_pair_zeroAtDC, Biquad.eval_pair_zeroAtNyquist]
  constructor
  · refine pow_ne_zero _ fun heq => hreal 1 ?_
    rw [Complex.ofReal_one]
    exact (sub_eq_zero.mp heq).symm
  · refine pow_ne_zero _ fun heq => hreal (-1) ?_
    rw [Complex.ofReal_neg, Complex.ofReal_one]
    exact eq_neg_of_add_eq_zero_right heq

theorem selects_between (hrate : 0 < sampleRate) (hlow : 0 < low) (hle : low ≤ high)
    (hhigh : high ≤ 0.49 * sampleRate) :
    (between low high sampleRate).Selects low high sampleRate := by
  let f : BandPass ℝ := unscaled low high sampleRate
  let angle : ℝ := centreAngle low high sampleRate
  let gain : ℝ := 1 / (f.response angle).norm
  have hlowPole := Biquad.inside_pole hlow hrate
  have hhighPole := Biquad.inside_pole (hlow.trans_le hle) hrate
  obtain ⟨hdc, hnyquist⟩ := eval_pairs_ne_zero (centreAngle_mem hrate hlow hle hhigh)
  have hfirst : f.highpass.Normalisable angle :=
    Biquad.normalisable_setGainZeroPole .identity hlowPole hdc
  have hsecond : f.lowpass.Normalisable angle :=
    Biquad.normalisable_setGainZeroPole .identity hhighPole hnyquist
  have hne : (f.response angle).norm ≠ 0 := by
    rw [norm_response]
    exact mul_ne_zero hfirst.response_ne_zero hsecond.response_ne_zero
  have hgain : 0 ≤ gain := one_div_nonneg.mpr (Phasor.norm_nonneg _)
  have hscaled : ∀ φ, ((between low high sampleRate).response φ).norm =
      gain * ((f.highpass.response φ).norm * (f.lowpass.response φ).norm) := by
    intro φ
    have hhighpass : ((between low high sampleRate).highpass.response φ).norm =
        gain * (f.highpass.response φ).norm := Biquad.norm_response_scaled hgain φ
    rw [norm_response, ← mul_assoc]
    exact congrArg (· * (f.lowpass.response φ).norm) hhighpass
  have hdcZero : (f.highpass.response 0).norm = 0 := by
    refine (Biquad.norm_response_unscaled 0).trans ?_
    rw [Biquad.eval_zeroAtDC_zero, zero_div, norm_zero]
  have hnyquistZero : (f.lowpass.response Biquad.nyquist).norm = 0 := by
    refine (Biquad.norm_response_unscaled Biquad.nyquist).trans ?_
    rw [Biquad.eval_zeroAtNyquist_nyquist, zero_div, norm_zero]
  exact {
    low_pos := hlow
    low_le_high := hle
    high_le := hhigh
    eq := rfl
    normalisable_highpass := hfirst
    normalisable_lowpass := hsecond
    response_ne_zero := hne
    stable_highpass := Biquad.stable_setGainZeroPole _ _ _ hlowPole
    stable_lowpass := Biquad.stable_setGainZeroPole _ _ _ hhighPole
    norm_centre := by rw [hscaled, ← norm_response]; exact one_div_mul_cancel hne
    norm_zero := by rw [hscaled, hdcZero, zero_mul, mul_zero]
    norm_nyquist := by rw [hscaled, hnyquistZero, mul_zero, mul_zero] }

end

/-- The edges of an octave. The upper one is cut off where the frequencies come to their end. -/
theorem octave_eq {centre sampleRate : ℝ} (hlow : 0 < centre / √2)
    (hhigh : centre / √2 ≤ 0.49 * sampleRate) :
    centre / √2 ≤ min (centre * √2) (0.49 * sampleRate) ∧
      octave centre sampleRate =
        between (centre / √2) (min (centre * √2) (0.49 * sampleRate)) sampleRate := by
  have hroot : (1 : ℝ) < √2 := Real.one_lt_sqrt_two
  have hcentre : 0 < centre := by
    rw [← div_mul_cancel₀ centre (Real.sqrt_ne_zero'.mpr zero_lt_two)]
    positivity
  have hle : centre / √2 ≤ min (centre * √2) (0.49 * sampleRate) := by
    refine le_min ?_ hhigh
    calc centre / √2 ≤ centre := div_le_self hcentre.le hroot.le
      _ ≤ centre * √2 := le_mul_of_one_le_right hcentre.le hroot.le
  have hlower : centre * Elementary.sqrt 0.5 = centre / √2 := by
    show centre * √0.5 = centre / √2
    rw [show (0.5 : ℝ) = 2⁻¹ by norm_num, Real.sqrt_inv, div_eq_mul_inv]
  have hupper : centre * Elementary.sqrt 2.0 = centre * √2 := by
    show centre * √2.0 = centre * √2
    rw [show (2.0 : ℝ) = 2 by norm_num]
  refine ⟨hle, ?_⟩
  unfold octave
  simp only [hlower, hupper, Scalar.minNum_eq_min, Scalar.maxNum_eq_max, max_eq_left hle]

theorem selects_octave {centre sampleRate : ℝ} (hrate : 0 < sampleRate) (hlow : 0 < centre / √2)
    (hhigh : centre / √2 ≤ 0.49 * sampleRate) :
    (octave centre sampleRate).Selects (centre / √2) (min (centre * √2) (0.49 * sampleRate))
      sampleRate := by
  obtain ⟨hle, heq⟩ := octave_eq hlow hhigh
  rw [heq]
  exact selects_between hrate hlow hle (min_le_right _ _)

end BandPass

/-- **Filters select.** High- and low-pass sections of any cutoff, and band-passes of any octave
that begins below the highest frequencies, are stable, have gain 1 where they pass and 0 where they
stop, and are normalised without a division by zero. -/
theorem design_selects {sampleRate : ℝ} (hrate : 0 < sampleRate) :
    (∀ cutoff, 0 < cutoff →
      (Biquad.highpass cutoff sampleRate).Selects Biquad.zeroAtDC (Biquad.pole cutoff sampleRate)
          Biquad.nyquist 0 ∧
        (Biquad.lowpass cutoff sampleRate).Selects Biquad.zeroAtNyquist
          (Biquad.pole cutoff sampleRate) 0 Biquad.nyquist) ∧
      ∀ centre, 0 < centre / √2 → centre / √2 ≤ 0.49 * sampleRate →
        (BandPass.octave centre sampleRate).Selects (centre / √2)
          (min (centre * √2) (0.49 * sampleRate)) sampleRate :=
  ⟨fun _ h => ⟨Biquad.selects_highpass h hrate, Biquad.selects_lowpass h hrate⟩,
    fun _ hlow hhigh => BandPass.selects_octave hrate hlow hhigh⟩

/-- A cutoff above the highest frequency, and an octave of which the upper edge is cut off. -/
theorem design_selects_highFrequencies :
    ((0 : ℝ) < 16 ∧ (0 : ℝ) < 20 ∧ 0 < 10 / √2 ∧ 10 / √2 ≤ 0.49 * (16 : ℝ)) ∧
      ((Biquad.highpass (20 : ℝ) 16).Selects Biquad.zeroAtDC (Biquad.pole 20 16) Biquad.nyquist 0 ∧
        (Biquad.lowpass (20 : ℝ) 16).Selects Biquad.zeroAtNyquist (Biquad.pole 20 16) 0
          Biquad.nyquist) ∧
      (BandPass.octave (10 : ℝ) 16).Selects (10 / √2) (min (10 * √2) (0.49 * 16)) 16 := by
  have hrate : (0 : ℝ) < 16 := by norm_num
  have hcutoff : (0 : ℝ) < 20 := by norm_num
  have hlow : 0 < 10 / √2 := by positivity
  have hhigh : 10 / √2 ≤ 0.49 * (16 : ℝ) := by
    rw [div_le_iff₀ (by positivity)]
    nlinarith [Real.sq_sqrt (show (0 : ℝ) ≤ 2 by norm_num), Real.one_lt_sqrt_two]
  obtain ⟨hsections, hbands⟩ := design_selects hrate
  exact ⟨⟨hrate, hcutoff, hlow, hhigh⟩, hsections 20 hcutoff, hbands 10 hlow hhigh⟩

end AmbisonicReverb
