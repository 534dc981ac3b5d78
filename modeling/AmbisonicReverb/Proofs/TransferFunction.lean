import Mathlib
import AmbisonicReverb.Biquad
import AmbisonicReverb.Proofs.Fragments
import AmbisonicReverb.Proofs.Lossless

/-!
# Filters run as they were designed

A section of second order is designed in the z-plane, evaluated at frequencies to normalise its
gain, and run in a form with two registers that mix inputs and outputs. All three are the same
filter, read exactly: a quotient of two polynomials in the delay by one sample.

**Theorem (`follows_setGainZeroPole`).** From rest, a section with any gain, zeros and poles solves
the difference equation of its coefficients, for signals of any length. As power series in the
delay, its output times the denominator is its input times the numerator, and the two polynomials
are those that its frequency response evaluates. They factor into the designed zeros and poles. A
band-pass does the same with the products of the polynomials of its sections.

* `Biquad.course_process` — the registers hold what the last two inputs and outputs contribute to
  the next outputs.
* `Realises` — a system and its frequency response have a transfer function, and systems in series
  have the product (`Realises.comp`).
-/

namespace AmbisonicReverb

open Polynomial

/-! ## Signals -/

/-- The signal `d` samples before, with silence before the first sample. -/
def past (x : ℕ → ℝ) (d n : ℕ) : ℝ := if d ≤ n then x (n - d) else 0

section

variable (x : ℕ → ℝ) (d n : ℕ)

theorem past_zero : past x 0 n = x n := rfl

theorem past_succ_zero : past x (d + 1) 0 = 0 := rfl

theorem past_succ_succ : past x (d + 1) (n + 1) = past x d n := by
  unfold past
  simp only [Nat.add_le_add_iff_right, Nat.reduceSubDiff]

/-- A power of the delay. -/
theorem coeff_mk_mul (c : ℝ) :
    (PowerSeries.mk x * (PowerSeries.C c * PowerSeries.X ^ d)).coeff n = c * past x d n := by
  rw [mul_left_comm, PowerSeries.coeff_C_mul, PowerSeries.coeff_mul_X_pow']
  unfold past
  simp only [PowerSeries.coeff_mk]

end

/-- A single sample of height 1. -/
def unitImpulse (n : ℕ) : ℝ := if n = 0 then 1 else 0

theorem mk_unitImpulse : PowerSeries.mk unitImpulse = 1 := by
  ext n
  rw [PowerSeries.coeff_mk, PowerSeries.coeff_one]
  rfl

/-! ## Transfer functions -/

/-- A quotient of polynomials in the delay by one sample. -/
structure TransferFunction where
  numerator : ℝ[X]
  denominator : ℝ[X]

namespace TransferFunction

/-- One system after the other. -/
noncomputable def series (s t : TransferFunction) : TransferFunction :=
  ⟨s.numerator * t.numerator, s.denominator * t.denominator⟩

/-- The value at an angle per sample, by which the delay turns back. -/
noncomputable def value (t : TransferFunction) (angle : ℝ) : ℂ :=
  let delay := Complex.exp (-angle * Complex.I)
  aeval delay t.numerator / aeval delay t.denominator

theorem value_series (s t : TransferFunction) (angle : ℝ) :
    (s.series t).value angle = s.value angle * t.value angle := by
  unfold value series
  simp only [map_mul]
  exact mul_div_mul_comm _ _ _ _

end TransferFunction

/-- A system that turns signals into signals, and its frequency response, have the same transfer
function. -/
structure Realises (system : (ℕ → ℝ) → ℕ → ℝ) (response : ℝ → Phasor ℝ) (t : TransferFunction) :
    Prop where
  series_eq : ∀ x, PowerSeries.mk (system x) * (t.denominator : PowerSeries ℝ) =
    PowerSeries.mk x * (t.numerator : PowerSeries ℝ)
  response_eq : ∀ angle, (response angle).toComplex = t.value angle

section

variable {first second : (ℕ → ℝ) → ℕ → ℝ} {response response' : ℝ → Phasor ℝ}
  {s t : TransferFunction}

/-- The numerator is the impulse response times the denominator. -/
theorem Realises.impulse_eq (h : Realises first response t) :
    PowerSeries.mk (first unitImpulse) * (t.denominator : PowerSeries ℝ) = t.numerator := by
  rw [h.series_eq, mk_unitImpulse, one_mul]

theorem Realises.comp (hs : Realises first response s) (ht : Realises second response' t) :
    Realises (fun x => second (first x)) (fun angle => response angle * response' angle)
      (s.series t) where
  series_eq x := by
    simp only [TransferFunction.series, Polynomial.coe_mul]
    calc PowerSeries.mk (second (first x)) * (s.denominator * t.denominator : PowerSeries ℝ)
        = PowerSeries.mk (second (first x)) * t.denominator * s.denominator := by ring
      _ = PowerSeries.mk (first x) * s.denominator * t.numerator := by rw [ht.series_eq]; ring
      _ = PowerSeries.mk x * (s.numerator * t.numerator) := by rw [hs.series_eq]; ring
  response_eq angle := by
    rw [Phasor.toComplex_mul, hs.response_eq, ht.response_eq, TransferFunction.value_series]

end

/-! ## Sections -/

namespace Biquad

/-- The transfer function with the coefficients of a section. -/
noncomputable def transfer (f : Biquad ℝ) : TransferFunction where
  numerator := C f.b0 + C f.b1 * X + C f.b2 * X ^ 2
  denominator := 1 + C f.a1 * X + C f.a2 * X ^ 2

/-- What a section makes of a signal, from rest. -/
noncomputable def output (f : Biquad ℝ) (x : ℕ → ℝ) : ℕ → ℝ := emitted process f.reset x

variable (f : Biquad ℝ) (x : ℕ → ℝ)

/-- One register holds what the last samples contribute to the next output, and the other one what
they contribute to that after it. -/
theorem course_process (n : ℕ) :
    course process f.reset x n =
      { f with
        z1 := f.b1 * past x 1 n + f.b2 * past x 2 n - f.a1 * past (f.output x) 1 n -
          f.a2 * past (f.output x) 2 n
        z2 := f.b2 * past x 1 n - f.a2 * past (f.output x) 1 n } := by
  induction n with
  | zero =>
    simp only [past_succ_zero, mul_zero, add_zero, sub_zero]
    rfl
  | succ n ih =>
    have houtput : f.output x n = ((course process f.reset x n).process (x n)).1 := rfl
    show ((course process f.reset x n).process (x n)).2 = _
    simp only [past_succ_succ, past_zero, houtput]
    rw [ih]
    unfold process
    simp only [Scalar.flush_eq]
    congr 1
    ring

/-- The outputs solve the difference equation. -/
theorem output_eq (n : ℕ) :
    f.output x n = f.b0 * x n + f.b1 * past x 1 n + f.b2 * past x 2 n -
      f.a1 * past (f.output x) 1 n - f.a2 * past (f.output x) 2 n := by
  have houtput : f.output x n = ((course process f.reset x n).process (x n)).1 := rfl
  rw [houtput, course_process]
  unfold process
  simp only
  ring

theorem render_reset (signal : Array ℝ) :
    (f.reset.render signal).1 =
      Array.ofFn fun n : Fin signal.size => f.output (fun k => signal.getD k 0) n :=
  runOver_eq_emitted process f.reset 0 signal

theorem toComplex_response (angle : ℝ) :
    (f.response angle).toComplex = f.transfer.value angle := by
  unfold response TransferFunction.value transfer
  simp only [Phasor.toComplex_div, Phasor.toComplex_add, Phasor.toComplex_addReal,
    Phasor.toComplex_scale, Phasor.toComplex_mul, Phasor.toComplex_unit, map_add, map_mul,
    map_one, aeval_C, aeval_X, Complex.coe_algebraMap, Complex.ofReal_neg, Complex.ofReal_one, sq]

theorem realises_transfer : Realises f.output f.response f.transfer where
  series_eq x := by
    have hdelay (c : ℝ) : (PowerSeries.C c * PowerSeries.X : PowerSeries ℝ) =
        PowerSeries.C c * PowerSeries.X ^ 1 := by rw [pow_one]
    ext n
    simp only [transfer, Polynomial.coe_add, Polynomial.coe_mul, Polynomial.coe_pow,
      Polynomial.coe_C, Polynomial.coe_X, Polynomial.coe_one, mul_add, map_add, hdelay,
      coeff_mk_mul, mul_one, PowerSeries.coeff_mk, PowerSeries.coeff_mul_C]
    rw [output_eq]
    ring
  response_eq := f.toComplex_response

end Biquad

/-! ## Design -/

namespace PolarPoint

variable (p : PolarPoint ℝ)

noncomputable def toComplex : ℂ := p.radius * Complex.exp (p.angle * Complex.I)

/-- The factors of the point and of its conjugate, as a polynomial in the delay. -/
noncomputable def pair : ℂ[X] :=
  (1 - C p.toComplex * X) * (1 - C ((starRingEnd ℂ) p.toComplex) * X)

theorem toComplex_add_conj :
    p.toComplex + (starRingEnd ℂ) p.toComplex = (2 * p.radius * Real.cos p.angle : ℝ) := by
  have hre : p.toComplex.re = p.radius * Real.cos p.angle := by
    unfold toComplex
    rw [Complex.re_ofReal_mul, Complex.exp_ofReal_mul_I_re]
  rw [Complex.add_conj, hre, mul_assoc]

theorem toComplex_mul_conj :
    p.toComplex * (starRingEnd ℂ) p.toComplex = (p.radius * p.radius : ℝ) := by
  have hnorm : ‖p.toComplex‖ ^ 2 = p.radius * p.radius := by
    unfold toComplex
    rw [norm_mul, Complex.norm_exp_ofReal_mul_I, Complex.norm_real, mul_one, Real.norm_eq_abs,
      sq_abs, sq]
  rw [Complex.mul_conj, Complex.normSq_eq_norm_sq, hnorm]

theorem pair_eq : p.pair = 1 + C ((-2 * p.radius * Real.cos p.angle : ℝ) : ℂ) * X +
    C ((p.radius * p.radius : ℝ) : ℂ) * X ^ 2 := by
  have hsum : ((-2 * p.radius * Real.cos p.angle : ℝ) : ℂ) =
      -(p.toComplex + (starRingEnd ℂ) p.toComplex) := by
    rw [toComplex_add_conj, ← Complex.ofReal_neg]
    congr 1
    ring
  unfold pair
  rw [hsum, ← toComplex_mul_conj, C_neg, C_add, C_mul]
  ring

end PolarPoint

namespace Biquad

variable (f : Biquad ℝ) (gain : ℝ) (zero pole : PolarPoint ℝ)

theorem numerator_setGainZeroPole :
    (f.setGainZeroPole gain zero pole).transfer.numerator.map (algebraMap ℝ ℂ) =
      C (gain : ℂ) * zero.pair := by
  have hlinear : -2.0 * gain * zero.radius * Elementary.cos zero.angle =
      gain * (-2 * zero.radius * Real.cos zero.angle) := by
    rw [show (2.0 : ℝ) = 2 by norm_num]
    show -2 * gain * zero.radius * Real.cos zero.angle = _
    ring
  have hsquare : gain * zero.radius * zero.radius = gain * (zero.radius * zero.radius) :=
    mul_assoc _ _ _
  rw [PolarPoint.pair_eq]
  simp only [transfer, setGainZeroPole, hlinear, hsquare, Polynomial.map_add, Polynomial.map_mul,
    Polynomial.map_pow, Polynomial.map_C, Polynomial.map_X, Complex.coe_algebraMap,
    Complex.ofReal_mul, C_mul]
  ring

theorem denominator_setGainZeroPole :
    (f.setGainZeroPole gain zero pole).transfer.denominator.map (algebraMap ℝ ℂ) = pole.pair := by
  have hlinear : -2.0 * pole.radius * Elementary.cos pole.angle =
      -2 * pole.radius * Real.cos pole.angle := by
    rw [show (2.0 : ℝ) = 2 by norm_num]
    rfl
  rw [PolarPoint.pair_eq]
  simp only [transfer, setGainZeroPole, hlinear, Polynomial.map_add, Polynomial.map_mul,
    Polynomial.map_pow, Polynomial.map_C, Polynomial.map_X, Polynomial.map_one,
    Complex.coe_algebraMap]

/-- A section runs, responds and has its zeros and poles as it was designed. -/
structure FollowsDesign : Prop where
  /-- From rest, the outputs solve the difference equation. -/
  difference : ∀ x n, f.output x n = f.b0 * x n + f.b1 * past x 1 n + f.b2 * past x 2 n -
    f.a1 * past (f.output x) 1 n - f.a2 * past (f.output x) 2 n
  /-- Signals of any length are filtered from their first sample on. -/
  render : ∀ signal : Array ℝ, (f.reset.render signal).1 =
    Array.ofFn fun n : Fin signal.size => f.output (fun k => signal.getD k 0) n
  impulse : PowerSeries.mk (f.output unitImpulse) * (f.transfer.denominator : PowerSeries ℝ) =
    f.transfer.numerator
  realises : Realises f.output f.response f.transfer
  zeros : f.transfer.numerator.map (algebraMap ℝ ℂ) = C (gain : ℂ) * zero.pair
  poles : f.transfer.denominator.map (algebraMap ℝ ℂ) = pole.pair

end Biquad

/-! ## Band-passes -/

namespace BandPass

/-- What a band-pass makes of a signal, from rest. -/
noncomputable def output (f : BandPass ℝ) (x : ℕ → ℝ) : ℕ → ℝ := emitted process f.reset x

variable (f : BandPass ℝ) (x : ℕ → ℝ)

theorem course_process (n : ℕ) :
    course process f.reset x n = ⟨course Biquad.process f.highpass.reset x n,
      course Biquad.process f.lowpass.reset (f.highpass.output x) n⟩ := by
  induction n with
  | zero => rfl
  | succ n ih =>
    show ((course process f.reset x n).process (x n)).2 = _
    rw [ih]
    rfl

/-- The sections are run one after the other. -/
theorem output_eq : f.output x = f.lowpass.output (f.highpass.output x) := by
  funext n
  show ((course process f.reset x n).process (x n)).1 = _
  rw [course_process]
  rfl

theorem realises_transfer :
    Realises f.output f.response (f.highpass.transfer.series f.lowpass.transfer) := by
  have houtput : f.output = fun x => f.lowpass.output (f.highpass.output x) := funext f.output_eq
  rw [houtput]
  exact f.highpass.realises_transfer.comp f.lowpass.realises_transfer

end BandPass

/-- **Filters run as they were designed.** Whatever gain, zeros and poles a section is given, it
runs by its difference equation, its impulse response is the quotient that its frequency response
evaluates, and this quotient has the given zeros and poles. A band-pass of any two sections has the
product of their transfer functions. -/
theorem Biquad.follows_setGainZeroPole (f : Biquad ℝ) (gain : ℝ) (zero pole : PolarPoint ℝ) :
    (f.setGainZeroPole gain zero pole).FollowsDesign gain zero pole ∧
      ∀ band : BandPass ℝ, Realises band.output band.response
        (band.highpass.transfer.series band.lowpass.transfer) := by
  refine ⟨?_, fun band => band.realises_transfer⟩
  exact {
    difference := output_eq _
    render := render_reset _
    impulse := (realises_transfer _).impulse_eq
    realises := realises_transfer _
    zeros := numerator_setGainZeroPole f gain zero pole
    poles := denominator_setGainZeroPole f gain zero pole }

end AmbisonicReverb
