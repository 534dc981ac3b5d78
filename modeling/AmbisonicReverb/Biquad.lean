import AmbisonicReverb.Phasor

/-!
# Second order filters

A biquad section has a gain, a conjugate pair of zeros and a conjugate pair of poles. It runs in
the transposed direct form II, with two state variables. High- and low-pass sections are designed
directly in the z-plane: the pole's radius shrinks with its frequency, which keeps the resonance
moderate, and the gain is normalised where the section is to pass. A high- and a low-pass section
in series are a band-pass.
-/

namespace AmbisonicReverb

/-- Runs a stateful function over an array, and returns its outputs and its last state. -/
@[specialize] def runOver {σ a b : Type} (step : σ → a → b × σ) (start : σ) (xs : Array a) :
    Array b × σ :=
  xs.foldl (fun (ys, s) x => let (y, s) := step s x; (ys.push y, s)) (Array.mkEmpty xs.size, start)

/-- A point of the z-plane in polar form. -/
structure PolarPoint (β : Type) where
  radius : β
  angle : β

structure Biquad (β : Type) where
  a1 : β
  a2 : β
  b0 : β
  b1 : β
  b2 : β
  z1 : β
  z2 : β

namespace Biquad

section

variable {β : Type} [Scalar β]

/-- The section that changes nothing. -/
def identity : Biquad β := ⟨0, 0, 1, 0, 0, 0, 0⟩

def reset (f : Biquad β) : Biquad β := { f with z1 := 0, z2 := 0 }

/-- Filters one value. -/
@[inline] def process (f : Biquad β) (x : β) : β × Biquad β :=
  let y := f.z1 + f.b0 * x
  (y, { f with
    z1 := Scalar.flush (f.z2 + f.b1 * x - f.a1 * y)
    z2 := Scalar.flush (f.b2 * x - f.a2 * y) })

/-- Filters a signal of the narrower scalar. -/
@[specialize] def render {α : Type} [Widening α β] (f : Biquad β) (signal : Array α) :
    Array α × Biquad β :=
  runOver (fun f x => let (y, f) := f.process (widen x); (narrow y, f)) f signal

end

variable {β : Type} [Elementary β]

/-- Sets gain, zeros and poles, each pair by one of its two points. -/
def setGainZeroPole (f : Biquad β) (gain : β) (zero pole : PolarPoint β) : Biquad β :=
  { f with
    a1 := -2.0 * pole.radius * Elementary.cos pole.angle
    a2 := pole.radius * pole.radius
    b0 := gain
    b1 := -2.0 * gain * zero.radius * Elementary.cos zero.angle
    b2 := gain * zero.radius * zero.radius }

/-- The frequency response at an angle per sample: the quotient of `b0 + b1 z⁻¹ + b2 z⁻²` and
`1 + a1 z⁻¹ + a2 z⁻²`. -/
def response (f : Biquad β) (angle : β) : Phasor β :=
  let z1 := Phasor.unit (-angle)
  let z2 := z1 * z1
  let num := Phasor.addReal f.b0 (z1.scale f.b1) + z2.scale f.b2
  let den := Phasor.addReal 1 (z1.scale f.a1) + z2.scale f.a2
  num / den

/-! ## Design -/

/-- Half a turn, the angle of the highest frequency. -/
def nyquist : β := Elementary.tau / 2.0

/-- The pole for a frequency. -/
def pole (frequency sampleRate : β) : PolarPoint β :=
  ⟨Elementary.pow 10.0 (-2.0 * frequency / sampleRate), Elementary.tau * frequency / sampleRate⟩

/-- Where a high-pass section has its zeros: frequency zero. -/
def zeroAtDC : PolarPoint β := ⟨1, 0⟩

/-- Where a low-pass section has its zeros: the highest frequency. -/
def zeroAtNyquist : PolarPoint β := ⟨1, nyquist⟩

/-- A section with the given zeros and poles and gain 1 at `angle`. -/
def normalisedAt (angle : β) (zero pole : PolarPoint β) : Biquad β :=
  let f : Biquad β := identity.setGainZeroPole 1 zero pole
  f.setGainZeroPole (1 / (f.response angle).norm) zero pole

/-- A high-pass with gain 1 at the highest frequency. -/
def highpass (cutoff sampleRate : β) : Biquad β :=
  normalisedAt nyquist zeroAtDC (pole cutoff sampleRate)

/-- A low-pass with gain 1 at frequency zero. -/
def lowpass (cutoff sampleRate : β) : Biquad β :=
  normalisedAt 0 zeroAtNyquist (pole cutoff sampleRate)

end Biquad

/-- A high-pass followed by a low-pass. -/
structure BandPass (β : Type) where
  highpass : Biquad β
  lowpass : Biquad β

namespace BandPass

section

variable {β : Type} [Scalar β]

def reset (f : BandPass β) : BandPass β := ⟨f.highpass.reset, f.lowpass.reset⟩

@[inline] def process (f : BandPass β) (x : β) : β × BandPass β :=
  let (y, highpass) := f.highpass.process x
  let (y, lowpass) := f.lowpass.process y
  (y, ⟨highpass, lowpass⟩)

/-- Filters a signal of the narrower scalar. -/
@[specialize] def render {α : Type} [Widening α β] (f : BandPass β) (signal : Array α) :
    Array α × BandPass β :=
  runOver (fun f x => let (y, f) := f.process (widen x); (narrow y, f)) f signal

end

variable {β : Type} [Elementary β]

def response (f : BandPass β) (angle : β) : Phasor β :=
  f.highpass.response angle * f.lowpass.response angle

/-- Passes the band from `low` to `high`, with gain 1 at the geometric mean of the two. -/
def between (low high sampleRate : β) : BandPass β :=
  let lowPole := Biquad.pole low sampleRate
  let highPole := Biquad.pole high sampleRate
  let f : BandPass β :=
    ⟨Biquad.identity.setGainZeroPole 1 Biquad.zeroAtDC lowPole,
      Biquad.identity.setGainZeroPole 1 Biquad.zeroAtNyquist highPole⟩
  let centre := Elementary.tau * Elementary.sqrt (low * high) / sampleRate
  let gain := 1 / (f.response centre).norm
  { f with highpass := f.highpass.setGainZeroPole gain Biquad.zeroAtDC lowPole }

/-- Passes the octave around `centre`; its upper edge stays below the highest frequency. -/
def octave (centre sampleRate : β) : BandPass β :=
  let low := centre * Elementary.sqrt 0.5
  let high := Scalar.minNum (centre * Elementary.sqrt 2.0) (0.49 * sampleRate)
  between low (Scalar.maxNum high low) sampleRate

end BandPass

end AmbisonicReverb
