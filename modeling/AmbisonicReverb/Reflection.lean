import AmbisonicReverb.Sample

/-!
# Reflections

A wall absorbs part of a sound, more of it at high frequencies, and a recursive lowpass models
this: `y[n] = b1 * x[n] - a2 * y[n-1]` with `b1 = g * (1 - c)` and `a2 = -c` has gain `g` at
frequency zero, and the damping `c` sets how fast the gain falls above. An allpass
`y[n] = eta * x[n] + x[n-1] - eta * y[n-1]` follows, which keeps all magnitudes and disperses the
phase. All four channels have the same coefficients. The output of both sections is flushed, so a
decaying tail ends in exact zeros.
-/

namespace AmbisonicReverb

structure Reflection (α : Type) where
  b1 : α
  a2 : α
  eta : α
  /-- The last output of the lowpass. -/
  lowpass : Sample α
  /-- The last input and output of the allpass. -/
  allpassIn : Sample α
  allpassOut : Sample α

namespace Reflection

variable {α : Type} [Scalar α]

/-- A filter that lets nothing pass. -/
def silent : Reflection α where
  b1 := 0
  a2 := 0
  eta := 0
  lowpass := 0
  allpassIn := 0
  allpassOut := 0

/-- Forgets the signal. -/
def reset (f : Reflection α) : Reflection α :=
  { f with lowpass := 0, allpassIn := 0, allpassOut := 0 }

/-- Sets gain and damping, and forgets the signal. -/
def setLowpass (f : Reflection α) (gain damping : α) : Reflection α :=
  { f.reset with b1 := gain * (1 - damping), a2 := -damping }

def setEta (f : Reflection α) (eta : α) : Reflection α := { f with eta }

/-- Filters one sample. -/
@[inline] def filter (f : Reflection α) (s : Sample α) : Sample α × Reflection α :=
  let low := (s * f.b1 - f.lowpass * f.a2).flush
  let out := (low * f.eta + f.allpassIn - f.allpassOut * f.eta).flush
  (out, { f with lowpass := low, allpassIn := low, allpassOut := out })

end Reflection

end AmbisonicReverb
