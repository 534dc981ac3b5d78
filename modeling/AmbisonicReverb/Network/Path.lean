import AmbisonicReverb.DelayLine
import AmbisonicReverb.Reflection

/-!
# Paths

A path models a family of wall reflections: a delay, a reflection filter and a small rotation of
the sound field. Its output stays available until the next one.
-/

namespace AmbisonicReverb

structure Path (α : Type) where
  line : DelayLine (Sample α)
  reflection : Reflection α
  rotation : Rotation α
  output : Sample α

namespace Path

variable {α : Type} [Scalar α]

/-- A silent path whose delay line has the given capacity. -/
def new (capacity : Nat) : Path α where
  line := .new capacity
  reflection := .silent
  rotation := .identity
  output := 0

def delay (p : Path α) : Nat := p.line.length

/-- Reads the delay line, filters, rotates, and keeps the result as the output. -/
@[inline] def tap (p : Path α) : Path α :=
  let (s, reflection) := p.reflection.filter p.line.read
  { p with reflection, output := s.rotate p.rotation }

/-- Feeds the delay line. -/
@[inline] def push (p : Path α) (s : Sample α) : Path α := { p with line := p.line.push s }

/-- Silences the delay line and the output. -/
def clear (p : Path α) : Path α := { p with line := p.line.clear, output := 0 }

/-- Silences the reflection filter as well. -/
def reset (p : Path α) : Path α := { p.clear with reflection := p.reflection.reset }

end Path

end AmbisonicReverb
