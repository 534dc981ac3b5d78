import AmbisonicReverb.Config
import AmbisonicReverb.Network.Design

/-!
# Parameters

The parameters from which the networks of a running reverb are derived. They are replaced as a
whole, so that whoever reads them sees one consistent set.
-/

namespace AmbisonicReverb

structure Parameters (α : Type) where
  room : Room α
  absorption : α
  damping : α
  /-- In seconds; 0 or less takes it from the room. -/
  decayTime : α
  speedOfSound : α
  turnRate : α
  turnSpread : α
  layout : Circulant.Layout
  law : DelayLaw
  truncateForward : Bool
deriving DecidableEq

namespace Parameters

variable {α : Type}

def ofConfig (c : Config α) : Parameters α where
  room := c.room
  absorption := c.absorption
  damping := c.damping
  decayTime := c.decayTime
  speedOfSound := c.speedOfSound
  turnRate := c.turnRate
  turnSpread := c.turnSpread
  layout := .ofFixed c.fixedLayout
  law := .ofLogarithmic c.logarithmicDelays
  truncateForward := c.truncateForward

section

variable [Scalar α]

/-- The time to cross the shortest dimension, in seconds. -/
def shortestTime (p : Parameters α) : α := p.room.shortest / p.speedOfSound

/-- The time to cross the longest dimension, in seconds. -/
def longestTime (p : Parameters α) : α := p.room.longest / p.speedOfSound

/-- The decay time to reach, in seconds. -/
def targetTime (p : Parameters α) : α :=
  if 0 < p.decayTime then p.decayTime else p.room.sabineTime p.absorption

/-- The largest damping of a network. -/
def maxDamping : α := 0.999

/-- The damping in the range of a stable lowpass; NaN becomes 0. -/
def stableDamping (p : Parameters α) : α :=
  if Scalar.isNaN p.damping then 0 else Scalar.clamp 0 maxDamping p.damping

/-- The longest impulse response, in seconds. -/
def maxResponseSeconds : α := 20.0

end

variable [Elementary α]

/-- The design of the networks at a sample rate. A turn takes place in one crossing of the
shortest dimension. -/
def design (p : Parameters α) (sampleRate : α) : NetworkDesign α where
  turn := Elementary.tau * p.shortestTime * p.turnRate
  spread := Elementary.tau * p.shortestTime * p.turnSpread
  shortest := sampleRate * p.shortestTime
  longest := sampleRate * p.longestTime
  decayTime := sampleRate * p.targetTime
  damping := p.stableDamping
  layout := p.layout
  truncateForward := p.truncateForward

/-- How many samples show a decay of `seconds`: a second at least, ten crossings of the longest
dimension and twice the decay, and 20 seconds at most. -/
def responseLengthFor (p : Parameters α) (sampleRate seconds : α) : Nat :=
  let seconds := Scalar.maxNum (Scalar.maxNum 1 (10.0 * p.longestTime)) (2.0 * seconds)
  let length := Scalar.minNum seconds maxResponseSeconds * sampleRate
  if Scalar.isFinite length then Elementary.roundToNat length else Elementary.truncToNat sampleRate

/-- The length of the impulse response that shows the target decay. -/
def responseLength (p : Parameters α) (sampleRate : α) : Nat :=
  p.responseLengthFor sampleRate p.targetTime

end Parameters

end AmbisonicReverb
