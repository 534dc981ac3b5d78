import AmbisonicReverb.Network.Gain
import AmbisonicReverb.Room

/-!
# Configurations

What a reverb is built from. `Config.check` finds the first thing that is wrong with it.
-/

namespace AmbisonicReverb

structure Config (α : Type) where
  /-- The number of paths of each network. -/
  order : Nat
  /-- The average rotation, in turns per second, and its spread. -/
  turnRate : α
  turnSpread : α
  /-- The decay time in seconds; 0 takes it from the room. -/
  decayTime : α
  damping : α
  /-- Whether the input runs through the filters of the feedback network. -/
  prefilter : Bool
  /-- The number of forward stages ahead of the feedback network. -/
  forwardStages : Nat
  absorption : α
  speedOfSound : α
  room : Room α
  /-- Whether the matrices have the fixed layout. -/
  fixedLayout : Bool
  /-- The target curve: a centre frequency and a decay time for each band. -/
  bands : Array α
  bandTimes : Array α
  /-- The number of simplex searches in each stage of a fit. -/
  fitRounds : Nat
  gainMethod : String
  /-- The edge of the input high-pass; 0 leaves it out. -/
  lowCut : α
  truncateForward : Bool
  /-- Whether delays have equal ratios. -/
  logarithmicDelays : Bool
deriving DecidableEq

namespace Config

variable {α : Type} [Scalar α]

/-- What holds where nothing else is said. The room has to be given. -/
def default : Config α where
  order := 5
  turnRate := 0
  turnSpread := 60.0
  decayTime := 0
  damping := 0.3
  prefilter := true
  forwardStages := 0
  absorption := 0.6
  speedOfSound := 340.0
  room := ⟨0, 0, 0⟩
  fixedLayout := false
  bands := #[]
  bandTimes := #[]
  fitRounds := 100
  gainMethod := GainMethod.shortest.name
  lowCut := 0
  truncateForward := false
  logarithmicDelays := true

/-- The gain method of a sound configuration, or the first fault of another. -/
def check (c : Config α) : Except ConfigError GainMethod :=
  if c.order = 0 then .error .zeroOrder
  else if c.bands.size ≠ c.bandTimes.size then
    .error (.lengthMismatch c.bands.size c.bandTimes.size)
  else do
    let method ← GainMethod.ofName c.gainMethod
    if c.room.isProper then .ok method else .error .invalidRoom

end Config

end AmbisonicReverb
