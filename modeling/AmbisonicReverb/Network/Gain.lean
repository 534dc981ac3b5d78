import AmbisonicReverb.Error
import AmbisonicReverb.Scalar

/-!
# Reflection gains

The gain of a reflection sets how fast a network decays. Three laws derive it from the time of a
pass through the network and the target decay time; `GainMethod.schroeder` is the one that loses
exactly 60 dB in the target time.
-/

namespace AmbisonicReverb

inductive GainMethod
  /-- From the shortest path. -/
  | shortest
  /-- From the mean path. -/
  | mean
  /-- From the mean path, 60 dB down after the target time. -/
  | schroeder
deriving DecidableEq, Repr, Inhabited

namespace GainMethod

def name : GainMethod → String
  | .shortest => "original"
  | .mean => "mean"
  | .schroeder => "schroeder"

def ofName : String → Except ConfigError GainMethod
  | "original" => .ok .shortest
  | "mean" => .ok .mean
  | "schroeder" => .ok .schroeder
  | other => .error (.unknownGainMethod other)

theorem ofName_name (m : GainMethod) : ofName m.name = .ok m := by cases m <;> rfl

variable {α : Type} [Elementary α]

/-- The law of each method, before it is brought into range. -/
def law (shortest average decayTime : α) : GainMethod → α
  | .shortest => Elementary.exp (-4.2 * shortest / decayTime)
  | .mean => Elementary.exp (-4.2 * average / decayTime)
  | .schroeder => Elementary.pow 10.0 (-3.0 * average / decayTime)

/-- The gain of a reflection, between 0 and 1. All times are in samples. A law without a finite
value gives gain 0. -/
def gain (m : GainMethod) (shortest average decayTime : α) : α :=
  let g := m.law shortest average decayTime
  if Scalar.isFinite g then Scalar.clamp 0 1 g else 0

end GainMethod

end AmbisonicReverb
