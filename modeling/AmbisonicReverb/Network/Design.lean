import AmbisonicReverb.Circulant
import AmbisonicReverb.Rotation

/-!
# Network designs

What a network is derived from, and the two quantities that differ from path to path: the delay,
spread between the shortest and the longest time, and the rotation of the sound field.
-/

namespace AmbisonicReverb

/-- What a network is derived from. Times are in samples and angles in radians. -/
structure NetworkDesign (α : Type) where
  /-- The average rotation of a reflection. -/
  turn : α
  /-- The spread of the rotations. -/
  spread : α
  shortest : α
  longest : α
  decayTime : α
  damping : α
  layout : Circulant.Layout
  /-- Shift the delays of a forward stage so that the least is two samples. -/
  truncateForward : Bool
deriving DecidableEq

/-- How delays are spaced between the shortest and the longest. -/
inductive DelayLaw
  /-- Equal ratios. -/
  | geometric
  /-- Growing with the square root of the index. -/
  | squareRoot
deriving DecidableEq, Repr

def DelayLaw.ofLogarithmic (logarithmic : Bool) : DelayLaw :=
  if logarithmic then .geometric else .squareRoot

def DelayLaw.isLogarithmic : DelayLaw → Bool
  | .geometric => true
  | .squareRoot => false

namespace NetworkDesign

variable {α : Type} [Elementary α]

/-- Where path `k` stands between the first, at 0, and the last, at 1. -/
def fraction (order k : Nat) : α :=
  if 1 < order then Scalar.ofNat k / (Scalar.ofNat order - 1) else 0

/-- The time of path `k`, before it becomes a delay. A single path takes the shortest. -/
def pathTime (d : NetworkDesign α) (law : DelayLaw) (order k : Nat) : α :=
  if order = 1 then d.shortest
  else match law with
    | .geometric => d.shortest * Elementary.pow (d.longest / d.shortest) (fraction order k)
    | .squareRoot => d.shortest + (d.longest - d.shortest) * Elementary.sqrt (fraction order k)

/-- The delay of path `k`, at least 2 and less than `maxDelay`. -/
def pathDelay (d : NetworkDesign α) (law : DelayLaw) (maxDelay order k : Nat) : Nat :=
  max 2 (min (Elementary.roundToNat (d.pathTime law order k)) (maxDelay - 1))

/-- The rotation of path `k`: about x by its roll, then about y by its tilt, to one side on even
paths and to the other on odd ones, then about z by its share of the turn. -/
def pathRotation (d : NetworkDesign α) (order k : Nat) : Rotation α :=
  let turn :=
    if 1 < order then
      d.turn - d.spread + 2.0 * d.spread * Scalar.ofNat k / Scalar.ofNat order
    else d.turn
  let tilt := if k % 2 = 1 then 0.5 * d.spread else -0.5 * d.spread
  let roll := 0.125 * d.spread * Scalar.ofNat (k % 3) - 0.25 * d.spread
  ((Rotation.aboutZ turn).comp (Rotation.aboutY tilt)).comp (Rotation.aboutX roll)

end NetworkDesign

end AmbisonicReverb
