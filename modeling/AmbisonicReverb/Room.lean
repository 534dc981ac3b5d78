import AmbisonicReverb.Scalar

/-!
# Rooms

A room is a box, with its dimensions in metres. Sabine's law gives its decay time from the volume
and the absorption of its surface.
-/

namespace AmbisonicReverb

structure Room (α : Type) where
  x : α
  y : α
  z : α
deriving DecidableEq

namespace Room

variable {α : Type} [Scalar α]

def volume (r : Room α) : α := r.x * r.y * r.z

/-- The area of walls, floor and ceiling. -/
def area (r : Room α) : α := 2.0 * (r.x * r.y + r.y * r.z + r.x * r.z)

def shortest (r : Room α) : α := Scalar.minNum (Scalar.minNum r.x r.y) r.z

def longest (r : Room α) : α := Scalar.maxNum (Scalar.maxNum r.x r.y) r.z

/-- All dimensions are positive and finite. -/
def isProper (r : Room α) : Bool :=
  let positive (d : α) : Bool := Scalar.isFinite d && decide (0 < d)
  positive r.x && positive r.y && positive r.z

/-- Sabine's constant, in seconds per metre. -/
def sabineConstant : α := 0.161

/-- The least absorption for which Sabine's law is used. -/
def leastAbsorption : α := 1.0e-4

/-- Sabine's decay time in seconds. A room without surface has none. -/
def sabineTime (r : Room α) (absorption : α) : α :=
  if r.area ≤ 0 then 0
  else sabineConstant * r.volume / (Scalar.maxNum absorption leastAbsorption * r.area)

/-- The level at which a room of this volume takes its input. -/
def inputGain {α : Type} [Elementary α] (r : Room α) : α :=
  if 0 < r.volume then 1 / (0.5 * Elementary.cubeRoot r.volume) else 1

end Room

end AmbisonicReverb
