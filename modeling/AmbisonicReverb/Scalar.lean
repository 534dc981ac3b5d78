/-!
# Scalars

Every algorithm of the library is written once, over the operations of a number type, and does not
name the type it runs on. Signals run on binary32 numbers and the filters of the analysis on
binary64 ones (`Scalar.Binary`); an exact reading of the same definitions takes a type with exact
operations instead. The classes hold operations only. Laws belong to the type that has them.

* `Scalar`: arithmetic, order, and the magnitude below which signals are flushed to zero.
* `Elementary`: the elementary functions, and conversions to counts.
* `Widening`: a narrow scalar beside the wider one used for its filters.
-/

namespace AmbisonicReverb

/-- Ordered arithmetic, as far as the signal path needs it. -/
class Scalar (α : Type) extends
    Zero α, One α, Add α, Sub α, Mul α, Div α, Neg α, LT α, LE α, OfScientific α where
  decLT : DecidableLT α
  decLE : DecidableLE α
  /-- Smaller magnitudes than this one are replaced by zero. -/
  tiny : α
  isFinite : α → Bool
  ofNat : Nat → α

/-- The elementary functions, and the counts next to a scalar. -/
class Elementary (α : Type) extends Scalar α where
  /-- The angle of a full turn. -/
  tau : α
  sqrt : α → α
  cubeRoot : α → α
  exp : α → α
  /-- The natural logarithm. -/
  log : α → α
  pow : α → α → α
  cos : α → α
  sin : α → α
  /-- The nearest count, a half going up. What has no count is 0. -/
  roundToNat : α → Nat
  /-- The count below. What has no count is 0. -/
  truncToNat : α → Nat

/-- Signals are held in `α`, and filters that need more precision run in `β`. -/
class Widening (α : Type) (β : outParam Type) where
  widen : α → β
  narrow : β → α

export Widening (widen narrow)

namespace Scalar

variable {α : Type} [Scalar α]

@[inline] instance : DecidableLT α := decLT

@[inline] instance : DecidableLE α := decLE

/-- A magnitude below `tiny` becomes an exact zero; what has no order stays. -/
@[inline] def flush (x : α) : α :=
  if -tiny < x ∧ x < tiny then 0 else x

@[inline] def abs (x : α) : α := if x < 0 then -x else x

/-- A number that is not even equal to itself. -/
@[inline] def isNaN (x : α) : Bool := !decide (x ≤ x)

/-- Equality as the order sees it: zeros of both signs agree, and NaN agrees with nothing. -/
@[inline] def agrees (x y : α) : Bool := decide (x ≤ y) && decide (y ≤ x)

/-- The larger of two, ignoring NaN. -/
@[inline] def maxNum (x y : α) : α := if x < y ∨ isNaN x then y else x

/-- The smaller of two, ignoring NaN. -/
@[inline] def minNum (x y : α) : α := if y < x ∨ isNaN x then y else x

/-- The nearest value between `lo` and `hi`; NaN stays. -/
@[inline] def clamp (lo hi x : α) : α := if x < lo then lo else if hi < x then hi else x

end Scalar

end AmbisonicReverb
