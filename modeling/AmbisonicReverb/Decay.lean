import AmbisonicReverb.Biquad

/-!
# Decay times

The decay time of an impulse response by backward integration: `E(i)`, the energy left from sample
`i` on, falls 20 dB between the two levels of `Thresholds`, and three times that span is the time
in which it would fall by 60 dB. The time within a band is that of the response filtered to it.
-/

namespace AmbisonicReverb.Decay

/-- The stand-in for a time that the response does not show. -/
def unmeasured {α : Type} [Scalar α] : α := -1

/-- Two shares of the total energy. -/
structure Thresholds (β : Type) where
  upper : β
  lower : β

section

variable {α β : Type} [Scalar β] [Widening α β]

/-- The squared sample. -/
@[inline] def power (x : α) : β := widen x * widen x

@[specialize] def totalEnergy (response : Array α) : β :=
  response.foldl (fun sum x => sum + power x) 0

/-- The first indices at which the energy left is at most `upper` and at most `lower`. The walk
ends at the second, and its first is the earlier of the two or the same. -/
@[specialize] def crossings (levels : Thresholds β) :
    (remaining : β) → (index : Nat) → (above : Option Nat) → List α → Option (Nat × Nat)
  | _, _, _, [] => none
  | remaining, index, above, x :: rest =>
    let above := if above.isNone && remaining ≤ levels.upper then some index else above
    if remaining ≤ levels.lower then above.map (·, index)
    else crossings levels (remaining - power x) (index + 1) above rest

end

variable {α β : Type} [Elementary α] [Elementary β] [Widening α β]

/-- The shares of energy at -10.2 dB and -30.2 dB. -/
def Thresholds.standard : Thresholds β where
  upper := Elementary.pow 10.0 (widen (-10.2 : α) / 10.0)
  lower := Elementary.pow 10.0 (widen (-30.2 : α) / 10.0)

/-- The decay time in seconds. It is `unmeasured` when the response is silent or has no finite
energy, or when it does not reach both levels before its last sample. -/
@[specialize] def time (response : Array α) (sampleRate : α) : α :=
  let total : β := totalEnergy response
  if total ≤ 0 ∨ ¬ Scalar.isFinite total then unmeasured
  else
    let shares : Thresholds β := Thresholds.standard (α := α)
    match crossings ⟨total * shares.upper, total * shares.lower⟩ total 0 none response.toList with
    | some (a, b) => 3.0 * Scalar.ofNat (b - a) / sampleRate
    | none => unmeasured

/-- How often a response passes the filter of a band. -/
def bandPasses : Nat := 4

/-- The response confined to the octave around `centre`. -/
@[specialize] def bandLimited (response : Array α) (centre sampleRate : α) : Array α :=
  let band : BandPass β := BandPass.octave (widen centre) (widen sampleRate)
  bandPasses.repeat (fun r => (band.render r).1) response

/-- The decay time within the octave around `centre`. -/
def bandTime (response : Array α) (centre sampleRate : α) : α :=
  time (bandLimited response centre sampleRate) sampleRate

end AmbisonicReverb.Decay
