/-!
# Configuration errors

What can be wrong with a configuration, or with the moment at which an operation is asked for, and
how each cause is worded.
-/

namespace AmbisonicReverb

inductive ConfigError
  /-- The target curve has different numbers of bands and times. -/
  | lengthMismatch (bands times : Nat)
  | unknownGainMethod (name : String)
  /-- A network needs at least one path. -/
  | zeroOrder
  | invalidRoom
  | invalidSampleRate
  | notConfigured
  | emptyTargetCurve
  /-- The text of the configuration is malformed. -/
  | malformed
deriving DecidableEq, Repr

def ConfigError.message : ConfigError → String
  | .lengthMismatch bands times =>
    "vcf and vt60 length mismatch (" ++ toString bands ++ " vs " ++ toString times ++ ")"
  | .unknownGainMethod name =>
    "invalid gainmethod \"" ++ name ++ "\" (expected original, mean or schroeder)"
  | .zeroOrder => "fdnorder must be at least 1"
  | .invalidRoom => "volumetric must be the room size in metres, all dimensions positive"
  | .invalidSampleRate => "sample rate must be positive and finite"
  | .notConfigured => "reverb is not configured"
  | .emptyTargetCurve => "vcf and vt60 must not be empty for fitting"
  | .malformed => "invalid configuration"

end AmbisonicReverb
