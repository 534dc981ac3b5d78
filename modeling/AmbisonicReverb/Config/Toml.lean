import AmbisonicReverb.Config
import AmbisonicReverb.Toml.Document

/-!
# Configurations in TOML

Each field of a configuration has a key of its own in the document, and keeps its default where the
key is missing. Other keys are ignored. A value that is not of the kind of its field makes the whole
document malformed.
-/

namespace AmbisonicReverb

namespace Toml.Value

/-- A number. An integer is rounded once, to the format of the field. -/
def binary32? : Value → Option Float32
  | .integer n => some (Float32.ofInt n)
  | .real x => some x.toFloat32
  | _ => none

def count? : Value → Option Nat
  | .integer n => if 0 ≤ n then some n.toNat else none
  | _ => none

def boolean? : Value → Option Bool
  | .boolean b => some b
  | _ => none

def text? : Value → Option String
  | .text s => some s
  | _ => none

def numbers? : Value → Option (Array Float32)
  | .array items => (items.mapM binary32?).map List.toArray
  | _ => none

/-- The first three numbers of a list. What comes after them is ignored. -/
def room? : Value → Option (Room Float32)
  | .array (x :: y :: z :: _) => do return ⟨← x.binary32?, ← y.binary32?, ← z.binary32?⟩
  | _ => none

end Toml.Value

open Toml

namespace Config

/-- The value of a key, or a default. -/
def field {α : Type} (entries : Entries) (key : String) (read? : Value → Option α) (default : α) :
    Option α :=
  match entries.lookup key with
  | none => some default
  | some v => read? v

def ofEntries? (entries : Entries) : Option (Config Float32) := do
  let d : Config Float32 := .default
  let number := fun key => field entries key Value.binary32?
  let count := fun key => field entries key Value.count?
  let boolean := fun key => field entries key Value.boolean?
  let numbers := fun key => field entries key Value.numbers?
  return {
    order := ← count "fdnorder" d.order
    turnRate := ← number "w" d.turnRate
    turnSpread := ← number "dw" d.turnSpread
    decayTime := ← number "t60" d.decayTime
    damping := ← number "damping" d.damping
    prefilter := ← boolean "prefilt" d.prefilter
    forwardStages := ← count "forwardstages" d.forwardStages
    absorption := ← number "absorption" d.absorption
    speedOfSound := ← number "c" d.speedOfSound
    room := ← field entries "volumetric" Value.room? d.room
    fixedLayout := ← boolean "fixcirculantmat" d.fixedLayout
    bands := ← numbers "vcf" d.bands
    bandTimes := ← numbers "vt60" d.bandTimes
    fitRounds := ← count "numiter" d.fitRounds
    gainMethod := ← field entries "gainmethod" Value.text? d.gainMethod
    lowCut := ← number "lowcut" d.lowCut
    truncateForward := ← boolean "truncate_forward" d.truncateForward
    logarithmicDelays := ← boolean "logdelays" d.logarithmicDelays }

/-- The configuration in a document, if the document is well-formed. -/
def ofDocument? (text : String) : Option (Config Float32) := readDocument? text >>= ofEntries?

/-- What is accepted of the configuration that was found in a document. -/
def accept : Option (Config Float32) → Except ConfigError (Config Float32)
  | none => .error .malformed
  | some c => do
    let _ ← c.check
    return c

/-- The configuration in a document, if the document is well-formed and the configuration sound. -/
def ofToml (text : String) : Except ConfigError (Config Float32) := accept (ofDocument? text)

end Config

end AmbisonicReverb
