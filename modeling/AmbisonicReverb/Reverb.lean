import AmbisonicReverb.Block
import AmbisonicReverb.Control
import AmbisonicReverb.Decay
import AmbisonicReverb.Engine

/-!
# Reverbs

The reverb of one receiver. Sources are added to an input block; once per fragment the block runs
through the engine, is added to an output block, and is cleared. Parameters are published as a
whole and the networks derived from them, and decay times are measured on the engine itself.

While somebody else holds the engine the reverb is `busy`. Audio is then dropped and nothing is
measured, but nobody waits; `whileUpdating` runs an action at that moment of an update.
-/

namespace AmbisonicReverb

/-- The largest fragment that a host asks for. -/
def maxBlockSize : Nat := 2048

structure Reverb (α β : Type) where
  config : Config α
  method : GainMethod
  parameters : Parameters α
  engine : Option (Engine α β)
  input : Block α
  busy : Bool

namespace Reverb

variable {α β : Type}

/-- The engine, unless it is held. -/
@[inline] def engine? (r : Reverb α β) : Option (Engine α β) :=
  if r.busy then none else r.engine

def isConfigured (r : Reverb α β) : Bool := r.engine.isSome

/-- The length of the longest response that can be measured. -/
def capacity? (r : Reverb α β) : Option Nat := r.engine.map (·.capacity)

def sampleRate? (r : Reverb α β) : Option α := r.engine.map (·.sampleRate)

/-! ## Building and configuring -/

section

variable [Elementary α] [Elementary β] [Widening α β]

/-- A reverb for a sound configuration, not yet configured for a sample rate. -/
def new (c : Config α) : Except ConfigError (Reverb α β) := do
  let method ← c.check
  return {
    config := c
    method
    parameters := .ofConfig c
    engine := none
    input := .silent 0
    busy := false }

/-- Builds the engine for a sample rate and an input block for fragments of `fragment` samples. -/
def configure (r : Reverb α β) (sampleRate : α) (fragment : Nat) :
    Except ConfigError (Reverb α β) := do
  if Scalar.isFinite sampleRate ∧ 1 ≤ sampleRate then
    let engine ← Engine.new r.config r.method sampleRate r.parameters
    return { r with engine := some engine, input := .silent fragment }
  else throw .invalidSampleRate

/-! ## Parameters -/

/-- Derives the networks from the published parameters again. -/
def rederive (r : Reverb α β) : Reverb α β :=
  { r with engine := r.engine.map (·.derive r.parameters) }

/-- Publishes revised parameters and derives the networks from them. -/
def update (r : Reverb α β) (revise : Parameters α → Parameters α) : Reverb α β :=
  { r with parameters := revise r.parameters }.rederive

/-- An update that takes its time: the engine is held while the action runs. -/
def whileUpdating {γ : Type} (r : Reverb α β) (action : Reverb α β → γ × Reverb α β)
    (revise : Parameters α → Parameters α) : γ × Reverb α β :=
  let (answer, held) := action { r with busy := true }
  (answer, { held with busy := r.busy }.update revise)

def apply (r : Reverb α β) (m : ControlMessage α) : Reverb α β := r.update m.revise

/-- Applies all waiting messages, and says how many there were. -/
def applyAll (r : Reverb α β) (queue : List (ControlMessage α)) : Nat × Reverb α β :=
  queue.foldl (fun (count, r) m => (count + 1, r.apply m)) (0, r)

/-! ## Audio -/

/-- The gains with which a point source in some direction is encoded: 3 dB less on W, and the unit
direction. A source without direction is heard on W alone. -/
def encoding (direction : Direction α) : Sample α :=
  let length := direction.norm
  let unit := if 0 < length then direction.map (· / length) else ⟨0, 0, 0⟩
  .ofDirection (Elementary.sqrt 0.5) unit

/-- Encodes a chunk into the input block. The gains of the source move in equal steps, one for each
sample of the chunk, from their last values to those of the direction. Also returns the gains. -/
def addPointSource (r : Reverb α β) (direction : Direction α) (chunk : Array α) (gains : Sample α) :
    Sample α × Reverb α β :=
  let share : α := 1 / Scalar.ofNat (max chunk.size 1)
  let step := (encoding direction - gains) * share
  let (samples, gains) := runOver (fun gains v => ((gains + step) * v, gains + step)) gains chunk
  (gains, { r with input := r.input.mix ⟨samples⟩ })

/-- Adds an ambisonic chunk to the input block. -/
def addDiffuse (r : Reverb α β) (chunk : Block α) : Reverb α β :=
  { r with input := r.input.mix chunk }

/-- Runs the input block through the engine and adds the result to the output block. The input
block is clear afterwards, also when the engine is held and the fragment is lost. -/
@[specialize] def process (r : Reverb α β) (output : Block α) : Block α × Reverb α β :=
  match r.engine? with
  | none => (output, { r with input := r.input.clear })
  | some e =>
    let (samples, e) := runOver Engine.step e (r.input.samples.take output.size)
    (output.mix ⟨samples⟩, { r with engine := some e, input := r.input.clear })

/-! ## Measuring -/

/-- The first samples of the impulse response. -/
@[specialize] def impulseResponse (r : Reverb α β) (length : Nat) :
    Option (Array α) × Reverb α β :=
  match r.engine? with
  | none => (none, r)
  | some e =>
    let (response, e) := e.impulseResponse length
    (some response, { r with engine := some e })

/-- The impulse response, long enough for the target decay as far as it can be measured, and what
an analysis makes of it at the sample rate. -/
@[specialize] def measure {γ : Type} (r : Reverb α β) (analyse : Array α → α → γ) :
    Option γ × Reverb α β :=
  match r.engine? with
  | none => (none, r)
  | some e =>
    let length := min (r.parameters.responseLength e.sampleRate) e.capacity
    let (response, e) := e.impulseResponse length
    (some (analyse response e.sampleRate), { r with engine := some e })

/-- The decay time in the octave around each centre. -/
@[specialize] def bandTimes (r : Reverb α β) (centres : Array α) :
    Option (Array α) × Reverb α β :=
  r.measure fun response sampleRate =>
    centres.map fun centre => Decay.bandTime response centre sampleRate

/-- The decay time over all frequencies. -/
@[specialize] def broadbandTime (r : Reverb α β) : Option α × Reverb α β :=
  r.measure Decay.time

end

end Reverb

end AmbisonicReverb
