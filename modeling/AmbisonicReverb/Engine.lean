import AmbisonicReverb.Biquad
import AmbisonicReverb.Network
import AmbisonicReverb.Parameters

/-!
# Engines

The signal path of a configured reverb: an optional high-pass and an optional pair of filters for
the input, a chain of forward networks, and the feedback network whose output is the reverberation.
An engine also knows how many samples of its impulse response can be measured.
-/

namespace AmbisonicReverb

structure Engine (α β : Type) where
  sampleRate : α
  usesPrefilter : Bool
  forward : List (Network α)
  feedback : Network α
  /-- A high-pass for each channel. -/
  lowCut : Option (Sample (Biquad β))
  /-- The gain of the input. -/
  inputGain : α
  /-- The length of the longest response that can be measured. -/
  capacity : Nat

namespace Engine

variable {α β : Type}

section

variable [Elementary α] [Elementary β] [Widening α β]

/-- Derives every network from the parameters, and silences it. -/
def derive (e : Engine α β) (p : Parameters α) : Engine α β :=
  let design := p.design e.sampleRate
  { e with
    inputGain := p.room.inputGain
    forward := e.forward.map fun n => (n.setLaw p.law).derive design
    feedback := (e.feedback.setLaw p.law).derive design }

/-- The longest of the given times. -/
def longestTime (times : Array α) : α := times.foldl Scalar.maxNum 0

/-- An engine for a configuration, derived from the parameters. Delays reach up to a second. -/
def new (c : Config α) (method : GainMethod) (sampleRate : α) (p : Parameters α) :
    Except ConfigError (Engine α β) := do
  let maxDelay := Elementary.truncToNat sampleRate
  let stage ← Network.new c.order maxDelay p.law method .forward
  let feedback ← Network.new c.order maxDelay p.law method .feedback
  let highpass : Biquad β := Biquad.highpass (widen c.lowCut) (widen sampleRate)
  let engine : Engine α β := {
    sampleRate
    usesPrefilter := c.prefilter
    forward := List.replicate c.forwardStages stage
    feedback
    lowCut := if 0 < c.lowCut then some ⟨highpass, highpass, highpass, highpass⟩ else none
    inputGain := 1
    capacity := max (p.responseLength sampleRate)
      (p.responseLengthFor sampleRate (longestTime c.bandTimes)) }
  return engine.derive p

end

variable [Scalar α] [Scalar β] [Widening α β]

/-- Silences the networks and the high-pass. -/
def reset (e : Engine α β) : Engine α β :=
  { e with
    forward := e.forward.map Network.reset
    feedback := e.feedback.reset
    lowCut := e.lowCut.map fun f => ⟨f.w.reset, f.x.reset, f.y.reset, f.z.reset⟩ }

/-- Runs a sample through the high-pass. -/
@[specialize] def applyLowCut (e : Engine α β) (s : Sample α) : Sample α × Engine α β :=
  match e.lowCut with
  | none => (s, e)
  | some f =>
    let (a, fw) := f.w.process (widen s.w)
    let (b, fx) := f.x.process (widen s.x)
    let (c, fy) := f.y.process (widen s.y)
    let (d, fz) := f.z.process (widen s.z)
    (⟨narrow a, narrow b, narrow c, narrow d⟩, { e with lowCut := some ⟨fw, fx, fy, fz⟩ })

/-- Runs the forward stages one after the other; the outputs of each are the sources of the next.
What a stage adds up itself is not used. -/
@[specialize] def runForward :
    List (Network α) → Array (Sample α) → Array (Sample α) × List (Network α)
  | [], sources => (sources, [])
  | n :: rest, sources =>
    let n := n.process sources
    let (out, rest) := runForward rest n.outputs
    (out, { n with output := 0 } :: rest)

/-- Runs one sample through the chain. An output that is not finite is replaced by silence. -/
@[specialize] def tick (e : Engine α β) (s : Sample α) : Sample α × Engine α β :=
  let (s, feedback) := if e.usesPrefilter then e.feedback.prefilter s else (s, e.feedback)
  let (sources, forward) := runForward e.forward (Array.replicate feedback.order s)
  let (out, feedback) := (feedback.process sources).take
  (if out.isFinite then out else 0, { e with forward, feedback })

/-- The pressure that a unit impulse of pressure causes, without input gain and high-pass. The
engine is silent before and after. -/
@[specialize] def impulseResponse (e : Engine α β) (length : Nat) :
    Array α × Engine α β :=
  let (out, e) := length.fold (fun i _ (out, e) =>
    let (s, e) := e.tick (if i = 0 then .pressure 1 else 0)
    (out.push s.w, e)) (Array.mkEmpty length, e.reset)
  (out, e.reset)

/-- Runs one input sample through gain, high-pass and chain. -/
@[specialize] def step (e : Engine α β) (s : Sample α) : Sample α × Engine α β :=
  let (s, e) := e.applyLowCut (s * e.inputGain)
  e.tick s

end Engine

end AmbisonicReverb
