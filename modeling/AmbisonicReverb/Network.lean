import AmbisonicReverb.Network.Design
import AmbisonicReverb.Network.Gain
import AmbisonicReverb.Network.Path

/-!
# Delay networks

A network of delay paths that a lossless matrix mixes.

```text
           ┌─────────────────────────────────────────┐
           │                                         │
src ──(+)──┴─→ [ M ] ─┬─→ [path 0: delay, wall, turn] ┴──→ output
                      └─→ [path n: delay, wall, turn]
```

In `Mode.feedback` the paths are tapped first, and the mixture of their outputs and the sources is
written into the delay lines. Since the matrix neither adds nor removes energy, the gain of the
reflections alone sets the decay. In `Mode.forward` the mixture of the sources is written first and
the paths are tapped afterwards, a diffuser ahead of the feedback network.
-/

namespace AmbisonicReverb

inductive Mode
  | feedback
  | forward
deriving DecidableEq, Repr

structure Network (α : Type) where
  maxDelay : Nat
  law : DelayLaw
  method : GainMethod
  mode : Mode
  /-- The rows of the mixing matrix. -/
  matrix : Array (Array α)
  /-- Two filters for the input of the whole chain. -/
  prefilters : Reflection α × Reflection α
  paths : Array (Path α)
  gain : α
  /-- The sum of all path outputs since it was last taken. -/
  output : Sample α

namespace Network

variable {α : Type}

def order (n : Network α) : Nat := n.paths.size

/-- The delay of each path. -/
def delays (n : Network α) : Array Nat := n.paths.map (·.line.length)

/-- The last output of each path, for the next stage. -/
@[inline] def outputs (n : Network α) : Array (Sample α) := n.paths.map (·.output)

/-! ## Deriving a network -/

/-- The allpass coefficient of the last path. -/
def maxEta [Scalar α] : α := 0.87

/-- The least delay bound that leaves room for a path. -/
def leastMaxDelay : Nat := 3

section

variable [Scalar α]

/-- A silent network with paths for delays up to `maxDelay`; forward stages may grow by one. -/
def new (order maxDelay : Nat) (law : DelayLaw) (method : GainMethod) (mode : Mode) :
    Except ConfigError (Network α) :=
  if order = 0 then .error .zeroOrder
  else
    let maxDelay := max maxDelay leastMaxDelay
    let capacity := match mode with
      | .feedback => maxDelay
      | .forward => maxDelay + 1
    .ok {
      maxDelay, law, method, mode
      matrix := Array.replicate order (Array.replicate order 0)
      prefilters := (Reflection.silent, Reflection.silent.setEta maxEta)
      paths := Array.replicate order (.new capacity)
      gain := 0
      output := 0 }

def setLaw (n : Network α) (law : DelayLaw) : Network α := { n with law }

/-- Silences the delay lines and the outputs. -/
def clear (n : Network α) : Network α :=
  { n with paths := n.paths.map Path.clear, output := 0 }

/-- Silences every filter as well. -/
def reset (n : Network α) : Network α :=
  { n with
    paths := n.paths.map Path.reset
    prefilters := (n.prefilters.1.reset, n.prefilters.2.reset)
    output := 0 }

end

/-- The length of a delay line for a path with delay `delay`, when the least delay is `least`.
A forward line is read after it is written and needs one cell more, unless it is truncated. -/
def lineLength (mode : Mode) (truncate : Bool) (least delay : Nat) : Nat :=
  match mode with
  | .feedback => delay
  | .forward => if truncate then delay - (least - 2) else delay + 1

section

variable {β : Type} [Elementary α] [Elementary β] [Widening α β]

/-- Derives delays, filters, rotations, gain and matrix from a design, and silences the network. -/
def derive (n : Network α) (d : NetworkDesign α) : Network α :=
  let order := n.order
  let delays := Array.ofFn fun k : Fin order => d.pathDelay n.law n.maxDelay order k.val
  let least := delays.foldl min n.maxDelay
  let sum : α := delays.foldl (fun t delay => t + Scalar.ofNat delay) 0
  let gain := n.method.gain d.shortest (sum / Scalar.ofNat order) d.decayTime
  { n with
    gain
    matrix := Circulant.matrix d.layout (Circulant.row order)
    prefilters := (n.prefilters.1.setLowpass gain d.damping,
      n.prefilters.2.setLowpass gain d.damping)
    output := 0
    paths := n.paths.mapIdx fun k p =>
      let delay := d.pathDelay n.law n.maxDelay order k
      { line := (p.line.clear.setLength delay).setLength
          (lineLength n.mode d.truncateForward least delay)
        reflection := (p.reflection.setEta (maxEta * NetworkDesign.fraction order k)).setLowpass
          gain d.damping
        rotation := d.pathRotation order k
        output := 0 } }

end

/-! ## Running a network -/

section

variable [Scalar α]

/-- The sum of the samples, each times its entry of the row. -/
@[inline] def mix (row : Array α) (samples : Array (Sample α)) : Sample α :=
  (min row.size samples.size).fold (fun j _ sum => sum + samples[j] * row[j]) 0

/-- Feeds every path with its mixture of the sources. -/
@[specialize] def feed (matrix : Array (Array α)) (sources : Array (Sample α))
    (paths : Array (Path α)) : Array (Path α) :=
  paths.mapIdx fun k p => p.push (mix (matrix.getD k #[]) sources)

/-- Taps every path and adds the outputs to the network's own. -/
@[specialize] def tap (n : Network α) : Network α :=
  let paths := n.paths.map Path.tap
  { n with paths, output := paths.foldl (fun sum p => sum + p.output) n.output }

/-- Processes one sample on each path. -/
@[specialize] def process (n : Network α) (sources : Array (Sample α)) : Network α :=
  match n.mode with
  | .feedback =>
    let n := n.tap
    let sums := Array.zipWith (· + ·) n.outputs sources
    { n with paths := feed n.matrix sums n.paths }
  | .forward => { n with paths := feed n.matrix sources n.paths }.tap

/-- Reads the accumulated output and starts a new sum. -/
@[inline] def take (n : Network α) : Sample α × Network α := (n.output, { n with output := 0 })

/-- Runs a sample through both input filters. -/
@[inline] def prefilter (n : Network α) (s : Sample α) : Sample α × Network α :=
  let (s, first) := n.prefilters.1.filter s
  let (s, second) := n.prefilters.2.filter s
  (s, { n with prefilters := (first, second) })

end

end Network

end AmbisonicReverb
