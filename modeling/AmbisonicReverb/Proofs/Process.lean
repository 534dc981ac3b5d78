import AmbisonicReverb.Network
import AmbisonicReverb.Proofs.Delay

/-!
# One sample through a network

Both modes of a network do the same with each path, up to the order of two moves: feedback networks
tap a path and then push into its line, forward networks push first. `Path.step` is that move, and
`process_paths` says that a network makes it on every path, with `Network.fed` as the value that is
pushed. What `Path.step` reads is `Path.arrival`.

`Network.run` is the network after some number of samples. Its paths run on what is fed to them
(`getElem?_run_paths`): a path whose line was silent delays that by `Path.latency`, filters it from
the state it had at first, and turns it (`run_arrival`, `run_output`).
-/

namespace AmbisonicReverb

variable {α : Type} [Scalar α]

namespace Reflection

/-- The filter after the inputs `v 0`, …, `v (t - 1)`. -/
def after (f : Reflection α) (v : Nat → Sample α) : Nat → Reflection α
  | 0 => f
  | t + 1 => ((after f v t).filter (v t)).2

/-- The output of the filter at each step. -/
def response (f : Reflection α) (v : Nat → Sample α) (t : Nat) : Sample α :=
  ((f.after v t).filter (v t)).1

end Reflection

namespace Path

/-- What the path takes out of its delay line when `s` is fed. -/
def arrival (m : Mode) (p : Path α) (s : Sample α) : Sample α :=
  match m with
  | .feedback => p.line.read
  | .forward => (p.line.push s).read

/-- The move of a path in one step of a network. -/
def step (m : Mode) (p : Path α) (s : Sample α) : Path α :=
  match m with
  | .feedback => p.tap.push s
  | .forward => (p.push s).tap

theorem step_eq (m : Mode) (p : Path α) (s : Sample α) :
    p.step m s =
      { line := p.line.push s
        reflection := (p.reflection.filter (p.arrival m s)).2
        rotation := p.rotation
        output := (p.reflection.filter (p.arrival m s)).1.rotate p.rotation } := by
  cases m <;> rfl

/-- The path after it was fed `f 0`, …, `f (t - 1)`. -/
def run (m : Mode) (p : Path α) (f : Nat → Sample α) : Nat → Path α
  | 0 => p
  | t + 1 => (run m p f t).step m (f t)

/-- The steps that pass until what is fed to a path arrives. A forward path is fed first and read
afterwards, and is one step faster. -/
def latency (m : Mode) (p : Path α) : Nat :=
  match m with
  | .feedback => p.line.length
  | .forward => p.line.length - 1

section

variable (m : Mode) (p : Path α) (f : Nat → Sample α)

theorem run_line (t : Nat) : (p.run m f t).line = p.line.pushes f t := by
  induction t with
  | zero => rfl
  | succ t ih =>
    show ((p.run m f t).step m (f t)).line = _
    rw [step_eq]
    show (p.run m f t).line.push (f t) = (p.line.pushes f t).push (f t)
    rw [ih]

theorem run_rotation (t : Nat) : (p.run m f t).rotation = p.rotation := by
  induction t with
  | zero => rfl
  | succ t ih =>
    show ((p.run m f t).step m (f t)).rotation = _
    rw [step_eq, ih]

/-- What arrives at step `t` of the run. -/
def arrivals (t : Nat) : Sample α := (p.run m f t).arrival m (f t)

theorem run_reflection (t : Nat) :
    (p.run m f t).reflection = p.reflection.after (p.arrivals m f) t := by
  induction t with
  | zero => rfl
  | succ t ih =>
    show ((p.run m f t).step m (f t)).reflection = _
    rw [step_eq, ih]
    rfl

theorem run_output (t : Nat) :
    (p.run m f (t + 1)).output = (p.reflection.response (p.arrivals m f) t).rotate p.rotation := by
  show ((p.run m f t).step m (f t)).output = _
  rw [step_eq, run_reflection, run_rotation]
  rfl

/-- What is fed to a path with a silent line arrives after the latency, and nothing else does. -/
theorem run_arrival (hin : p.line.Inside) (hsilent : ∀ i < p.line.length, p.line.ahead i = 0)
    (t : Nat) :
    p.arrivals m f t = if t < p.latency m then 0 else f (t - p.latency m) := by
  have h2 := p.line.two_le_length
  cases m with
  | feedback =>
    show (p.run .feedback f t).line.read = _
    rw [run_line, DelayLine.read_pushes hin]
    show _ = if t < p.line.length then 0 else f (t - p.line.length)
    split_ifs with ht
    · exact hsilent t ht
    · rfl
  | forward =>
    show ((p.run .forward f t).line.push (f t)).read = _
    rw [run_line]
    show (p.line.pushes f (t + 1)).read = if t < p.line.length - 1 then 0 else
      f (t - (p.line.length - 1))
    rw [DelayLine.read_pushes hin]
    split_ifs with ht ht' ht'
    · exact hsilent (t + 1) ht
    · omega
    · omega
    · rw [show t + 1 - p.line.length = t - (p.line.length - 1) by omega]

end

end Path

namespace Network

/-- What is written into the delay line of path `k`. -/
def fed (n : Network α) (sources : Array (Sample α)) (k : Nat) : Sample α :=
  match n.mode with
  | .feedback => mix (n.matrix.getD k #[]) (Array.zipWith (· + ·) n.tap.outputs sources)
  | .forward => mix (n.matrix.getD k #[]) sources

variable (n : Network α) (sources : Array (Sample α))

theorem process_mode : (n.process sources).mode = n.mode := by
  cases hm : n.mode <;> simp [process, hm, tap]

theorem process_matrix : (n.process sources).matrix = n.matrix := by
  cases hm : n.mode <;> simp [process, hm, tap]

theorem process_paths :
    (n.process sources).paths = n.paths.mapIdx fun k p => p.step n.mode (n.fed sources k) := by
  refine Array.ext_getElem? fun k => ?_
  cases hm : n.mode <;>
    simp only [process, hm, feed, fed, tap, Array.getElem?_mapIdx, Array.getElem?_map,
      Option.map_map] <;> rfl

theorem getElem?_process_paths (k : Nat) :
    (n.process sources).paths[k]? = n.paths[k]?.map fun p => p.step n.mode (n.fed sources k) := by
  rw [process_paths, Array.getElem?_mapIdx]

/-- Feeding a path leaves its output alone. -/
theorem outputs_process_of_feedback (hm : n.mode = .feedback) :
    (n.process sources).outputs = n.tap.outputs := by
  refine Array.ext_getElem? fun k => ?_
  simp only [outputs, tap, Array.getElem?_map, getElem?_process_paths, hm, Option.map_map]
  rfl

theorem tap_output : n.tap.output = n.tap.outputs.foldl (fun sum d => sum + d) n.output := by
  rw [outputs, Array.foldl_map]
  rfl

/-- A step adds the new outputs, path after path, to the output of the network. -/
theorem process_output :
    (n.process sources).output =
      (n.process sources).outputs.foldl (fun sum d => sum + d) n.output := by
  cases hm : n.mode with
  | feedback =>
    rw [outputs_process_of_feedback n sources hm, ← tap_output]
    simp only [process, hm]
  | forward =>
    simp only [process, hm]
    exact tap_output _

/-! ## Runs -/

/-- The network after the samples `src 0`, …, `src (t - 1)`. -/
def run (n : Network α) (src : Nat → Array (Sample α)) : Nat → Network α
  | 0 => n
  | t + 1 => (run n src t).process (src t)

section

variable (src : Nat → Array (Sample α))

theorem run_mode (t : Nat) : (n.run src t).mode = n.mode := by
  induction t with
  | zero => rfl
  | succ t ih => exact (process_mode _ _).trans ih

theorem run_matrix (t : Nat) : (n.run src t).matrix = n.matrix := by
  induction t with
  | zero => rfl
  | succ t ih => exact (process_matrix _ _).trans ih

/-- What is fed to path `k` at step `t` of the run. -/
def feeds (k t : Nat) : Sample α := (n.run src t).fed (src t) k

theorem getElem?_run_paths (k t : Nat) :
    (n.run src t).paths[k]? = n.paths[k]?.map fun p => p.run n.mode (n.feeds src k) t := by
  induction t with
  | zero => exact Option.map_id'.symm
  | succ t ih =>
    show ((n.run src t).process (src t)).paths[k]? = _
    rw [getElem?_process_paths, ih, run_mode, Option.map_map]
    rfl

theorem size_run_paths (t : Nat) : (n.run src t).paths.size = n.paths.size := by
  induction t with
  | zero => rfl
  | succ t ih =>
    show ((n.run src t).process (src t)).paths.size = _
    rw [process_paths, Array.size_mapIdx, ih]

end

end Network

end AmbisonicReverb
