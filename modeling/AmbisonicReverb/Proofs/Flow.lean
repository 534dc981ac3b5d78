import AmbisonicReverb.Proofs.Derive
import AmbisonicReverb.Proofs.Sums
import AmbisonicReverb.Scalar.Binary

/-!
# Networks solve their signal-flow equations

A network is drawn as a diagram of sums, delays, filters and rotations, and the diagram stands for
a system of equations between signals: what is fed to path `k` is the mixture `Network.inflow`, it
arrives after the latency of the path (`Network.arriving`), and the output of the path is what
arrived, filtered from silence and turned.

`follows_derive_new` says that the run of a network is a solution of this system. It holds for every
scalar, so sums are taken in the order in which the network takes them.
-/

namespace AmbisonicReverb

section

variable {α : Type} [Scalar α]

/-- The sum `0 + term 0 + … + term (m - 1)`, from left to right. -/
def sumTo (m : Nat) (term : Nat → Sample α) : Sample α :=
  (List.range m).foldl (fun sum j => sum + term j) 0

theorem sumTo_congr {m : Nat} {f g : Nat → Sample α} (h : ∀ j < m, f j = g j) :
    sumTo m f = sumTo m g :=
  List.foldl_ext _ _ 0 fun sum j hj => by rw [h j (List.mem_range.mp hj)]

namespace Network

/-- The entry of the mixing matrix in row `k` and column `j`. -/
def entry (n : Network α) (k j : Nat) : α := (n.matrix.getD k #[]).getD j 0

/-- The mixture that is fed to path `k` at step `t`, when `d` are the outputs of the paths. -/
def inflow (n : Network α) (src d : Nat → Nat → Sample α) (k t : Nat) : Sample α :=
  match n.mode with
  | .feedback => sumTo n.order fun j => (d j t + src j t) * n.entry k j
  | .forward => sumTo n.order fun j => src j t * n.entry k j

/-- What arrives at the end of the delay line of path `k` at step `t`. -/
def arriving (n : Network α) (src d : Nat → Nat → Sample α) (k latency t : Nat) : Sample α :=
  if t < latency then 0 else n.inflow src d k (t - latency)

/-- The output of path `k` at step `t` of the run. -/
def signal (n : Network α) (src : Nat → Array (Sample α)) (k t : Nat) : Sample α :=
  (n.run src (t + 1)).outputs.getD k 0

/-- The signals of the run solve the equations of the network. -/
structure Follows (n : Network α) (src : Nat → Array (Sample α)) : Prop where
  /-- Every step gives one output for each path. -/
  size_outputs : ∀ t, (n.run src t).outputs.size = n.order
  /-- Each output is what arrives, filtered from silence and turned. -/
  signal_eq : ∀ k p, n.paths[k]? = some p → ∀ t,
    n.signal src k t =
      (p.reflection.reset.response
        (n.arriving (fun j t => (src t).getD j 0) (n.signal src) k (p.latency n.mode)) t).rotate
        p.rotation
  /-- The outputs are added to the output of the network, path after path. -/
  output_eq : ∀ t, (n.run src (t + 1)).output =
    (List.range n.order).foldl (fun sum k => sum + n.signal src k t) (n.run src t).output

/-! ## Mixtures -/

theorem mix_eq_sumTo {m : Nat} {row : Array α} {samples : Array (Sample α)} (hr : row.size = m)
    (hs : samples.size = m) :
    mix row samples = sumTo m fun j => samples.getD j 0 * row.getD j 0 := by
  have hmin : min row.size samples.size = m := by omega
  unfold mix sumTo
  rw [fold_eq_foldl_range (g := fun sum j => sum + samples.getD j 0 * row.getD j 0), hmin]
  intro j hj sum
  rw [Array.getD_eq_getD_getElem?, Array.getD_eq_getD_getElem?,
    Array.getElem?_eq_getElem (show j < samples.size by omega),
    Array.getElem?_eq_getElem (show j < row.size by omega)]
  rfl

/-! ## Runs -/

section

variable (n : Network α) (src : Nat → Array (Sample α))

theorem size_outputs_run (t : Nat) : (n.run src t).outputs.size = n.order :=
  Array.size_map.trans (size_run_paths n src t)

theorem getElem?_outputs_run (k t : Nat) :
    (n.run src (t + 1)).outputs[k]? = n.paths[k]?.map fun p =>
      (p.reflection.response (p.arrivals n.mode (n.feeds src k)) t).rotate p.rotation := by
  rw [outputs, Array.getElem?_map, getElem?_run_paths, Option.map_map]
  refine congrArg (Option.map · n.paths[k]?) (funext fun p => ?_)
  exact Path.run_output n.mode p (n.feeds src k) t

theorem output_run_succ (t : Nat) :
    (n.run src (t + 1)).output =
      (List.range n.order).foldl (fun sum k => sum + n.signal src k t) (n.run src t).output := by
  show ((n.run src t).process (src t)).output = _
  rw [process_output, ← size_outputs_run n src (t + 1)]
  exact foldl_eq_foldl_range (n.run src (t + 1)).outputs 0 _ _

end

/-- What is fed to a path of a run is the mixture of the equations. -/
theorem feeds_eq_inflow {n : Network α} {src : Nat → Array (Sample α)}
    (hm : n.matrix.size = n.order) (hr : ∀ r ∈ n.matrix, r.size = n.order)
    (hs : ∀ t, (src t).size = n.order) {k : Nat} (hk : k < n.order) (t : Nat) :
    n.feeds src k t = n.inflow (fun j t => (src t).getD j 0) (n.signal src) k t := by
  have hrow : (n.matrix.getD k #[]).size = n.order := by
    rw [Array.getD_eq_getD_getElem?, Array.getElem?_eq_getElem (hm ▸ hk)]
    exact hr _ (Array.getElem_mem _)
  unfold feeds fed inflow
  rw [run_mode, run_matrix]
  cases hmode : n.mode with
  | feedback =>
    have hout : (n.run src t).tap.outputs = (n.run src (t + 1)).outputs :=
      (outputs_process_of_feedback _ _ ((run_mode n src t).trans hmode)).symm
    have hsize : (Array.zipWith (· + ·) (n.run src (t + 1)).outputs (src t)).size = n.order := by
      rw [Array.size_zipWith, size_outputs_run, hs, Nat.min_self]
    simp only
    rw [hout, mix_eq_sumTo hrow hsize]
    refine sumTo_congr fun j hj => ?_
    have hj' : j < (n.run src (t + 1)).outputs.size := by rwa [size_outputs_run]
    simp [signal, entry, Array.getD_eq_getD_getElem?, hj', hs t, hj]
  | forward => exact mix_eq_sumTo hrow (hs t)

/-! ## The equations -/

/-- A silent network with its heads inside solves its equations. -/
theorem follows_of_silent {n : Network α} {src : Nat → Array (Sample α)}
    (hm : n.matrix.size = n.order) (hr : ∀ r ∈ n.matrix, r.size = n.order)
    (hs : ∀ t, (src t).size = n.order) (hin : ∀ p ∈ n.paths, p.line.Inside)
    (hsilent : ∀ p ∈ n.paths, p.line.Silent)
    (hreset : ∀ p ∈ n.paths, p.reflection.reset = p.reflection) : n.Follows src where
  size_outputs := size_outputs_run n src
  output_eq := output_run_succ n src
  signal_eq := by
    intro k p hp t
    have hmem : p ∈ n.paths := Array.mem_of_getElem? hp
    have hk : k < n.order := by
      obtain ⟨hk, -⟩ := Array.getElem?_eq_some_iff.mp hp
      exact hk
    have harr : p.arrivals n.mode (n.feeds src k) =
        n.arriving (fun j t => (src t).getD j 0) (n.signal src) k (p.latency n.mode) := by
      funext s
      rw [Path.run_arrival n.mode p _ (hin p hmem) fun i _ => (hsilent p hmem).ahead i,
        feeds_eq_inflow hm hr hs hk]
      rfl
    rw [signal, Array.getD_eq_getD_getElem?, getElem?_outputs_run, hp, Option.map_some,
      Option.getD_some, harr, hreset p hmem]

end Network

end

variable {α β : Type} [Elementary α] [Elementary β] [Widening α β]

/-- **Networks solve their equations.** A new network, derived from any design and run on any
sources, is a solution of its signal-flow equations. -/
theorem Network.follows_derive_new {order : Nat} (h : 0 < order) (maxDelay : Nat) (law : DelayLaw)
    (method : GainMethod) (mode : Mode) (design : NetworkDesign α)
    {src : Nat → Array (Sample α)} (hs : ∀ t, (src t).size = order) :
    ∃ n : Network α, Network.new order maxDelay law method mode = .ok n ∧
      (n.derive design).order = order ∧ (n.derive design).mode = mode ∧
      (n.derive design).Follows src := by
  obtain ⟨n, hn, horder, hmode, hpos⟩ := exists_new h maxDelay law method mode (α := α)
  have hsize : (n.derive design).order = order := (order_derive n design).trans horder
  have hrow : (Circulant.row n.order : Array α).size = order :=
    (Circulant.size_row n.order).trans horder
  refine ⟨n, hn, hsize, hmode, follows_of_silent ?_ ?_ (fun t => (hs t).trans hsize.symm) ?_ ?_ ?_⟩
  · rw [hsize, ← hrow]
    exact Circulant.size_matrix design.layout _
  · intro r hr
    rw [hsize, ← hrow]
    exact Circulant.size_of_mem_matrix design.layout _ hr
  · intro p hp
    obtain ⟨k, q, hq, rfl⟩ := exists_of_mem_derive_paths hp
    exact inside_derivedPath n design k (hpos q (Array.mem_of_getElem? hq))
  · intro p hp
    obtain ⟨k, q, -, rfl⟩ := exists_of_mem_derive_paths hp
    exact silent_derivedPath n design k q
  · intro p hp
    obtain ⟨k, q, -, rfl⟩ := exists_of_mem_derive_paths hp
    exact reset_derivedPath n design k q

/-- The design of the examples: three paths, turning, damped. -/
def smallDesign : NetworkDesign Float32 where
  turn := 0.3
  spread := 0.7
  shortest := 10.0
  longest := 40.0
  decayTime := 500.0
  damping := 0.3
  layout := .fixed
  truncateForward := false

theorem Network.follows_derive_new_three :
    (0 < 3 ∧ ∀ t, (Array.replicate 3 (Sample.pressure (Float32.ofNat t))).size = 3) ∧
      ∃ n : Network Float32, Network.new 3 100 .geometric .schroeder .feedback = .ok n ∧
        (n.derive smallDesign).order = 3 ∧ (n.derive smallDesign).mode = .feedback ∧
        (n.derive smallDesign).Follows fun t =>
          Array.replicate 3 (Sample.pressure (Float32.ofNat t)) :=
  ⟨⟨by decide, fun _ => Array.size_replicate⟩,
    Network.follows_derive_new (by decide) 100 .geometric .schroeder .feedback smallDesign
      fun _ => Array.size_replicate⟩

end AmbisonicReverb
