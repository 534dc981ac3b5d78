import AmbisonicReverb.Proofs.Process

/-!
# Deriving a network

What `Network.derive` sets, path by path. The new state of a path has one trace of the old one, the
position of the head of its delay line.
-/

namespace AmbisonicReverb

namespace Circulant

theorem size_row {α β : Type} [Elementary α] [Elementary β] [Widening α β] (order : Nat) :
    (row order : Array α).size = order := by
  unfold row
  split_ifs
  · exact Array.size_replicate
  · simp [Phasor.inverseDFT, spectrum]

variable {α : Type} (l : Layout) (w : Array α)

theorem size_matrix : (matrix l w).size = w.size := Array.size_ofFn

theorem size_of_mem_matrix {r : Array α} (hr : r ∈ matrix l w) : r.size = w.size := by
  obtain ⟨i, rfl⟩ := Array.mem_ofFn.mp hr
  exact Array.size_ofFn

end Circulant

namespace Network

variable {α β : Type} [Elementary α] [Elementary β] [Widening α β]

/-- The gain that a design gives to all reflections of a network. -/
def designGain (n : Network α) (d : NetworkDesign α) : α :=
  let delays := Array.ofFn fun k : Fin n.order => d.pathDelay n.law n.maxDelay n.order k.val
  n.method.gain d.shortest
    (delays.foldl (fun t delay => t + Scalar.ofNat delay) 0 / Scalar.ofNat n.order) d.decayTime

/-- The length that a design asks for the delay line of path `k`. -/
def designLength (n : Network α) (d : NetworkDesign α) (k : Nat) : Nat :=
  let delays := Array.ofFn fun k : Fin n.order => d.pathDelay n.law n.maxDelay n.order k.val
  lineLength n.mode d.truncateForward (delays.foldl min n.maxDelay)
    (d.pathDelay n.law n.maxDelay n.order k)

/-- Path `k` of a derived network. -/
def derivedPath (n : Network α) (d : NetworkDesign α) (k : Nat) (p : Path α) : Path α where
  line := (p.line.clear.setLength (d.pathDelay n.law n.maxDelay n.order k)).setLength
    (n.designLength d k)
  reflection := (p.reflection.setEta (maxEta * NetworkDesign.fraction n.order k)).setLowpass
    (n.designGain d) d.damping
  rotation := d.pathRotation n.order k
  output := 0

theorem derive_eq (n : Network α) (d : NetworkDesign α) :
    n.derive d =
      { n with
        gain := n.designGain d
        matrix := Circulant.matrix d.layout (Circulant.row n.order)
        prefilters := (n.prefilters.1.setLowpass (n.designGain d) d.damping,
          n.prefilters.2.setLowpass (n.designGain d) d.damping)
        output := 0
        paths := n.paths.mapIdx (n.derivedPath d) } := rfl

theorem order_derive (n : Network α) (d : NetworkDesign α) : (n.derive d).order = n.order := by
  rw [derive_eq]
  exact Array.size_mapIdx

theorem getElem?_derive_paths (n : Network α) (d : NetworkDesign α) (k : Nat) :
    (n.derive d).paths[k]? = n.paths[k]?.map (n.derivedPath d k) := by
  rw [derive_eq]
  exact Array.getElem?_mapIdx

theorem exists_of_mem_derive_paths {n : Network α} {d : NetworkDesign α} {p : Path α}
    (hp : p ∈ (n.derive d).paths) :
    ∃ k q, n.paths[k]? = some q ∧ p = n.derivedPath d k q := by
  obtain ⟨k, hk⟩ := Array.mem_iff_getElem?.mp hp
  rw [getElem?_derive_paths] at hk
  obtain ⟨q, hq, rfl⟩ := Option.map_eq_some_iff.mp hk
  exact ⟨k, q, hq, rfl⟩

/-- The delay line of a derived network is silent. -/
theorem silent_derivedPath (n : Network α) (d : NetworkDesign α) (k : Nat) (p : Path α) :
    (n.derivedPath d k p).line.Silent :=
  ((DelayLine.silent_clear p.line).setLength _).setLength _

/-- So is its reflection filter. -/
theorem reset_derivedPath (n : Network α) (d : NetworkDesign α) (k : Nat) (p : Path α) :
    (n.derivedPath d k p).reflection.reset = (n.derivedPath d k p).reflection := rfl

/-- A head at the first cell stays there. -/
theorem position_derivedPath (n : Network α) (d : NetworkDesign α) (k : Nat) {p : Path α}
    (hp : p.line.position = 0) : (n.derivedPath d k p).line.position = 0 := by
  have hpos : (n.derivedPath d k p).line.position ≤ p.line.position :=
    (Nat.min_le_left _ _).trans (Nat.min_le_left _ _)
  omega

theorem inside_derivedPath (n : Network α) (d : NetworkDesign α) (k : Nat) {p : Path α}
    (hp : p.line.position = 0) : (n.derivedPath d k p).line.Inside :=
  DelayLine.inside_of_position_eq_zero (n.position_derivedPath d k hp)

theorem designLength_of_feedback {n : Network α} (hmode : n.mode = .feedback)
    (d : NetworkDesign α) (k : Nat) :
    n.designLength d k = d.pathDelay n.law n.maxDelay n.order k := by
  unfold designLength lineLength
  rw [hmode]

/-- The lines of a feedback network get the delays of the design, if they have room for them. -/
theorem length_derivedPath {n : Network α} (hmode : n.mode = .feedback) (hmax : 3 ≤ n.maxDelay)
    (d : NetworkDesign α) (k : Nat) {p : Path α} (hp : p.line.capacity = n.maxDelay) :
    (n.derivedPath d k p).line.length = d.pathDelay n.law n.maxDelay n.order k := by
  have hcapacity : p.line.clear.cells.size = n.maxDelay :=
    (DelayLine.capacity_clear p.line).trans hp
  have hrange : 2 ≤ d.pathDelay n.law n.maxDelay n.order k ∧
      d.pathDelay n.law n.maxDelay n.order k ≤ n.maxDelay - 1 := by
    unfold NetworkDesign.pathDelay
    omega
  show min (max (n.designLength d k) 2) (p.line.clear.cells.size - 1) = _
  rw [designLength_of_feedback hmode, hcapacity]
  omega

/-- In a feedback network a derivation leaves a head inside exactly if it was in the part that is
in use afterwards. -/
theorem inside_derivedPath_iff {n : Network α} (hmode : n.mode = .feedback) (d : NetworkDesign α)
    (k : Nat) (p : Path α) :
    (n.derivedPath d k p).line.Inside ↔ p.line.position < (n.derivedPath d k p).line.length := by
  unfold derivedPath
  rw [designLength_of_feedback hmode, DelayLine.inside_setLength_iff]
  simp only [DelayLine.clear, DelayLine.setLength]
  omega

/-! ## New networks -/

/-- A network can be made for every order but 0. -/
theorem exists_new {order : Nat} (h : 0 < order) (maxDelay : Nat) (law : DelayLaw)
    (method : GainMethod) (mode : Mode) :
    ∃ n : Network α, new order maxDelay law method mode = .ok n ∧ n.order = order ∧
      n.mode = mode ∧ ∀ p ∈ n.paths, p.line.position = 0 := by
  unfold new
  rw [if_neg (by omega)]
  refine ⟨_, rfl, Array.size_replicate, rfl, ?_⟩
  intro p hp
  rw [(Array.mem_replicate.mp hp).2]
  rfl

/-- Every line of a new feedback network has room for the longest delay, and nothing of a sample
passes its first input filter at once. -/
theorem fields_new_feedback {order maxDelay : Nat} {law : DelayLaw} {method : GainMethod}
    {n : Network α} (h : new order maxDelay law method .feedback = .ok n) :
    n.maxDelay = max maxDelay leastMaxDelay ∧ (∀ p ∈ n.paths, p.line.capacity = n.maxDelay) ∧
      n.prefilters.1.eta = 0 := by
  unfold new at h
  split_ifs at h
  obtain rfl := Except.ok.inj h
  refine ⟨rfl, fun p hp => ?_, rfl⟩
  rw [(Array.mem_replicate.mp hp).2]
  exact (DelayLine.capacity_new _).trans (Nat.max_eq_left (Nat.le_max_right _ _))

end Network

end AmbisonicReverb
