import AmbisonicReverb.Proofs.Derive

/-!
# Networks at rest

A network carries two kinds of data: what it was derived to be, and the signal that is in it.
`Network.rest` forgets the signal: cells, filter registers and outputs are silent and the heads of
the delay lines stand at the first cell. Two networks with the same `rest` differ in their signals
only.

Running and resetting a network leave `rest` alone. What a network is derived to be depends on the
design and on its `Network.frame` only (`rest_derive_eq`), so that a derivation makes up for all
earlier ones (`rest_derive_derive`).
-/

namespace AmbisonicReverb

namespace DelayLine

variable {S : Type} [Zero S]

/-- The silent line with its head at the first cell. -/
def rest (d : DelayLine S) : DelayLine S :=
  { d.clear with position := 0, position_le_length := Nat.zero_le _ }

omit [Zero S] in
theorem eq_of_fields {d e : DelayLine S} (hc : d.cells = e.cells) (hl : d.length = e.length)
    (hp : d.position = e.position) : d = e := by
  cases d
  cases e
  subst hc hl hp
  rfl

theorem rest_eq_rest {d e : DelayLine S} (hs : d.cells.size = e.cells.size)
    (hl : d.length = e.length) : d.rest = e.rest :=
  eq_of_fields (congrArg (Array.replicate · 0) hs) hl rfl

theorem rest_push (d : DelayLine S) (s : S) : (d.push s).rest = d.rest :=
  rest_eq_rest (Array.size_set d.position_lt_size) rfl

theorem rest_clear (d : DelayLine S) : d.clear.rest = d.rest :=
  rest_eq_rest Array.size_replicate rfl

theorem clear_clear (d : DelayLine S) : d.clear.clear = d.clear :=
  eq_of_fields (congrArg (Array.replicate · 0) Array.size_replicate) rfl rfl

theorem clear_setLength {d : DelayLine S} (h : d.clear = d) (n : Nat) :
    (d.setLength n).clear = d.setLength n := by
  have hcells : d.clear.cells = d.cells := congrArg DelayLine.cells h
  exact eq_of_fields hcells rfl rfl

/-- The length that a line had before does not matter. -/
theorem rest_setLength (d e : DelayLine S) (hs : d.cells.size = e.cells.size) (n : Nat) :
    (d.setLength n).rest = (e.setLength n).rest :=
  rest_eq_rest hs (congrArg (fun size => min (max n 2) (size - 1)) hs)

end DelayLine

namespace Path

variable {α : Type} [Scalar α]

/-- The path without its signal. -/
def rest (p : Path α) : Path α where
  line := p.line.rest
  reflection := p.reflection.reset
  rotation := p.rotation
  output := 0

theorem rest_step (m : Mode) (p : Path α) (s : Sample α) : (p.step m s).rest = p.rest := by
  rw [step_eq]
  unfold rest
  rw [DelayLine.rest_push]
  rfl

theorem rest_reset (p : Path α) : p.reset.rest = p.rest := by
  show Path.mk p.line.clear.rest _ _ _ = _
  rw [DelayLine.rest_clear]
  rfl

end Path

namespace Network

section

variable {α : Type} [Scalar α]

/-- The network without its signal. -/
def rest (n : Network α) : Network α :=
  { n with
    prefilters := (n.prefilters.1.reset, n.prefilters.2.reset)
    paths := n.paths.map Path.rest
    output := 0 }

theorem getElem?_rest_paths (n : Network α) (k : Nat) :
    n.rest.paths[k]? = n.paths[k]?.map Path.rest := Array.getElem?_map

theorem exists_path_of_rest_eq {m n : Network α} (h : m.rest = n.rest) {k : Nat} {p : Path α}
    (hp : m.paths[k]? = some p) : ∃ q, n.paths[k]? = some q ∧ q.rest = p.rest := by
  have hpaths : n.rest.paths[k]? = some p.rest := by
    rw [← h, getElem?_rest_paths, hp, Option.map_some]
  rw [getElem?_rest_paths] at hpaths
  exact Option.map_eq_some_iff.mp hpaths

theorem order_rest (n : Network α) : n.rest.order = n.order := Array.size_map

theorem order_eq_of_rest_eq {m n : Network α} (h : m.rest = n.rest) : m.order = n.order := by
  rw [← order_rest m, h, order_rest]

theorem gain_eq_of_rest_eq {m n : Network α} (h : m.rest = n.rest) : m.gain = n.gain :=
  show m.rest.gain = n.rest.gain from congrArg gain h

theorem matrix_eq_of_rest_eq {m n : Network α} (h : m.rest = n.rest) : m.matrix = n.matrix :=
  show m.rest.matrix = n.rest.matrix from congrArg matrix h

theorem rest_process (n : Network α) (sources : Array (Sample α)) :
    (n.process sources).rest = n.rest := by
  have hpaths : (n.process sources).paths.map Path.rest = n.paths.map Path.rest := by
    refine Array.ext_getElem? fun k => ?_
    rw [Array.getElem?_map, Array.getElem?_map, getElem?_process_paths, Option.map_map]
    exact congrArg (Option.map · n.paths[k]?) (funext fun p => Path.rest_step _ p _)
  unfold rest
  rw [hpaths]
  cases hm : n.mode <;> simp only [process, hm, tap]

theorem order_process (n : Network α) (sources : Array (Sample α)) :
    (n.process sources).order = n.order :=
  order_eq_of_rest_eq (rest_process n sources)

theorem rest_run (n : Network α) (src : Nat → Array (Sample α)) (t : Nat) :
    (n.run src t).rest = n.rest := by
  induction t with
  | zero => rfl
  | succ t ih => exact (rest_process _ _).trans ih

theorem rest_reset (n : Network α) : n.reset.rest = n.rest := by
  have hpaths : (n.paths.map Path.reset).map Path.rest = n.paths.map Path.rest := by
    rw [Array.map_map]
    exact congrArg (Array.map · n.paths) (funext Path.rest_reset)
  show { n with prefilters := _, paths := (n.paths.map Path.reset).map Path.rest, output := 0 } = _
  rw [hpaths]
  rfl

/-! ## Derivations -/

/-- What a derivation keeps: the room for delays, the kind of the network, and the coefficients of
the input allpasses. -/
def frame (n : Network α) : Nat × GainMethod × Mode × Array Nat × α × α :=
  (n.maxDelay, n.method, n.mode, n.paths.map (·.line.capacity), n.prefilters.1.eta,
    n.prefilters.2.eta)

theorem frame_rest (n : Network α) : n.rest.frame = n.frame := by
  have hcapacity : (n.paths.map Path.rest).map (·.line.capacity) =
      n.paths.map (·.line.capacity) := by
    rw [Array.map_map]
    exact congrArg (Array.map · n.paths) (funext fun p => DelayLine.capacity_clear p.line)
  show (_, _, _, (n.paths.map Path.rest).map _, _) = _
  rw [hcapacity]
  rfl

theorem frame_eq_of_rest_eq {m n : Network α} (h : m.rest = n.rest) : m.frame = n.frame := by
  rw [← frame_rest m, h, frame_rest]

theorem frame_process (n : Network α) (sources : Array (Sample α)) :
    (n.process sources).frame = n.frame :=
  frame_eq_of_rest_eq (rest_process n sources)

theorem frame_reset (n : Network α) : n.reset.frame = n.frame := frame_eq_of_rest_eq (rest_reset n)

theorem frame_clear (n : Network α) : n.clear.frame = n.frame := by
  have hcapacity : (n.paths.map Path.clear).map (·.line.capacity) =
      n.paths.map (·.line.capacity) := by
    rw [Array.map_map]
    exact congrArg (Array.map · n.paths) (funext fun p => DelayLine.capacity_clear p.line)
  show (_, _, _, (n.paths.map Path.clear).map _, _) = _
  rw [hcapacity]
  rfl

omit [Scalar α] in
theorem order_eq_of_frame_eq {m n : Network α} (h : m.frame = n.frame) : m.order = n.order := by
  have hcapacity : m.paths.map (·.line.capacity) = n.paths.map (·.line.capacity) :=
    congrArg (fun frame => frame.2.2.2.1) h
  simpa [order] using congrArg Array.size hcapacity

end

variable {α β : Type} [Elementary α] [Elementary β] [Widening α β]

omit [Elementary β] [Widening α β] in
theorem capacities_derivedPaths (n : Network α) (d : NetworkDesign α) :
    (n.paths.mapIdx (n.derivedPath d)).map (·.line.capacity) =
      n.paths.map (·.line.capacity) := by
  refine Array.ext_getElem? fun k => ?_
  rw [Array.getElem?_map, Array.getElem?_mapIdx, Array.getElem?_map, Option.map_map]
  exact congrArg (Option.map · n.paths[k]?) (funext fun p => DelayLine.capacity_clear p.line)

theorem frame_derive (n : Network α) (d : NetworkDesign α) : (n.derive d).frame = n.frame := by
  rw [derive_eq]
  show (_, _, _, (n.paths.mapIdx (n.derivedPath d)).map _, _) = _
  rw [capacities_derivedPaths]
  rfl

theorem rest_derivedPath {m n : Network α} (h : m.frame = n.frame) (hlaw : m.law = n.law)
    (d : NetworkDesign α) (k : Nat) {p q : Path α} (hpq : p.line.capacity = q.line.capacity) :
    (m.derivedPath d k p).rest = (n.derivedPath d k q).rest := by
  have horder := order_eq_of_frame_eq h
  have hdelay : m.maxDelay = n.maxDelay := congrArg (fun frame => frame.1) h
  have hmethod : m.method = n.method := congrArg (fun frame => frame.2.1) h
  have hmode : m.mode = n.mode := congrArg (fun frame => frame.2.2.1) h
  have hgain : m.designGain d = n.designGain d := by
    unfold designGain
    rw [horder, hdelay, hlaw, hmethod]
  have hlength : m.designLength d k = n.designLength d k := by
    unfold designLength
    rw [horder, hdelay, hlaw, hmode]
  unfold derivedPath
  rw [hgain, hlength, horder, hdelay, hlaw]
  unfold Path.rest
  congr 1
  refine DelayLine.rest_setLength _ _ ?_ _
  show p.line.clear.capacity = q.line.clear.capacity
  rw [DelayLine.capacity_clear, DelayLine.capacity_clear, hpq]

/-- What a network is derived to be depends on its frame and the design alone. -/
theorem rest_derive_eq {m n : Network α} (h : m.frame = n.frame) (hlaw : m.law = n.law)
    (d : NetworkDesign α) : (m.derive d).rest = (n.derive d).rest := by
  have hpaths : (m.paths.mapIdx (m.derivedPath d)).map Path.rest =
      (n.paths.mapIdx (n.derivedPath d)).map Path.rest := by
    have hcapacity : m.paths.map (·.line.capacity) = n.paths.map (·.line.capacity) :=
      congrArg (fun frame => frame.2.2.2.1) h
    refine Array.ext_getElem? fun k => ?_
    have hk := congrArg (·[k]?) hcapacity
    simp only [Array.getElem?_map] at hk
    simp only [Array.getElem?_map, Array.getElem?_mapIdx]
    cases hp : m.paths[k]? <;> cases hq : n.paths[k]? <;> rw [hp, hq] at hk
    · rfl
    · exact nomatch hk
    · exact nomatch hk
    · exact congrArg some (rest_derivedPath h hlaw d k (Option.some.inj hk))
  have horder := order_eq_of_frame_eq h
  simp only [frame, Prod.mk.injEq] at h
  obtain ⟨hdelay, hmethod, hmode, -, heta₁, heta₂⟩ := h
  have hgain : m.designGain d = n.designGain d := by
    unfold designGain
    rw [horder, hdelay, hlaw, hmethod]
  rw [derive_eq, derive_eq]
  simp only [rest, Reflection.setLowpass, Reflection.reset]
  rw [hpaths, hgain, horder, hdelay, hlaw, hmethod, hmode, heta₁, heta₂]

/-- There is no signal in a derived network. -/
theorem reset_derive (n : Network α) (d : NetworkDesign α) : (n.derive d).reset = n.derive d := by
  have hpath : ∀ k p, (n.derivedPath d k p).reset = n.derivedPath d k p := by
    intro k p
    have hline : (n.derivedPath d k p).line.clear = (n.derivedPath d k p).line :=
      DelayLine.clear_setLength (DelayLine.clear_setLength (DelayLine.clear_clear _) _) _
    show Path.mk (n.derivedPath d k p).line.clear _ _ _ = _
    rw [hline]
    rfl
  have hpaths : (n.derive d).paths.map Path.reset = (n.derive d).paths := by
    refine Array.ext_getElem? fun k => ?_
    rw [Array.getElem?_map, getElem?_derive_paths, Option.map_map]
    exact congrArg (Option.map · n.paths[k]?) (funext (hpath k))
  unfold reset
  rw [hpaths]
  rfl

/-- A derivation leaves no trace of an earlier one but in the signals. -/
theorem rest_derive_derive (n : Network α) (law : DelayLaw) (d₁ d₂ : NetworkDesign α) :
    (((n.derive d₁).setLaw law).derive d₂).rest = ((n.setLaw law).derive d₂).rest := by
  have hframe : ((n.derive d₁).setLaw law).frame = (n.setLaw law).frame := frame_derive n d₁
  exact rest_derive_eq hframe rfl d₂

end Network

end AmbisonicReverb
