import AmbisonicReverb.Proofs.Designer
import AmbisonicReverb.Proofs.Operations
import AmbisonicReverb.Proofs.Spacing

/-!
# Derivations have no memory

A network is derived again and again in the same memory. Lines get one or two new lengths, one
after the other, while their heads stay where they are; filters forget their signals one by one;
the matrix is designed over the last one (`Circulant.Designer`).

**Theorem (`derive_forgets`).** Whatever happened to a network, a derivation gives it the settings
and the matrix that a new network gets from the same design, and leaves it silent. The transform
that designs the matrix is any one that does not read its scratch memory.

* `Network.deriveStepwise` — a derivation step by step. In the room that a network has it does the
  same as `Network.derive` (`Roomy.deriveStepwise_eq`).
* `Network.Stored` — a network with its matrix and its designer in memory. Its derivation is that
  of the library but for the numbers in the matrix (`Stored.network_derive`), and with the transform
  of the library these are the same as well (`Stored.network_applyAll_direct`).
-/

namespace AmbisonicReverb

/-- The length that a line has is one that can be set. -/
theorem DelayLine.setLength_length {S : Type} (d : DelayLine S) : d.setLength d.length = d := by
  have hmin := d.two_le_length
  have hmax := d.length_lt_size
  have hposition := d.position_le_length
  have hlength : (d.setLength d.length).length = d.length := by
    show min (max d.length 2) (d.cells.size - 1) = d.length
    omega
  refine eq_of_fields rfl hlength ?_
  rw [position_setLength, hlength]
  omega

/-! ## Silence -/

/-- There is no signal in the filter. -/
structure Reflection.Cleared {α : Type} [Scalar α] (f : Reflection α) : Prop where
  lowpass : f.lowpass = 0
  allpassIn : f.allpassIn = 0
  allpassOut : f.allpassOut = 0

theorem Reflection.cleared_reset {α : Type} [Scalar α] (f : Reflection α) : f.reset.Cleared :=
  ⟨rfl, rfl, rfl⟩

namespace Network

/-- There is no signal in the network. -/
structure Cleared {α : Type} [Scalar α] (n : Network α) : Prop where
  lines : n.Silent
  outputs : ∀ p ∈ n.paths, p.output = 0
  reflections : ∀ p ∈ n.paths, p.reflection.Cleared
  prefilters : n.prefilters.1.Cleared ∧ n.prefilters.2.Cleared
  output : n.output = 0

theorem cleared_reset {α : Type} [Scalar α] (n : Network α) : n.reset.Cleared where
  lines := silent_reset n
  outputs p hp := by
    obtain ⟨q, -, rfl⟩ := Array.mem_map.mp hp
    rfl
  reflections p hp := by
    obtain ⟨q, -, rfl⟩ := Array.mem_map.mp hp
    exact q.reflection.cleared_reset
  prefilters := ⟨n.prefilters.1.cleared_reset, n.prefilters.2.cleared_reset⟩
  output := rfl

/-! ## Derivations step by step -/

variable {α β : Type} [Elementary α]

/-- The first lengths, and the allpasses. -/
def layDelays (n : Network α) (d : NetworkDesign α) : Network α :=
  { n with paths := n.paths.mapIdx fun k p =>
    { p with
      line := p.line.setLength (n.baseDelay d k)
      reflection := p.reflection.setEta (maxEta * NetworkDesign.fraction n.order k) } }

/-- New lengths for all lines. -/
def relength (n : Network α) (length : ℕ → ℕ) : Network α :=
  { n with paths := n.paths.map fun p => { p with line := p.line.setLength (length p.delay) } }

/-- The second lengths, which forward networks get. -/
def shiftDelays (n : Network α) (truncate : Bool) : Network α :=
  match n.mode with
  | .feedback => n
  | .forward =>
    if truncate then
      let shift := n.delays.toList.min?.getD 2 - 2
      n.relength (· - shift)
    else n.relength (· + 1)

/-- Filters and rotations. -/
def tune (n : Network α) (gain : α) (d : NetworkDesign α) : Network α :=
  { n with
    gain
    prefilters := (n.prefilters.1.setLowpass gain d.damping,
      n.prefilters.2.setLowpass gain d.damping)
    paths := n.paths.mapIdx fun k p =>
      { p with
        reflection := p.reflection.setLowpass gain d.damping
        rotation := d.pathRotation n.order k } }

/-- A derivation, but for the matrix. -/
def deriveStepwise (n : Network α) (d : NetworkDesign α) : Network α :=
  ((n.clear.layDelays d).shiftDelays d.truncateForward).tune (n.designGain d) d

omit [Elementary α] in
theorem relength_id (n : Network α) : n.relength id = n := by
  have hpath : (fun p : Path α => { p with line := p.line.setLength (id p.delay) }) = id := by
    funext p
    exact congrArg (fun line => { p with line }) p.line.setLength_length
  unfold relength
  rw [hpath, Array.map_id]

theorem order_clear (n : Network α) : n.clear.order = n.order := Array.size_map

variable {n : Network α}

theorem getElem?_paths_layDelays (n : Network α) (d : NetworkDesign α) (k : ℕ) :
    (n.clear.layDelays d).paths[k]? = n.paths[k]?.map fun p =>
      { line := p.line.clear.setLength (n.baseDelay d k)
        reflection := p.reflection.setEta (maxEta * NetworkDesign.fraction n.order k)
        rotation := p.rotation
        output := 0 } := by
  have hpaths : (n.clear.layDelays d).paths = n.clear.paths.mapIdx fun k p =>
      { p with
        line := p.line.setLength (n.baseDelay d k)
        reflection := p.reflection.setEta (maxEta * NetworkDesign.fraction n.order k) } := by
    unfold layDelays baseDelay
    rw [order_clear]
    rfl
  rw [hpaths, Array.getElem?_mapIdx, clear, Array.getElem?_map, Option.map_map]
  rfl

theorem Roomy.getElem?_delays_layDelays (h : n.Roomy) (d : NetworkDesign α) (k : ℕ) :
    (n.clear.layDelays d).delays[k]? = if k < n.order then some (n.baseDelay d k) else none := by
  rw [delays, Array.getElem?_map, getElem?_paths_layDelays, Option.map_map]
  by_cases hk : k < n.order
  · have hp : n.paths[k]? = some n.paths[k] := Array.getElem?_eq_getElem hk
    rw [hp, if_pos hk]
    exact congrArg some (h.length_setLength d hk (Array.mem_of_getElem? hp)).1
  · have hp : n.paths[k]? = none := Array.getElem?_eq_none_iff.mpr (Nat.le_of_not_lt hk)
    rw [hp, if_neg hk]
    rfl

/-- The least of the first lengths is the least delay of the design. -/
theorem Roomy.min?_delays_layDelays (h : n.Roomy) (d : NetworkDesign α) :
    (n.clear.layDelays d).delays.toList.min? = some (n.leastBase d) := by
  have hmem : ∀ delay, delay ∈ (n.clear.layDelays d).delays.toList ↔
      delay ∈ n.baseDelay d '' Set.Iio n.order := by
    intro delay
    rw [Array.mem_toList_iff, Array.mem_iff_getElem?]
    simp only [h.getElem?_delays_layDelays d, Option.ite_none_right_eq_some, Option.some.injEq]
    rfl
  obtain ⟨hin, hle⟩ := h.isLeast_leastBase d
  rw [List.min?_eq_some_iff]
  exact ⟨(hmem _).mpr hin, fun delay hdelay => hle ((hmem _).mp hdelay)⟩

/-- In all modes the second lengths are a function of the first. -/
theorem Roomy.shiftDelays_eq (h : n.Roomy) (d : NetworkDesign α) :
    (n.clear.layDelays d).shiftDelays d.truncateForward =
      (n.clear.layDelays d).relength (lineLength n.mode d.truncateForward (n.leastBase d)) := by
  have hmode : (n.clear.layDelays d).mode = n.mode := rfl
  unfold shiftDelays
  rw [hmode, h.min?_delays_layDelays d]
  cases n.mode with
  | feedback => exact (relength_id _).symm
  | forward => cases d.truncateForward <;> rfl

/-- **Step by step a derivation does the same as at once**, but for the matrix. -/
theorem Roomy.deriveStepwise_eq (h : n.Roomy) (d : NetworkDesign α) :
    n.deriveStepwise d =
      { n with
        gain := n.designGain d
        prefilters := (n.prefilters.1.setLowpass (n.designGain d) d.damping,
          n.prefilters.2.setLowpass (n.designGain d) d.damping)
        output := 0
        paths := n.paths.mapIdx (n.derivedPath d) } := by
  let length := lineLength n.mode d.truncateForward (n.leastBase d)
  have horder : ((n.clear.layDelays d).relength length).order = n.order :=
    Array.size_map.trans (Array.size_mapIdx.trans n.order_clear)
  have hpaths : (n.deriveStepwise d).paths = n.paths.mapIdx (n.derivedPath d) := by
    unfold deriveStepwise
    rw [h.shiftDelays_eq d]
    refine Array.ext_getElem? fun k => ?_
    simp only [tune, relength, Array.getElem?_mapIdx, Array.getElem?_map,
      getElem?_paths_layDelays, Option.map_map]
    cases hp : n.paths[k]? with
    | none => rfl
    | some p =>
      obtain ⟨hk, -⟩ := Array.getElem?_eq_some_iff.mp hp
      have hfirst := (h.length_setLength d hk (Array.mem_of_getElem? hp)).1
      refine congrArg some ?_
      show Path.mk ((p.line.clear.setLength (n.baseDelay d k)).setLength
        (length (p.line.clear.setLength (n.baseDelay d k)).length)) _
        (d.pathRotation ((n.clear.layDelays d).relength length).order k) _ = _
      rw [hfirst, horder]
      rfl
  have hfields : n.deriveStepwise d =
      { n with
        gain := n.designGain d
        prefilters := (n.prefilters.1.setLowpass (n.designGain d) d.damping,
          n.prefilters.2.setLowpass (n.designGain d) d.damping)
        output := 0
        paths := (n.deriveStepwise d).paths } := by
    unfold deriveStepwise
    rw [h.shiftDelays_eq d]
    rfl
  rw [hfields, hpaths]

theorem Roomy.frame_deriveStepwise (h : n.Roomy) (d : NetworkDesign α) :
    (n.deriveStepwise d).frame = n.frame := by
  rw [h.deriveStepwise_eq d]
  show (_, _, _, (n.paths.mapIdx (n.derivedPath d)).map _, _) = _
  rw [capacities_derivedPaths]
  rfl

/-! ## Networks in memory -/

/-- A network with its matrix, stored row by row, and what designs it. -/
structure Stored (α : Type) (order : ℕ) where
  network : Network α
  designer : Circulant.Designer α order
  entries : Vector α (order * order)
  roomy : network.Roomy
  order_eq : network.order = order
  matrix_eq : network.matrix = Circulant.rows entries

theorem roomy_of_new {order maxDelay : ℕ} {law : DelayLaw} {method : GainMethod} {mode : Mode}
    (h : new order maxDelay law method mode = .ok n) :
    n.Roomy ∧ n.order = order ∧
      n.matrix = Array.replicate order (Array.replicate order 0) := by
  have hpos : 0 < order := by
    by_contra hzero
    unfold new at h
    rw [if_pos (by omega)] at h
    cases h
  obtain ⟨n', hnew, horder, -, -, hroomy⟩ := exists_roomy_new (α := α) hpos maxDelay law method mode
  obtain rfl := Except.ok.inj (hnew.symm.trans h)
  refine ⟨hroomy, horder, ?_⟩
  unfold new at h
  rw [if_neg (by omega)] at h
  exact congrArg Network.matrix (Except.ok.inj h).symm

namespace Stored

open Circulant.Designer (Run)

variable {order : ℕ}

/-- A new network, before its matrix is designed. -/
def new (order maxDelay scratchSize : ℕ) (law : DelayLaw) (method : GainMethod) (mode : Mode) :
    Except ConfigError (Stored α order) :=
  match h : Network.new order maxDelay law method mode with
  | .error e => .error e
  | .ok n => .ok
    { network := n
      designer := .new order scratchSize
      entries := .replicate (order * order) 0
      roomy := (roomy_of_new h).1
      order_eq := (roomy_of_new h).2.1
      matrix_eq := (roomy_of_new h).2.2.trans (Circulant.rows_replicate order 0).symm }

/-- A derivation. The matrix is written over the last one. -/
def derive (run : Run α order) (s : Stored α order) (d : NetworkDesign α) : Stored α order :=
  let (designer, entries) := s.designer.fill run d.layout s.entries
  have hframe := s.roomy.frame_deriveStepwise d
  { network := { s.network.deriveStepwise d with matrix := Circulant.rows entries }
    designer
    entries
    roomy := s.roomy.of_frame_eq hframe
    order_eq := (order_eq_of_frame_eq hframe).trans s.order_eq
    matrix_eq := rfl }

/-- Another network in the same memory, with the same matrix. -/
def keep (s : Stored α order) (n : Network α) (hframe : n.frame = s.network.frame)
    (hmatrix : n.matrix = s.network.matrix) : Stored α order :=
  { s with
    network := n
    roomy := s.roomy.of_frame_eq hframe
    order_eq := (order_eq_of_frame_eq hframe).trans s.order_eq
    matrix_eq := hmatrix.trans s.matrix_eq }

def apply (run : Run α order) (s : Stored α order) : Move α → Stored α order
  | .derive d => s.derive run d
  | .setLaw law => s.keep (s.network.setLaw law) rfl rfl
  | .process sources =>
    s.keep (s.network.process sources) (frame_process _ _) (process_matrix _ _)
  | .prefilter x => s.keep (s.network.prefilter x).2 rfl rfl
  | .take => s.keep s.network.take.2 rfl rfl
  | .clear => s.keep s.network.clear (frame_clear _) rfl
  | .reset => s.keep s.network.reset (frame_reset _) rfl

def applyAll (run : Run α order) (s : Stored α order) (moves : List (Move α)) : Stored α order :=
  moves.foldl (apply run) s

theorem exists_new (h : 0 < order) (maxDelay scratchSize : ℕ) (law : DelayLaw)
    (method : GainMethod) (mode : Mode) :
    ∃ s : Stored α order, new order maxDelay scratchSize law method mode = .ok s ∧
      Network.new order maxDelay law method mode = .ok s.network ∧
      s.designer.scratch.size = scratchSize := by
  obtain ⟨n, hnew, -⟩ := exists_roomy_new (α := α) h maxDelay law method mode
  unfold new
  split
  next e herror => cases hnew.symm.trans herror
  next n' hnew' => exact ⟨_, rfl, hnew', Array.size_replicate⟩

variable {run : Run α order} (s : Stored α order)

theorem frame_apply (m : Move α) : (s.apply run m).network.frame = s.network.frame := by
  cases m with
  | derive d => exact s.roomy.frame_deriveStepwise d
  | setLaw | prefilter | take => rfl
  | process sources => exact frame_process _ _
  | clear => exact frame_clear _
  | reset => exact frame_reset _

/-- No move changes the frame of a network. -/
theorem frame_applyAll (moves : List (Move α)) :
    (s.applyAll run moves).network.frame = s.network.frame := by
  induction moves generalizing s with
  | nil => rfl
  | cons m moves ih => exact (ih (s.apply run m)).trans (s.frame_apply m)

theorem size_scratch_apply {size : ℕ} (hrun : run.IgnoresScratch size)
    (hscratch : s.designer.scratch.size = size) (m : Move α) :
    (s.apply run m).designer.scratch.size = size := by
  cases m with
  | derive d => exact Circulant.Designer.size_scratch_fill hrun s.designer hscratch d.layout s.entries
  | setLaw | process | prefilter | take | clear | reset => exact hscratch

/-- The scratch memory has the same size all the time. -/
theorem size_scratch_applyAll {size : ℕ} (hrun : run.IgnoresScratch size)
    (hscratch : s.designer.scratch.size = size) (moves : List (Move α)) :
    (s.applyAll run moves).designer.scratch.size = size := by
  induction moves generalizing s with
  | nil => exact hscratch
  | cons m moves ih => exact ih (s.apply run m) (s.size_scratch_apply hrun hscratch m)

theorem rows_entries_derive {size : ℕ} (hrun : run.IgnoresScratch size)
    (hscratch : s.designer.scratch.size = size) (d : NetworkDesign α) :
    Circulant.rows (s.derive run d).entries =
      Circulant.matrix d.layout (run.row size).toArray :=
  Circulant.Designer.rows_fill hrun _ hscratch _ _ (s.order_eq ▸ s.roomy.order_pos)

variable [Elementary β] [Widening α β]

/-- A derivation in memory is one of the library, but for the numbers in the matrix. -/
theorem network_derive {size : ℕ} (hrun : run.IgnoresScratch size)
    (hscratch : s.designer.scratch.size = size) (d : NetworkDesign α) :
    (s.derive run d).network =
      { s.network.derive (β := β) d with
        matrix := Circulant.matrix d.layout (run.row size).toArray } := by
  show { s.network.deriveStepwise d with matrix := Circulant.rows (s.derive run d).entries } = _
  rw [s.rows_entries_derive hrun hscratch, s.roomy.deriveStepwise_eq d, derive_eq]

theorem network_apply_direct (m : Move α) :
    (s.apply (.direct β order) m).network = m.apply (β := β) s.network := by
  cases m with
  | derive d =>
    have hrow : ((Run.direct β order : Run α order).row s.designer.scratch.size).toArray =
        Circulant.row (β := β) s.network.order := by
      rw [Circulant.Designer.toArray_row_direct, s.order_eq]
    refine (s.network_derive (β := β) (Run.ignoresScratch_direct β order _) rfl d).trans ?_
    rw [hrow]
    rfl
  | setLaw | process | prefilter | take | clear | reset => rfl

/-- With the transform of the library, what is stored is the network of the library. -/
theorem network_applyAll_direct (moves : List (Move α)) :
    (s.applyAll (.direct β order) moves).network = s.network.applyAll (β := β) moves := by
  induction moves generalizing s with
  | nil => rfl
  | cons m moves ih =>
    refine (ih (s.apply (.direct β order) m)).trans ?_
    rw [network_apply_direct]
    rfl

/-- **A derivation forgets everything.** Whatever happened to a network, a derivation is one of the
library, with the matrix that the transform makes of the eigenvalues. It gives the network the
settings and the stored matrix that a new network with the same delay law gets from the same design,
and there is no signal in it. All it takes of the transform is that it does not read its scratch
memory. -/
theorem derive_forgets (h : 0 < order) (run : Run α order) (maxDelay scratchSize : ℕ)
    (hrun : run.IgnoresScratch scratchSize) (law : DelayLaw) (method : GainMethod) (mode : Mode) :
    ∃ start : Stored α order, new order maxDelay scratchSize law method mode = .ok start ∧
      Network.new order maxDelay law method mode = .ok start.network ∧
      ∀ (moves : List (Move α)) (d : NetworkDesign α),
        ((start.applyAll run moves).derive run d).network =
          { (start.applyAll run moves).network.derive (β := β) d with
            matrix := Circulant.matrix d.layout (run.row scratchSize).toArray } ∧
        ((start.applyAll run moves).derive run d).network.Cleared ∧
        ∃ fresh : Stored α order,
          new order maxDelay scratchSize (start.applyAll run moves).network.law method mode =
            .ok fresh ∧
          ((start.applyAll run moves).derive run d).network.settings =
            (fresh.derive run d).network.settings ∧
          ((start.applyAll run moves).derive run d).entries = (fresh.derive run d).entries := by
  obtain ⟨start, hstart, hnew, hsize⟩ :=
    exists_new (α := α) h maxDelay scratchSize law method mode
  refine ⟨start, hstart, hnew, fun moves d => ?_⟩
  have hframe : (start.applyAll run moves).network.frame = start.network.frame :=
    start.frame_applyAll moves
  have hscratch : (start.applyAll run moves).designer.scratch.size = scratchSize :=
    start.size_scratch_applyAll hrun hsize moves
  generalize start.applyAll run moves = s at hframe hscratch
  obtain ⟨fresh, hfresh, hnew', hscratch'⟩ :=
    exists_new (α := α) h maxDelay scratchSize s.network.law method mode
  have hsame : fresh.network = start.network.setLaw s.network.law := by
    rw [new_setLaw order maxDelay law, hnew] at hnew'
    exact (Except.ok.inj hnew').symm
  have hframe' : s.network.frame = fresh.network.frame := by
    rw [hframe, hsame]
    rfl
  have hlaw : s.network.law = fresh.network.law := by
    rw [hsame]
    rfl
  have hcleared : (s.network.derive (β := β) d).Cleared := by
    rw [← reset_derive]
    exact cleared_reset _
  have hderive := s.network_derive (β := β) hrun hscratch d
  refine ⟨hderive, ?_, fresh, hfresh, ?_, ?_⟩
  · rw [hderive]
    exact ⟨hcleared.lines, hcleared.outputs, hcleared.reflections, hcleared.prefilters,
      hcleared.output⟩
  · have hsettings := settings_eq_of_rest_eq (rest_derive_eq (β := β) hframe' hlaw d)
    rw [hderive, fresh.network_derive (β := β) hrun hscratch' d]
    exact congrArg (fun settings : Settings α =>
      { settings with matrix := Circulant.matrix d.layout (run.row scratchSize).toArray }) hsettings
  · apply Circulant.rows_injective
    rw [rows_entries_derive _ hrun hscratch, rows_entries_derive _ hrun hscratch']

theorem derive_forgets_stray :
    (0 < 3 ∧ (Run.direct Float 3 : Run Float32 3).IgnoresScratch 5) ∧
      ∃ start : Stored Float32 3,
        new 3 100 5 .geometric .mean .forward = .ok start ∧
        Network.new 3 100 .geometric .mean .forward = .ok start.network ∧
        ((start.applyAll (.direct Float 3) strayMoves).derive (.direct Float 3)
          strayDesign).network.Cleared ∧
        ∃ fresh : Stored Float32 3,
          new 3 100 5 (start.applyAll (.direct Float 3) strayMoves).network.law .mean .forward =
            .ok fresh ∧
          ((start.applyAll (.direct Float 3) strayMoves).derive (.direct Float 3)
              strayDesign).network.settings =
            (fresh.derive (.direct Float 3) strayDesign).network.settings ∧
          ((start.applyAll (.direct Float 3) strayMoves).derive (.direct Float 3)
              strayDesign).entries =
            (fresh.derive (.direct Float 3) strayDesign).entries := by
  have hrun : (Run.direct Float 3 : Run Float32 3).IgnoresScratch 5 :=
    Run.ignoresScratch_direct _ _ _
  obtain ⟨start, hstart, hnew, hforgets⟩ := derive_forgets (β := Float) (show 0 < 3 by decide)
    (.direct Float 3) 100 5 hrun .geometric .mean .forward
  obtain ⟨-, hcleared, hfresh⟩ := hforgets strayMoves strayDesign
  exact ⟨⟨by decide, hrun⟩, start, hstart, hnew, hcleared, hfresh⟩

end Stored

end Network

end AmbisonicReverb
