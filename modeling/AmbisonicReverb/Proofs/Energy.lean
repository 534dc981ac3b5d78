import Mathlib
import AmbisonicReverb.Proofs.Absorption
import AmbisonicReverb.Proofs.Flow
import AmbisonicReverb.Proofs.Lossless
import AmbisonicReverb.Proofs.Rest

/-!
# Energy in a feedback network

Read exactly, a feedback network without input loses energy in every step, in whatever state it is.
What is measured is `Network.stored`: the energy of all cells of the delay lines, and for each
reflection filter the energy that its registers can still give off (`Reflection.stored`).

* A rotation keeps the energy of a sample (`Sample.energy_rotate`), and the matrix that of a step
  (`sum_energy_mix`).
* A filter gives off or stores at most `g²` of what arrives (`Reflection.filter_energy`), which is
  the balance of its channels, added up.
* A path gives off at most what leaves its line, times `g²` (`Path.stored_step`).

Since all energy that leaves the paths is written back into them, a step costs a network at least
`1 - g²` of what it reads (`stored_process`).
-/

namespace AmbisonicReverb

open Finset

/-! ## Rotations -/

namespace Rotation

/-- The squared norm of the quaternion. -/
def normSq (q : Rotation ℝ) : ℝ := q.re ^ 2 + q.i ^ 2 + q.j ^ 2 + q.k ^ 2

theorem normSq_comp (p q : Rotation ℝ) : (p.comp q).normSq = p.normSq * q.normSq := by
  unfold normSq comp
  ring

theorem normSq_about {axis : Direction ℝ} (h : axis.x ^ 2 + axis.y ^ 2 + axis.z ^ 2 = 1)
    (angle : ℝ) : (about axis angle).normSq = 1 := by
  have hpythagoras := Real.cos_sq_add_sin_sq (angle / 2.0)
  show Real.cos (angle / 2.0) ^ 2 + (axis.x * Real.sin (angle / 2.0)) ^ 2 +
    (axis.y * Real.sin (angle / 2.0)) ^ 2 + (axis.z * Real.sin (angle / 2.0)) ^ 2 = 1
  linear_combination hpythagoras + Real.sin (angle / 2.0) ^ 2 * h

theorem normSq_pathRotation (d : NetworkDesign ℝ) (order k : Nat) :
    (d.pathRotation order k).normSq = 1 := by
  unfold NetworkDesign.pathRotation
  rw [normSq_comp, normSq_comp]
  unfold aboutZ aboutY aboutX
  rw [normSq_about (by norm_num), normSq_about (by norm_num), normSq_about (by norm_num)]
  norm_num

end Rotation

namespace Sample

/-- A rotation by a unit quaternion keeps the energy. -/
theorem energy_rotate {q : Rotation ℝ} (h : q.normSq = 1) (s : Sample ℝ) :
    (s.rotate q).energy = s.energy := by
  obtain ⟨w, x, y, z⟩ := s
  have hunit : q.re ^ 2 + q.i ^ 2 + q.j ^ 2 + q.k ^ 2 = 1 := h
  rw [energy_eq, energy_eq]
  simp only [rotate, ofDirection, direction, Rotation.apply, Rotation.imag, Direction.cross,
    Direction.add, Direction.scale]
  -- the factor is the squared length of twice the cross product of the axis and the direction
  linear_combination ((2 * (q.j * z - q.k * y)) ^ 2 + (2 * (q.k * x - q.i * z)) ^ 2 +
    (2 * (q.i * y - q.j * x)) ^ 2) * hunit

end Sample

/-! ## Reflections -/

namespace Reflection

variable {g c : ℝ} {f : Reflection ℝ}

/-- The energy that the registers of the filter can give off, for damping `c`. -/
noncomputable def stored (c : ℝ) (f : Reflection ℝ) : ℝ :=
  c / (1 - c) * f.lowpass.energy + (f.allpassIn - f.allpassOut * f.eta).energy / (1 - f.eta ^ 2)

theorem stored_eq_sum (c : ℝ) (f : Reflection ℝ) : f.stored c = ∑ a, f.held c a := by
  unfold stored held
  rw [Sample.energy_eq_sum, Sample.energy_eq_sum, mul_sum, sum_div, ← sum_add_distrib]
  refine sum_congr rfl fun a _ => ?_
  rw [Sample.channel_sub, Sample.channel_mul, mul_comm f.eta]

theorem stored_nonneg (h : f.Tuned g c) : 0 ≤ f.stored c := by
  rw [stored_eq_sum]
  exact sum_nonneg fun a _ => held_nonneg h a

theorem filter_energy (h : f.Tuned g c) (s : Sample ℝ) :
    (f.filter s).1.energy + (f.filter s).2.stored c ≤ g ^ 2 * s.energy + f.stored c := by
  rw [stored_eq_sum, stored_eq_sum, Sample.energy_eq_sum, Sample.energy_eq_sum, mul_sum,
    ← sum_add_distrib, ← sum_add_distrib]
  refine sum_le_sum fun a _ => ?_
  linarith [filter_balance h s a, lost_nonneg h s a]

end Reflection

/-! ## Paths -/

namespace DelayLine

variable {S : Type} (d : DelayLine S) (s : S)

theorem toList_cells_push : (d.push s).cells.toList = d.cells.toList.set d.position s :=
  Array.toList_set d.cells d.position s d.position_lt_size

theorem mem_cells_push : s ∈ (d.push s).cells.toList := by
  rw [toList_cells_push]
  exact List.mem_set d.position_lt_size s

theorem sum_map_push (f : S → ℝ) :
    ((d.push s).cells.toList.map f).sum = (d.cells.toList.map f).sum - f d.read + f s := by
  have hlt : d.position < (d.cells.toList.map f).length := by simpa using d.position_lt_size
  have hread : (d.cells.toList.map f)[d.position] = f d.read := by simp [read]
  rw [toList_cells_push, List.map_set, List.sum_set', dif_pos hlt, hread]
  ring

end DelayLine

namespace Path

variable {g c : ℝ} {p : Path ℝ}

/-- What a derivation with gain `g` and damping `c` makes of a path. -/
structure Tuned (g c : ℝ) (p : Path ℝ) : Prop where
  b1_eq : p.reflection.b1 = g * (1 - c)
  a2_eq : p.reflection.a2 = -c
  eta_sq_lt : p.reflection.eta ^ 2 < 1
  normSq_eq : p.rotation.normSq = 1

/-- The energy in the path: that of all cells, and what the filter has stored. -/
noncomputable def stored (c : ℝ) (p : Path ℝ) : ℝ :=
  (p.line.cells.toList.map Sample.energy).sum + p.reflection.stored c

theorem Tuned.reflection (h : p.Tuned g c) (hlow : 0 ≤ c) (hhigh : c < 1) :
    p.reflection.Tuned g c :=
  ⟨h.b1_eq, h.a2_eq, hlow, hhigh, h.eta_sq_lt⟩

theorem Tuned.of_rest (h : p.rest.Tuned g c) : p.Tuned g c :=
  ⟨h.b1_eq, h.a2_eq, h.eta_sq_lt, h.normSq_eq⟩

theorem Tuned.rest (h : p.Tuned g c) : p.rest.Tuned g c :=
  ⟨h.b1_eq, h.a2_eq, h.eta_sq_lt, h.normSq_eq⟩

/-- What a path gives off and keeps is at most what is fed to it and what it had, less the loss of
its reflection. -/
theorem stored_step (h : p.Tuned g c) (hlow : 0 ≤ c) (hhigh : c < 1) (s : Sample ℝ) :
    (p.step .feedback s).output.energy + (p.step .feedback s).stored c +
        (1 - g ^ 2) * p.line.read.energy ≤ s.energy + p.stored c := by
  have hfilter := Reflection.filter_energy (h.reflection hlow hhigh) p.line.read
  rw [step_eq]
  unfold stored
  simp only [arrival]
  rw [Sample.energy_rotate h.normSq_eq, DelayLine.sum_map_push]
  linarith

theorem stored_nonneg (h : p.Tuned g c) (hlow : 0 ≤ c) (hhigh : c < 1) : 0 ≤ p.stored c := by
  have hcells : 0 ≤ (p.line.cells.toList.map Sample.energy).sum := by
    refine List.sum_nonneg fun e he => ?_
    obtain ⟨s, -, rfl⟩ := List.mem_map.mp he
    exact s.energy_nonneg
  exact add_nonneg hcells (Reflection.stored_nonneg (h.reflection hlow hhigh))

theorem Tuned.step (h : p.Tuned g c) (s : Sample ℝ) : (p.step .feedback s).Tuned g c := by
  have hrest : (p.step .feedback s).rest = p.rest := rest_step _ p s
  exact Tuned.of_rest (hrest ▸ h.rest)

/-- What was written last is still there. -/
theorem energy_le_stored_step (h : p.Tuned g c) (hlow : 0 ≤ c) (hhigh : c < 1) (s : Sample ℝ) :
    s.energy ≤ (p.step .feedback s).stored c := by
  have hcells : s.energy ≤ ((p.line.push s).cells.toList.map Sample.energy).sum := by
    refine List.single_le_sum (fun e he => ?_) _ (List.mem_map_of_mem (p.line.mem_cells_push s))
    obtain ⟨t, -, rfl⟩ := List.mem_map.mp he
    exact t.energy_nonneg
  have hfilter : 0 ≤ (p.step .feedback s).reflection.stored c :=
    Reflection.stored_nonneg ((h.step s).reflection hlow hhigh)
  show s.energy ≤ ((p.line.push s).cells.toList.map Sample.energy).sum + _
  linarith

end Path

/-! ## Mixtures -/

theorem map_sumTo (value : Sample ℝ → ℝ) (hzero : value 0 = 0)
    (hadd : ∀ s t, value (s + t) = value s + value t) (m : Nat) (f : Nat → Sample ℝ) :
    value (sumTo m f) = ∑ j ∈ range m, value (f j) := by
  unfold sumTo
  rw [foldl_range_eq_sum value (fun s k => hadd s (f k)), hzero, zero_add]

/-- The matrix mixes samples without loss. -/
theorem sum_energy_mix {m : Nat} [NeZero m] (l : Circulant.Layout) (s : Nat → Sample ℝ) :
    ∑ k ∈ range m, (sumTo m fun j => s j * Circulant.entry l m k j).energy =
      ∑ j ∈ range m, (s j).energy := by
  have hchannel : ∀ a : Channel,
      ∑ k ∈ range m, (sumTo m fun j => s j * Circulant.entry l m k j).channel a ^ 2 =
        ∑ j ∈ range m, (s j).channel a ^ 2 := by
    intro a
    simp only [map_sumTo (fun s => s.channel a) (Sample.channel_zero a)
      fun s t => Sample.channel_add s t a, Sample.channel_mul]
    exact Circulant.sum_sq_mix l fun j => (s j).channel a
  simp only [Sample.energy_eq_sum]
  exact sum_comm.trans ((sum_congr rfl fun a _ => hchannel a).trans sum_comm)

/-! ## Networks -/

namespace Network

variable {c : ℝ} {n : Network ℝ}

/-- What a derivation with damping `c` makes of a feedback network. -/
structure Tuned (c : ℝ) (n : Network ℝ) : Prop where
  mode_eq : n.mode = .feedback
  order_pos : 0 < n.order
  damping_nonneg : 0 ≤ c
  damping_lt : c < 1
  gain_mem : n.gain ∈ Set.Icc (0 : ℝ) 1
  matrix_eq : ∃ l, n.matrix = Circulant.matrix l (Circulant.row n.order)
  paths : ∀ p ∈ n.paths, p.Tuned n.gain c

/-- The energy in the network, for damping `c`. -/
noncomputable def stored (c : ℝ) (n : Network ℝ) : ℝ := (n.paths.toList.map (Path.stored c)).sum

/-- The energy that a step reads from the delay lines. -/
noncomputable def leaving (n : Network ℝ) : ℝ :=
  (n.paths.toList.map fun p => p.line.read.energy).sum

/-- What a derivation with damping `c` makes of a network of any mode. -/
structure Derived (c : ℝ) (n : Network ℝ) : Prop where
  order_pos : 0 < n.order
  damping_nonneg : 0 ≤ c
  damping_lt : c < 1
  matrix_eq : ∃ l, n.matrix = Circulant.matrix l (Circulant.row n.order)
  paths : ∀ p ∈ n.paths, p.Tuned n.gain c

theorem Tuned.derived (h : n.Tuned c) : n.Derived c :=
  ⟨h.order_pos, h.damping_nonneg, h.damping_lt, h.matrix_eq, h.paths⟩

theorem Derived.of_rest {m : Network ℝ} (h : m.Derived c) (hrest : n.rest = m.rest) :
    n.Derived c := by
  have horder := order_eq_of_rest_eq hrest
  have hgain := gain_eq_of_rest_eq hrest
  refine ⟨horder ▸ h.order_pos, h.damping_nonneg, h.damping_lt, ?_, fun p hp => ?_⟩
  · rw [horder, matrix_eq_of_rest_eq hrest]
    exact h.matrix_eq
  · obtain ⟨k, hk⟩ := Array.mem_iff_getElem?.mp hp
    obtain ⟨q, hq, hqp⟩ := exists_path_of_rest_eq hrest hk
    have htuned : q.Tuned n.gain c := hgain ▸ h.paths q (Array.mem_of_getElem? hq)
    exact Path.Tuned.of_rest (hqp ▸ htuned.rest)

theorem Tuned.of_rest {m : Network ℝ} (h : m.Tuned c) (hrest : n.rest = m.rest) : n.Tuned c := by
  have hderived := h.derived.of_rest hrest
  exact ⟨(congrArg mode hrest).trans h.mode_eq, hderived.order_pos, h.damping_nonneg, h.damping_lt,
    gain_eq_of_rest_eq hrest ▸ h.gain_mem, hderived.matrix_eq, hderived.paths⟩

theorem Derived.size_matrix (h : n.Derived c) : n.matrix.size = n.order := by
  obtain ⟨l, hmatrix⟩ := h.matrix_eq
  rw [hmatrix, Circulant.size_matrix, Circulant.size_row]

theorem Derived.size_row (h : n.Derived c) : ∀ r ∈ n.matrix, r.size = n.order := by
  intro r hr
  obtain ⟨l, hmatrix⟩ := h.matrix_eq
  rw [hmatrix] at hr
  rw [Circulant.size_of_mem_matrix l _ hr, Circulant.size_row]

/-- What a path is fed is the mixture of the equations. -/
theorem Derived.fed_eq_inflow (h : n.Derived c) {sources : Array (Sample ℝ)}
    (hs : sources.size = n.order) {k : Nat} (hk : k < n.order) :
    n.fed sources k =
      n.inflow (fun j _ => sources.getD j 0) (n.signal fun _ => sources) k 0 :=
  feeds_eq_inflow h.size_matrix h.size_row (fun _ => hs) hk 0

theorem designGain_mem (n : Network ℝ) (d : NetworkDesign ℝ) :
    n.designGain d ∈ Set.Icc (0 : ℝ) 1 := by
  unfold designGain GainMethod.gain
  simp only [Scalar.isFinite_eq, if_true]
  exact Scalar.clamp_mem zero_le_one _

theorem fraction_mem {order k : Nat} (hk : k < order) :
    (NetworkDesign.fraction order k : ℝ) ∈ Set.Icc (0 : ℝ) 1 := by
  unfold NetworkDesign.fraction
  by_cases h : 1 < order
  · have hpos : (0 : ℝ) < order - 1 := by
      have : (1 : ℝ) < order := by exact_mod_cast h
      linarith
    have hle : (k : ℝ) ≤ order - 1 := by
      have : (k : ℝ) + 1 ≤ order := by exact_mod_cast hk
      linarith
    rw [if_pos h, Scalar.ofNat_eq, Scalar.ofNat_eq]
    exact ⟨div_nonneg (Nat.cast_nonneg k) hpos.le, (div_le_one hpos).mpr hle⟩
  · rw [if_neg h]
    exact ⟨le_refl 0, zero_le_one⟩

theorem derived_derive (hpos : 0 < n.order) (d : NetworkDesign ℝ) (hlow : 0 ≤ d.damping)
    (hhigh : d.damping < 1) : (n.derive d).Derived d.damping := by
  refine ⟨(order_derive n d).symm ▸ hpos, hlow, hhigh, ?_, ?_⟩
  · rw [order_derive]
    exact ⟨d.layout, rfl⟩
  · intro p hp
    obtain ⟨k, q, hq, rfl⟩ := exists_of_mem_derive_paths hp
    have hlt : k < n.order := (Array.getElem?_eq_some_iff.mp hq).1
    obtain ⟨hfraction, hone⟩ := fraction_mem hlt
    refine ⟨rfl, rfl, ?_, Rotation.normSq_pathRotation d n.order k⟩
    show ((0.87 : ℝ) * NetworkDesign.fraction n.order k) ^ 2 < 1
    refine pow_lt_one₀ (mul_nonneg (by norm_num) hfraction) ?_ two_ne_zero
    norm_num
    linarith

theorem tuned_derive (hmode : n.mode = .feedback) (hpos : 0 < n.order) (d : NetworkDesign ℝ)
    (hlow : 0 ≤ d.damping) (hhigh : d.damping < 1) : (n.derive d).Tuned d.damping := by
  have hderived := derived_derive hpos d hlow hhigh
  exact ⟨hmode, hderived.order_pos, hlow, hhigh, designGain_mem n d, hderived.matrix_eq,
    hderived.paths⟩

/-- The input that is no input. -/
noncomputable def silence (n : Network ℝ) : Array (Sample ℝ) := Array.replicate n.order 0

/-- Without input the paths are fed with the mixture of their outputs. -/
theorem fed_silence (h : n.Tuned c) {l : Circulant.Layout}
    (hmatrix : n.matrix = Circulant.matrix l (Circulant.row n.order)) {k : Nat} (hk : k < n.order) :
    n.fed n.silence k =
      sumTo n.order fun j => (n.process n.silence).outputs.getD j 0 *
        Circulant.entry l n.order k j := by
  have hsize : n.silence.size = n.order := Array.size_replicate
  rw [h.derived.fed_eq_inflow hsize hk]
  unfold inflow
  rw [h.mode_eq]
  refine sumTo_congr fun j hj => ?_
  have hsilent : n.silence.getD j 0 = 0 := by simp [silence, hj]
  simp only [hsilent, Sample.add_silence]
  unfold entry
  rw [hmatrix]
  rfl

theorem sum_paths_eq (n : Network ℝ) (f : Path ℝ → ℝ) :
    (n.paths.toList.map f).sum = ∑ k ∈ range n.order, (n.paths[k]?.map f).getD 0 := by
  rw [← List.ofFn_getElem_eq_map, List.sum_ofFn, sum_range]
  refine (Fin.sum_congr' _ Array.length_toList).symm.trans (sum_congr rfl fun k _ => ?_)
  have hk : k.val < n.paths.size := k.isLt
  simp [hk]

/-- The output of a path after a step. -/
theorem getD_outputs_process (n : Network ℝ) (sources : Array (Sample ℝ)) {k : Nat} {p : Path ℝ}
    (hp : n.paths[k]? = some p) :
    (n.process sources).outputs.getD k 0 = (p.step n.mode (n.fed sources k)).output := by
  rw [Array.getD_eq_getD_getElem?, outputs, Array.getElem?_map, getElem?_process_paths, hp]
  rfl

/-- The steps of the paths, added up. -/
theorem sum_step_le (n : Network ℝ) (sources : Array (Sample ℝ)) (w : ℝ)
    (before after cost : Path ℝ → ℝ) (h : ∀ k p, n.paths[k]? = some p →
      (p.step n.mode (n.fed sources k)).output.energy +
          after (p.step n.mode (n.fed sources k)) + cost p ≤
        w * (n.fed sources k).energy + before p) :
    ∑ k ∈ range n.order, ((n.process sources).outputs.getD k 0).energy +
        ((n.process sources).paths.toList.map after).sum + (n.paths.toList.map cost).sum ≤
      w * ∑ k ∈ range n.order, (n.fed sources k).energy + (n.paths.toList.map before).sum := by
  rw [sum_paths_eq, sum_paths_eq, sum_paths_eq, order_process, mul_sum, ← sum_add_distrib,
    ← sum_add_distrib, ← sum_add_distrib]
  refine sum_le_sum fun k hk => ?_
  obtain ⟨p, hp⟩ : ∃ p, n.paths[k]? = some p := ⟨_, Array.getElem?_eq_getElem (mem_range.mp hk)⟩
  simp only [getElem?_process_paths, getD_outputs_process n sources hp, hp, Option.map_some,
    Option.getD_some]
  exact h k p hp

/-- What the paths give off comes back to them. -/
theorem sum_energy_fed (h : n.Tuned c) :
    ∑ k ∈ range n.order, (n.fed n.silence k).energy =
      ∑ k ∈ range n.order, ((n.process n.silence).outputs.getD k 0).energy := by
  obtain ⟨l, hmatrix⟩ := h.matrix_eq
  have : NeZero n.order := ⟨h.order_pos.ne'⟩
  rw [← sum_energy_mix l fun k => (n.process n.silence).outputs.getD k 0]
  refine sum_congr rfl fun k hk => ?_
  rw [fed_silence h hmatrix (mem_range.mp hk)]

/-- **A step loses energy.** Without input, a step costs the network at least the share `1 - g²` of
what it reads. -/
theorem stored_process (h : n.Tuned c) :
    (n.process n.silence).stored c + (1 - n.gain ^ 2) * n.leaving ≤ n.stored c := by
  let loss (p : Path ℝ) : ℝ := (1 - n.gain ^ 2) * p.line.read.energy
  have hsum := sum_step_le n n.silence 1 (Path.stored c) (Path.stored c) loss fun k p hp => by
    rw [h.mode_eq, one_mul]
    exact Path.stored_step (h.paths p (Array.mem_of_getElem? hp)) h.damping_nonneg h.damping_lt _
  simp only [loss, List.sum_map_mul_left, sum_energy_fed h] at hsum
  unfold stored leaving
  linarith

theorem Tuned.process (h : n.Tuned c) (sources : Array (Sample ℝ)) : (n.process sources).Tuned c :=
  h.of_rest (rest_process n sources)

theorem stored_nonneg (h : n.Tuned c) : 0 ≤ n.stored c := by
  refine List.sum_nonneg fun e he => ?_
  obtain ⟨p, hp, rfl⟩ := List.mem_map.mp he
  exact Path.stored_nonneg (h.paths p (Array.mem_toList_iff.mp hp)) h.damping_nonneg h.damping_lt

/-- All that the paths give off in a step is in the network after it. -/
theorem energy_output_le (h : n.Tuned c) (k : Nat) :
    ((n.process n.silence).outputs.getD k 0).energy ≤ (n.process n.silence).stored c := by
  have hsize : (n.process n.silence).outputs.size = n.order :=
    Array.size_map.trans (order_process n n.silence)
  by_cases hk : k < n.order
  · have hwritten : ∀ i ∈ range n.order, (n.fed n.silence i).energy ≤
        ((n.process n.silence).paths[i]?.map (Path.stored c)).getD 0 := by
      intro i hi
      obtain ⟨p, hp⟩ : ∃ p, n.paths[i]? = some p :=
        ⟨_, Array.getElem?_eq_getElem (mem_range.mp hi)⟩
      have hstep := Path.energy_le_stored_step (h.paths p (Array.mem_of_getElem? hp))
        h.damping_nonneg h.damping_lt (n.fed n.silence i)
      rw [getElem?_process_paths, hp, h.mode_eq]
      exact hstep
    calc ((n.process n.silence).outputs.getD k 0).energy
        ≤ ∑ i ∈ range n.order, ((n.process n.silence).outputs.getD i 0).energy :=
          single_le_sum (f := fun i => ((n.process n.silence).outputs.getD i 0).energy)
            (fun i _ => Sample.energy_nonneg _) (mem_range.mpr hk)
      _ = ∑ i ∈ range n.order, (n.fed n.silence i).energy := (sum_energy_fed h).symm
      _ ≤ ∑ i ∈ range n.order, ((n.process n.silence).paths[i]?.map (Path.stored c)).getD 0 :=
          sum_le_sum hwritten
      _ = (n.process n.silence).stored c := by
          unfold stored
          rw [sum_paths_eq, order_process]
  · have hnone : (n.process n.silence).outputs.getD k 0 = 0 := by
      rw [Array.getD_eq_getD_getElem?, Array.getElem?_eq_none (by omega), Option.getD_none]
    rw [hnone, Sample.energy_zero]
    exact stored_nonneg (h.process n.silence)

/-! ## Runs without input -/

/-- The network after `t` steps without input. -/
noncomputable def quiet (n : Network ℝ) (t : Nat) : Network ℝ := n.run (fun _ => n.silence) t

theorem tuned_quiet (h : n.Tuned c) (t : Nat) : (n.quiet t).Tuned c :=
  h.of_rest (rest_run n _ t)

theorem quiet_succ (n : Network ℝ) (t : Nat) :
    n.quiet (t + 1) = (n.quiet t).process (n.quiet t).silence := by
  have horder : (n.quiet t).order = n.order := order_eq_of_rest_eq (rest_run n _ t)
  unfold silence
  rw [horder]
  rfl

/-- A step without input loses energy. -/
theorem stored_quiet_succ (h : n.Tuned c) (t : Nat) :
    (n.quiet (t + 1)).stored c + (1 - n.gain ^ 2) * (n.quiet t).leaving ≤ (n.quiet t).stored c := by
  have hgain : (n.quiet t).gain = n.gain := gain_eq_of_rest_eq (rest_run n _ t)
  rw [quiet_succ, ← hgain]
  exact stored_process (tuned_quiet h t)

/-- The network, left to itself, only loses energy. -/
structure Dissipates (c : ℝ) (n : Network ℝ) : Prop where
  gain_mem : n.gain ∈ Set.Icc (0 : ℝ) 1
  /-- The energy never grows. -/
  stored_succ_le : ∀ t, (n.quiet (t + 1)).stored c ≤ (n.quiet t).stored c
  /-- No output has more energy than there was at first. -/
  output_le : ∀ k t, ((n.quiet (t + 1)).outputs.getD k 0).energy ≤ n.stored c
  /-- When reflections absorb, what is ever read is bounded. -/
  leaving_le : n.gain < 1 → ∀ T, ∑ t ∈ range T, (n.quiet t).leaving ≤ n.stored c / (1 - n.gain ^ 2)

/-- The balance of a run: what is left, and the loss on all that was read. -/
theorem stored_quiet (h : n.Tuned c) (T : Nat) :
    (n.quiet T).stored c + (1 - n.gain ^ 2) * ∑ t ∈ range T, (n.quiet t).leaving ≤ n.stored c := by
  induction T with
  | zero =>
    rw [sum_range_zero, mul_zero, add_zero]
    exact le_refl _
  | succ T ih =>
    rw [sum_range_succ, mul_add]
    linarith [stored_quiet_succ h T]

theorem Tuned.dissipates (h : n.Tuned c) : n.Dissipates c := by
  obtain ⟨hgain, hone⟩ := h.gain_mem
  have hshare : 0 ≤ 1 - n.gain ^ 2 := by nlinarith
  have hread : ∀ m : Network ℝ, 0 ≤ m.leaving := by
    intro m
    refine List.sum_nonneg fun e he => ?_
    obtain ⟨p, -, rfl⟩ := List.mem_map.mp he
    exact Sample.energy_nonneg _
  have hbound : ∀ t, (n.quiet t).stored c ≤ n.stored c := by
    intro t
    have hloss := mul_nonneg hshare (sum_nonneg fun s (_ : s ∈ range t) => hread (n.quiet s))
    linarith [stored_quiet h t]
  refine ⟨h.gain_mem, fun t => ?_, fun k t => ?_, fun hlt T => ?_⟩
  · linarith [stored_quiet_succ h t, mul_nonneg hshare (hread (n.quiet t))]
  · rw [quiet_succ]
    refine (energy_output_le (tuned_quiet h t) k).trans ?_
    rw [← quiet_succ]
    exact hbound (t + 1)
  · have hpos : 0 < 1 - n.gain ^ 2 := by nlinarith
    rw [le_div_iff₀ hpos, mul_comm]
    linarith [stored_quiet h T, stored_nonneg (tuned_quiet h T)]

/-- **Energy never grows.** A feedback network derived from any design with damping below 1, in any
state of its signals, loses energy when it is left to itself. -/
theorem dissipates_derive_new {order : Nat} (h : 0 < order) (maxDelay : Nat) (law : DelayLaw)
    (method : GainMethod) (design : NetworkDesign ℝ) (hlow : 0 ≤ design.damping)
    (hhigh : design.damping < 1) :
    ∃ n₀ : Network ℝ, Network.new order maxDelay law method .feedback = .ok n₀ ∧
      ∀ n : Network ℝ, n.rest = (n₀.derive design).rest → n.Dissipates design.damping := by
  obtain ⟨n₀, hn, horder, hmode, -⟩ := exists_new h maxDelay law method .feedback (α := ℝ)
  have htuned : (n₀.derive design).Tuned design.damping :=
    tuned_derive hmode (horder ▸ h) design hlow hhigh
  exact ⟨n₀, hn, fun n hrest => (htuned.of_rest hrest).dissipates⟩

/-- The design of a small damped hall. -/
noncomputable def smallHall : NetworkDesign ℝ where
  turn := 1 / Scalar.ofNat 4
  spread := 1
  shortest := Scalar.ofNat 10
  longest := Scalar.ofNat 40
  decayTime := Scalar.ofNat 500
  damping := 1 / Scalar.ofNat 3
  layout := .legacy
  truncateForward := false

theorem dissipates_derive_new_three :
    (0 < 3 ∧ 0 ≤ smallHall.damping ∧ smallHall.damping < 1) ∧
      ∃ n₀ : Network ℝ, Network.new 3 100 .geometric .schroeder .feedback = .ok n₀ ∧
        ∀ n : Network ℝ, n.rest = (n₀.derive smallHall).rest → n.Dissipates smallHall.damping := by
  have hlow : 0 ≤ smallHall.damping := by norm_num [smallHall, Scalar.ofNat_eq]
  have hhigh : smallHall.damping < 1 := by norm_num [smallHall, Scalar.ofNat_eq]
  exact ⟨⟨by decide, hlow, hhigh⟩,
    dissipates_derive_new (by decide) 100 .geometric .schroeder smallHall hlow hhigh⟩

end Network

end AmbisonicReverb
