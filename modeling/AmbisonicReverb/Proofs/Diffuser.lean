import Mathlib
import AmbisonicReverb.Proofs.History
import AmbisonicReverb.Proofs.Onset

/-!
# Diffusers

A forward network is a diffuser: it spreads a sound over its paths and has no way back. Read
exactly, it gives off no more energy than it was given, at any time, and it comes to rest.

**Theorem (`diffuser_derive`).** Whatever happened to a forward network, after a derivation with
gain `g` and any samples its outputs have at most `g²` times the energy of its sources. When the
sources end, each delay line is silent after as many steps as it is long.

In a step the head moves on before it reads, so that a line holds back the energy of all cells but
that one (`DelayLine.waiting_push`). A path gives off at most `g²` of what comes out of its line
(`Path.carried_step`), and the matrix keeps the energy of a step. In a cascade the outputs of a
diffuser are the sources of the next one, and the bounds multiply (`energy_chainOut_le`).
-/

namespace AmbisonicReverb

open Finset

/-! ## Lines -/

namespace DelayLine

/-- The energy of all cells but the one under the head. -/
noncomputable def waiting (d : DelayLine (Sample ℝ)) : ℝ :=
  (d.cells.toList.map Sample.energy).sum - d.read.energy

theorem waiting_nonneg (d : DelayLine (Sample ℝ)) : 0 ≤ d.waiting := by
  have hread : d.read ∈ d.cells.toList := Array.getElem_mem_toList d.position_lt_size
  refine sub_nonneg.mpr (List.single_le_sum (fun e he => ?_) _ (List.mem_map_of_mem hread))
  obtain ⟨s, -, rfl⟩ := List.mem_map.mp he
  exact s.energy_nonneg

theorem Silent.waiting_eq {d : DelayLine (Sample ℝ)} (h : d.Silent) : d.waiting = 0 := by
  have hsum : (d.cells.toList.map Sample.energy).sum = 0 := by
    refine List.sum_eq_zero fun e he => ?_
    obtain ⟨s, hs, rfl⟩ := List.mem_map.mp he
    rw [h s (Array.mem_toList_iff.mp hs), Sample.energy_zero]
  unfold waiting
  rw [hsum, h.read, Sample.energy_zero, sub_zero]

/-- A push puts the energy of the new sample into the line and brings another cell under the
head. -/
theorem waiting_push (d : DelayLine (Sample ℝ)) (s : Sample ℝ) :
    (d.push s).read.energy + (d.push s).waiting = s.energy + d.waiting := by
  unfold waiting
  rw [sum_map_push]
  ring

section

variable {S : Type} {d : DelayLine S}

/-- The head comes to every cell in use. -/
theorem exists_ahead (h : d.Inside) {j : ℕ} (hj : j < d.length) :
    ∃ i < d.length, d.cells[j]? = some (d.ahead i) := by
  have hpos : d.position < d.length := h
  let i : ℕ := if j ≤ d.position then d.position - j else d.position + d.length - j
  have hi : i < d.length := by
    simp only [i]
    split_ifs <;> omega
  have hback : (advance^[i] d).position = j := by
    rw [position_iterate_advance h hi.le]
    simp only [i]
    split_ifs <;> omega
  refine ⟨i, hi, ?_⟩
  rw [← getElem?_iterate_advance, hback]

variable [Zero S] {f : ℕ → S} {T t : ℕ}

/-- What a line shows is silence as soon as silence was pushed as often as it is long. A push that
is lost, with the head outside, was the first one, and there was only silence then. -/
theorem ahead_pushes_eq_zero (hsilent : d.Silent) (hf : ∀ s, T ≤ s → f s = 0)
    (ht : T + d.length ≤ t) {i : ℕ} (hi : i < d.length) : (d.pushes f t).ahead i = 0 := by
  have h2 := d.two_le_length
  by_cases hin : d.Inside
  · rw [ahead_pushes hin f t hi, if_neg (by omega)]
    exact hf _ (by omega)
  · obtain ⟨t, rfl⟩ : ∃ t', t = t' + 1 := ⟨t - 1, by omega⟩
    rw [pushes_succ', ahead_pushes (inside_push d (f 0)) _ t hi]
    show (if t + i < d.length then (d.push (f 0)).ahead (t + i) else f (t + i - d.length + 1)) = 0
    split_ifs with hshort
    · rw [ahead_push_of_not_inside hin, hsilent.ahead]
    · exact hf _ (by omega)

theorem getElem?_cells_pushes (hsilent : d.Silent) (hf : ∀ s, T ≤ s → f s = 0)
    (ht : T + d.length ≤ t) {j : ℕ} (hj : j < d.length) : (d.pushes f t).cells[j]? = some 0 := by
  have h2 := d.two_le_length
  have hlen := length_pushes d f t
  obtain ⟨t', rfl⟩ : ∃ t', t = t' + 1 := ⟨t - 1, by omega⟩
  obtain ⟨i, hi, hcell⟩ := exists_ahead (inside_push (d.pushes f t') (f t')) (hlen.symm ▸ hj)
  have hzero := ahead_pushes_eq_zero hsilent hf ht (hlen ▸ hi)
  exact hcell.trans (congrArg some hzero)

end

end DelayLine

/-! ## Paths -/

namespace Path

variable {g c : ℝ} {p : Path ℝ}

/-- The most energy that a forward path can still give off. -/
noncomputable def carried (g c : ℝ) (p : Path ℝ) : ℝ :=
  g ^ 2 * p.line.waiting + p.reflection.stored c

theorem carried_nonneg (h : p.Tuned g c) (hlow : 0 ≤ c) (hhigh : c < 1) : 0 ≤ p.carried g c :=
  add_nonneg (mul_nonneg (sq_nonneg g) p.line.waiting_nonneg)
    (Reflection.stored_nonneg (h.reflection hlow hhigh))

/-- What a forward path gives off and can still give off is at most `g²` times what it is fed, and
what it could give off before. -/
theorem carried_step (h : p.Tuned g c) (hlow : 0 ≤ c) (hhigh : c < 1) (s : Sample ℝ) :
    (p.step .forward s).output.energy + (p.step .forward s).carried g c ≤
      g ^ 2 * s.energy + p.carried g c := by
  have hline : g ^ 2 * (p.line.push s).read.energy + g ^ 2 * (p.line.push s).waiting =
      g ^ 2 * s.energy + g ^ 2 * p.line.waiting := by
    rw [← mul_add, DelayLine.waiting_push, mul_add]
  have hfilter := Reflection.filter_energy (h.reflection hlow hhigh) (p.line.push s).read
  rw [step_eq]
  unfold carried
  simp only [arrival]
  rw [Sample.energy_rotate h.normSq_eq]
  linarith

end Path

/-! ## Networks -/

/-- The energy of the first `m` samples together. -/
noncomputable def energyTo (m : ℕ) (samples : Array (Sample ℝ)) : ℝ :=
  ∑ k ∈ range m, (samples.getD k 0).energy

namespace Network

variable {c : ℝ} {n : Network ℝ} {sources : Array (Sample ℝ)} {src : ℕ → Array (Sample ℝ)}

/-- The most energy that a forward network can still give off. -/
noncomputable def carried (c : ℝ) (n : Network ℝ) : ℝ :=
  (n.paths.toList.map (Path.carried n.gain c)).sum

theorem carried_nonneg (h : n.Derived c) : 0 ≤ n.carried c := by
  refine List.sum_nonneg fun e he => ?_
  obtain ⟨p, hp, rfl⟩ := List.mem_map.mp he
  exact Path.carried_nonneg (h.paths p (Array.mem_toList_iff.mp hp)) h.damping_nonneg h.damping_lt

/-- The paths are fed with the energy of the sources. -/
theorem sum_energy_fed_forward (h : n.Derived c) (hmode : n.mode = .forward)
    (hs : sources.size = n.order) :
    ∑ k ∈ range n.order, (n.fed sources k).energy = energyTo n.order sources := by
  obtain ⟨l, hmatrix⟩ := h.matrix_eq
  have : NeZero n.order := ⟨h.order_pos.ne'⟩
  have hfed : ∀ k < n.order, n.fed sources k =
      sumTo n.order fun j => sources.getD j 0 * Circulant.entry l n.order k j := by
    intro k hk
    rw [h.fed_eq_inflow hs hk]
    unfold inflow entry
    rw [hmode, hmatrix]
    rfl
  unfold energyTo
  rw [← sum_energy_mix l fun j => sources.getD j 0]
  exact sum_congr rfl fun k hk => congrArg Sample.energy (hfed k (mem_range.mp hk))

/-- **A step adds no energy.** -/
theorem carried_process (h : n.Derived c) (hmode : n.mode = .forward)
    (hs : sources.size = n.order) :
    energyTo n.order (n.process sources).outputs + (n.process sources).carried c ≤
      n.gain ^ 2 * energyTo n.order sources + n.carried c := by
  have hgain := gain_eq_of_rest_eq (rest_process n sources)
  have hsum := sum_step_le n sources (n.gain ^ 2) (Path.carried n.gain c) (Path.carried n.gain c)
    (fun _ => 0) fun k p hp => by
      rw [hmode, add_zero]
      exact Path.carried_step (h.paths p (Array.mem_of_getElem? hp)) h.damping_nonneg h.damping_lt _
  rw [List.map_const', List.sum_replicate, smul_zero, add_zero, sum_energy_fed_forward h hmode hs]
    at hsum
  unfold carried
  rw [hgain]
  exact hsum

/-- **A run adds no energy.** -/
theorem carried_run (h : n.Derived c) (hmode : n.mode = .forward)
    (hs : ∀ t, (src t).size = n.order) (N : ℕ) :
    ∑ t ∈ range N, energyTo n.order (n.run src (t + 1)).outputs + (n.run src N).carried c ≤
      n.gain ^ 2 * ∑ t ∈ range N, energyTo n.order (src t) + n.carried c := by
  induction N with
  | zero => simp [run]
  | succ N ih =>
    have hrest := rest_run n src N
    have horder := order_eq_of_rest_eq hrest
    have hstep := carried_process (h.of_rest hrest) ((run_mode n src N).trans hmode)
      ((hs N).trans horder.symm)
    rw [horder, gain_eq_of_rest_eq hrest] at hstep
    have hstep : energyTo n.order (n.run src (N + 1)).outputs + (n.run src (N + 1)).carried c ≤
        n.gain ^ 2 * energyTo n.order (src N) + (n.run src N).carried c := hstep
    rw [sum_range_succ, sum_range_succ, mul_add]
    linarith

/-- A forward network that gives off no more energy than it is given, and falls silent after its
sources. -/
structure Diffuser (order : ℕ) (n : Network ℝ) : Prop where
  order_eq : n.order = order
  mode_eq : n.mode = .forward
  sum_energy_le : ∀ src : ℕ → Array (Sample ℝ), (∀ t, (src t).size = order) → ∀ N,
    ∑ t ∈ range N, energyTo order (n.run src (t + 1)).outputs ≤
      n.gain ^ 2 * ∑ t ∈ range N, energyTo order (src t)
  /-- After as many steps without a source as a line is long, all its cells in use are silent. The
  longest line is the last one. -/
  silent : ∀ (src : ℕ → Array (Sample ℝ)) (T : ℕ), (∀ t, T ≤ t → ∀ s ∈ src t, s = 0) →
    ∀ t, ∀ p ∈ (n.run src t).paths, T + p.line.length ≤ t →
      ∀ j < p.line.length, p.line.cells[j]? = some 0

theorem Still.carried_eq (h : n.Still) (c : ℝ) : n.carried c = 0 := by
  refine List.sum_eq_zero fun e he => ?_
  obtain ⟨p, hp, rfl⟩ := List.mem_map.mp he
  have hp : p ∈ n.paths := Array.mem_toList_iff.mp hp
  have hstored : p.reflection.stored c = 0 := by
    rw [← h.reflection p hp, Reflection.stored_eq_sum]
    exact sum_eq_zero fun a _ => Reflection.held_reset c p.reflection a
  unfold Path.carried
  rw [(h.silent p hp).waiting_eq, hstored, mul_zero, add_zero]

theorem Still.diffuser (hstill : n.Still) (h : n.Derived c) (hmode : n.mode = .forward) :
    n.Diffuser n.order := by
  refine ⟨rfl, hmode, fun src hs N => ?_, fun src T hsrc t p hp ht j hj => ?_⟩
  · have hrun := carried_run h hmode hs N
    rw [hstill.carried_eq, add_zero] at hrun
    exact (le_add_of_nonneg_right (carried_nonneg (h.of_rest (rest_run n src N)))).trans hrun
  · obtain ⟨k, hk⟩ := Array.mem_iff_getElem?.mp hp
    rw [getElem?_run_paths] at hk
    obtain ⟨q, hq, rfl⟩ := Option.map_eq_some_iff.mp hk
    have hfeeds : ∀ s, T ≤ s → n.feeds src k s = 0 := by
      intro s hs
      unfold feeds fed
      rw [run_mode, hmode]
      exact mix_silence (hsrc s hs)
    rw [Path.run_line] at ht hj ⊢
    rw [DelayLine.length_pushes] at ht hj
    exact DelayLine.getElem?_cells_pushes (hstill.silent q (Array.mem_of_getElem? hq)) hfeeds ht hj

theorem still_derive (n : Network ℝ) (d : NetworkDesign ℝ) : (n.derive d).Still := by
  refine ⟨fun p hp => ?_, fun p hp => ?_⟩
  · obtain ⟨k, q, -, rfl⟩ := exists_of_mem_derive_paths hp
    exact silent_derivedPath n d k q
  · obtain ⟨k, q, -, rfl⟩ := exists_of_mem_derive_paths hp
    exact reset_derivedPath n d k q

theorem diffuser_of_derive (hmode : n.mode = .forward) (hpos : 0 < n.order) (d : NetworkDesign ℝ)
    (hlow : 0 ≤ d.damping) (hhigh : d.damping < 1) : (n.derive d).Diffuser n.order := by
  rw [← order_derive n d]
  exact (still_derive n d).diffuser (derived_derive hpos d hlow hhigh) hmode

/-- **Forward networks add no energy.** Whatever happened to a forward network, a derivation from
any design with damping below 1 makes it one that gives off at most `g²` times the energy of its
sources, and is silent when its sources have been silent for as long as its lines. -/
theorem diffuser_derive {order : ℕ} (h : 0 < order) (maxDelay : ℕ) (law : DelayLaw)
    (method : GainMethod) :
    ∃ start : Network ℝ, Network.new order maxDelay law method .forward = .ok start ∧
      ∀ (moves : List (Move ℝ)) (d : NetworkDesign ℝ), 0 ≤ d.damping → d.damping < 1 →
        ((start.applyAll moves).derive d).Diffuser order := by
  obtain ⟨start, hnew, horder, -, hmode, -⟩ :=
    exists_roomy_new (α := ℝ) h maxDelay law method .forward
  refine ⟨start, hnew, fun moves d hlow hhigh => ?_⟩
  have horder : (start.applyAll moves).order = order := (order_applyAll start moves).trans horder
  have hmode : (start.applyAll moves).mode = .forward := (mode_applyAll start moves).trans hmode
  rw [← horder]
  exact diffuser_of_derive hmode (horder.symm ▸ h) d hlow hhigh

/-- A diffuser that was in use, with shorter lines afterwards. -/
theorem diffuser_derive_small :
    (0 < 3 ∧ 0 ≤ smallHall.damping ∧ smallHall.damping < 1) ∧
      ∃ start : Network ℝ, Network.new 3 100 .geometric .schroeder .forward = .ok start ∧
        ((start.applyAll [.derive smallHall, .process #[.pressure 1, 0, 0],
          .setLaw .squareRoot]).derive { smallHall with truncateForward := true }).Diffuser 3 := by
  have hlow : 0 ≤ smallHall.damping := by norm_num [smallHall, Scalar.ofNat_eq]
  have hhigh : smallHall.damping < 1 := by norm_num [smallHall, Scalar.ofNat_eq]
  obtain ⟨start, hnew, hall⟩ := diffuser_derive (show 0 < 3 by decide) 100 .geometric .schroeder
  exact ⟨⟨by decide, hlow, hhigh⟩, start, hnew, hall _ _ hlow hhigh⟩

end Network

/-! ## Cascades -/

/-- **The bounds of a cascade multiply.** -/
theorem Engine.energy_chainOut_le {order : ℕ} (l : List (Network ℝ))
    (h : ∀ n ∈ l, n.Diffuser order ∧ n.output = 0) {src : ℕ → Array (Sample ℝ)}
    (hs : ∀ t, (src t).size = order) (N : ℕ) :
    ∑ t ∈ range N, energyTo order (chainOut l src t) ≤
      (l.map fun n => n.gain ^ 2).prod * ∑ t ∈ range N, energyTo order (src t) := by
  induction l generalizing src with
  | nil =>
    rw [List.map_nil, List.prod_nil, one_mul]
    unfold chainOut
    simp only [chainAfter_nil]
    exact le_refl _
  | cons n l ih =>
    obtain ⟨hn, hout⟩ := h n List.mem_cons_self
    have htake : n.take.2 = n := by
      unfold Network.take
      rw [← hout]
    have hnext : ∀ t, (n.run src (t + 1)).outputs.size = order := fun t =>
      (Network.size_outputs_run n src (t + 1)).trans hn.order_eq
    have hrest := ih (fun m hm => h m (List.mem_cons_of_mem n hm)) hnext
    have hprod : 0 ≤ (l.map fun n => n.gain ^ 2).prod := by
      refine List.prod_nonneg fun e he => ?_
      obtain ⟨m, -, rfl⟩ := List.mem_map.mp he
      exact sq_nonneg m.gain
    simp only [chainOut_cons htake]
    calc ∑ t ∈ range N, energyTo order (chainOut l (fun s => (n.run src (s + 1)).outputs) t)
        ≤ (l.map fun n => n.gain ^ 2).prod *
            ∑ t ∈ range N, energyTo order (n.run src (t + 1)).outputs := hrest
      _ ≤ (l.map fun n => n.gain ^ 2).prod *
            (n.gain ^ 2 * ∑ t ∈ range N, energyTo order (src t)) :=
          mul_le_mul_of_nonneg_left (hn.sum_energy_le src hs N) hprod
      _ = ((n :: l).map fun n => n.gain ^ 2).prod * ∑ t ∈ range N, energyTo order (src t) := by
          rw [List.map_cons, List.prod_cons, ← mul_assoc, mul_comm (n.gain ^ 2)]

end AmbisonicReverb
