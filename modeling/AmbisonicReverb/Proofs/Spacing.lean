import AmbisonicReverb.Proofs.Flow
import AmbisonicReverb.Proofs.History

/-!
# The spacing of delays

A design gives each path a base delay, rounded and clamped to the room of the network. The mode of
the network makes a length of line of it: feedback networks take it as it is, forward networks one
more, and truncated forward networks subtract what makes the least length two.

**Theorem (`spaced_derive`).** Whatever happened to a network, a derivation gives its lines these
lengths (`Spaced`). The lines have room for them, so that the lengths are not clamped again and the
paths keep their distances in all modes.
-/

namespace AmbisonicReverb

/-! ## The least base delay -/

theorem foldl_min_le (l : List ℕ) (init : ℕ) :
    l.foldl min init ≤ init ∧ ∀ x ∈ l, l.foldl min init ≤ x := by
  induction l generalizing init with
  | nil => exact ⟨le_rfl, fun _ hx => nomatch hx⟩
  | cons y l ih =>
    obtain ⟨hinit, hmem⟩ := ih (min init y)
    refine ⟨hinit.trans (min_le_left _ _), fun x hx => ?_⟩
    rcases List.mem_cons.mp hx with rfl | hx
    · exact hinit.trans (min_le_right _ _)
    · exact hmem x hx

theorem foldl_min_mem (l : List ℕ) (init : ℕ) :
    l.foldl min init = init ∨ l.foldl min init ∈ l := by
  induction l generalizing init with
  | nil => exact .inl rfl
  | cons y l ih =>
    rcases ih (min init y) with h | h
    · rcases min_choice init y with hmin | hmin
      · exact .inl (h.trans hmin)
      · exact .inr (List.mem_cons.mpr (.inl (h.trans hmin)))
    · exact .inr (List.mem_cons_of_mem y h)

variable {α β : Type} [Elementary α]

theorem NetworkDesign.two_le_pathDelay (d : NetworkDesign α) (law : DelayLaw)
    (maxDelay order k : ℕ) : 2 ≤ d.pathDelay law maxDelay order k :=
  Nat.le_max_left _ _

/-- The bound itself is out of reach. -/
theorem NetworkDesign.pathDelay_le (d : NetworkDesign α) (law : DelayLaw) {maxDelay : ℕ}
    (h : Network.leastMaxDelay ≤ maxDelay) (order k : ℕ) :
    d.pathDelay law maxDelay order k ≤ maxDelay - 1 := by
  have hleast : Network.leastMaxDelay = 3 := rfl
  unfold pathDelay
  omega

namespace Network

/-- The base delay of path `k`. -/
def baseDelay (n : Network α) (d : NetworkDesign α) (k : ℕ) : ℕ :=
  d.pathDelay n.law n.maxDelay n.order k

/-- The least base delay, as a derivation finds it. -/
def leastBase (n : Network α) (d : NetworkDesign α) : ℕ :=
  (Array.ofFn fun k : Fin n.order => n.baseDelay d k.val).foldl min n.maxDelay

theorem designLength_eq (n : Network α) (d : NetworkDesign α) (k : ℕ) :
    n.designLength d k =
      lineLength n.mode d.truncateForward (n.leastBase d) (n.baseDelay d k) := rfl

theorem Roomy.baseDelay_mem {n : Network α} (h : n.Roomy) (d : NetworkDesign α) (k : ℕ) :
    2 ≤ n.baseDelay d k ∧ n.baseDelay d k ≤ n.maxDelay - 1 :=
  ⟨d.two_le_pathDelay _ _ _ _, d.pathDelay_le _ h.least_le _ _⟩

theorem Roomy.isLeast_leastBase {n : Network α} (h : n.Roomy) (d : NetworkDesign α) :
    IsLeast (n.baseDelay d '' Set.Iio n.order) (n.leastBase d) := by
  have hleast : leastMaxDelay = 3 := rfl
  have hmax := h.least_le
  have hfold : n.leastBase d = (Array.ofFn fun k : Fin n.order => n.baseDelay d k.val).toList.foldl
      min n.maxDelay := by
    rw [Array.foldl_toList]
    rfl
  have hmem : ∀ {delay : ℕ},
      delay ∈ (Array.ofFn fun k : Fin n.order => n.baseDelay d k.val).toList ↔
        ∃ k < n.order, n.baseDelay d k = delay := by
    intro delay
    simp [Fin.exists_iff]
  have hle : ∀ k < n.order, n.leastBase d ≤ n.baseDelay d k := by
    intro k hk
    rw [hfold]
    exact (foldl_min_le _ _).2 _ (hmem.mpr ⟨k, hk, rfl⟩)
  constructor
  · rw [hfold] at hle ⊢
    rcases foldl_min_mem _ n.maxDelay with hinit | hleast'
    · -- the bound is not the least, since the delays of all paths are below it
      have hfirst := hle 0 h.order_pos
      have hbelow := (h.baseDelay_mem d 0).2
      rw [hinit] at hfirst
      omega
    · obtain ⟨k, hk, heq⟩ := hmem.mp hleast'
      exact ⟨k, hk, heq⟩
  · rintro _ ⟨k, hk, rfl⟩
    exact hle k hk

/-! ## Lengths -/

/-- The lines have room for both lengths. -/
theorem Roomy.length_setLength {n : Network α} (h : n.Roomy) (d : NetworkDesign α) {k : ℕ}
    (hk : k < n.order) {p : Path α} (hp : p ∈ n.paths) :
    (p.line.clear.setLength (n.baseDelay d k)).length = n.baseDelay d k ∧
      ((p.line.clear.setLength (n.baseDelay d k)).setLength (n.designLength d k)).length =
        n.designLength d k := by
  have hleast : leastMaxDelay = 3 := rfl
  have hmax := h.least_le
  have hbase := h.baseDelay_mem d k
  have hmin := (h.isLeast_leastBase d).2 ⟨k, hk, rfl⟩
  have hcapacity : p.line.clear.cells.size = lineCapacity n.mode n.maxDelay :=
    (DelayLine.capacity_clear p.line).trans (h.capacity_eq p hp)
  have hfirst : (p.line.clear.setLength (n.baseDelay d k)).length =
      min (max (n.baseDelay d k) 2) (p.line.clear.cells.size - 1) := rfl
  have hsecond :
      ((p.line.clear.setLength (n.baseDelay d k)).setLength (n.designLength d k)).length =
        min (max (n.designLength d k) 2) (p.line.clear.cells.size - 1) := rfl
  rw [hfirst, hsecond, hcapacity, designLength_eq]
  cases n.mode with
  | feedback => simp only [lineCapacity, lineLength]; omega
  | forward =>
    simp only [lineCapacity, lineLength]
    split_ifs <;> omega

variable [Elementary β] [Widening α β]

/-- How a derivation spaces the delays of the paths. -/
structure Spaced (n : Network α) (d : NetworkDesign α) (base : ℕ → ℕ) : Prop where
  base_mem : ∀ k < n.order, 2 ≤ base k ∧ base k ≤ n.maxDelay - 1
  /-- No line is too short for the two lengths that are set one after the other. -/
  unclamped : ∀ k p, n.paths[k]? = some p →
    (p.line.clear.setLength (base k)).length = base k ∧
      ((p.line.clear.setLength (base k)).setLength (n.designLength d k)).length =
        n.designLength d k
  feedback : n.mode = .feedback → ∀ k < n.order, (n.derive d).delays[k]? = some (base k)
  forward : n.mode = .forward → d.truncateForward = false →
    ∀ k < n.order, (n.derive d).delays[k]? = some (base k + 1)
  truncated : n.mode = .forward → d.truncateForward = true →
    ∃ least, IsLeast (base '' Set.Iio n.order) least ∧ 2 ≤ least ∧
      (∀ k < n.order, least - 2 ≤ base k ∧
        (n.derive d).delays[k]? = some (base k - (least - 2))) ∧
      IsLeast {delay | delay ∈ (n.derive d).delays} 2
  /-- The distances of the paths do not depend on the mode. -/
  distance : ∀ (j k delay delay' : ℕ), (n.derive d).delays[j]? = some delay →
    (n.derive d).delays[k]? = some delay' → (delay : ℤ) - delay' = base j - base k

section

variable {n : Network α} (h : n.Roomy) (d : NetworkDesign α)

include h

theorem Roomy.getElem?_delays {k : ℕ} (hk : k < n.order) :
    (n.derive d).delays[k]? = some (n.designLength d k) := by
  have hp : n.paths[k]? = some n.paths[k] := Array.getElem?_eq_getElem hk
  rw [delays, Array.getElem?_map, getElem?_derive_paths, hp]
  exact congrArg some (h.length_setLength d hk (Array.mem_of_getElem? hp)).2

/-- **Delays in all modes.** -/
theorem Roomy.spaced : n.Spaced d (n.baseDelay d) where
  base_mem k _ := h.baseDelay_mem d k
  unclamped k p hp := by
    obtain ⟨hk, -⟩ := Array.getElem?_eq_some_iff.mp hp
    exact h.length_setLength d hk (Array.mem_of_getElem? hp)
  feedback hmode k hk := by
    rw [h.getElem?_delays d hk, designLength_eq, hmode]
    rfl
  forward hmode htruncate k hk := by
    rw [h.getElem?_delays d hk, designLength_eq, hmode, htruncate]
    rfl
  truncated hmode htruncate := by
    have hleast := h.isLeast_leastBase d
    have hlength : ∀ k < n.order, (n.derive d).delays[k]? =
        some (n.baseDelay d k - (n.leastBase d - 2)) := by
      intro k hk
      rw [h.getElem?_delays d hk, designLength_eq, hmode, htruncate]
      rfl
    obtain ⟨first, hfirst, hbase⟩ := hleast.1
    have htwo : 2 ≤ n.leastBase d := hbase ▸ (h.baseDelay_mem d first).1
    refine ⟨n.leastBase d, hleast, htwo, fun k hk => ⟨?_, hlength k hk⟩, ?_, ?_⟩
    · exact (Nat.sub_le _ _).trans (hleast.2 ⟨k, hk, rfl⟩)
    · apply Array.mem_of_getElem? (i := first)
      rw [hlength first hfirst, hbase]
      exact congrArg some (by omega)
    · intro delay hdelay
      obtain ⟨p, hp, rfl⟩ := Array.mem_map.mp hdelay
      exact p.line.two_le_length
  distance j k delay delay' hj hk := by
    have hsize : (n.derive d).delays.size = n.order :=
      Array.size_map.trans (order_derive n d)
    obtain ⟨hj', -⟩ := Array.getElem?_eq_some_iff.mp hj
    obtain ⟨hk', -⟩ := Array.getElem?_eq_some_iff.mp hk
    rw [hsize] at hj' hk'
    rw [h.getElem?_delays d hj', designLength_eq] at hj
    rw [h.getElem?_delays d hk', designLength_eq] at hk
    obtain rfl := Option.some.inj hj
    obtain rfl := Option.some.inj hk
    have hleastj := (h.isLeast_leastBase d).2 ⟨j, hj', rfl⟩
    have hleastk := (h.isLeast_leastBase d).2 ⟨k, hk', rfl⟩
    unfold lineLength
    split
    · rfl
    · split_ifs <;> omega

end

/-- **The delays of a network.** A network can be made for every order from 1 on. Whatever happens
to it, a derivation from any design gives it the delays of that design: base delays, which its mode
shifts all by the same amount, and which its lines have room for. -/
theorem spaced_derive {order : ℕ} (h : 0 < order) (maxDelay : ℕ) (law : DelayLaw)
    (method : GainMethod) (mode : Mode) :
    ∃ start : Network α, new order maxDelay law method mode = .ok start ∧
      ∀ (moves : List (Move α)) (d : NetworkDesign α),
        (start.applyAll moves).order = order ∧
        (start.applyAll moves).maxDelay = max maxDelay leastMaxDelay ∧
        (start.applyAll moves).mode = mode ∧
        (start.applyAll moves).Spaced d fun k =>
          d.pathDelay (start.applyAll moves).law (max maxDelay leastMaxDelay) order k := by
  obtain ⟨start, hnew, horder, hmax, hmode, hroomy⟩ :=
    exists_roomy_new (α := α) h maxDelay law method mode
  refine ⟨start, hnew, fun moves d => ?_⟩
  have horder' := (order_applyAll start moves).trans horder
  have hmax' := (maxDelay_applyAll start moves).trans hmax
  have hspaced := (hroomy.applyAll moves).spaced d
  unfold baseDelay at hspaced
  rw [hmax', horder'] at hspaced
  exact ⟨horder', hmax', (mode_applyAll start moves).trans hmode, hspaced⟩

/-- A design for a truncated stage, without a shortest time and with an infinite longest one. -/
def strayDesign : NetworkDesign Float32 :=
  { smallDesign with shortest := 0.0 / 0.0, longest := 1.0 / 0.0, truncateForward := true }

/-- A stage that ran with other delays. -/
def strayMoves : List (Move Float32) :=
  [.derive smallDesign, .process #[.pressure 1, 0, 0], .setLaw .squareRoot]

theorem spaced_derive_stray :
    0 < 3 ∧ ∃ start : Network Float32, new 3 100 .geometric .mean .forward = .ok start ∧
      (start.applyAll strayMoves).order = 3 ∧
      (start.applyAll strayMoves).maxDelay = max 100 leastMaxDelay ∧
      (start.applyAll strayMoves).mode = .forward ∧
      (start.applyAll strayMoves).Spaced strayDesign fun k =>
        strayDesign.pathDelay (start.applyAll strayMoves).law (max 100 leastMaxDelay) 3 k := by
  obtain ⟨start, hnew, hspaced⟩ :=
    spaced_derive (α := Float32) (show 0 < 3 by decide) 100 .geometric .mean .forward
  exact ⟨by decide, start, hnew, hspaced strayMoves strayDesign⟩

end Network

end AmbisonicReverb
