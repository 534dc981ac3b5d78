import Mathlib
import AmbisonicReverb.Proofs.Restarts
import AmbisonicReverb.Proofs.Search

/-!
# The neighbours of a minimum

Before a search says that it has converged, it looks at the neighbours of its best vertex: along
each coordinate a small step ahead, and the same step behind.

**Theorem (`minimise_certified`).** With exact coordinates and values that are ordered, a search
that says that it has converged returns the best vertex of its last simplex, and none of the
neighbours is lower (`Minimum.Certified`). A search that starts again does so from a point that is
lower than all vertices of the simplex before.

A look around moves the point itself, ahead, behind and back again. With exact coordinates it is
back where it was before the next coordinate is looked at (`lookAround_neighbours`).
-/

namespace AmbisonicReverb.Simplex

variable {ν : Type} {g : Array ℝ → ν}

/-! ## Nudges -/

/-- A step ahead, and two steps behind from there. -/
theorem nudge_behind (x : Array ℝ) (i : ℕ) (d : ℝ) :
    nudge (nudge x i d) i (-(2.0 * d)) = nudge x i (-d) := by
  have hbehind : ∀ a : ℝ, a + d + -(2.0 * d) = a + -d := by
    intro a
    norm_num
    ring
  refine Array.ext (by simp [nudge]) fun j hj _ => ?_
  simp only [nudge, Array.getElem_modify]
  split_ifs
  · exact hbehind _
  · rfl

variable [Scalar ν]

/-- None of the neighbours is lower, in the steps of some coordinates. -/
def NoneLower (g : Array ℝ → ν) (value : ν) (steps : List (ℕ × ℝ)) (x : Array ℝ) : Prop :=
  ∀ step ∈ steps, ¬ g (nudge x step.1 step.2) < value ∧ ¬ g (nudge x step.1 (-step.2)) < value

/-- **A look around** finds a lower neighbour, or ends where it began, and none is lower. -/
theorem lookAround_neighbours {value : ν} {steps : List (ℕ × ℝ)} {x : Array ℝ} {t : Trace} :
    Ends (lookAround (recording g) value steps x) t fun r _ =>
      (r.1 = true → g r.2 < value) ∧ (r.1 = false → r.2 = x ∧ NoneLower g value steps x) := by
  induction steps generalizing t with
  | nil =>
    unfold lookAround
    refine Ends.pure ⟨fun h => absurd h Bool.false_ne_true, fun _ => ⟨rfl, ?_⟩⟩
    exact fun step hstep => absurd hstep List.not_mem_nil
  | cons step rest ih =>
    obtain ⟨i, d⟩ := step
    unfold lookAround
    refine Ends.bind (Ends.evaluate fun ahead hahead hvalue => ?_)
    rw [hvalue]
    refine Ends.ite (fun hlower => Ends.pure ⟨fun _ => hlower, Bool.noConfusion⟩)
      (fun hnotahead => ?_)
    refine Ends.bind (Ends.evaluate fun behind hbehind hvalue' => ?_)
    rw [hvalue']
    refine Ends.ite (fun hlower => Ends.pure ⟨fun _ => hlower, Bool.noConfusion⟩)
      (fun hnotbehind => ?_)
    have hback : nudge behind.point i d = x := by rw [hbehind, hahead, nudge_back]
    rw [hahead] at hnotahead
    rw [hbehind, hahead, nudge_behind] at hnotbehind
    rw [hback]
    refine ih.mono fun r t' h => ⟨h.1, fun hnone => ?_⟩
    obtain ⟨hpoint, hrest⟩ := h.2 hnone
    exact ⟨hpoint, List.forall_mem_cons.mpr ⟨⟨hnotahead, hnotbehind⟩, hrest⟩⟩

/-! ## Histories -/

/-- The simplex of a search is built below all vertices of the one before. -/
def Leg.Above (g : Array ℝ → ν) (leg next : Leg ℝ ν) : Prop :=
  ∀ v ∈ leg.figure.vertices, g next.start < v.value

/-- The minimum is the best vertex of a simplex in `n` dimensions, and the objective is not lower a
small part of a step away, along any coordinate. -/
structure Minimum.Certified (g : Array ℝ → ν) (settings : Settings ℝ ν) (n : ℕ)
    (figure : Figure ℝ ν) (m : Minimum ℝ ν) : Prop where
  size_point : m.point.size = n
  value_eq : m.value = g m.point
  is_vertex : ∃ v ∈ figure.vertices, v.point = m.point ∧ v.value = m.value
  le_vertex : ∀ v ∈ figure.vertices, m.value ≤ v.value
  le_ahead : ∀ i < n, m.value ≤ g (nudge m.point i (0.001 * settings.step.getD i 0))
  le_behind : ∀ i < n, m.value ≤ g (nudge m.point i (-(0.001 * settings.step.getD i 0)))

variable {settings : Settings ℝ ν} {limit : ν} {start : Array ℝ} {scale : List (ℕ × ℝ)}
  {countdown restarts n : ℕ} {s r : Figure ℝ ν} {t u : Trace} {legs : List (Leg ℝ ν)}
  {m : Minimum ℝ ν}

theorem Descends.sound (hg : Ordered g) (h : Descends (recording g) settings limit s t r u)
    (hs : s.Sound g t.2) : r.Sound g u.2 := by
  induction h with
  | spent => exact hs
  | shrunk _ hmove _ ih => exact ih ((hs.move hg).of_eq hmove).2
  | moved _ hmove _ _ _ ih => exact ih (((hs.move hg).of_eq hmove).2.rewind _)
  | apart _ hmove _ _ _ _ ih => exact ih (((hs.move hg).of_eq hmove).2.rewind _)
  | agreed _ hmove => exact ((hs.move hg).of_eq hmove).2.rewind _

theorem Settles.sound (hg : Ordered g)
    (h : Settles (recording g) settings start scale countdown t s u)
    (hstart : ∀ x ∈ t.2, ¬ g x < g start) : s.Sound g u.2 := by
  obtain ⟨vertices, t', hcorners, hdescends⟩ := h
  obtain ⟨-, -, hsound⟩ := (corners_sound hg scale hstart countdown).of_eq hcorners
  exact hdescends.sound hg hsound

/-- The best vertex of a sound simplex. -/
theorem Figure.Sound.exists_best (hg : Ordered g) {log : List (Array ℝ)} (hs : s.Sound g log) :
    ∃ v ∈ s.vertices, v.point = s.point s.best.1 ∧ v.value = s.value s.best.1 ∧
      v.value = g v.point ∧ ∀ w ∈ s.vertices, ¬ w.value < v.value := by
  obtain ⟨v, hv, -⟩ := hs.best
  have hmem : v ∈ s.vertices := Array.mem_of_getElem? hv
  have hpoint : s.point s.best.1 = v.point := Figure.point_eq hv
  have hvalue : s.value s.best.1 = v.value := Figure.value_eq hv
  obtain ⟨-, -, hleast⟩ := hs.least_best hg
  refine ⟨v, hmem, hpoint.symm, hvalue.symm, hs.valued v hmem, fun w hw => ?_⟩
  rw [hs.valued w hw, hs.valued v hmem, ← hpoint]
  exact hleast w.point (hs.logged w hw)

/-- After a look around that found nothing, the minimum is certified. -/
theorem Figure.Sound.certified (hg : Ordered g) (hs : s.Sound g t.2) (hshape : s.Shaped n)
    {point : Array ℝ} (hlook : settings.look (recording g) n s t = ((false, point), u))
    (evaluations restarts : ℕ) (status : Status) :
    Minimum.Certified g settings n s
      ⟨point, s.value s.best.1, evaluations, restarts, status⟩ := by
  obtain ⟨v, hv, hpoint, hvalue, hvg, hleast⟩ := hs.exists_best hg
  obtain ⟨-, hfound⟩ := lookAround_neighbours.of_eq hlook
  obtain ⟨hsame, hnone⟩ := hfound rfl
  obtain rfl : point = v.point := hsame.trans hpoint.symm
  rw [← hpoint, ← hvalue, hvg] at hnone
  rw [hvg] at hleast
  have hneighbour : ∀ i < n,
      ¬ g (nudge v.point i (0.001 * settings.step.getD i 0)) < g v.point ∧
        ¬ g (nudge v.point i (-(0.001 * settings.step.getD i 0))) < g v.point := by
    intro i hi
    rw [mul_comm]
    exact hnone _ (List.mem_map_of_mem (List.mem_range.mpr hi))
  rw [← hvalue, hvg]
  exact {
    size_point := hshape.size_point v hv
    value_eq := rfl
    is_vertex := ⟨v, hv, rfl, hvg⟩
    le_vertex := fun w hw => by
      rw [hs.valued w hw]
      exact (hg.le_iff _ _).mpr (hs.valued w hw ▸ hleast w hw)
    le_ahead := fun i hi => (hg.le_iff _ _).mpr (hneighbour i hi).1
    le_behind := fun i hi => (hg.le_iff _ _).mpr (hneighbour i hi).2 }

/-- What a look around found is lower than all vertices, and not above anything so far. -/
theorem Figure.Sound.lower (hg : Ordered g) (hs : s.Sound g t.2) {point : Array ℝ}
    (hlook : settings.look (recording g) n s t = ((true, point), u)) :
    (∀ v ∈ s.vertices, g point < v.value) ∧ ∀ x ∈ u.2, ¬ g x < g point := by
  obtain ⟨hbest, -, hleast⟩ := hs.least_best hg
  obtain ⟨hlower, -⟩ := lookAround_neighbours.of_eq hlook
  have hlower := hlower rfl
  unfold Settings.look at hlook
  rw [hbest] at hlower hlook
  obtain ⟨-, hlowest, -⟩ := (lookAround_spec hg (s.point s.best.1) hleast).of_eq hlook
  refine ⟨fun v hv => ?_, hlowest rfl⟩
  rw [hs.valued v hv]
  by_contra hnotlower
  exact hg.not_lt_trans point v.point (s.point s.best.1) hnotlower
    (hleast v.point (hs.logged v hv)) hlower

theorem Legs.certified (hg : Ordered g)
    (h : Legs (recording g) settings start scale countdown restarts t legs m u)
    (hsize : start.size = n) (hscale : scale.length = n)
    (hstart : ∀ x ∈ t.2, ¬ g x < g start) :
    legs.IsChain (Leg.Above g) ∧ ∃ earlier last, legs = earlier ++ [last] ∧
      (m.status = .converged → m.Certified g settings n last.figure) := by
  induction h with
  | spent => exact ⟨.singleton _, [], _, rfl, Status.noConfusion⟩
  | done hsettles _ hlook =>
    obtain ⟨hshape, -⟩ := hsettles.spends hsize hscale
    rw [hsize] at hlook
    refine ⟨.singleton _, [], _, rfl, fun _ => ?_⟩
    exact (hsettles.sound hg hstart).certified hg hshape hlook _ _ _
  | @again start _ _ _ _ s _ t' _ _ rest _ hsettles _ hlook hrest ih =>
    obtain ⟨hshape, -⟩ := hsettles.spends hsize hscale
    obtain ⟨hpoint, -⟩ := (settings.look_spends (recording g) hshape hsize t').of_eq hlook
    obtain ⟨habove, hlowest⟩ := (hsettles.sound hg hstart).lower hg hlook
    obtain ⟨hchain, earlier, last, hlegs, hlast⟩ :=
      ih hpoint (by rw [length_nudges, hsize]) hlowest
    obtain ⟨s', t₁, later, hnext, -⟩ := hrest.exists_cons
    refine ⟨?_, ⟨start, s, t'.1⟩ :: earlier, last, by rw [hlegs, List.cons_append], hlast⟩
    rw [hnext] at hchain ⊢
    exact hchain.cons_cons habove

/-! ## The certificate -/

/-- **A converged search has found a local minimum.** It returns the best vertex of its last
simplex, and no neighbour is lower. Whatever it says in the end, each restart was from a point lower
than all vertices of the simplex before. -/
theorem minimise_certified (hg : Ordered g) (h : settings.Accepts start.size) :
    ∃ legs last, LegsOf (recording g) settings start [] (legs ++ [last]) ∧
      (minimise (recording g) settings start []).1.restarts = legs.length ∧
      (legs ++ [last]).IsChain (Leg.Above g) ∧
      ((minimise (recording g) settings start []).1.status = .converged →
        (minimise (recording g) settings start []).1.Certified g settings start.size
          last.figure) := by
  obtain ⟨all, hall⟩ := exists_legsOf (recording g) h []
  have hcount := hall.restarts_add_one
  obtain ⟨hchain, legs, last, rfl, hlast⟩ :=
    hall.certified hg rfl (settings.length_steps start.size) fun _ hx => nomatch hx
  rw [List.length_append, List.length_singleton] at hcount
  exact ⟨legs, last, hall, by omega, hchain, hlast⟩

/-- The objective of the example. -/
noncomputable def square (x : Array ℝ) : ℝ := x.getD 0 0 * x.getD 0 0

/-- The settings of the example. One move of a simplex is good enough. -/
noncomputable def lineSearch : Settings ℝ ℝ where
  tolerance := 1
  step := #[1]
  checkEvery := 1
  budget := 20

theorem accepts_lineSearch : lineSearch.Accepts 1 :=
  ⟨by norm_num [lineSearch], le_refl 1, le_refl 1, le_refl 1⟩

/-- A piece of the line, as a simplex whose second end is the lower one. -/
noncomputable def segment (a b : ℝ) : Figure ℝ ℝ :=
  ⟨#[⟨#[a], square #[a]⟩, ⟨#[b], square #[b]⟩], (1, square #[b]), 1⟩

theorem corners_segment (b d : ℝ) (t : Trace) :
    corners (recording square) #[b] [(0, d)] t =
      ((segment (b + d) b).vertices, (t.1 + 2, t.2 ++ [#[b], #[b + d]])) := by
  simp [corners, segment, evaluate, recording, evaluateAll_recording, nudge, bind, StateT.bind,
    pure, StateT.pure]

/-- A search of the example, which ends after the first move. -/
theorem settles_segment {a b c d : ℝ} {t u : Trace} (hlength : b + d = a)
    (hlower : square #[b] < square #[a])
    (hmove : (segment a b).move (recording square) (t.1 + 2, t.2 ++ [#[b], #[a]]) =
      (.replaced (segment c b), u))
    (hleft : t.1 + 2 < lineSearch.budget) (hwithin : u.1 ≤ lineSearch.budget)
    (hagree : deviation (segment c b).vertices ≤ lineSearch.tolerance) :
    Settles (recording square) lineSearch #[b] [(0, d)] 1 t (segment c b) u := by
  have hlowest : lowest (segment a b).vertices = (1, square #[b]) := by
    simp [lowest, segment, leader, hlower]
  have hlimit : lineSearch.tolerance * Scalar.ofNat (#[b] : Array ℝ).size =
      lineSearch.tolerance := by
    simp [Scalar.ofNat_eq]
  refine ⟨_, _, corners_segment b d t, ?_⟩
  rw [hlength, hlowest, hlimit]
  exact .agreed hleft hmove rfl hwithin hagree

/-- The first simplex is contracted on the far side of the minimum. -/
theorem settles_long {t : Trace} (hfirst : t.1 = 0) :
    Settles (recording square) lineSearch #[0.001] [(0, 1)] 1 t (segment (-0.499) 0.001)
      (t.1 + 4, t.2 ++ [#[0.001], #[1.001], #[-0.999], #[-0.499]]) := by
  have hmove (t : Trace) : (segment 1.001 0.001).move (recording square) t =
      (.replaced (segment (-0.499) 0.001), (t.1 + 2, t.2 ++ [#[-0.999], #[-0.499]])) := by
    norm_num [Figure.move, segment, highest, leader, Figure.point, centroid, travel, evaluate,
      recording, square, Figure.replace, Scalar.ofNat_eq, List.countP_cons, bind, StateT.bind,
      pure, StateT.pure]
  have hagree : deviation (segment (-0.499) 0.001).vertices ≤ lineSearch.tolerance := by
    norm_num [segment, deviation, square, Scalar.ofNat_eq, lineSearch]
  have hlower : square #[0.001] < square #[1.001] := by norm_num [square]
  refine settles_segment (by norm_num) hlower ((hmove _).trans ?_) ?_ ?_ hagree
  · simp
  · simp [hfirst, lineSearch]
  · simp [hfirst, lineSearch]

/-- The simplex of the restart is contracted on its own side of the minimum. -/
theorem settles_short {t : Trace} (hsecond : t.1 = 6) :
    Settles (recording square) lineSearch #[0] [(0, 0.001)] 1 t (segment 0.0005 0)
      (t.1 + 4, t.2 ++ [#[0], #[0.001], #[-0.001], #[0.0005]]) := by
  have hmove (t : Trace) : (segment 0.001 0).move (recording square) t =
      (.replaced (segment 0.0005 0), (t.1 + 2, t.2 ++ [#[-0.001], #[0.0005]])) := by
    norm_num [Figure.move, segment, highest, leader, Figure.point, Figure.value, centroid, travel,
      evaluate, recording, square, Figure.replace, Scalar.ofNat_eq, List.countP_cons, bind,
      StateT.bind, pure, StateT.pure]
  have hagree : deviation (segment 0.0005 0).vertices ≤ lineSearch.tolerance := by
    norm_num [segment, deviation, square, Scalar.ofNat_eq, lineSearch]
  have hlower : square #[0] < square #[0.001] := by norm_num [square]
  refine settles_segment (by norm_num) hlower ((hmove _).trans ?_) ?_ ?_ hagree
  · simp
  · simp [hsecond, lineSearch]
  · simp [hsecond, lineSearch]

theorem nudges_lineSearch : lineSearch.nudges 1 = [(0, 0.001)] := by
  norm_num [Settings.nudges, lineSearch, nudgeShare]

theorem look_long (t : Trace) :
    lineSearch.look (recording square) 1 (segment (-0.499) 0.001) t =
      ((true, #[0]), (t.1 + 2, t.2 ++ [#[0.002], #[0]])) := by
  norm_num [Settings.look, nudges_lineSearch, lookAround, segment, Figure.point, Figure.value,
    nudge, evaluate, recording, square, bind, StateT.bind, pure, StateT.pure]

theorem look_short (t : Trace) :
    lineSearch.look (recording square) 1 (segment 0.0005 0) t =
      ((false, #[0]), (t.1 + 2, t.2 ++ [#[0.001], #[-0.001]])) := by
  norm_num [Settings.look, nudges_lineSearch, lookAround, segment, Figure.point, Figure.value,
    nudge, evaluate, recording, square, bind, StateT.bind, pure, StateT.pure]

/-- The search moves its first simplex, starts again behind it, moves the second one and ends. -/
theorem minimise_lineSearch :
    minimise (recording square) lineSearch #[0.001] [] =
      (⟨#[0], 0, 12, 1, .converged⟩,
        [#[0.001], #[1.001], #[-0.999], #[-0.499], #[0.002], #[0], #[0], #[0.001], #[-0.001],
          #[0.0005], #[0.001], #[-0.001]]) := by
  have hsteps : lineSearch.steps (#[0.001] : Array ℝ).size = [(0, 1)] := rfl
  have hvalue : (segment 0.0005 0).value 1 = 0 := by norm_num [segment, square, Figure.value]
  have haccepts : lineSearch.Accepts (#[0.001] : Array ℝ).size := accepts_lineSearch
  have hsearch := searches_minimise (recording square) haccepts []
  rw [hsteps] at hsearch
  have hsecond (t : Trace) (ht : t.1 = 6) :
      Searches (recording square) lineSearch #[0] (lineSearch.nudges 1) 1 1 t
        ⟨#[0], (segment 0.0005 0).value 1, t.1 + 6, 1, .converged⟩
        (t.1 + 6, t.2 ++ [#[0], #[0.001], #[-0.001], #[0.0005]] ++ [#[0.001], #[-0.001]]) := by
    rw [nudges_lineSearch]
    refine .done (settles_short ht) ?_ (look_short _)
    simp [ht, lineSearch]
  obtain ⟨hfound, htrace⟩ := hsearch.unique
    (.again (settles_long rfl) (by simp [lineSearch]) (look_long _) (hsecond _ rfl))
  rw [hvalue] at hfound
  exact Prod.ext hfound (Prod.mk.inj htrace).2

/-- A search whose one restart is from a point below its first simplex. -/
theorem minimise_certified_square :
    (Ordered square ∧ lineSearch.Accepts (#[0.001] : Array ℝ).size) ∧
      (minimise (recording square) lineSearch #[0.001] []).1.restarts = 1 ∧
      (minimise (recording square) lineSearch #[0.001] []).1.status = .converged ∧
      ∃ legs last, LegsOf (recording square) lineSearch #[0.001] [] (legs ++ [last]) ∧
        (minimise (recording square) lineSearch #[0.001] []).1.restarts = legs.length ∧
        (legs ++ [last]).IsChain (Leg.Above square) ∧
        ((minimise (recording square) lineSearch #[0.001] []).1.status = .converged →
          (minimise (recording square) lineSearch #[0.001] []).1.Certified square lineSearch 1
            last.figure) := by
  refine ⟨⟨ordered_real square, accepts_lineSearch⟩, ?_, ?_,
    minimise_certified (ordered_real square) accepts_lineSearch⟩
  · rw [minimise_lineSearch]
  · rw [minimise_lineSearch]

end AmbisonicReverb.Simplex
