import Mathlib
import AmbisonicReverb.Proofs.Exact
import AmbisonicReverb.Proofs.Frame

/-!
# Trials stay in their domain

The simplex search knows no bounds, and proposes values anywhere. Each trial brings the value that
is proposed into range before it is published. Read over exact arithmetic, all that a fit publishes
is then in its domain, in a proper room and for a target curve with a positive longest time.

**Theorem (`fitWithin_inDomain`).** Whatever the options are and whatever is measured: all
absorptions are at most 1 and not below the least absorption, which is between 0.0001 and 1. From
the second stage on all dampings are between 0 and 0.999. No decay time that is aimed at is longer
than four times the longest time of the curve and than Sabine's time of the fully absorbing room.

By Sabine's law the decay time is inverse to the absorption (`Room.sabineTime_eq_div`), so that the
least absorption bounds it. The bound itself is brought into range, and there are three cases:
between its limits it makes four times the longest time exactly, at the lower one less than that is
reached, and at the upper one the room decays as it does when it absorbs everything.
-/

namespace AmbisonicReverb

/-! ## Sabine's law -/

namespace Room

variable {room : Room ℝ}

theorem isProper_iff_pos : room.isProper = true ↔ 0 < room.x ∧ 0 < room.y ∧ 0 < room.z := by
  simp [isProper, Scalar.isFinite_eq, and_assoc]

theorem area_pos (h : room.isProper = true) : 0 < room.area := by
  obtain ⟨hx, hy, hz⟩ := isProper_iff_pos.mp h
  unfold area
  positivity

theorem volume_pos (h : room.isProper = true) : 0 < room.volume := by
  obtain ⟨hx, hy, hz⟩ := isProper_iff_pos.mp h
  unfold volume
  positivity

theorem sabineTime_eq (h : room.isProper = true) (absorption : ℝ) :
    room.sabineTime absorption =
      sabineConstant * room.volume / (max absorption leastAbsorption * room.area) := by
  unfold sabineTime
  rw [if_neg (not_le.mpr (area_pos h)), Scalar.maxNum_eq_max]

theorem sabineConstant_pos : (0 : ℝ) < sabineConstant := by
  unfold sabineConstant
  norm_num

/-- Sabine's law takes an absorption that is positive. -/
theorem max_leastAbsorption_pos (absorption : ℝ) : 0 < max absorption leastAbsorption := by
  refine lt_max_of_lt_right ?_
  unfold leastAbsorption
  norm_num

theorem sabineTime_pos (h : room.isProper = true) (absorption : ℝ) :
    0 < room.sabineTime absorption := by
  rw [sabineTime_eq h]
  exact div_pos (mul_pos sabineConstant_pos (volume_pos h))
    (mul_pos (max_leastAbsorption_pos absorption) (area_pos h))

/-- The decay time is inverse to the absorption. -/
theorem sabineTime_eq_div (h : room.isProper = true) {absorption : ℝ}
    (habsorption : leastAbsorption ≤ absorption) :
    room.sabineTime absorption = room.sabineTime 1 / absorption := by
  have harea := area_pos h
  have hleast : (leastAbsorption : ℝ) ≤ 1 := by
    unfold leastAbsorption
    norm_num
  have hpos : 0 < absorption := by
    refine lt_of_lt_of_le ?_ habsorption
    unfold leastAbsorption
    norm_num
  rw [sabineTime_eq h, sabineTime_eq h, max_eq_left habsorption, max_eq_left hleast]
  field_simp

end Room

namespace Fit

/-! ## The least absorption -/

variable {room : Room ℝ} {longestTarget : ℝ}

theorem leastAbsorption_mem (room : Room ℝ) (longestTarget : ℝ) :
    (leastAbsorption room longestTarget : ℝ) ∈ Set.Icc (1.0e-4) 1 :=
  Scalar.clamp_mem (by norm_num) _

theorem leastAbsorption_eq (hroom : room.isProper = true) (htarget : 0 < longestTarget) :
    (leastAbsorption room longestTarget : ℝ) =
      Scalar.clamp 1.0e-4 1 (room.sabineTime 1 / (4 * longestTarget)) := by
  have hfour : (4.0 : ℝ) = 4 := by norm_num
  unfold leastAbsorption
  dsimp only
  rw [if_pos ⟨htarget, Room.sabineTime_pos hroom 1⟩, hfour]
  rfl

/-- **The decay of every trial can be measured**, unless nothing in the room decays faster. -/
theorem sabineTime_le (hroom : room.isProper = true) (htarget : 0 < longestTarget)
    {absorption : ℝ} (h : leastAbsorption room longestTarget ≤ absorption) :
    room.sabineTime absorption ≤ max (4 * longestTarget) (room.sabineTime 1) := by
  have hfull := Room.sabineTime_pos hroom 1
  obtain ⟨hlow, hhigh⟩ := leastAbsorption_mem room longestTarget
  have hleast : (0 : ℝ) < leastAbsorption room longestTarget := by
    refine lt_of_lt_of_le ?_ hlow
    norm_num
  have hsabine : room.sabineTime absorption = room.sabineTime 1 / absorption :=
    Room.sabineTime_eq_div hroom (hlow.trans h)
  have hmono : room.sabineTime 1 / absorption ≤
      room.sabineTime 1 / leastAbsorption room longestTarget := by gcongr
  rw [hsabine]
  refine hmono.trans ?_
  rw [leastAbsorption_eq hroom htarget]
  generalize room.sabineTime 1 = full at hfull
  unfold Scalar.clamp
  split_ifs with hbelow habove
  -- below the range, above it, and within
  · refine le_max_of_le_left ?_
    rw [div_lt_iff₀ (by positivity)] at hbelow
    rw [div_le_iff₀ (by norm_num)]
    linarith
  · rw [div_one]
    exact le_max_right _ _
  · refine le_max_of_le_left (le_of_eq ?_)
    field_simp

/-! ## Publications -/

section

variable {ω α β : Type} {P : Parameters α → Prop} {s s' s'' : Scene ω α β}

theorem Scene.Follows.trans (h : Follows P s s') (h' : Follows P s' s'') : Follows P s s'' := by
  obtain ⟨⟨trials, hpublished, htrials⟩, parameters, engine, hreverb⟩ := h
  obtain ⟨⟨trials', hpublished', htrials'⟩, parameters', engine', hreverb'⟩ := h'
  refine ⟨⟨trials ++ trials', ?_, fun p hp => ?_⟩, parameters', engine', ?_⟩
  · rw [hpublished', hpublished, List.append_assoc]
  · rcases List.mem_append.mp hp with hp | hp
    · exact htrials p hp
    · exact htrials' p hp
  · rw [hreverb', hreverb]

/-- What holds of each publication of a trial, holds of all publications of a stage. It may depend
on what was published before, as long as that is kept. -/
theorem stage_publishes [Elementary α] [Elementary β] [Widening α β] {Q : Parameters α → Prop}
    {error : β → StateM (Scene ω α β) β}
    (herror : ∀ x s, Q s.reverb.parameters → Ends (error x) s fun _ s' =>
      ∃ p, s.Publishes p s' ∧ P p)
    (hkeep : ∀ p, P p → Q p) (settings : Simplex.Settings β β) (limit : ℕ) (start lower upper : β)
    (rounds : ℕ) (status : Simplex.Status) (hs : Q s.reverb.parameters) :
    Ends (stage error settings limit start lower upper rounds status) s fun p s' =>
      p.value ∈ Set.range (Scalar.clamp lower upper) ∧ Scene.Follows P s s' ∧
        P s'.reverb.parameters := by
  have hI : ∀ x s', Scene.Follows P s s' ∧ Q s'.reverb.parameters →
      Ends (error x) s' fun _ s'' => Scene.Follows P s s'' ∧ Q s''.reverb.parameters := by
    intro x s' h
    refine (herror x s' h.2).mono fun _ s'' htrial => ?_
    obtain ⟨p, hpublishes, hp⟩ := htrial
    refine ⟨h.1.publish hpublishes hp, ?_⟩
    rw [hpublishes.parameters]
    exact hkeep p hp
  refine (stage_ends hI settings limit start lower upper rounds status
    ⟨.refl P s, hs⟩).mono fun p s' h => ?_
  obtain ⟨hvalue, before, hbefore, rfl⟩ := h
  obtain ⟨q, hpublishes, hq⟩ := herror p.value before hbefore.2
  refine ⟨hvalue, hbefore.1.publish hpublishes hq, ?_⟩
  rw [hpublishes.parameters]
  exact hq

end

/-! ## The domain of the trials -/

/-- Parameters with an absorption in range, whose decay time is that of the room. -/
structure InDomain (least : ℝ) (room : Room ℝ) (p : Parameters ℝ) : Prop where
  absorption : p.absorption ∈ Set.Icc least 1
  room_eq : p.room = room
  decayTime_eq : p.decayTime = 0

/-- Beside that, with a damping in range. -/
structure Damped (least : ℝ) (room : Room ℝ) (p : Parameters ℝ) : Prop
    extends InDomain least room p where
  damping : p.damping ∈ Set.Icc 0 maxDamping

theorem InDomain.targetTime_le (hroom : room.isProper = true) (htarget : 0 < longestTarget)
    {p : Parameters ℝ} (h : InDomain (leastAbsorption room longestTarget) room p) :
    p.targetTime ≤ max (4 * longestTarget) (room.sabineTime 1) := by
  unfold Parameters.targetTime
  rw [h.decayTime_eq, if_neg (lt_irrefl 0), h.room_eq]
  exact sabineTime_le hroom htarget h.absorption.1

theorem maxDamping_nonneg : (0 : ℝ) ≤ maxDamping := by
  unfold maxDamping
  norm_num

section

variable {ω : Type} (measure : Measurement ω ℝ ℝ) (options : Options ℝ) {goal : Goal ℝ ℝ}
  {start : Parameters ℝ} {s : Scene ω ℝ ℝ}

/-- The first stage stays in the domain, and ends at an absorption in range. -/
theorem absorptionStage_inDomain (hgoal : goal.least ≤ 1) (hs : s.reverb.parameters.room = room) :
    Ends (absorptionStage (Scene.subject measure) options goal start) s fun first s' =>
      first.value ∈ Set.Icc goal.least 1 ∧ Scene.Follows (InDomain goal.least room) s s' ∧
        InDomain goal.least room s'.reverb.parameters := by
  have herror : ∀ x (s : Scene ω ℝ ℝ), s.reverb.parameters.room = room →
      Ends (absorptionError (Scene.subject measure) goal x) s fun _ s' =>
        ∃ p, s.Publishes p s' ∧ InDomain goal.least room p := fun x s hs =>
    (absorptionError_publishes measure goal x s).mono fun _ s' h =>
      ⟨_, h, Scalar.clamp_mem hgoal x, hs, rfl⟩
  refine (stage_publishes (Q := fun p => p.room = room) herror (fun _ hp => hp.room_eq)
    options.settings options.rounds _ _ _ 0 .converged hs).mono fun first s' h => ?_
  obtain ⟨⟨x, hx⟩, hfollows, hlast⟩ := h
  exact ⟨hx ▸ Scalar.clamp_mem hgoal x, hfollows, hlast⟩

/-- The second stage stays in the domain, with a damping in range. -/
theorem dampingStage_damped (first : Progress ℝ ℝ)
    (hs : InDomain goal.least room s.reverb.parameters) :
    Ends (dampingStage (Scene.subject measure) options goal start first) s fun second s' =>
      (2 ≤ goal.bands.size → ∃ p, second = some p ∧ p.value ∈ Set.Icc 0 maxDamping) ∧
        Scene.Follows (Damped goal.least room) s s' ∧
        InDomain goal.least room s'.reverb.parameters := by
  have herror : ∀ x (s : Scene ω ℝ ℝ), InDomain goal.least room s.reverb.parameters →
      Ends (slopeError (Scene.subject measure) goal x) s fun _ s' =>
        ∃ p, s.Publishes p s' ∧ Damped goal.least room p := fun x s hs =>
    (slopeError_publishes measure goal x s).mono fun _ s' h =>
      ⟨_, h, ⟨hs.absorption, hs.room_eq, rfl⟩, Scalar.clamp_mem maxDamping_nonneg x⟩
  unfold dampingStage
  refine Ends.ite (fun _ => Ends.map ?_)
    (fun hfew => Ends.pure ⟨fun h => absurd h hfew, .refl _ s, hs⟩)
  refine (stage_publishes herror (fun _ hp => hp.toInDomain) options.settings options.rounds _ _ _
    first.rounds first.status hs).mono fun second s' h => ?_
  obtain ⟨⟨x, hx⟩, hfollows, hlast⟩ := h
  exact ⟨fun _ => ⟨second, rfl, hx ▸ Scalar.clamp_mem maxDamping_nonneg x⟩, hfollows,
    hlast.toInDomain⟩

/-- The last trial is at what the stages found. -/
theorem conclude_inDomain {first : Progress ℝ ℝ} {second : Option (Progress ℝ ℝ)}
    (hs : InDomain goal.least room s.reverb.parameters)
    (hfirst : first.value ∈ Set.Icc goal.least 1) :
    Ends (conclude (Scene.subject measure) goal start first second) s fun _ s' =>
      ∃ p, s.Publishes p s' ∧ InDomain goal.least room p ∧
        ∀ q, second = some q → p.damping = q.value := by
  unfold conclude
  refine Ends.bind ((trial_publishes measure _ s).mono fun answer s' h => Ends.pure ?_)
  refine ⟨_, h.1, ⟨hfirst, hs.room_eq, rfl⟩, ?_⟩
  rintro q rfl
  rfl

/-- What a fit publishes in two stages and after them. -/
structure Tame (s s' : Scene ω ℝ ℝ) : Prop where
  absorptions : Scene.Follows (InDomain (goalOf s.reverb).least s.reverb.parameters.room) s s'
  /-- A single band has no second stage. -/
  dampings : 2 ≤ s.reverb.config.bands.size →
    Scene.Follows (Damped (goalOf s.reverb).least s.reverb.parameters.room)
      (afterAbsorption measure options s).2 s'

theorem stages_tame (hleast : (goalOf s.reverb).least ≤ 1) :
    Ends (stages (Scene.subject measure) options (goalOf s.reverb) s.reverb.parameters) s
      fun _ s' => Tame measure options s s' := by
  have hfirst : Ends (absorptionStage (Scene.subject measure) options (goalOf s.reverb)
      s.reverb.parameters) s _ := absorptionStage_inDomain measure options hleast rfl
  obtain ⟨hvalue, hfollows, hlast⟩ := hfirst
  have hsecond : Ends (dampingStage (Scene.subject measure) options (goalOf s.reverb)
      s.reverb.parameters (afterAbsorption measure options s).1)
      (afterAbsorption measure options s).2 _ := dampingStage_damped measure options _ hlast
  obtain ⟨hmany, hfollows', hlast'⟩ := hsecond
  have hend : Ends (conclude (Scene.subject measure) (goalOf s.reverb) s.reverb.parameters
      (afterAbsorption measure options s).1 (afterDamping measure options s).1)
      (afterDamping measure options s).2 fun _ s' => Tame measure options s s' := by
    refine (conclude_inDomain measure hlast' hvalue).mono fun report s' h => ?_
    obtain ⟨p, hpublishes, hp, hdamping⟩ := h
    refine ⟨(hfollows.trans (hfollows'.mono fun _ hq => hq.toInDomain)).publish hpublishes hp,
      fun hbands => hfollows'.publish hpublishes ⟨hp, ?_⟩⟩
    obtain ⟨q, hq, hrange⟩ := hmany hbands
    rw [hdamping q hq]
    exact hrange
  exact hend

/-- **Trials stay in their domain.** Any fit of a configured reverb that has a target curve with a
positive longest time, in a proper room, ends with a report. All absorptions that it publishes are
in range, no decay time is too long to be measured in any of its trials, and from the second stage
on the dampings are in range as well. -/
theorem fitWithin_inDomain (hconfigured : s.reverb.isConfigured = true)
    (hbands : s.reverb.config.bands.isEmpty = false)
    (hroom : s.reverb.parameters.room.isProper = true)
    (htarget : 0 < longest s.reverb.config.bandTimes) :
    Ends (Reverb.fitWithin (Scene.subject measure) Scene.reverb options) s fun result s' =>
      (∃ report, result = .ok report) ∧
        (goalOf s.reverb).least ∈ Set.Icc 1.0e-4 1 ∧
        Scene.Follows
          (fun p => p.absorption ∈ Set.Icc (goalOf s.reverb).least 1 ∧
            p.targetTime ≤ max (4 * longest s.reverb.config.bandTimes)
              (s.reverb.parameters.room.sabineTime 1)) s s' ∧
        (2 ≤ s.reverb.config.bands.size →
          Scene.Follows (fun p => p.damping ∈ Set.Icc 0 0.999)
            (afterAbsorption measure options s).2 s') := by
  have hfittable : Fittable s.reverb := ⟨hconfigured, hbands, by simp [Scalar.isNaN]⟩
  have hleast : (goalOf s.reverb).least ∈ Set.Icc 1.0e-4 1 := leastAbsorption_mem _ _
  obtain ⟨habsorptions, hdampings⟩ := stages_tame measure options hleast.2
  unfold Ends
  rw [fitWithin_ok (Scene.subject measure) options hfittable]
  refine ⟨⟨_, rfl⟩, hleast, habsorptions.mono fun p hp => ⟨hp.absorption, ?_⟩,
    fun hmany => (hdampings hmany).mono fun p hp => hp.damping⟩
  exact hp.targetTime_le hroom htarget

end

/-- The reverb of the example, with a target curve in two bands. -/
noncomputable def smallCurve (e : Engine ℝ ℝ) : Scene Unit ℝ ℝ where
  reverb :=
    { Reverb.smallReverb with
      config := { Reverb.smallRoom with bands := #[500, 1000], bandTimes := #[1, 1] }
      engine := some e
      input := .silent 16 }
  published := []
  world := ()

theorem fitWithin_inDomain_smallCurve : ∃ e : Engine ℝ ℝ,
    ((smallCurve e).reverb.isConfigured = true ∧
      (smallCurve e).reverb.config.bands.isEmpty = false ∧
      (smallCurve e).reverb.parameters.room.isProper = true ∧
      0 < longest (smallCurve e).reverb.config.bandTimes) ∧
    Ends (Reverb.fitWithin (Scene.subject (bandMeasurement #[500, 1000])) Scene.reverb .default)
      (smallCurve e) fun result s' =>
        (∃ report, result = .ok report) ∧
          (goalOf (smallCurve e).reverb).least ∈ Set.Icc 1.0e-4 1 ∧
          Scene.Follows
            (fun p => p.absorption ∈ Set.Icc (goalOf (smallCurve e).reverb).least 1 ∧
              p.targetTime ≤ max (4 * longest (smallCurve e).reverb.config.bandTimes)
                ((smallCurve e).reverb.parameters.room.sabineTime 1)) (smallCurve e) s' ∧
          (2 ≤ (smallCurve e).reverb.config.bands.size →
            Scene.Follows (fun p => p.damping ∈ Set.Icc 0 0.999)
              (afterAbsorption (bandMeasurement #[500, 1000]) .default (smallCurve e)).2 s') := by
  obtain ⟨e, -⟩ := Reverb.configure_smallReverb
  have hroom : (smallCurve e).reverb.parameters.room.isProper = true := by
    simp [smallCurve, Reverb.smallReverb, Parameters.ofConfig, Reverb.smallRoom, Room.isProper,
      Scalar.isFinite_eq, Scalar.ofNat_eq]
  have htarget : 0 < longest (smallCurve e).reverb.config.bandTimes := by
    show (0 : ℝ) < Scalar.maxNum 1 1
    rw [Scalar.maxNum_eq_max, max_self]
    exact one_pos
  exact ⟨e, ⟨rfl, rfl, hroom, htarget⟩,
    fitWithin_inDomain (bandMeasurement #[500, 1000]) .default rfl rfl hroom htarget⟩

end Fit

end AmbisonicReverb
