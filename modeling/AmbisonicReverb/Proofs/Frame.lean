import Mathlib
import AmbisonicReverb.Fit
import AmbisonicReverb.Proofs.BinaryOrder
import AmbisonicReverb.Proofs.Lockstep
import AmbisonicReverb.Proofs.Reachable
import AmbisonicReverb.Proofs.Widening

/-!
# What a fit publishes

A fit publishes parameters on a running reverb, once for each trial. Here all of them are noted
(`Scene`), and measurements may do what they like: they see the scene, may run the engine, change a
world of their own, and fail or answer (`Scene.subject`).

**Theorem (`fitWithin_frame`).** Whatever the options and whatever is measured, a fit publishes
nothing before it fails, and otherwise it publishes, in this order:

* while the absorption is searched, parameters that differ from those at the start in the
  absorption alone, and in the decay time, which is 0;
* while the damping is searched, parameters that all have the absorption that is reported;
* the parameters that are reported.

The last trial of a search is usually not its best. What carries the absorption over to the second
stage is the last trial of a stage, which is at the value that the stage returns (`stage_ends`). It
brings that value into range once more, which changes nothing (`Scalar.clamp_clamp`). With a single
band there is no second stage, and the damping at the start is reported after it was widened for the
search: it comes back as it was, because widening is exact (`narrow_widen_binary32`).
-/

namespace AmbisonicReverb

/-! ## Parameters -/

namespace Parameters

variable {α : Type} [Zero α]

/-- The parameters with the decay time of the room. -/
def tuned (p : Parameters α) (absorption damping : α) : Parameters α :=
  { p with absorption, damping, decayTime := 0 }

/-- Parameters that differ at most in what is tuned. -/
def Varies (start p : Parameters α) : Prop :=
  ∀ absorption damping, p.tuned absorption damping = start.tuned absorption damping

theorem Varies.refl (start : Parameters α) : start.Varies start := fun _ _ => rfl

theorem varies_tuned (start : Parameters α) (absorption damping : α) :
    start.Varies (start.tuned absorption damping) := fun _ _ => rfl

end Parameters

/-! ## Ranges -/

namespace Scalar

variable {κ : Type} [Scalar κ]

/-- Bringing a value into range again changes nothing. -/
theorem clamp_clamp (hirrefl : ∀ x : κ, ¬ x < x) {lower upper : κ} (h : ¬ upper < lower) (x : κ) :
    clamp lower upper (clamp lower upper x) = clamp lower upper x := by
  unfold clamp
  by_cases hlow : x < lower
  · simp only [if_pos hlow, if_neg (hirrefl lower), if_neg h]
  · by_cases hhigh : upper < x
    · simp only [if_neg hlow, if_pos hhigh, if_neg h, if_neg (hirrefl upper)]
    · simp only [if_neg hlow, if_neg hhigh]

/-- What is brought into a range is not above it. -/
theorem not_lt_clamp (hirrefl : ∀ x : κ, ¬ x < x) {lower upper : κ} (h : ¬ upper < lower) (x : κ) :
    ¬ upper < clamp lower upper x := by
  unfold clamp
  by_cases hlow : x < lower
  · rw [if_pos hlow]
    exact h
  · by_cases hhigh : upper < x
    · rw [if_neg hlow, if_pos hhigh]
      exact hirrefl upper
    · rw [if_neg hlow, if_neg hhigh]
      exact hhigh

end Scalar

namespace Fit

/-! ## Stages -/

section

variable {κ ν σ : Type} [Scalar κ] [Scalar ν] {error : κ → StateM σ ν} {I : σ → Prop}

/-- Rounds preserve what trials preserve, and stand at a value brought into range. -/
theorem searchRounds_ends (hI : ∀ x s, I s → Ends (error x) s fun _ s' => I s')
    (settings : Simplex.Settings κ ν) (lower upper : κ) (rounds : ℕ) {p : Progress κ ν} {s : σ}
    (hs : I s) (hp : p.value ∈ Set.range (Scalar.clamp lower upper)) :
    Ends (searchRounds error settings lower upper rounds p) s fun q s' =>
      I s' ∧ q.value ∈ Set.range (Scalar.clamp lower upper) := by
  induction rounds generalizing p s with
  | zero => exact Ends.pure ⟨hs, hp⟩
  | succ rounds ih =>
    have hsearch : Ends (Simplex.minimise (fun x => error (x.getD 0 0)) settings #[p.value]) s
        fun _ s' => I s' :=
      Simplex.minimise_invariant (fun x => hI (x.getD 0 0)) settings #[p.value] hs
    unfold searchRounds
    refine Ends.ite (fun _ => Ends.pure ⟨hs, hp⟩) (fun _ => ?_)
    refine Ends.bind (hsearch.mono fun found s₁ h₁ => ?_)
    refine Ends.ite (fun _ => Ends.pure ⟨h₁, hp⟩) (fun _ => ?_)
    refine Ends.bind ((hI _ s₁ h₁).mono fun candidateError s₂ h₂ => ?_)
    -- the next value is the candidate or the last value
    refine Ends.ite (fun _ => Ends.pure ⟨h₂, ?_⟩) (fun _ => ih h₂ ?_) <;>
      split_ifs <;> first | exact ⟨_, rfl⟩ | exact hp

/-- **The last trial of a stage is at the value that it returns.** -/
theorem stage_ends (hI : ∀ x s, I s → Ends (error x) s fun _ s' => I s')
    (settings : Simplex.Settings κ ν) (limit : ℕ) (start lower upper : κ) (rounds : ℕ)
    (status : Simplex.Status) {s : σ} (hs : I s) :
    Ends (stage error settings limit start lower upper rounds status) s fun p s' =>
      p.value ∈ Set.range (Scalar.clamp lower upper) ∧
        ∃ before, I before ∧ s' = (error p.value before).2 := by
  unfold stage
  refine Ends.bind ((hI _ s hs).mono fun first s₁ h₁ => ?_)
  have hstart : (⟨Scalar.clamp lower upper start, first, rounds, status⟩ : Progress κ ν).value ∈
      Set.range (Scalar.clamp lower upper) := ⟨start, rfl⟩
  refine Ends.bind ((searchRounds_ends hI settings lower upper limit h₁ hstart).mono
    fun p before h => ?_)
  have hlast : Ends (error p.value) before fun _ s' => s' = (error p.value before).2 := rfl
  exact Ends.bind (hlast.mono fun _ s' h' => Ends.pure ⟨h.2, before, h.1, h'⟩)

end

/-! ## Scenes -/

/-- A reverb that is fitted, with all the parameters published so far, in a world. -/
structure Scene (ω α β : Type) where
  reverb : Reverb α β
  published : List (Parameters α)
  world : ω

variable {ω α β : Type}

/-- A measurement of a scene: its answer, the engine after it, and the world after it. -/
abbrev Measurement (ω α β : Type) : Type :=
  Scene ω α β → Option (Array α) × Option (Engine α β) × ω

namespace Scene

/-- One publication, and no other change of the reverb than that of its engine. -/
structure Publishes (s : Scene ω α β) (p : Parameters α) (s' : Scene ω α β) : Prop where
  published : s'.published = s.published ++ [p]
  reverb : ∃ engine, s'.reverb = { s.reverb with parameters := p, engine }

/-- Publications that satisfy `P`, any number of them. -/
structure Follows (P : Parameters α → Prop) (s s' : Scene ω α β) : Prop where
  published : ∃ trials, s'.published = s.published ++ trials ∧ ∀ p ∈ trials, P p
  reverb : ∃ parameters engine, s'.reverb = { s.reverb with parameters, engine }

variable {s s' s'' : Scene ω α β} {p : Parameters α} {P : Parameters α → Prop}

theorem Publishes.parameters (h : s.Publishes p s') : s'.reverb.parameters = p := by
  obtain ⟨engine, h⟩ := h.reverb
  rw [h]

theorem Follows.refl (P : Parameters α → Prop) (s : Scene ω α β) : Follows P s s :=
  ⟨⟨[], (List.append_nil _).symm, fun _ hp => nomatch hp⟩, ⟨_, _, rfl⟩⟩

theorem Follows.mono (h : Follows P s s') {P' : Parameters α → Prop} (himp : ∀ p, P p → P' p) :
    Follows P' s s' := by
  obtain ⟨⟨trials, hpublished, htrials⟩, hreverb⟩ := h
  exact ⟨⟨trials, hpublished, fun p hp => himp p (htrials p hp)⟩, hreverb⟩

theorem Follows.publish (h : Follows P s s') (h' : s'.Publishes p s'') (hp : P p) :
    Follows P s s'' := by
  obtain ⟨⟨trials, hpublished, htrials⟩, ⟨parameters, engine, hreverb⟩⟩ := h
  obtain ⟨hpublished', ⟨engine', hreverb'⟩⟩ := h'
  refine ⟨⟨trials ++ [p], ?_, fun q hq => ?_⟩, ⟨p, engine', ?_⟩⟩
  · rw [hpublished', hpublished, List.append_assoc]
  · rcases List.mem_append.mp hq with hq | hq
    · exact htrials q hq
    · rw [List.mem_singleton.mp hq]
      exact hp
  · rw [hreverb', hreverb]

end Scene

variable [Elementary α] [Elementary β] [Widening α β]

/-- Updates are published on the reverb and noted. Measurements publish nothing. -/
def Scene.subject (measure : Measurement ω α β) : Subject (Scene ω α β) α where
  update revise s :=
    let reverb := s.reverb.update revise
    { s with reverb, published := s.published ++ [reverb.parameters] }
  measure s :=
    let (answer, engine, world) := measure s
    (answer, { s with reverb := { s.reverb with engine }, world })

/-! ## Trials -/

section

variable (measure : Measurement ω α β) (options : Options β) (goal : Goal α β)

theorem trial_publishes (revise : Parameters α → Parameters α) (s : Scene ω α β) :
    Ends (trial (Scene.subject measure) revise) s fun answer s' =>
      s.Publishes { revise s.reverb.parameters with decayTime := 0 } s' ∧
        ∃ measured, answer = (measure measured).1 := by
  unfold trial
  refine Ends.bind ?_
  exact ⟨⟨rfl, _, rfl⟩, _, rfl⟩

theorem absorptionError_publishes (absorption : β) (s : Scene ω α β) :
    Ends (absorptionError (Scene.subject measure) goal absorption) s fun _ s' =>
      s.Publishes (s.reverb.parameters.tuned (narrow (Scalar.clamp goal.least 1 absorption))
        s.reverb.parameters.damping) s' := by
  unfold absorptionError
  refine Ends.bind ((trial_publishes measure _ s).mono fun answer s' h => ?_)
  cases answer with
  | none => exact Ends.pure h.1
  | some times => exact Ends.pure h.1

theorem slopeError_publishes (damping : β) (s : Scene ω α β) :
    Ends (slopeError (Scene.subject measure) goal damping) s fun _ s' =>
      s.Publishes (s.reverb.parameters.tuned s.reverb.parameters.absorption
        (narrow (Scalar.clamp 0 maxDamping damping))) s' := by
  unfold slopeError
  refine Ends.bind ((trial_publishes measure _ s).mono fun answer s' h => ?_)
  cases answer with
  | none => exact Ends.pure h.1
  | some times => exact Ends.pure h.1

end

/-! ## The ranges of a fit -/

/-- What ranges need to know of the order: nothing is below itself, and the ranges of absorption and
damping are not upside down. -/
structure Ranges (β : Type) [Elementary β] : Prop where
  irrefl : ∀ x : β, ¬ x < x
  absorption : ¬ (1 : β) < 1.0e-4
  damping : ¬ (maxDamping : β) < 0

theorem ranges_binary64 : Ranges Float where
  irrefl := binary64_not_lt_self
  absorption := by decide +kernel
  damping := by decide +kernel

/-- A parameter comes back as it was from the precision in which it is searched. -/
theorem narrow_widen_binary32 (x : Float32) : narrow (widen x : Float) = x :=
  binary32Of_binary64Of x

/-- The range of the absorption is not upside down. -/
theorem Ranges.not_one_lt_least (hβ : Ranges β) (bands targets : Array α) (room : Room α) :
    ¬ 1 < (Goal.ofCurve bands targets room : Goal α β).least :=
  Scalar.not_lt_clamp hβ.irrefl hβ.absorption _

/-! ## Stages of a fit -/

section

variable {error : β → StateM (Scene ω α β) β}

omit [Elementary α] [Widening α β] in
/-- When each trial publishes the next parameters, a stage publishes nothing else, and leaves those
of the value that it returns. -/
theorem stage_follows (hβ : Ranges β) {Q : Parameters α → Prop} {next : β → Parameters α}
    (herror : ∀ x s, Q s.reverb.parameters → Ends (error x) s fun _ s' => s.Publishes (next x) s')
    (hnext : ∀ x, Q (next x)) (settings : Simplex.Settings β β) (limit : ℕ)
    (start : β) {lower upper : β} (hrange : ¬ upper < lower) (rounds : ℕ)
    (status : Simplex.Status) {s : Scene ω α β} (hs : Q s.reverb.parameters) :
    Ends (stage error settings limit start lower upper rounds status) s fun p s' =>
      Scalar.clamp lower upper p.value = p.value ∧
        Scene.Follows (fun q => q ∈ Set.range next) s s' ∧
          s'.reverb.parameters = next p.value := by
  have hI : ∀ x s', Scene.Follows (fun q => q ∈ Set.range next) s s' ∧ Q s'.reverb.parameters →
      Ends (error x) s' fun _ s'' =>
        Scene.Follows (fun q => q ∈ Set.range next) s s'' ∧ Q s''.reverb.parameters := by
    intro x s' h
    refine (herror x s' h.2).mono fun _ s'' hpublishes => ⟨h.1.publish hpublishes ⟨x, rfl⟩, ?_⟩
    rw [hpublishes.parameters]
    exact hnext x
  refine (stage_ends hI settings limit start lower upper rounds status
    ⟨Scene.Follows.refl _ s, hs⟩).mono fun p s' h => ?_
  obtain ⟨⟨x, hx⟩, before, hbefore, rfl⟩ := h
  have hlast := herror p.value before hbefore.2
  refine ⟨?_, hbefore.1.publish hlast ⟨p.value, rfl⟩, hlast.parameters⟩
  rw [← hx]
  exact Scalar.clamp_clamp hβ.irrefl hrange x

end

section

variable (measure : Measurement ω α β) (options : Options β) {goal : Goal α β}
  {start : Parameters α} {s : Scene ω α β}

/-- The first stage changes the absorption, and leaves the one that it returns. -/
theorem absorptionStage_follows (hβ : Ranges β) (hgoal : ¬ 1 < goal.least)
    (hs : s.reverb.parameters = start) :
    Ends (absorptionStage (Scene.subject measure) options goal start) s fun first s' =>
      Scene.Follows (fun p => ∃ absorption, p = start.tuned absorption start.damping) s s' ∧
        s'.reverb.parameters = start.tuned (narrow first.value) start.damping := by
  have herror : ∀ x (s : Scene ω α β),
      (start.Varies s.reverb.parameters ∧ s.reverb.parameters.damping = start.damping) →
      Ends (absorptionError (Scene.subject measure) goal x) s fun _ s' =>
        s.Publishes (start.tuned (narrow (Scalar.clamp goal.least 1 x)) start.damping) s' := by
    intro x s h
    have hpublishes := absorptionError_publishes measure goal x s
    rw [h.1, h.2] at hpublishes
    exact hpublishes
  have hstart : start.Varies s.reverb.parameters ∧ s.reverb.parameters.damping = start.damping := by
    rw [hs]
    exact ⟨.refl start, rfl⟩
  have hstage := stage_follows hβ
    (Q := fun p => start.Varies p ∧ p.damping = start.damping) herror
    (fun _ => ⟨start.varies_tuned _ _, rfl⟩) options.settings options.rounds
    (widen start.absorption) hgoal 0 .converged hstart
  refine hstage.mono fun first s' h => ?_
  obtain ⟨hvalue, hfollows, hparameters⟩ := h
  refine ⟨hfollows.mono ?_, ?_⟩
  · rintro _ ⟨y, rfl⟩
    exact ⟨_, rfl⟩
  · rw [hparameters, hvalue]

/-- What the second stage does between two scenes: with a single band nothing, and otherwise it
changes the damping, and leaves the one that it returns. -/
structure Damps (start : Parameters α) (absorption : α) (bands : ℕ) (s : Scene ω α β)
    (second : Option (Progress β β)) (s' : Scene ω α β) : Prop where
  follows : Scene.Follows (fun p => ∃ damping, p = start.tuned absorption damping) s s'
  settled : ∀ p, second = some p → s'.reverb.parameters = start.tuned absorption (narrow p.value)
  single : bands < 2 → second = none
  skipped : second = none → s' = s

theorem dampingStage_follows (hβ : Ranges β) {absorption damping : α}
    (hs : s.reverb.parameters = start.tuned absorption damping) (first : Progress β β) :
    Ends (dampingStage (Scene.subject measure) options goal start first) s
      fun second s' => Damps start absorption goal.bands.size s second s' := by
  have herror : ∀ x (s : Scene ω α β),
      (start.Varies s.reverb.parameters ∧ s.reverb.parameters.absorption = absorption) →
      Ends (slopeError (Scene.subject measure) goal x) s fun _ s' =>
        s.Publishes (start.tuned absorption (narrow (Scalar.clamp 0 maxDamping x))) s' := by
    intro x s h
    have hpublishes := slopeError_publishes measure goal x s
    rw [h.1, h.2] at hpublishes
    exact hpublishes
  have hstart : start.Varies s.reverb.parameters ∧
      s.reverb.parameters.absorption = absorption := by
    rw [hs]
    exact ⟨start.varies_tuned _ _, rfl⟩
  unfold dampingStage
  refine Ends.ite (fun hmany => ?_) (fun hsingle => ?_)
  · have hstage := stage_follows hβ
      (Q := fun p => start.Varies p ∧ p.absorption = absorption) herror
      (fun _ => ⟨start.varies_tuned _ _, rfl⟩) options.settings options.rounds
      (widen start.damping) hβ.damping first.rounds first.status hstart
    refine Ends.map (hstage.mono fun second s' h => ?_)
    obtain ⟨hvalue, hfollows, hparameters⟩ := h
    refine ⟨hfollows.mono ?_, ?_, fun hfew => absurd hmany (not_le.mpr hfew), nofun⟩
    · rintro _ ⟨y, rfl⟩
      exact ⟨_, rfl⟩
    · rintro p ⟨⟩
      rw [hparameters, hvalue]
  · exact Ends.pure ⟨.refl _ s, nofun, fun _ => rfl, fun _ => rfl⟩

/-- The last trial is that of the values that are reported. -/
theorem conclude_publishes {n : ℕ}
    (hmeasure : ∀ s times, (measure s).1 = some times → times.size = n)
    (hgoal : goal.bands.size = n) (first : Progress β β) (second : Option (Progress β β)) :
    Ends (conclude (Scene.subject measure) goal start first second) s fun report s' =>
      s.Publishes (s.reverb.parameters.tuned report.absorption report.damping) s' ∧
        report.absorption = narrow first.value ∧
        (∀ p, second = some p → report.damping = narrow p.value) ∧
        (second = none → report.damping = narrow (widen start.damping : β)) ∧
        report.measured.size = n := by
  unfold conclude
  refine Ends.bind ((trial_publishes measure _ s).mono fun answer s' h => Ends.pure ?_)
  obtain ⟨hpublishes, measured, hanswer⟩ := h
  refine ⟨hpublishes, rfl, ?_, ?_, ?_⟩
  · rintro p rfl
    rfl
  · rintro rfl
    rfl
  · cases answer with
    | none => exact Array.size_replicate.trans hgoal
    | some times => exact hmeasure measured times hanswer.symm

end

/-! ## Decay times -/

/-- The measurement of decay times in the given bands. -/
def bandMeasurement (bands : Array α) : Measurement Unit α β := fun s =>
  let (answer, reverb) := s.reverb.bandTimes bands
  (answer, reverb.engine, ())

/-- Measuring changes nothing but the engine. -/
theorem bandTimes_reverb (r : Reverb α β) (bands : Array α) :
    { r with engine := (r.bandTimes bands).2.engine } = (r.bandTimes bands).2 := by
  unfold Reverb.bandTimes Reverb.measure
  cases hengine : r.engine? with
  | none => rfl
  | some e => rfl

theorem size_bandTimes {r : Reverb α β} {bands times : Array α}
    (h : (r.bandTimes bands).1 = some times) : times.size = bands.size := by
  unfold Reverb.bandTimes Reverb.measure at h
  cases hengine : r.engine? with
  | none =>
    rw [hengine] at h
    cases h
  | some e =>
    rw [hengine] at h
    cases h
    exact Array.size_map

/-! ## The whole fit -/

/-- What a fit of a reverb is after. -/
def goalOf (r : Reverb α β) : Goal α β :=
  .ofCurve r.config.bands r.config.bandTimes r.parameters.room

/-- What can be fitted: a reverb that is configured and has a target curve, in a room with a range
for the absorption. -/
def Fittable (r : Reverb α β) : Prop :=
  r.isConfigured = true ∧ r.config.bands.isEmpty = false ∧ Scalar.isNaN (goalOf r).least = false

/-- The reason why a reverb cannot be fitted, if there is one. -/
def refusal? (r : Reverb α β) : Option Error :=
  if ¬ r.isConfigured then some (.config .notConfigured)
  else if r.config.bands.isEmpty then some (.config .emptyTargetCurve)
  else if Scalar.isNaN (goalOf r).least then some .undefinedRange
  else none

theorem fittable_iff {r : Reverb α β} : Fittable r ↔ refusal? r = none := by
  unfold Fittable refusal?
  split_ifs <;> simp_all

/-- A fit that is refused does nothing. -/
theorem fitWithin_of_refusal {σ : Type} (subject : Subject σ α) {reverb : σ → Reverb α β}
    (options : Options β) {s : σ} {e : Error} (h : refusal? (reverb s) = some e) :
    Reverb.fitWithin subject reverb options s = (.error e, s) := by
  unfold refusal? at h
  unfold Reverb.fitWithin
  dsimp only
  split_ifs at h with hconfigured hbands hrange
  · rw [if_neg (not_not.mpr hconfigured), if_pos hbands, Option.some.inj h]
  · have hrun : run subject options (reverb s).config.bands (reverb s).config.bandTimes
        (reverb s).parameters = .error .undefinedRange := if_pos hrange
    rw [if_neg (not_not.mpr hconfigured), if_neg hbands, hrun, ← Option.some.inj h]
  · rw [if_pos hconfigured, Option.some.inj h]

/-- A fit of anything that is not fittable does nothing. -/
theorem fitWithin_error {r : Reverb α β} (h : ¬ Fittable r) :
    ∃ e, ∀ {σ : Type} (subject : Subject σ α) {reverb : σ → Reverb α β} (options : Options β)
      {s : σ}, reverb s = r → Reverb.fitWithin subject reverb options s = (.error e, s) := by
  obtain ⟨e, he⟩ := Option.ne_none_iff_exists'.mp (mt fittable_iff.mpr h)
  refine ⟨e, ?_⟩
  rintro σ subject reverb options s rfl
  exact fitWithin_of_refusal subject options he

theorem fitWithin_ok {σ : Type} (subject : Subject σ α) {reverb : σ → Reverb α β}
    (options : Options β) {s : σ} (h : Fittable (reverb s)) :
    Reverb.fitWithin subject reverb options s =
      (.ok (stages subject options (goalOf (reverb s)) (reverb s).parameters s).1,
        (stages subject options (goalOf (reverb s)) (reverb s).parameters s).2) := by
  obtain ⟨hconfigured, hbands, hrange⟩ := h
  have hrun : run subject options (reverb s).config.bands (reverb s).config.bandTimes
      (reverb s).parameters = .ok (stages subject options (goalOf (reverb s))
        (reverb s).parameters) := if_neg (Bool.eq_false_iff.mp hrange)
  unfold Reverb.fitWithin
  rw [if_neg (not_not.mpr hconfigured), if_neg (Bool.eq_false_iff.mp hbands), hrun]
  rfl

section

variable (measure : Measurement ω α β) (options : Options β) (s : Scene ω α β)

/-- The result of the first stage, and the scene after it. -/
def afterAbsorption : Progress β β × Scene ω α β :=
  absorptionStage (Scene.subject measure) options (goalOf s.reverb) s.reverb.parameters s

/-- The result of the second stage, and the scene after it. -/
def afterDamping : Option (Progress β β) × Scene ω α β :=
  dampingStage (Scene.subject measure) options (goalOf s.reverb) s.reverb.parameters
    (afterAbsorption measure options s).1 (afterAbsorption measure options s).2

theorem afterAbsorption_follows (hβ : Ranges β) :
    Scene.Follows
        (fun p => ∃ absorption, p = s.reverb.parameters.tuned absorption
          s.reverb.parameters.damping)
        s (afterAbsorption measure options s).2 ∧
      (afterAbsorption measure options s).2.reverb.parameters =
        s.reverb.parameters.tuned (narrow (afterAbsorption measure options s).1.value)
          s.reverb.parameters.damping :=
  absorptionStage_follows measure options hβ (hβ.not_one_lt_least _ _ _) rfl

theorem afterDamping_follows (hβ : Ranges β) :
    Damps s.reverb.parameters (narrow (afterAbsorption measure options s).1.value)
      (goalOf s.reverb).bands.size (afterAbsorption measure options s).2
      (afterDamping measure options s).1 (afterDamping measure options s).2 :=
  dampingStage_follows measure options hβ (afterAbsorption_follows measure options s hβ).2 _

/-- What a fit publishes that ends with `report`, stage by stage. -/
structure Fitted (report : Report α β) (s' : Scene ω α β) : Prop where
  /-- The first stage leaves the damping alone. -/
  absorptions : Scene.Follows
    (fun p => ∃ absorption, p = s.reverb.parameters.tuned absorption s.reverb.parameters.damping)
    s (afterAbsorption measure options s).2
  /-- It leaves the absorption that is reported. -/
  absorption_settled : (afterAbsorption measure options s).2.reverb.parameters =
    s.reverb.parameters.tuned report.absorption s.reverb.parameters.damping
  /-- The second stage leaves that absorption alone. -/
  dampings : Scene.Follows
    (fun p => ∃ damping, p = s.reverb.parameters.tuned report.absorption damping)
    (afterAbsorption measure options s).2 (afterDamping measure options s).2
  /-- It leaves the damping that is reported. -/
  damping_settled : (afterDamping measure options s).2.reverb.parameters =
    s.reverb.parameters.tuned report.absorption report.damping
  /-- A single band has no second stage, and keeps the damping. -/
  single : s.reverb.config.bands.size < 2 →
    (afterDamping measure options s).2 = (afterAbsorption measure options s).2 ∧
      report.damping = s.reverb.parameters.damping
  /-- At last the reported parameters are published. -/
  last : (afterDamping measure options s).2.Publishes
    (s.reverb.parameters.tuned report.absorption report.damping) s'
  size_measured : report.measured.size = s.reverb.config.bands.size

variable {measure s}

theorem fitted_stages (hβ : Ranges β) (hnarrow : ∀ x : α, narrow (widen x : β) = x)
    (hmeasure : ∀ s' times, (measure s').1 = some times →
      times.size = s.reverb.config.bands.size) :
    Ends (stages (Scene.subject measure) options (goalOf s.reverb) s.reverb.parameters) s
      fun report s' => Fitted measure options s report s' := by
  obtain ⟨habsorptions, hsettled⟩ := afterAbsorption_follows measure options s hβ
  have hdamps := afterDamping_follows measure options s hβ
  show Ends (conclude (Scene.subject measure) (goalOf s.reverb) s.reverb.parameters
    (afterAbsorption measure options s).1 (afterDamping measure options s).1)
    (afterDamping measure options s).2 _
  refine (conclude_publishes measure hmeasure rfl _ _).mono fun report s' h => ?_
  obtain ⟨hlast, habsorption, hdamping, hkept, hsize⟩ := h
  rw [← habsorption] at hsettled hdamps
  have hkept : (afterDamping measure options s).1 = none →
      report.damping = s.reverb.parameters.damping := fun h => (hkept h).trans (hnarrow _)
  have hdamping_settled : (afterDamping measure options s).2.reverb.parameters =
      s.reverb.parameters.tuned report.absorption report.damping := by
    cases hresult : (afterDamping measure options s).1 with
    | none => rw [hdamps.skipped hresult, hsettled, hkept hresult]
    | some p => rw [hdamps.settled p hresult, hdamping p hresult]
  rw [hdamping_settled] at hlast
  exact {
    absorptions := habsorptions
    absorption_settled := hsettled
    dampings := hdamps.follows
    damping_settled := hdamping_settled
    single := fun hfew => ⟨hdamps.skipped (hdamps.single hfew), hkept (hdamps.single hfew)⟩
    last := hlast
    size_measured := hsize }

end

/-- **The frame of a fit.** Whatever the options are and whatever is measured, in as many bands as
the target curve has: a fit of what cannot be fitted does nothing, and any other fit ends with a
report, having published nothing but what `Fitted` says. -/
theorem fitWithin_frame (measure : Measurement ω Float32 Float) (options : Options Float)
    (s : Scene ω Float32 Float)
    (hmeasure : ∀ s' times, (measure s').1 = some times →
      times.size = s.reverb.config.bands.size) :
    Ends (Reverb.fitWithin (Scene.subject measure) Scene.reverb options) s fun result s' =>
      ((∃ report, result = .ok report) ↔ Fittable s.reverb) ∧
        (∀ e, result = .error e → s' = s) ∧
        ∀ report, result = .ok report → Fitted measure options s report s' := by
  unfold Ends
  by_cases hfittable : Fittable s.reverb
  · have hfitted := fitted_stages options ranges_binary64 narrow_widen_binary32 hmeasure
    rw [fitWithin_ok (Scene.subject measure) options hfittable]
    refine ⟨⟨fun _ => hfittable, fun _ => ⟨_, rfl⟩⟩, nofun, ?_⟩
    rintro report ⟨⟩
    exact hfitted
  · obtain ⟨e, herror⟩ := fitWithin_error hfittable
    rw [herror (Scene.subject measure) options rfl]
    exact ⟨⟨nofun, fun h => absurd h hfittable⟩, fun _ _ => rfl, nofun⟩

/-- A room with a target curve in two bands, as binary32 numbers. -/
def tunedRoom : Config Float32 :=
  { Config.default with
    room := ⟨4, 5, 3⟩
    bands := #[500, 1000]
    bandTimes := #[0.8, 0.6] }

theorem fitWithin_frame_tunedRoom : ∃ (r : Reverb Float32 Float) (report : Report Float32 Float)
    (s' : Scene Unit Float32 Float),
    (Reverb.Reachable tunedRoom r ∧
      ∀ s times, (bandMeasurement #[500, 1000] (s : Scene Unit Float32 Float)).1 = some times →
        times.size = r.config.bands.size) ∧
      Reverb.fitWithin (Scene.subject (bandMeasurement #[500, 1000])) Scene.reverb .default
        ⟨r, [], ()⟩ = (.ok report, s') ∧
      Fitted (bandMeasurement #[500, 1000]) .default ⟨r, [], ()⟩ report s' := by
  have hcheck : tunedRoom.check = .ok .shortest := by decide +kernel
  have hrate : Scalar.isFinite (48000 : Float32) ∧ (1 : Float32) ≤ 48000 := by decide +kernel
  have hleast : Scalar.isNaN (Goal.ofCurve tunedRoom.bands tunedRoom.bandTimes
      (Parameters.ofConfig tunedRoom).room : Goal Float32 Float).least = false := by decide +kernel
  obtain ⟨start, hnew⟩ := Reverb.exists_new (β := Float) hcheck
  obtain ⟨r, hconfigure⟩ := Reverb.exists_configure hnew hrate 16
  have hreachable : Reverb.Reachable tunedRoom r := ⟨start, hnew, .single (.configure hconfigure)⟩
  have hstate : r.config = tunedRoom ∧ r.parameters = .ofConfig tunedRoom ∧
      r.isConfigured = true := by
    obtain ⟨-, e, -, rfl⟩ := Reverb.configure_eq_ok_iff.mp hconfigure
    rw [Reverb.eq_of_new hnew]
    exact ⟨rfl, rfl, rfl⟩
  obtain ⟨hconfig, hparameters, hconfigured⟩ := hstate
  have hfittable : Fittable r := by
    unfold Fittable goalOf
    rw [hconfig, hparameters]
    exact ⟨hconfigured, rfl, hleast⟩
  have hmeasure : ∀ s times,
      (bandMeasurement #[500, 1000] (s : Scene Unit Float32 Float)).1 = some times →
        times.size = r.config.bands.size := by
    rw [hconfig]
    exact fun _ _ => size_bandTimes
  obtain ⟨hok, -, hfitted⟩ := fitWithin_frame (bandMeasurement #[500, 1000]) .default
    ⟨r, [], ()⟩ hmeasure
  obtain ⟨report, hreport⟩ := hok.mpr hfittable
  exact ⟨r, report, _, ⟨hreachable, hmeasure⟩, Prod.ext hreport rfl, hfitted report hreport⟩

end Fit

end AmbisonicReverb
