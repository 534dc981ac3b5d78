import Mathlib
import AmbisonicReverb.Proofs.Frame

/-!
# The journal of a fit changes nothing

A fit sees nothing of its subject but what is measured. Two subjects whose measurements answer alike
in related states are fitted in lockstep (`lockstep_fitWithin`), trial by trial.

So the fit of a reverb comes to the same end as that of a scene with this reverb, in which all that
is published is noted (`fit_eq`), and what is known of scenes is known of reverbs.
-/

namespace AmbisonicReverb

namespace Fit

variable {κ ν σ σ' : Type} {R : σ → σ' → Prop}

/-! ## Stages -/

section

variable [Scalar κ] [Scalar ν] {error : κ → StateM σ ν} {error' : κ → StateM σ' ν}

theorem lockstep_searchRounds (herror : ∀ x, Lockstep R (error x) (error' x))
    (settings : Simplex.Settings κ ν) (lower upper : κ) (rounds : ℕ) (p : Progress κ ν) :
    Lockstep R (searchRounds error settings lower upper rounds p)
      (searchRounds error' settings lower upper rounds p) := by
  induction rounds generalizing p with
  | zero => exact .pure p
  | succ rounds ih =>
    unfold searchRounds
    refine .ite (.pure p) ?_
    refine .bind (Simplex.lockstep_search (fun x => herror _) settings _) fun found => ?_
    refine .ite (.pure _) (.bind (herror _) fun candidateError => ?_)
    exact .ite (.pure _) (ih _)

theorem lockstep_stage (herror : ∀ x, Lockstep R (error x) (error' x))
    (settings : Simplex.Settings κ ν) (limit : ℕ) (start lower upper : κ) (rounds : ℕ)
    (status : Simplex.Status) :
    Lockstep R (stage error settings limit start lower upper rounds status)
      (stage error' settings limit start lower upper rounds status) := by
  refine .bind (herror _) fun first => ?_
  refine .bind (lockstep_searchRounds herror settings lower upper limit _) fun p => ?_
  exact .bind (herror _) fun _ => .pure p

end

/-! ## Whole fits -/

variable {α β : Type} [Elementary α] [Elementary β] [Widening α β]

section

/-- Two subjects whose measurements answer alike. -/
structure Subject.Alike (R : σ → σ' → Prop) (subject : Subject σ α) (subject' : Subject σ' α) :
    Prop where
  update : ∀ revise s s', R s s' → R (subject.update revise s) (subject'.update revise s')
  measure : Lockstep R subject.measure subject'.measure

variable {subject : Subject σ α} {subject' : Subject σ' α} (h : subject.Alike R subject')

include h

theorem lockstep_trial (revise : Parameters α → Parameters α) :
    Lockstep R (trial subject revise) (trial subject' revise) := by
  refine .bind (fun s s' hs => ⟨rfl, ?_⟩) fun _ => h.measure
  exact h.update (fun p => { revise p with decayTime := 0 }) s s' hs

theorem lockstep_absorptionError (goal : Goal α β) (absorption : β) :
    Lockstep R (absorptionError subject goal absorption)
      (absorptionError subject' goal absorption) := by
  refine .bind (lockstep_trial h _) fun answer => ?_
  cases answer with
  | none => exact .pure _
  | some times => exact .pure _

theorem lockstep_slopeError (goal : Goal α β) (damping : β) :
    Lockstep R (slopeError subject goal damping) (slopeError subject' goal damping) := by
  refine .bind (lockstep_trial h _) fun answer => ?_
  cases answer with
  | none => exact .pure _
  | some times => exact .pure _

theorem lockstep_dampingStage (options : Options β) (goal : Goal α β) (start : Parameters α)
    (first : Progress β β) :
    Lockstep R (dampingStage subject options goal start first)
      (dampingStage subject' options goal start first) :=
  .ite (.map some (lockstep_stage (lockstep_slopeError h goal) _ _ _ _ _ _ _)) (.pure none)

omit [Elementary β] in
theorem lockstep_conclude (goal : Goal α β) (start : Parameters α) (first : Progress β β)
    (second : Option (Progress β β)) :
    Lockstep R (conclude subject goal start first second)
      (conclude subject' goal start first second) :=
  .bind (lockstep_trial h _) fun _ => .pure _

theorem lockstep_stages (options : Options β) (goal : Goal α β) (start : Parameters α) :
    Lockstep R (stages subject options goal start) (stages subject' options goal start) := by
  refine .bind (lockstep_stage (lockstep_absorptionError h goal) _ _ _ _ _ _ _) fun first => ?_
  exact .bind (lockstep_dampingStage h options goal start first) fun second =>
    lockstep_conclude h goal start first second

/-- **Lockstep.** What is measured alike is fitted alike. -/
theorem lockstep_fitWithin {reverb : σ → Reverb α β} {reverb' : σ' → Reverb α β}
    (hreverb : ∀ s s', R s s' → reverb s = reverb' s') (options : Options β) :
    Lockstep R (Reverb.fitWithin subject reverb options)
      (Reverb.fitWithin subject' reverb' options) := by
  intro s s' hs
  have hsame := hreverb s s' hs
  by_cases hfittable : Fittable (reverb s)
  · obtain ⟨hreport, hstate⟩ :=
      lockstep_stages h options (goalOf (reverb s)) (reverb s).parameters s s' hs
    have hfittable' : Fittable (reverb' s') := hsame ▸ hfittable
    rw [fitWithin_ok subject options hfittable, fitWithin_ok subject' options hfittable', ← hsame]
    exact ⟨congrArg Except.ok hreport, hstate⟩
  · obtain ⟨e, herror⟩ := fitWithin_error hfittable
    rw [herror subject options rfl, herror subject' options hsame.symm]
    exact ⟨rfl, hs⟩

end

/-! ## Reverbs -/

/-- A reverb on which nothing has been published so far. -/
def Scene.ofReverb (r : Reverb α β) : Scene Unit α β := ⟨r, [], ()⟩

/-- **The journal changes nothing.** A fit comes to the same report and the same reverb as the one
that notes what is published. -/
theorem fit_eq (r : Reverb α β) (options : Options β) :
    r.fit options =
      let (result, s) := Reverb.fitWithin (Scene.subject (bandMeasurement r.config.bands))
        Scene.reverb options (.ofReverb r)
      result.map (·, s.reverb) := by
  have halike : (Reverb.subject r.config.bands).Alike
      (fun (r : Reverb α β) (s : Scene Unit α β) => r = s.reverb)
      (Scene.subject (bandMeasurement r.config.bands)) := by
    refine ⟨?_, ?_⟩
    · rintro revise _ s rfl
      rfl
    · rintro _ s rfl
      exact ⟨rfl, (bandTimes_reverb _ _).symm⟩
  have hreverb : ∀ (r : Reverb α β) (s : Scene Unit α β), r = s.reverb → id r = s.reverb :=
    fun _ _ => id
  obtain ⟨hresult, hstate⟩ := lockstep_fitWithin halike hreverb options r (.ofReverb r) rfl
  unfold Reverb.fit
  rw [← Prod.mk.eta (p := Reverb.fitWithin (Reverb.subject r.config.bands) id options r), hresult,
    hstate]

/-- A fit leaves the parameters that it reports. -/
theorem parameters_fit {r r' : Reverb Float32 Float} {options : Options Float}
    {report : Report Float32 Float} (h : r.fit options = .ok (report, r')) :
    r'.parameters = r.parameters.tuned report.absorption report.damping := by
  have hmeasure : ∀ s times,
      (bandMeasurement r.config.bands (s : Scene Unit Float32 Float)).1 = some times →
        times.size = (Scene.ofReverb r).reverb.config.bands.size := fun _ _ => size_bandTimes
  have hfitted := fitted_stages (s := .ofReverb r) options ranges_binary64 narrow_widen_binary32
    hmeasure
  rw [fit_eq] at h
  by_cases hfittable : Fittable (Scene.ofReverb r).reverb
  · rw [fitWithin_ok _ options hfittable] at h
    unfold Ends at hfitted
    generalize stages (Scene.subject (bandMeasurement r.config.bands)) options _ _ _ = result
      at h hfitted
    cases h
    exact hfitted.last.parameters
  · obtain ⟨e, herror⟩ := fitWithin_error hfittable
    rw [herror _ options rfl] at h
    cases h

end Fit

end AmbisonicReverb
