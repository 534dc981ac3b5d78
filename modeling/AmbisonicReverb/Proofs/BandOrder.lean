import Mathlib
import AmbisonicReverb.Proofs.Curve
import AmbisonicReverb.Proofs.Usable

/-!
# The order of the bands

A configuration lists the bands of its target curve in some order. Another configuration lists the
same bands in another order, and is otherwise the same.

**Theorem (`fit_rearranged`).** Freshly configured and fitted with the same options, both publish
the same parameters, one after the other, and end with the same report, up to the order of what was
measured.

Two fits run in tandem. Their reverbs are the same at all times but for their configurations
(`Paired`), since the configuration of a reverb is not looked at after it was configured, and the
engines are built alike. A trial measures the same times in another order, none of which is NaN
(`tandem_trial`), so that its error is the same. The searches of both see nothing but errors, and go
in lockstep (`lockstep_stage`).
-/

namespace AmbisonicReverb

/-! ## Programs in tandem -/

/-- From related states, two programs come to related results and states. -/
def Tandem {σ σ' τ τ' : Type} (V : τ → τ' → Prop) (R : σ → σ' → Prop) (m : StateM σ τ)
    (m' : StateM σ' τ') : Prop :=
  ∀ s s', R s s' → V (m s).1 (m' s').1 ∧ R (m s).2 (m' s').2

namespace Tandem

variable {σ σ' τ τ' υ υ' : Type} {V : τ → τ' → Prop} {W : υ → υ' → Prop} {R : σ → σ' → Prop}

theorem pure {a : τ} {a' : τ'} (h : V a a') : Tandem V R (Pure.pure a) (Pure.pure a') :=
  fun _ _ hs => ⟨h, hs⟩

theorem bind {m : StateM σ τ} {m' : StateM σ' τ'} {f : τ → StateM σ υ} {f' : τ' → StateM σ' υ'}
    (hm : Tandem V R m m') (hf : ∀ a a', V a a' → Tandem W R (f a) (f' a')) :
    Tandem W R (m >>= f) (m' >>= f') := by
  intro s s' hs
  obtain ⟨hresult, hstate⟩ := hm s s' hs
  exact hf _ _ hresult _ _ hstate

theorem of_lockstep {m : StateM σ τ} {m' : StateM σ' τ} (h : Lockstep R m m') :
    Tandem Eq R m m' := h

end Tandem

/-! ## Configurations -/

namespace Config

/-- The same configuration with another target curve. -/
def withCurve (c : Config Float32) (bands bandTimes : Array Float32) : Config Float32 :=
  { c with bands, bandTimes }

/-- The target curve has no band twice, and consists of numbers. -/
structure SoundCurve (c : Config Float32) : Prop where
  distinct : Distinct c.bands
  bands : Numbers c.bands
  bandTimes : Numbers c.bandTimes

variable {n : ℕ} {π : Equiv.Perm (Fin n)} {c : Config Float32} {bands bandTimes : Array Float32}

/-- The configuration lists the bands and their times in another order, the same for both. -/
structure Rearranged (π : Equiv.Perm (Fin n)) (c : Config Float32)
    (bands bandTimes : Array Float32) : Prop where
  bands : AmbisonicReverb.Rearranged π c.bands bands
  bandTimes : AmbisonicReverb.Rearranged π c.bandTimes bandTimes

theorem Rearranged.check_eq (h : c.Rearranged π bands bandTimes) :
    (c.withCurve bands bandTimes).check = c.check := by
  unfold check withCurve
  rw [h.bands.size_left, h.bands.size_right, h.bandTimes.size_left, h.bandTimes.size_right]

end Config

namespace Reverb

/-- The same reverb, as if it had been made for another configuration. -/
def withConfig (r : Reverb Float32 Float) (c : Config Float32) : Reverb Float32 Float :=
  { r with config := c }

variable {n : ℕ} {π : Equiv.Perm (Fin n)} {c : Config Float32} {bands bandTimes : Array Float32}
  {start r : Reverb Float32 Float}

theorem new_rearranged (h : c.Rearranged π bands bandTimes) (hnew : Reverb.new c = .ok start) :
    Reverb.new (c.withCurve bands bandTimes) =
      .ok (start.withConfig (c.withCurve bands bandTimes)) := by
  have hcheck := (current_new hnew).check_eq
  unfold new at hnew ⊢
  rw [hcheck] at hnew
  rw [h.check_eq, hcheck, ← Except.ok.inj hnew]
  rfl

theorem configure_rearranged (h : c.Rearranged π bands bandTimes) (hsound : c.SoundCurve)
    (hnew : Reverb.new c = .ok start) {sampleRate : Float32} {fragment : ℕ}
    (hconfigure : start.configure sampleRate fragment = .ok r) :
    (start.withConfig (c.withCurve bands bandTimes)).configure sampleRate fragment =
      .ok (r.withConfig (c.withCurve bands bandTimes)) := by
  obtain ⟨hrate, e, he, rfl⟩ := configure_eq_ok_iff.mp hconfigure
  rw [(current_new hnew).config_eq] at he
  refine configure_eq_ok_iff.mpr ⟨hrate, e, ?_, rfl⟩
  have hlongest := longestTime_eq h.bandTimes hsound.bandTimes
  rw [← he]
  show Engine.new (c.withCurve bands bandTimes) start.method sampleRate start.parameters = _
  unfold Engine.new Config.withCurve
  rw [hlongest]

end Reverb

namespace Fit

/-! ## Trials -/

section

variable {n : ℕ} (π : Equiv.Perm (Fin n)) (c c' : Config Float32)

/-- Scenes that are the same but for the configurations of their reverbs. -/
structure Paired (s s' : Scene Unit Float32 Float) : Prop where
  reachable : Reverb.Reachable c s.reverb
  reverb_eq : s'.reverb = s.reverb.withConfig c'
  published_eq : s'.published = s.published

/-- Both measurements fail, or they give the same numbers in another order. -/
def Answers : Option (Array Float32) → Option (Array Float32) → Prop :=
  Option.Rel fun times times' => Rearranged π times times' ∧ Numbers times

end

variable {n : ℕ} {π : Equiv.Perm (Fin n)} {c c' : Config Float32} {bands bands' : Array Float32}

theorem bandTimes_rearranged (hbands : Rearranged π bands bands') {r : Reverb Float32 Float}
    (h : Reverb.Reachable c r) (c' : Config Float32) :
    Answers π (r.bandTimes bands).1 ((r.withConfig c').bandTimes bands').1 ∧
      ((r.withConfig c').bandTimes bands').2 = (r.bandTimes bands).2.withConfig c' := by
  cases he : r.engine? with
  | none =>
    have he' : (r.withConfig c').engine? = none := he
    unfold Reverb.bandTimes Reverb.measure
    rw [he, he']
    exact ⟨.none, rfl⟩
  | some e =>
    have he' : (r.withConfig c').engine? = some e := he
    unfold Reverb.bandTimes
    rw [Reverb.measure_eq he, Reverb.measure_eq he']
    refine ⟨.some ⟨hbands.map _, fun t ht => ?_⟩, rfl⟩
    obtain ⟨centre, -, rfl⟩ := Array.mem_map.mp ht
    rw [isNaN_eq]
    exact isNaN_of_isFinite (Reverb.usable_analysed h he centre).isFinite

theorem measure_scene (bands : Array Float32) (s : Scene Unit Float32 Float) :
    (Scene.subject (bandMeasurement bands)).measure s =
      ((s.reverb.bandTimes bands).1, { s with reverb := (s.reverb.bandTimes bands).2 }) := by
  rw [← bandTimes_reverb]
  rfl

theorem tandem_measure (hbands : Rearranged π bands bands') :
    Tandem (Answers π) (Paired c c') (Scene.subject (bandMeasurement bands)).measure
      (Scene.subject (bandMeasurement bands')).measure := by
  rintro s s' ⟨hreachable, hreverb, hpublished⟩
  obtain ⟨hanswers, hengine⟩ := bandTimes_rearranged hbands hreachable c'
  rw [measure_scene, measure_scene, hreverb]
  exact ⟨hanswers, hreachable.step (.measure _ _), hengine, hpublished⟩

theorem Paired.update {s s' : Scene Unit Float32 Float} (h : Paired c c' s s')
    (measure measure' : Measurement Unit Float32 Float)
    (revise : Parameters Float32 → Parameters Float32) :
    Paired c c' ((Scene.subject measure).update revise s)
      ((Scene.subject measure').update revise s') := by
  obtain ⟨hreachable, hreverb, hpublished⟩ := h
  refine ⟨hreachable.step (.update s.reverb revise), ?_, ?_⟩
  · show s'.reverb.update revise = _
    rw [hreverb]
    rfl
  · show s'.published ++ [(s'.reverb.update revise).parameters] = _
    rw [hreverb, hpublished]
    rfl

theorem tandem_trial (hbands : Rearranged π bands bands')
    (revise : Parameters Float32 → Parameters Float32) :
    Tandem (Answers π) (Paired c c') (trial (Scene.subject (bandMeasurement bands)) revise)
      (trial (Scene.subject (bandMeasurement bands')) revise) := by
  refine .bind (V := Eq) (fun s s' hs => ⟨rfl, ?_⟩) fun _ _ _ => tandem_measure hbands
  exact hs.update (bandMeasurement bands) (bandMeasurement bands')
    fun p => { revise p with decayTime := 0 }

/-! ## Stages -/

variable {goal goal' : Goal Float32 Float}

section

variable (hgoal : goal.Rearranged π goal') (hn : 0 < n)

include hgoal

include hn in
theorem lockstep_absorption (absorption : Float) :
    Lockstep (Paired c c')
      (absorptionError (Scene.subject (bandMeasurement goal.bands)) goal absorption)
      (absorptionError (Scene.subject (bandMeasurement goal'.bands)) goal' absorption) := by
  unfold absorptionError
  dsimp only
  rw [hgoal.least_eq]
  refine Tandem.bind (tandem_trial hgoal.bands _) fun answer answer' h => ?_
  cases h with
  | none => exact .pure rfl
  | some h =>
    have hlongest := agrees_longest h.1 h.2 hn
    exact Tandem.pure (squaredError_congr hlongest hgoal.longest)

theorem lockstep_slope (damping : Float) :
    Lockstep (Paired c c')
      (slopeError (Scene.subject (bandMeasurement goal.bands)) goal damping)
      (slopeError (Scene.subject (bandMeasurement goal'.bands)) goal' damping) := by
  refine Tandem.bind (tandem_trial hgoal.bands _) fun answer answer' h => ?_
  cases h with
  | none => exact .pure rfl
  | some h =>
    dsimp only
    rw [hgoal.slope_measured h.1, hgoal.slope_eq]
    exact Tandem.pure rfl

end

/-- Reports that are the same up to the order of what was measured. -/
structure Report.Rearranged (π : Equiv.Perm (Fin n)) (report report' : Report Float32 Float) :
    Prop where
  measured : AmbisonicReverb.Rearranged π report.measured report'.measured
  absorption_eq : report'.absorption = report.absorption
  damping_eq : report'.damping = report.damping
  absorptionError_eq : report'.absorptionError = report.absorptionError
  dampingError_eq : report'.dampingError = report.dampingError
  rounds_eq : report'.rounds = report.rounds
  status_eq : report'.status = report.status

theorem tandem_stages (hgoal : goal.Rearranged π goal') (hn : 0 < n) (options : Options Float)
    (start : Parameters Float32) :
    Tandem (Report.Rearranged π) (Paired c c')
      (stages (Scene.subject (bandMeasurement goal.bands)) options goal start)
      (stages (Scene.subject (bandMeasurement goal'.bands)) options goal' start) := by
  have hsize : goal'.bands.size = goal.bands.size :=
    hgoal.bands.size_right.trans hgoal.bands.size_left.symm
  have hfirst : Lockstep (Paired c c')
      (absorptionStage (Scene.subject (bandMeasurement goal.bands)) options goal start)
      (absorptionStage (Scene.subject (bandMeasurement goal'.bands)) options goal' start) := by
    unfold absorptionStage
    rw [hgoal.least_eq]
    exact lockstep_stage (lockstep_absorption hgoal hn) _ _ _ _ _ _ _
  have hsecond : ∀ first, Lockstep (Paired c c')
      (dampingStage (Scene.subject (bandMeasurement goal.bands)) options goal start first)
      (dampingStage (Scene.subject (bandMeasurement goal'.bands)) options goal' start first) := by
    intro first
    unfold dampingStage
    rw [hsize]
    exact .ite (.map some (lockstep_stage (lockstep_slope hgoal) _ _ _ _ _ _ _)) (.pure none)
  refine .bind (.of_lockstep hfirst) ?_
  rintro first _ rfl
  refine .bind (.of_lockstep (hsecond first)) ?_
  rintro second _ rfl
  refine .bind (tandem_trial hgoal.bands _) fun answer answer' h => .pure ?_
  refine ⟨?_, rfl, rfl, rfl, rfl, rfl, rfl⟩
  cases h with
  | none =>
    show AmbisonicReverb.Rearranged π (Array.replicate goal.bands.size _)
      (Array.replicate goal'.bands.size _)
    rw [hgoal.bands.size_left, hgoal.bands.size_right]
    exact .replicate _
  | some h => exact h.1

/-! ## Whole fits -/

/-- Both fits fail for the same reason, or both end with a report. -/
inductive SameOutcome (π : Equiv.Perm (Fin n)) :
    Except Error (Report Float32 Float) → Except Error (Report Float32 Float) → Prop
  | error (e : Error) : SameOutcome π (.error e) (.error e)
  | ok {report report' : Report Float32 Float} (h : report.Rearranged π report') :
      SameOutcome π (.ok report) (.ok report')

section

variable {bandTimes' : Array Float32} {s s' : Scene Unit Float32 Float}
  (h : c.Rearranged π bands' bandTimes') (hs : Paired c (c.withCurve bands' bandTimes') s s')

include h hs

theorem Paired.goal_rearranged (hsound : c.SoundCurve) (hn : 0 < n) :
    (goalOf s.reverb).Rearranged π (goalOf s'.reverb) := by
  have hconfig : s.reverb.config = c := (Reverb.current_of_reachable hs.reachable).config_eq
  have hgoal : goalOf s'.reverb = .ofCurve bands' bandTimes' s.reverb.parameters.room := by
    rw [hs.reverb_eq]
    rfl
  rw [hgoal, goalOf, hconfig]
  exact Goal.rearranged_ofCurve h.bands h.bandTimes hsound.bands hsound.distinct hsound.bandTimes hn
    s.reverb.parameters.room

theorem Paired.isEmpty_iff : s.reverb.config.bands.isEmpty = true ↔ n = 0 := by
  rw [(Reverb.current_of_reachable hs.reachable).config_eq, Array.isEmpty_iff_size_eq_zero,
    h.bands.size_left]

/-- Both fits are refused for the same reason, if they are. -/
theorem Paired.refusal_eq (hsound : c.SoundCurve) : refusal? s'.reverb = refusal? s.reverb := by
  have hconfigured : s'.reverb.isConfigured = s.reverb.isConfigured := by
    rw [hs.reverb_eq]
    rfl
  have hempty : s'.reverb.config.bands.isEmpty = true ↔ s.reverb.config.bands.isEmpty = true := by
    rw [hs.isEmpty_iff h, ← h.bands.size_right, ← Array.isEmpty_iff_size_eq_zero, hs.reverb_eq]
    rfl
  unfold refusal?
  rw [hconfigured]
  simp only [hempty]
  by_cases hn : n = 0
  · rw [if_pos ((hs.isEmpty_iff h).mpr hn), if_pos ((hs.isEmpty_iff h).mpr hn)]
  · rw [(hs.goal_rearranged h hsound (Nat.pos_of_ne_zero hn)).least_eq]

end

theorem tandem_fitWithin {bandTimes' : Array Float32} (hsound : c.SoundCurve)
    (h : c.Rearranged π bands' bandTimes') (options : Options Float) :
    Tandem (SameOutcome π) (Paired c (c.withCurve bands' bandTimes'))
      (Reverb.fitWithin (Scene.subject (bandMeasurement c.bands)) Scene.reverb options)
      (Reverb.fitWithin (Scene.subject (bandMeasurement bands')) Scene.reverb options) := by
  intro s s' hs
  have hrefusal := hs.refusal_eq h hsound
  cases hrefused : refusal? s.reverb with
  | some e =>
    rw [fitWithin_of_refusal _ _ hrefused, fitWithin_of_refusal _ _ (hrefusal.trans hrefused)]
    exact ⟨.error e, hs⟩
  | none =>
    have hfittable := fittable_iff.mpr hrefused
    have hn : 0 < n := Nat.pos_of_ne_zero
      (mt (hs.isEmpty_iff h).mpr (Bool.eq_false_iff.mp hfittable.2.1))
    rw [fitWithin_ok _ _ hfittable, fitWithin_ok _ _ (fittable_iff.mpr (hrefusal.trans hrefused))]
    have hbands : (goalOf s.reverb).bands = c.bands :=
      congrArg Config.bands (Reverb.current_of_reachable hs.reachable).config_eq
    have hbands' : (goalOf s'.reverb).bands = bands' := by
      rw [hs.reverb_eq]
      rfl
    have hparameters : s'.reverb.parameters = s.reverb.parameters := by
      rw [hs.reverb_eq]
      rfl
    obtain ⟨hreport, hstate⟩ := tandem_stages (hs.goal_rearranged h hsound hn) hn options
      s.reverb.parameters s s' hs
    rw [hbands, hbands'] at hreport hstate
    rw [hparameters]
    exact ⟨.ok hreport, hstate⟩

/-- All that a fit publishes, in order. -/
def journal (r : Reverb Float32 Float) (options : Options Float) : List (Parameters Float32) :=
  (Reverb.fitWithin (Scene.subject (bandMeasurement r.config.bands)) Scene.reverb options
    (.ofReverb r)).2.published

/-- **The order of the bands does not matter.** Two configurations list the same target curve, of
pairwise different bands and without NaN, in two orders. If a reverb for the first one can be
configured, so can one for the second. When both are fitted with the same options, they publish the
same parameters in the same order. Both fits fail for the same reason, or they end with the same
report but for what was measured, which is in the orders of the bands. -/
theorem fit_rearranged {bandTimes' : Array Float32} (h : c.Rearranged π bands' bandTimes')
    (hsound : c.SoundCurve) {start r : Reverb Float32 Float} (hnew : Reverb.new c = .ok start)
    {sampleRate : Float32} {fragment : ℕ}
    (hconfigure : start.configure sampleRate fragment = .ok r) (options : Options Float) :
    ∃ start' r' : Reverb Float32 Float, Reverb.new (c.withCurve bands' bandTimes') = .ok start' ∧
      start'.configure sampleRate fragment = .ok r' ∧
      journal r' options = journal r options ∧
      SameOutcome π ((r.fit options).map (·.1)) ((r'.fit options).map (·.1)) := by
  have hreachable : Reverb.Reachable c r := ⟨start, hnew, .single (.configure hconfigure)⟩
  have hconfig : r.config = c := (Reverb.current_of_reachable hreachable).config_eq
  have hpaired : Paired c (c.withCurve bands' bandTimes') (.ofReverb r)
      (.ofReverb (r.withConfig (c.withCurve bands' bandTimes'))) := ⟨hreachable, rfl, rfl⟩
  obtain ⟨houtcome, hstate⟩ := tandem_fitWithin hsound h options _ _ hpaired
  have hresult : ∀ {x : Except Error (Report Float32 Float)} (r' : Reverb Float32 Float),
      (x.map (·, r')).map (·.1) = x := by
    intro x r'
    cases x <;> rfl
  refine ⟨_, _, Reverb.new_rearranged h hnew, Reverb.configure_rearranged h hsound hnew hconfigure,
    ?_, ?_⟩
  · unfold journal
    rw [hconfig]
    exact hstate.published_eq
  · rw [fit_eq, fit_eq]
    dsimp only
    rw [hresult, hresult, hconfig]
    exact houtcome

/-- A hall with a target curve in three bands. -/
def curvedHall : Config Float32 :=
  { Reverb.smallHall with
    bands := #[250, 500, 1000]
    bandTimes := #[2, 1.5, 1] }

theorem fit_rearranged_curvedHall : ∃ start r : Reverb Float32 Float,
    (curvedHall.Rearranged (Fin.revPerm : Equiv.Perm (Fin 3)) #[1000, 500, 250] #[1, 1.5, 2] ∧
      curvedHall.SoundCurve ∧ Reverb.new curvedHall = .ok start ∧
      start.configure 48000 16 = .ok r) ∧
    ∃ start' r' : Reverb Float32 Float,
      Reverb.new (curvedHall.withCurve #[1000, 500, 250] #[1, 1.5, 2]) = .ok start' ∧
      start'.configure 48000 16 = .ok r' ∧
      journal r' .default = journal r .default ∧
      SameOutcome (Fin.revPerm : Equiv.Perm (Fin 3)) ((r.fit .default).map (·.1))
        ((r'.fit .default).map (·.1)) := by
  have hrearranged : curvedHall.Rearranged (Fin.revPerm : Equiv.Perm (Fin 3))
      #[1000, 500, 250] #[1, 1.5, 2] :=
    ⟨⟨rfl, rfl, by decide +kernel⟩, ⟨rfl, rfl, by decide +kernel⟩⟩
  have hsound : curvedHall.SoundCurve := by
    refine ⟨?_, ?_, ?_⟩
    · unfold Distinct
      decide +kernel
    · unfold Numbers
      decide +kernel
    · unfold Numbers
      decide +kernel
  have hcheck : curvedHall.check = .ok .shortest := by decide +kernel
  have hrate : Scalar.isFinite (48000 : Float32) ∧ (1 : Float32) ≤ 48000 := by decide +kernel
  obtain ⟨start, hnew⟩ := Reverb.exists_new (β := Float) hcheck
  obtain ⟨r, hconfigure⟩ := Reverb.exists_configure hnew hrate 16
  exact ⟨start, r, ⟨hrearranged, hsound, hnew, hconfigure⟩,
    fit_rearranged hrearranged hsound hnew hconfigure .default⟩

end Fit

end AmbisonicReverb
