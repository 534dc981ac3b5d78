import Mathlib
import AmbisonicReverb.Proofs.Journal

/-!
# Operations

All that can be asked of a reverb, as a list of requests, whether they succeed or not. Parameters
are held twice: as they are published, and as the settings of the networks. The two never disagree.

**Theorem (`matches_performAll`).** After any operations, the engine of a configured reverb has the
settings that networks made anew get from the published parameters.

* `Network.settings` — what a derivation sets, as opposed to the signals of a network.
* `Engine.Matches` — the settings are those that the parameters ask for.
* `steps_perform` — an operation is a sequence of the steps of `Reverb.Step`, also a fit, which
  publishes and measures many times.
-/

namespace AmbisonicReverb

/-! ## Settings -/

/-- The coefficients of a reflection. -/
structure Reflection.Coefficients (α : Type) where
  b1 : α
  a2 : α
  eta : α

def Reflection.coefficients {α : Type} (f : Reflection α) : Coefficients α := ⟨f.b1, f.a2, f.eta⟩

/-- What a derivation sets on a path. -/
structure Path.Settings (α : Type) where
  delay : ℕ
  reflection : Reflection.Coefficients α
  rotation : Rotation α

def Path.settings {α : Type} (p : Path α) : Settings α :=
  ⟨p.delay, p.reflection.coefficients, p.rotation⟩

namespace Network

/-- What a derivation sets on a network. -/
structure Settings (α : Type) where
  law : DelayLaw
  gain : α
  matrix : Array (Array α)
  prefilters : Reflection.Coefficients α × Reflection.Coefficients α
  paths : Array (Path.Settings α)

variable {α : Type}

def settings (n : Network α) : Settings α where
  law := n.law
  gain := n.gain
  matrix := n.matrix
  prefilters := (n.prefilters.1.coefficients, n.prefilters.2.coefficients)
  paths := n.paths.map Path.settings

theorem settings_rest [Scalar α] (n : Network α) : n.rest.settings = n.settings := by
  simp only [settings, rest, Array.map_map]
  rfl

/-- Signals are no settings. -/
theorem settings_eq_of_rest_eq [Scalar α] {m n : Network α} (h : m.rest = n.rest) :
    m.settings = n.settings := by
  rw [← settings_rest m, h, settings_rest]

variable {β : Type} [Elementary α] [Elementary β] [Widening α β]

/-- The network has the settings that a new one gets from the parameters. -/
def SetFor (c : Config α) (method : GainMethod) (p : Parameters α) (sampleRate : α) (mode : Mode)
    (n : Network α) : Prop :=
  ∃ fresh : Network α,
    new c.order (Elementary.truncToNat sampleRate) p.law method mode = .ok fresh ∧
      n.settings = (fresh.derive (p.design sampleRate)).settings

end Network

namespace Engine

variable {α β : Type} [Elementary α] [Elementary β] [Widening α β]

/-- Input gain and networks are those that the parameters ask for. -/
structure Matches (c : Config α) (method : GainMethod) (p : Parameters α) (e : Engine α β) :
    Prop where
  inputGain : e.inputGain = p.room.inputGain
  length_forward : e.forward.length = c.forwardStages
  forward : ∀ n ∈ e.forward, n.SetFor c method p e.sampleRate .forward
  feedback : e.feedback.SetFor c method p e.sampleRate .feedback

theorem Current.matches {c : Config α} {method : GainMethod} {p : Parameters α} {e : Engine α β}
    (h : e.Current c method p) (hc : c.order ≠ 0) : e.Matches c method p := by
  have hpos : 0 < c.order := Nat.pos_of_ne_zero hc
  have hnew : ∀ mode, ∃ n : Network α,
      Network.new c.order (Elementary.truncToNat e.sampleRate) .geometric method mode = .ok n ∧
        Network.new c.order (Elementary.truncToNat e.sampleRate) p.law method mode =
          .ok (n.setLaw p.law) := by
    intro mode
    obtain ⟨n, hn, -⟩ := Network.exists_new (α := α) hpos (Elementary.truncToNat e.sampleRate)
      .geometric method mode
    refine ⟨n, hn, ?_⟩
    rw [Network.new_setLaw _ _ .geometric, hn]
    rfl
  obtain ⟨stage, hstage, hstage'⟩ := hnew .forward
  obtain ⟨feedback, hfeedback, hfeedback'⟩ := hnew .feedback
  obtain ⟨fresh, hfresh, -, hrest⟩ := h
  rw [new_eq hstage hfeedback p] at hfresh
  obtain rfl := Except.ok.inj hfresh
  have hforward : e.forward.map Network.rest = List.replicate c.forwardStages
      ((stage.setLaw p.law).derive (p.design e.sampleRate)).rest := by
    have hrest' := congrArg Engine.forward hrest
    simpa [rest, Engine.derive, blank] using hrest'
  refine ⟨congrArg Engine.inputGain hrest, ?_, fun n hn => ⟨stage.setLaw p.law, hstage', ?_⟩,
    ⟨feedback.setLaw p.law, hfeedback', ?_⟩⟩
  · simpa using congrArg List.length hforward
  · have hmem : n.rest ∈ e.forward.map Network.rest := List.mem_map_of_mem hn
    rw [hforward] at hmem
    exact Network.settings_eq_of_rest_eq (List.eq_of_mem_replicate hmem)
  · exact Network.settings_eq_of_rest_eq (congrArg Engine.feedback hrest)

end Engine

/-! ## Requests -/

/-- A complete operation on a reverb. -/
inductive Operation (α β : Type)
  | configure (sampleRate : α) (fragment : ℕ)
  | rederive
  | update (revise : Parameters α → Parameters α)
  | apply (m : ControlMessage α)
  | applyAll (queue : List (ControlMessage α))
  | addPointSource (direction : Direction α) (chunk : Array α) (gains : Sample α)
  | addDiffuse (chunk : Block α)
  | process (output : Block α)
  | impulseResponse (length : ℕ)
  | bandTimes (centres : Array α)
  | broadbandTime
  | fit (options : Fit.Options β)

variable {α β : Type} [Elementary α] [Elementary β] [Widening α β]

/-- What an operation leaves of a reverb. What is refused changes nothing. -/
def Operation.perform (r : Reverb α β) : Operation α β → Reverb α β
  | configure sampleRate fragment =>
    match r.configure sampleRate fragment with
    | .ok r' => r'
    | .error _ => r
  | rederive => r.rederive
  | update revise => r.update revise
  | apply m => r.apply m
  | applyAll queue => (r.applyAll queue).2
  | addPointSource direction chunk gains => (r.addPointSource direction chunk gains).2
  | addDiffuse chunk => r.addDiffuse chunk
  | process output => (r.process output).2
  | impulseResponse length => (r.impulseResponse length).2
  | bandTimes centres => (r.bandTimes centres).2
  | broadbandTime => r.broadbandTime.2
  | fit options => (Reverb.fitWithin (Reverb.subject r.config.bands) id options r).2

open Relation (ReflTransGen)

namespace Reverb

def performAll (r : Reverb α β) (operations : List (Operation α β)) : Reverb α β :=
  operations.foldl Operation.perform r

/-! ## Operations as steps -/

/-- What updates and measurements keep, a fit keeps. Trial by trial, it does nothing else. -/
theorem fitWithin_invariant {σ : Type} {subject : Fit.Subject σ α} {reverb : σ → Reverb α β}
    {I : σ → Prop} (hupdate : ∀ s revise, I s → I (subject.update revise s))
    (hmeasure : ∀ s, I s → I (subject.measure s).2) (options : Fit.Options β) {s : σ} (h : I s) :
    I (fitWithin subject reverb options s).2 := by
  let R (s s' : σ) : Prop := s = s' ∧ I s
  have halike : subject.Alike R subject := by
    refine ⟨?_, ?_⟩
    · rintro revise s _ ⟨rfl, hs⟩
      exact ⟨rfl, hupdate s revise hs⟩
    · rintro s _ ⟨rfl, hs⟩
      exact ⟨rfl, rfl, hmeasure s hs⟩
  have hreverb : ∀ s s', R s s' → reverb s = reverb s' := fun _ _ h => congrArg reverb h.1
  exact (Fit.lockstep_fitWithin halike hreverb options s s ⟨rfl, h⟩).2.2

theorem steps_fitWithin (bands : Array α) (options : Fit.Options β) (r : Reverb α β) :
    ReflTransGen Step r (fitWithin (subject bands) id options r).2 :=
  fitWithin_invariant (fun s revise h => h.tail (.update s revise))
    (fun s h => h.tail (.measure s _)) options .refl

theorem steps_perform (r : Reverb α β) (operation : Operation α β) :
    ReflTransGen Step r (operation.perform r) := by
  cases operation with
  | configure sampleRate fragment =>
    simp only [Operation.perform]
    cases h : r.configure sampleRate fragment with
    | ok r' => exact .single (.configure h)
    | error _ => exact .refl
  | rederive => exact .single (.update r id)
  | update revise => exact .single (.update r revise)
  | apply m => exact .single (.update r m.revise)
  | applyAll queue => exact .single (.applyAll r queue)
  | addPointSource direction chunk gains => exact .single (.addPointSource r direction chunk gains)
  | addDiffuse chunk => exact .single (.addDiffuse r chunk)
  | process output => exact .single (.process r output)
  | impulseResponse length => exact .single (.impulseResponse r length)
  | bandTimes centres => exact .single (.measure r _)
  | broadbandTime => exact .single (.measure r _)
  | fit options => exact steps_fitWithin r.config.bands options r

theorem steps_performAll (r : Reverb α β) (operations : List (Operation α β)) :
    ReflTransGen Step r (r.performAll operations) := by
  induction operations generalizing r with
  | nil => exact .refl
  | cons operation operations ih => exact (steps_perform r operation).trans (ih _)

/-- No step changes the gain method. -/
theorem method_eq_of_reachable {c : Config α} {start r : Reverb α β}
    (hstart : Reverb.new c = .ok start) (h : Reachable c r) : r.method = start.method := by
  have hcheck := (current_new hstart).check_eq
  exact Except.ok.inj ((current_of_reachable h).check_eq.symm.trans hcheck)

theorem isSome_engine_step {r r' : Reverb α β} (h : Step r r') (hr : r.engine.isSome) :
    r'.engine.isSome := by
  cases h with
  | configure h =>
    obtain ⟨-, e, -, rfl⟩ := configure_eq_ok_iff.mp h
    rfl
  | update _ revise => simpa [Reverb.update, rederive] using hr
  | applyAll _ queue =>
    simp only [Reverb.applyAll]
    generalize 0 = count
    induction queue generalizing r count with
    | nil => exact hr
    | cons m queue ih => exact ih (by simpa [Reverb.apply, Reverb.update, rederive] using hr) _
  | addPointSource => exact hr
  | addDiffuse => exact hr
  | process _ output =>
    simp only [Reverb.process]
    cases r.engine? with
    | none => exact hr
    | some e => rfl
  | impulseResponse _ n =>
    simp only [Reverb.impulseResponse]
    cases r.engine? with
    | none => exact hr
    | some e => rfl
  | measure _ analyse =>
    simp only [Reverb.measure]
    cases r.engine? with
    | none => exact hr
    | some e => rfl
  | hold => exact hr

/-- A reverb stays configured. -/
theorem isSome_engine_of_steps {r r' : Reverb α β} (h : ReflTransGen Step r r')
    (hr : r.engine.isSome) : r'.engine.isSome := by
  induction h with
  | refl => exact hr
  | tail _ hstep ih => exact isSome_engine_step hstep ih

/-- **The engine matches the published parameters.** Whatever was asked of a reverb since it was
made, its input gain and the settings of all its networks are those that the parameters published
last ask for, at the sample rate of the engine. -/
theorem matches_performAll {c : Config α} {start : Reverb α β} (hstart : Reverb.new c = .ok start)
    (operations : List (Operation α β)) {e : Engine α β}
    (he : (start.performAll operations).engine = some e) :
    e.Matches c start.method (start.performAll operations).parameters := by
  have hreachable : Reachable c (start.performAll operations) :=
    ⟨start, hstart, steps_performAll start operations⟩
  have hcurrent := current_of_reachable hreachable
  rw [← method_eq_of_reachable hstart hreachable]
  exact (hcurrent.engine e he).matches hcurrent.order_ne_zero

/-- A room that is replaced while its reverb runs, and measured. -/
noncomputable def smallSession : List (Operation ℝ ℝ) :=
  [.configure (Scalar.ofNat 1000) 16, .addDiffuse (.silent 16), .process (.silent 16),
    .apply (.room ⟨1, 1, 1⟩ 0 1), .impulseResponse 8, .apply (.law .squareRoot), .rederive]

theorem isSome_engine_smallSession : (smallReverb.performAll smallSession).engine.isSome := by
  obtain ⟨e, -, hconfigure, -⟩ := configure_smallReverb
  refine isSome_engine_of_steps (steps_performAll _ smallSession.tail) ?_
  simp [Operation.perform, hconfigure]

theorem matches_performAll_smallSession : ∃ e : Engine ℝ ℝ,
    (Reverb.new smallRoom = .ok smallReverb ∧
      (smallReverb.performAll smallSession).engine = some e) ∧
        e.Matches smallRoom .shortest (smallReverb.performAll smallSession).parameters := by
  obtain ⟨e, he⟩ := Option.isSome_iff_exists.mp isSome_engine_smallSession
  exact ⟨e, ⟨new_smallRoom, he⟩, matches_performAll new_smallRoom smallSession he⟩

end Reverb

end AmbisonicReverb
