import Mathlib
import AmbisonicReverb.Proofs.Exact
import AmbisonicReverb.Proofs.Measure
import AmbisonicReverb.Reverb

/-!
# Reachable reverbs

A reverb is changed by the steps of `Reverb.Step`: it is configured, its parameters are revised,
sources are added, fragments are processed, and its engine is measured or held. In every state that
they reach, the engine is what an engine made anew for the same configuration, sample rate and
parameters would be, up to the signals in it (`Reverb.Current`, `current_of_reachable`).

The impulse response shows the difference that signals make. A response equals the one of the new
engine unless the impulse is lost in it, which takes a delay line with its head past the part in
use (`response_of_reachable`). Heads get there when a line becomes shorter
(`Engine.Current.not_inside_derive`), and they are inside again after the next sample.
-/

namespace AmbisonicReverb

variable {α β : Type} [Elementary α] [Elementary β] [Widening α β]

namespace Network

/-- The delay law of a new network is a setting like any other. -/
theorem new_setLaw (order maxDelay : Nat) (law law' : DelayLaw) (method : GainMethod)
    (mode : Mode) :
    (new order maxDelay law' method mode : Except ConfigError (Network α)) =
      (new order maxDelay law method mode).map (·.setLaw law') := by
  unfold new
  split_ifs <;> rfl

end Network

/-! ## Engines and their derivation -/

namespace Engine

/-- The engines agree in what a derivation keeps. -/
structure SameFrame (e f : Engine α β) : Prop where
  sampleRate_eq : e.sampleRate = f.sampleRate
  usesPrefilter_eq : e.usesPrefilter = f.usesPrefilter
  forward : e.forward.map Network.frame = f.forward.map Network.frame
  feedback : e.feedback.frame = f.feedback.frame
  lowCut_eq : e.rest.lowCut = f.rest.lowCut

theorem map_eq_of_map_eq {τ υ υ' : Type} {f : τ → υ} {g : τ → υ'}
    (hfg : ∀ a b, f a = f b → g a = g b) {l l' : List τ} (h : l.map f = l'.map f) :
    l.map g = l'.map g := by
  induction l generalizing l' with
  | nil =>
    obtain rfl : l' = [] := List.map_eq_nil_iff.mp h.symm
    rfl
  | cons a l ih =>
    cases l' with
    | nil => exact nomatch h
    | cons b l' =>
      simp only [List.map_cons, List.cons.injEq] at h ⊢
      exact ⟨hfg a b h.1, ih h.2⟩

omit [Widening α β] in
theorem SameFrame.of_rest_eq {e f : Engine α β} (h : e.rest = f.rest) : e.SameFrame f := by
  have hsampleRate : e.rest.sampleRate = f.rest.sampleRate := by rw [h]
  have hprefilter : e.rest.usesPrefilter = f.rest.usesPrefilter := by rw [h]
  have hforward : e.rest.forward = f.rest.forward := by rw [h]
  have hfeedback : e.rest.feedback = f.rest.feedback := by rw [h]
  have hlowCut : e.rest.lowCut = f.rest.lowCut := by rw [h]
  exact ⟨hsampleRate, hprefilter,
    map_eq_of_map_eq (fun _ _ => Network.frame_eq_of_rest_eq) hforward,
    Network.frame_eq_of_rest_eq hfeedback, hlowCut⟩

theorem sameFrame_derive (e : Engine α β) (p : Parameters α) : (e.derive p).SameFrame e := by
  refine ⟨rfl, rfl, ?_, Network.frame_derive _ _, rfl⟩
  show (e.forward.map _).map Network.frame = e.forward.map Network.frame
  rw [List.map_map]
  refine congrArg (List.map · e.forward) (funext fun n => ?_)
  exact Network.frame_derive (n.setLaw p.law) _

/-- What an engine is derived to be depends on its frame and the parameters alone. -/
theorem rest_derive_eq {e f : Engine α β} (h : e.SameFrame f) (p : Parameters α) :
    (e.derive p).rest = (f.derive p).rest := by
  have hnetwork : ∀ m n : Network α, m.frame = n.frame →
      ((m.setLaw p.law).derive (p.design f.sampleRate)).rest =
        ((n.setLaw p.law).derive (p.design f.sampleRate)).rest := by
    intro m n hmn
    have hframe : (m.setLaw p.law).frame = (n.setLaw p.law).frame := hmn
    exact Network.rest_derive_eq hframe rfl _
  have hforward := map_eq_of_map_eq hnetwork h.forward
  have hfeedback := hnetwork _ _ h.feedback
  have hlowCut := h.lowCut_eq
  unfold rest at hlowCut ⊢
  unfold derive
  simp only [List.map_map] at hlowCut ⊢
  rw [h.sampleRate_eq, h.usesPrefilter_eq, hfeedback, hlowCut]
  exact congrArg (fun forward => Engine.mk _ _ forward _ _ _ _) hforward

/-- All heads are at the first cell. -/
structure Home (e : Engine α β) : Prop where
  forward : ∀ n ∈ e.forward, ∀ p ∈ n.paths, p.line.position = 0
  feedback : ∀ p ∈ e.feedback.paths, p.line.position = 0

omit [Elementary α] [Elementary β] [Widening α β] in
theorem Home.inside {e : Engine α β} (h : e.Home) : e.Inside :=
  ⟨fun n hn p hp => DelayLine.inside_of_position_eq_zero (h.forward n hn p hp),
    fun p hp => DelayLine.inside_of_position_eq_zero (h.feedback p hp)⟩

theorem Home.derive {e : Engine α β} (h : e.Home) (p : Parameters α) : (e.derive p).Home := by
  have hnetwork : ∀ n : Network α, (∀ q ∈ n.paths, q.line.position = 0) →
      ∀ q ∈ ((n.setLaw p.law).derive (p.design e.sampleRate)).paths, q.line.position = 0 := by
    intro n hn q hq
    obtain ⟨k, q', hq', rfl⟩ := Network.exists_of_mem_derive_paths hq
    exact Network.position_derivedPath _ _ k (hn q' (Array.mem_of_getElem? hq'))
  refine ⟨fun n hn => ?_, hnetwork _ h.feedback⟩
  simp only [Engine.derive, List.mem_map] at hn
  obtain ⟨m, hm, rfl⟩ := hn
  exact hnetwork m (h.forward m hm)

omit [Widening α β] in
/-- The first sample takes all heads from the first cell to the last. -/
theorem Home.position_impulseResponse_one {e : Engine α β} (h : e.Home) :
    ∀ p ∈ (e.impulseResponse 1).2.feedback.paths, p.line.position = p.line.length - 1 := by
  intro p hp
  rw [impulseResponse_eq] at hp
  obtain ⟨q, hq, rfl⟩ := Array.mem_map.mp hp
  have htick : (e.measured 1).feedback = (e.reset.processed (impulse 0)).take.2 := by
    show (e.reset.tick (impulse 0)).2.feedback = _
    rw [tick_eq]
  rw [htick] at hq
  obtain ⟨k, hk⟩ := Array.mem_iff_getElem?.mp hq
  have hk : (e.reset.processed (impulse 0)).paths[k]? = some q := hk
  unfold processed at hk
  rw [Network.getElem?_process_paths, paths_intake] at hk
  obtain ⟨q₀, hq₀, rfl⟩ := Option.map_eq_some_iff.mp hk
  obtain ⟨q₁, hq₁, rfl⟩ := Array.mem_map.mp (Array.mem_of_getElem? hq₀)
  have hhome : q₁.line.position = 0 := h.feedback q₁ hq₁
  rw [Path.step_eq]
  show (if q₁.line.position = 0 then q₁.line.length else q₁.line.position) - 1 = q₁.line.length - 1
  rw [if_pos hhome]

/-- The engine is built as a configuration says, before anything is derived. -/
structure Blank (c : Config α) (sampleRate : α) (e : Engine α β) : Prop where
  sampleRate_eq : e.sampleRate = sampleRate
  usesPrefilter_eq : e.usesPrefilter = c.prefilter
  length_forward : e.forward.length = c.forwardStages
  order_eq : e.feedback.order = c.order
  mode_eq : e.feedback.mode = .feedback
  maxDelay_eq : e.feedback.maxDelay =
    max (Elementary.truncToNat sampleRate) Network.leastMaxDelay
  capacity_eq : ∀ p ∈ e.feedback.paths, p.line.capacity = e.feedback.maxDelay
  eta_eq : e.feedback.prefilters.1.eta = 0

/-- The engine of a configuration before anything is derived. -/
def blank (c : Config α) (sampleRate : α) (stage feedback : Network α) : Engine α β where
  sampleRate
  usesPrefilter := c.prefilter
  forward := List.replicate c.forwardStages stage
  feedback
  lowCut :=
    let highpass : Biquad β := Biquad.highpass (widen c.lowCut) (widen sampleRate)
    if 0 < c.lowCut then some ⟨highpass, highpass, highpass, highpass⟩ else none
  inputGain := 1
  capacity := 0

/-- The networks of a new engine can be made for any delay law. -/
theorem new_eq {c : Config α} {method : GainMethod} {sampleRate : α} {stage feedback : Network α}
    (hstage : Network.new c.order (Elementary.truncToNat sampleRate) .geometric method .forward =
      .ok stage)
    (hfeedback : Network.new c.order (Elementary.truncToNat sampleRate) .geometric method
      .feedback = .ok feedback) (p : Parameters α) :
    Engine.new c method sampleRate p =
      .ok ({ blank c sampleRate stage feedback with
        capacity := max (p.responseLength sampleRate)
          (p.responseLengthFor sampleRate (longestTime c.bandTimes)) }.derive p) := by
  have hstage' : Network.new c.order (Elementary.truncToNat sampleRate) p.law method .forward =
      .ok (stage.setLaw p.law) := by
    rw [Network.new_setLaw _ _ .geometric, hstage]
    rfl
  have hfeedback' : Network.new c.order (Elementary.truncToNat sampleRate) p.law method
      .feedback = .ok (feedback.setLaw p.law) := by
    rw [Network.new_setLaw _ _ .geometric, hfeedback]
    rfl
  unfold Engine.new
  simp only [hstage', hfeedback', bind, Except.bind, pure, Except.pure]
  refine congrArg Except.ok ?_
  simp only [derive, blank, List.map_replicate]
  rfl

/-- There is no signal in a derived engine, but for its high-pass. -/
theorem reset_derive {e : Engine α β} (h : e.reset.lowCut = e.lowCut) (p : Parameters α) :
    (e.derive p).reset = e.derive p := by
  have hforward : (e.derive p).forward.map Network.reset = (e.derive p).forward := by
    show (e.forward.map _).map Network.reset = e.forward.map _
    rw [List.map_map]
    exact congrArg (List.map · e.forward) (funext fun n => Network.reset_derive _ _)
  have hfeedback : (e.derive p).feedback.reset = (e.derive p).feedback := Network.reset_derive _ _
  unfold reset at h ⊢
  rw [hforward, hfeedback]
  exact congrArg (fun lowCut => { e.derive p with lowCut }) h

theorem exists_eq_derive_of_new {c : Config α} (hc : c.order ≠ 0) {method : GainMethod}
    {sampleRate : α} {p : Parameters α} {e : Engine α β}
    (h : Engine.new c method sampleRate p = .ok e) :
    ∃ stage feedback capacity,
      e = ({ blank c sampleRate stage feedback with capacity } : Engine α β).derive p := by
  have hpos : 0 < c.order := Nat.pos_of_ne_zero hc
  obtain ⟨stage, hstage, -⟩ := Network.exists_new (α := α) hpos
    (Elementary.truncToNat sampleRate) .geometric method .forward
  obtain ⟨feedback, hfeedback, -⟩ := Network.exists_new (α := α) hpos
    (Elementary.truncToNat sampleRate) .geometric method .feedback
  rw [new_eq hstage hfeedback p] at h
  exact ⟨stage, feedback, _, (Except.ok.inj h).symm⟩

/-- There is no signal in a new engine. -/
theorem reset_of_new {c : Config α} (hc : c.order ≠ 0) {method : GainMethod} {sampleRate : α}
    {p : Parameters α} {e : Engine α β} (h : Engine.new c method sampleRate p = .ok e) :
    e.reset = e := by
  obtain ⟨stage, feedback, capacity, rfl⟩ := exists_eq_derive_of_new hc h
  refine reset_derive ?_ p
  show Option.map _ (if 0 < c.lowCut then some _ else none) = if 0 < c.lowCut then some _ else none
  split_ifs <;> rfl

/-- New engines for different parameters are derivations of one engine, up to their signals. -/
theorem exists_new {c : Config α} (h : c.order ≠ 0) (method : GainMethod) (sampleRate : α) :
    ∃ e₀ : Engine α β, e₀.Blank c sampleRate ∧ ∀ p, ∃ fresh : Engine α β,
      Engine.new c method sampleRate p = .ok fresh ∧ fresh.sampleRate = sampleRate ∧
        fresh.Home ∧ fresh.rest = (e₀.derive p).rest := by
  have hpos : 0 < c.order := Nat.pos_of_ne_zero h
  obtain ⟨stage, hstage, -, -, hstagepos⟩ := Network.exists_new (α := α) hpos
    (Elementary.truncToNat sampleRate) .geometric method .forward
  obtain ⟨feedback, hfeedback, horder, hmode, hfeedbackpos⟩ := Network.exists_new (α := α) hpos
    (Elementary.truncToNat sampleRate) .geometric method .feedback
  obtain ⟨hmax, hcapacity, heta⟩ := Network.fields_new_feedback hfeedback
  have hhome : ∀ n ∈ List.replicate c.forwardStages stage, ∀ p ∈ n.paths, p.line.position = 0 := by
    intro n hn
    obtain rfl : n = stage := List.eq_of_mem_replicate hn
    exact hstagepos
  refine ⟨blank c sampleRate stage feedback,
    ⟨rfl, rfl, List.length_replicate, horder, hmode, hmax, hcapacity, heta⟩, fun p => ?_⟩
  exact ⟨_, new_eq hstage hfeedback p, rfl, Home.derive ⟨hhome, hfeedbackpos⟩ p, rfl⟩

/-- The engine is the one that would be made anew, up to its signals. -/
def Current (c : Config α) (method : GainMethod) (p : Parameters α) (e : Engine α β) : Prop :=
  ∃ fresh : Engine α β, Engine.new c method e.sampleRate p = .ok fresh ∧ fresh.Inside ∧
    e.rest = fresh.rest

section

variable {c : Config α} {method : GainMethod} {p : Parameters α} {e : Engine α β}

theorem current_of_new (h : c.order ≠ 0) {sampleRate : α}
    (hnew : Engine.new c method sampleRate p = .ok e) : e.Current c method p := by
  obtain ⟨e₀, -, hfresh⟩ := exists_new (α := α) (β := β) h method sampleRate
  obtain ⟨fresh, hfresh, rfl, hhome, -⟩ := hfresh p
  obtain rfl : fresh = e := Except.ok.inj (hfresh.symm.trans hnew)
  exact ⟨fresh, hfresh, hhome.inside, rfl⟩

theorem Current.of_rest_eq {e' : Engine α β} (h : e.Current c method p)
    (hrest : e'.rest = e.rest) : e'.Current c method p := by
  obtain ⟨fresh, hnew, hinside, hfresh⟩ := h
  exact ⟨fresh, sampleRate_eq_of_rest_eq hrest ▸ hnew, hinside, hrest.trans hfresh⟩

/-- A derivation makes up for all earlier ones. -/
theorem Current.derive (h : e.Current c method p) (hc : c.order ≠ 0) (q : Parameters α) :
    (e.derive q).Current c method q := by
  obtain ⟨e₀, -, hfresh⟩ := exists_new (α := α) (β := β) hc method e.sampleRate
  obtain ⟨old, hold, -, hrest⟩ := h
  obtain ⟨fresh, hnew, -, -, hfrest⟩ := hfresh p
  obtain ⟨fresh', hnew', -, hhome, hfrest'⟩ := hfresh q
  obtain rfl : fresh = old := Except.ok.inj (hnew.symm.trans hold)
  refine ⟨fresh', hnew', hhome.inside, ?_⟩
  rw [rest_derive_eq (SameFrame.of_rest_eq (hrest.trans hfrest)),
    rest_derive_eq (sameFrame_derive e₀ p), hfrest']

theorem Current.exists_blank (h : e.Current c method p) (hc : c.order ≠ 0) :
    ∃ e₀ : Engine α β, e₀.Blank c e.sampleRate ∧ e.rest = (e₀.derive p).rest := by
  obtain ⟨e₀, hblank, hfresh⟩ := exists_new (α := α) (β := β) hc method e.sampleRate
  obtain ⟨old, hold, -, hrest⟩ := h
  obtain ⟨fresh, hnew, -, -, hfrest⟩ := hfresh p
  obtain rfl : fresh = old := Except.ok.inj (hnew.symm.trans hold)
  exact ⟨e₀, hblank, hrest.trans hfrest⟩

/-- The delay of path `k` of the feedback network. -/
def designDelay (c : Config α) (p : Parameters α) (sampleRate : α) (k : Nat) : Nat :=
  (p.design sampleRate).pathDelay p.law
    (max (Elementary.truncToNat sampleRate) Network.leastMaxDelay) c.order k

theorem Current.length_line (h : e.Current c method p) (hc : c.order ≠ 0) {k : Nat} {q : Path α}
    (hq : e.feedback.paths[k]? = some q) : q.line.length = designDelay c p e.sampleRate k := by
  obtain ⟨e₀, hblank, hrest⟩ := h.exists_blank hc
  have hfeedback : e.feedback.rest =
      ((e₀.feedback.setLaw p.law).derive (p.design e₀.sampleRate)).rest :=
    congrArg Engine.feedback hrest
  obtain ⟨q', hq', hqq'⟩ := Network.exists_path_of_rest_eq hfeedback hq
  rw [Network.getElem?_derive_paths] at hq'
  obtain ⟨q₀, hq₀, rfl⟩ := Option.map_eq_some_iff.mp hq'
  have hlength : q.rest.line.length = _ :=
    congrArg (fun path : Path α => path.line.length) hqq'.symm
  have hleast : Network.leastMaxDelay = 3 := rfl
  have hmax := hblank.maxDelay_eq
  refine hlength.trans ((Network.length_derivedPath (n := e₀.feedback.setLaw p.law) hblank.mode_eq
    ?_ _ k (hblank.capacity_eq q₀ (Array.mem_of_getElem? hq₀))).trans ?_)
  · show 3 ≤ e₀.feedback.maxDelay
    omega
  · have horder : (e₀.feedback.setLaw p.law).order = c.order := hblank.order_eq
    have hdelay : (e₀.feedback.setLaw p.law).maxDelay = e₀.feedback.maxDelay := rfl
    unfold designDelay
    rw [horder, hdelay, hmax, hblank.sampleRate_eq]
    rfl

/-- A derivation that makes a line shorter leaves its head outside, if that was at the last cell. -/
theorem Current.not_inside_derive (h : e.Current c method p) (hc : c.order ≠ 0) {k : Nat}
    {q : Path α} (hq : e.feedback.paths[k]? = some q)
    (hlast : q.line.position = q.line.length - 1) {p' : Parameters α}
    (hshort : designDelay c p' e.sampleRate k < designDelay c p e.sampleRate k) :
    ¬ (e.derive p').feedback.Inside := by
  intro hin
  obtain ⟨e₀, hblank, hrest⟩ := h.exists_blank hc
  have hmode : (e.feedback.setLaw p'.law).mode = .feedback :=
    (congrArg (fun e : Engine α β => e.feedback.mode) hrest).trans hblank.mode_eq
  let short : Path α := (e.feedback.setLaw p'.law).derivedPath (p'.design e.sampleRate) k q
  have hpath : (e.derive p').feedback.paths[k]? = some short := by
    show ((e.feedback.setLaw p'.law).derive (p'.design e.sampleRate)).paths[k]? = _
    rw [Network.getElem?_derive_paths]
    exact congrArg (Option.map _) hq
  have hlength : q.line.length = designDelay c p e.sampleRate k := h.length_line hc hq
  have hlength' : short.line.length = designDelay c p' e.sampleRate k :=
    (h.derive hc p').length_line hc hpath
  have hhead := (Network.inside_derivedPath_iff hmode (p'.design e.sampleRate) k q).mp
    (hin short (Array.mem_of_getElem? hpath))
  have hhead : q.line.position < short.line.length := hhead
  omega

end

end Engine

namespace Reverb

/-! ## Steps -/

/-- What can happen to a reverb. Whoever uses the engine holds it for a time. -/
inductive Step : Reverb α β → Reverb α β → Prop
  | configure {r r' : Reverb α β} {sampleRate : α} {fragment : Nat}
      (h : r.configure sampleRate fragment = .ok r') : Step r r'
  | update (r : Reverb α β) (revise : Parameters α → Parameters α) : Step r (r.update revise)
  | applyAll (r : Reverb α β) (queue : List (ControlMessage α)) : Step r (r.applyAll queue).2
  | addPointSource (r : Reverb α β) (direction : Direction α) (chunk : Array α)
      (gains : Sample α) : Step r (r.addPointSource direction chunk gains).2
  | addDiffuse (r : Reverb α β) (chunk : Block α) : Step r (r.addDiffuse chunk)
  | process (r : Reverb α β) (output : Block α) : Step r (r.process output).2
  | impulseResponse (r : Reverb α β) (length : Nat) : Step r (r.impulseResponse length).2
  | measure {γ : Type} (r : Reverb α β) (analyse : Array α → α → γ) : Step r (r.measure analyse).2
  | hold (r : Reverb α β) (busy : Bool) : Step r { r with busy }

/-- The states of a reverb that was made for a configuration. -/
def Reachable (c : Config α) (r : Reverb α β) : Prop :=
  ∃ start : Reverb α β, Reverb.new c = .ok start ∧ Relation.ReflTransGen Step start r

/-- An update that takes its time is a sequence of steps. -/
theorem steps_whileUpdating {γ : Type} {r : Reverb α β} {action : Reverb α β → γ × Reverb α β}
    (h : Relation.ReflTransGen Step { r with busy := true } (action { r with busy := true }).2)
    (revise : Parameters α → Parameters α) :
    Relation.ReflTransGen Step r (r.whileUpdating action revise).2 :=
  .head (.hold r true) ((h.tail (.hold _ r.busy)).tail (.update _ revise))

theorem Reachable.step {c : Config α} {r r' : Reverb α β} (h : Reachable c r) (hstep : Step r r') :
    Reachable c r' := by
  obtain ⟨start, hstart, hsteps⟩ := h
  exact ⟨start, hstart, hsteps.tail hstep⟩

theorem Reachable.steps {c : Config α} {r r' : Reverb α β} (h : Reachable c r)
    (hsteps' : Relation.ReflTransGen Step r r') : Reachable c r' := by
  obtain ⟨start, hstart, hsteps⟩ := h
  exact ⟨start, hstart, hsteps.trans hsteps'⟩

/-- The configuration is the one that the reverb was made for, and the engine is up to date. -/
structure Current (c : Config α) (r : Reverb α β) : Prop where
  config_eq : r.config = c
  check_eq : c.check = .ok r.method
  engine : ∀ e, r.engine = some e → e.Current c r.method r.parameters

variable {c : Config α} {r r' : Reverb α β}

theorem Current.order_ne_zero (h : r.Current c) : c.order ≠ 0 := by
  intro horder
  have herror : c.check = .error .zeroOrder := if_pos horder
  exact nomatch herror.symm.trans h.check_eq

theorem current_new (h : Reverb.new c = .ok r) : r.Current c := by
  unfold new at h
  cases hcheck : c.check with
  | error error =>
    rw [hcheck] at h
    exact nomatch h
  | ok method =>
    rw [hcheck] at h
    obtain rfl := Except.ok.inj h
    exact ⟨rfl, hcheck, fun _ he => nomatch he⟩

/-- A reverb that was just made, field by field. -/
theorem eq_of_new (h : Reverb.new c = .ok r) :
    r = ⟨c, r.method, .ofConfig c, none, .silent 0, false⟩ := by
  have hcheck := (current_new h).check_eq
  unfold new at h
  rw [hcheck] at h
  exact (Except.ok.inj h).symm

/-- When a reverb can be configured, and what it is then. -/
theorem configure_eq_ok_iff {sampleRate : α} {fragment : Nat} :
    r.configure sampleRate fragment = .ok r' ↔
      (Scalar.isFinite sampleRate ∧ 1 ≤ sampleRate) ∧ ∃ e : Engine α β,
        Engine.new r.config r.method sampleRate r.parameters = .ok e ∧
          r' = { r with engine := some e, input := .silent fragment } := by
  unfold Reverb.configure
  constructor
  · intro h
    split_ifs at h with hrate
    cases hnew : (Engine.new r.config r.method sampleRate r.parameters :
        Except ConfigError (Engine α β)) with
    | error error =>
      rw [hnew] at h
      exact nomatch h
    | ok fresh =>
      rw [hnew] at h
      exact ⟨hrate, fresh, rfl, (Except.ok.inj h).symm⟩
  · rintro ⟨hrate, e, hnew, rfl⟩
    rw [if_pos hrate, hnew]
    rfl

omit [Elementary β] [Widening α β] in
theorem exists_new {method : GainMethod} (hcheck : c.check = .ok method) :
    ∃ start : Reverb α β, Reverb.new c = .ok start := by
  unfold new
  rw [hcheck]
  exact ⟨_, rfl⟩

/-- A reverb that was just made can be configured for every sample rate from 1 on. -/
theorem exists_configure {start : Reverb α β} (hstart : Reverb.new c = .ok start) {sampleRate : α}
    (hrate : Scalar.isFinite sampleRate ∧ 1 ≤ sampleRate) (fragment : Nat) :
    ∃ r, start.configure sampleRate fragment = .ok r := by
  have hcurrent := current_new hstart
  obtain ⟨e₀, -, hfresh⟩ := Engine.exists_new (α := α) (β := β) hcurrent.order_ne_zero start.method
    sampleRate
  obtain ⟨e, hnew, -⟩ := hfresh start.parameters
  rw [← hcurrent.config_eq] at hnew
  exact ⟨_, configure_eq_ok_iff.mpr ⟨hrate, e, hnew, rfl⟩⟩

/-- Freshly configured, a reverb has the engine of its configuration, and no signal in it. -/
theorem configure_new {start : Reverb α β} (hstart : Reverb.new c = .ok start) {sampleRate : α}
    {fragment : Nat} (h : start.configure sampleRate fragment = .ok r) :
    ∃ e : Engine α β, Engine.new c start.method sampleRate (.ofConfig c) = .ok e ∧ e.reset = e ∧
      r.engine? = some e ∧ r.input = .silent fragment := by
  have hcurrent := current_new hstart
  have hstate : start.parameters = .ofConfig c ∧ start.busy = false := by
    rw [eq_of_new hstart]
    exact ⟨rfl, rfl⟩
  obtain ⟨-, e, hnew, rfl⟩ := configure_eq_ok_iff.mp h
  rw [hcurrent.config_eq, hstate.1] at hnew
  refine ⟨e, hnew, Engine.reset_of_new hcurrent.order_ne_zero hnew, ?_, rfl⟩
  unfold engine?
  rw [if_neg (by simp [hstate.2])]

/-- Of every configuration that passes its check, a configured reverb can be reached. -/
theorem exists_reachable {method : GainMethod} (hcheck : c.check = .ok method) {sampleRate : α}
    (hrate : Scalar.isFinite sampleRate ∧ 1 ≤ sampleRate) (fragment : Nat) :
    ∃ (r : Reverb α β) (e : Engine α β), Reachable c r ∧ r.engine? = some e ∧
      r.input = .silent fragment := by
  obtain ⟨start, hnew⟩ := exists_new (β := β) hcheck
  obtain ⟨r, hconfigure⟩ := exists_configure hnew hrate fragment
  obtain ⟨e, -, -, he, hinput⟩ := configure_new hnew hconfigure
  exact ⟨r, e, ⟨start, hnew, .single (.configure hconfigure)⟩, he, hinput⟩

theorem Current.configure (h : r.Current c) {sampleRate : α} {fragment : Nat}
    (hr' : r.configure sampleRate fragment = .ok r') : r'.Current c := by
  obtain ⟨-, fresh, hnew, rfl⟩ := configure_eq_ok_iff.mp hr'
  refine ⟨h.config_eq, h.check_eq, fun e he => ?_⟩
  obtain rfl : fresh = e := Option.some.inj he
  rw [h.config_eq] at hnew
  exact Engine.current_of_new h.order_ne_zero hnew

theorem Current.update (h : r.Current c) (revise : Parameters α → Parameters α) :
    (r.update revise).Current c := by
  refine ⟨h.config_eq, h.check_eq, fun e he => ?_⟩
  obtain ⟨old, hold, rfl⟩ := Option.map_eq_some_iff.mp he
  exact (h.engine old hold).derive h.order_ne_zero _

theorem Current.applyAll (h : r.Current c) (queue : List (ControlMessage α)) :
    (r.applyAll queue).2.Current c := by
  unfold Reverb.applyAll
  generalize 0 = count
  induction queue generalizing r count with
  | nil => exact h
  | cons m queue ih => exact ih (h.update m.revise) (count + 1)

/-- Signals do not make an engine out of date. -/
theorem Current.of_rest_eq (h : r.Current c) {e : Engine α β} (he : r.engine = some e)
    {e' : Engine α β} (hrest : e'.rest = e.rest) : { r with engine := some e' }.Current c := by
  refine ⟨h.config_eq, h.check_eq, fun f hf => ?_⟩
  obtain rfl : e' = f := Option.some.inj hf
  exact (h.engine e he).of_rest_eq hrest

omit [Elementary α] [Elementary β] [Widening α β] in
theorem engine_of_engine? {e : Engine α β} (h : r.engine? = some e) : r.engine = some e := by
  unfold engine? at h
  split_ifs at h with hbusy
  exact h

theorem Current.process (h : r.Current c) (output : Block α) : (r.process output).2.Current c := by
  unfold Reverb.process
  cases he : r.engine? with
  | none => exact ⟨h.config_eq, h.check_eq, h.engine⟩
  | some e =>
    have hcurrent := h.of_rest_eq (engine_of_engine? he)
      (Engine.rest_runOver e (r.input.samples.take output.size))
    exact ⟨hcurrent.config_eq, hcurrent.check_eq, hcurrent.engine⟩

theorem Current.impulseResponse (h : r.Current c) (n : Nat) :
    (r.impulseResponse n).2.Current c := by
  unfold Reverb.impulseResponse
  cases he : r.engine? with
  | none => exact h
  | some e => exact h.of_rest_eq (engine_of_engine? he) (Engine.rest_impulseResponse e n)

theorem Current.measure {γ : Type} (h : r.Current c) (analyse : Array α → α → γ) :
    (r.measure analyse).2.Current c := by
  unfold Reverb.measure
  cases he : r.engine? with
  | none => exact h
  | some e => exact h.of_rest_eq (engine_of_engine? he) (Engine.rest_impulseResponse e _)

theorem Current.step (h : r.Current c) (hstep : Step r r') : r'.Current c := by
  cases hstep with
  | configure hr' => exact h.configure hr'
  | update _ revise => exact h.update revise
  | applyAll _ queue => exact h.applyAll queue
  | addPointSource => exact ⟨h.config_eq, h.check_eq, h.engine⟩
  | addDiffuse => exact ⟨h.config_eq, h.check_eq, h.engine⟩
  | process _ output => exact h.process output
  | impulseResponse _ n => exact h.impulseResponse n
  | measure _ analyse => exact h.measure analyse
  | hold => exact ⟨h.config_eq, h.check_eq, h.engine⟩

/-- **Reachable reverbs are up to date.** -/
theorem current_of_reachable (h : Reachable c r) : r.Current c := by
  obtain ⟨start, hstart, hsteps⟩ := h
  induction hsteps with
  | refl => exact current_new hstart
  | tail _ hstep ih => exact ih.step hstep

/-! ## A small room -/

/-- The configuration of the examples: a small room with a single path and no input filters. -/
noncomputable def smallRoom : Config ℝ :=
  { Config.default with
    order := 1
    turnSpread := 0
    damping := 0
    prefilter := false
    room := ⟨Scalar.ofNat 4, Scalar.ofNat 5, Scalar.ofNat 6⟩ }

theorem check_smallRoom : smallRoom.check = .ok .shortest := by
  have hproper : smallRoom.room.isProper = true := by
    simp [smallRoom, Room.isProper, Scalar.isFinite_eq, Scalar.ofNat_eq]
  have hmethod : GainMethod.ofName smallRoom.gainMethod = .ok .shortest :=
    GainMethod.ofName_name .shortest
  have horder : smallRoom.order ≠ 0 := Nat.one_ne_zero
  have hbands : ¬ smallRoom.bands.size ≠ smallRoom.bandTimes.size := not_not.mpr rfl
  unfold Config.check
  rw [if_neg horder, if_neg hbands, hmethod]
  exact if_pos hproper

/-- A new reverb for the small room. -/
noncomputable def smallReverb : Reverb ℝ ℝ where
  config := smallRoom
  method := .shortest
  parameters := .ofConfig smallRoom
  engine := none
  input := .silent 0
  busy := false

theorem new_smallRoom : Reverb.new smallRoom = .ok smallReverb := by
  unfold new
  rw [check_smallRoom]
  rfl

/-- The reverb at a sample rate of 1 kHz. -/
theorem configure_smallReverb : ∃ e : Engine ℝ ℝ,
    Engine.new smallRoom .shortest (Scalar.ofNat 1000) (.ofConfig smallRoom) = .ok e ∧
      smallReverb.configure (Scalar.ofNat 1000) 16 =
        .ok { smallReverb with engine := some e, input := .silent 16 } ∧
      e.sampleRate = Scalar.ofNat 1000 ∧ e.Home := by
  obtain ⟨e₀, -, hfresh⟩ := Engine.exists_new (α := ℝ) (β := ℝ) (c := smallRoom) Nat.one_ne_zero
    .shortest (Scalar.ofNat 1000)
  obtain ⟨e, hnew, hrate, hhome, -⟩ := hfresh (.ofConfig smallRoom)
  have hsound : Scalar.isFinite (Scalar.ofNat 1000 : ℝ) ∧ (1 : ℝ) ≤ Scalar.ofNat 1000 := by
    rw [Scalar.ofNat_eq]
    exact ⟨rfl, by norm_num⟩
  exact ⟨e, hnew, configure_eq_ok_iff.mpr ⟨hsound, e, hnew, rfl⟩, hrate, hhome⟩

/-! ## Responses -/

omit [Elementary α] [Elementary β] [Widening α β] in
theorem engine?_with {e : Engine α β} (h : r.engine? = some e) (e' : Engine α β) :
    { r with engine := some e' }.engine? = some e' := by
  unfold engine? at h ⊢
  split_ifs at h with hbusy
  exact if_neg hbusy

omit [Widening α β] in
theorem impulseResponse_eq {e : Engine α β} (h : r.engine? = some e) (n : Nat) :
    r.impulseResponse n =
      (some (e.impulseResponse n).1, { r with engine := some (e.impulseResponse n).2 }) := by
  unfold Reverb.impulseResponse
  rw [h]

/-- How many samples of the response an analysis gets. -/
def analysedLength (r : Reverb α β) (e : Engine α β) : Nat :=
  min (r.parameters.responseLength e.sampleRate) e.capacity

omit [Widening α β] in
theorem measure_eq {γ : Type} {e : Engine α β} (h : r.engine? = some e)
    (analyse : Array α → α → γ) :
    r.measure analyse =
      (some (analyse (e.impulseResponse (r.analysedLength e)).1 e.sampleRate),
        { r with engine := some (e.impulseResponse (r.analysedLength e)).2 }) := by
  rw [← Engine.sampleRate_eq_of_rest_eq (Engine.rest_impulseResponse e (r.analysedLength e))]
  unfold Reverb.measure
  rw [h]
  rfl

theorem engine?_update {e : Engine α β} (h : r.engine? = some e)
    (revise : Parameters α → Parameters α) :
    (r.update revise).engine? = some (e.derive (revise r.parameters)) := by
  unfold engine? at h ⊢
  split_ifs at h with hbusy
  exact (if_neg hbusy).trans (congrArg (Option.map _) h)

/-- **Measurements of reachable reverbs.** The measurement goes as on a new engine exactly if no
line loses anything of the impulse, and then it gives the same response. After a measurement nothing
is lost any more. -/
theorem response_of_reachable (h : Reachable c r) {e : Engine α β} (he : r.engine? = some e) :
    ∃ (method : GainMethod) (fresh : Engine α β), c.check = .ok method ∧
      Engine.new c method e.sampleRate r.parameters = .ok fresh ∧
      ((∀ i, (e.measured i).Alike (fresh.measured i)) ↔ e.reset.Keeps (Engine.impulse 0)) ∧
      (e.reset.Keeps (Engine.impulse 0) →
        ∀ n, (r.impulseResponse n).1 = some (fresh.impulseResponse n).1) ∧
      ∀ m n, 0 < m →
        ((r.impulseResponse m).2.impulseResponse n).1 = some (fresh.impulseResponse n).1 := by
  have hcurrent := current_of_reachable h
  obtain ⟨fresh, hnew, hinside, hrest⟩ := hcurrent.engine e (engine_of_engine? he)
  refine ⟨r.method, fresh, hcurrent.check_eq, hnew, ⟨fun halike => ?_, fun hkeeps i => ?_⟩, ?_, ?_⟩
  · exact (Engine.alike_measured_one_iff hrest hinside).mp (halike 1)
  · exact Engine.alike_measured hrest hinside hkeeps i
  · intro hkeeps n
    rw [impulseResponse_eq he, Engine.response_eq_of_keeps hrest hinside hkeeps]
  · intro m n hm
    have hkeeps : (e.impulseResponse m).2.reset.Keeps (Engine.impulse 0) :=
      (Engine.inside_reset (Engine.inside_impulseResponse e hm)).keeps _
    have hrest' := (Engine.rest_impulseResponse e m).trans hrest
    rw [impulseResponse_eq he, impulseResponse_eq (engine?_with he _),
      Engine.response_eq_of_keeps hrest' hinside hkeeps]

theorem response_of_reachable_smallRoom : ∃ (r : Reverb ℝ ℝ) (e : Engine ℝ ℝ),
    (Reachable smallRoom r ∧ r.engine? = some e) ∧
      ∃ (method : GainMethod) (fresh : Engine ℝ ℝ), smallRoom.check = .ok method ∧
        Engine.new smallRoom method e.sampleRate r.parameters = .ok fresh ∧
        ((∀ i, (e.measured i).Alike (fresh.measured i)) ↔ e.reset.Keeps (Engine.impulse 0)) ∧
        (e.reset.Keeps (Engine.impulse 0) →
          ∀ n, (r.impulseResponse n).1 = some (fresh.impulseResponse n).1) ∧
        ∀ m n, 0 < m →
          ((r.impulseResponse m).2.impulseResponse n).1 = some (fresh.impulseResponse n).1 := by
  obtain ⟨e, -, hconfigure, -⟩ := configure_smallReverb
  have hreachable :
      Reachable smallRoom { smallReverb with engine := some e, input := .silent 16 } :=
    ⟨smallReverb, new_smallRoom, Relation.ReflTransGen.single (.configure hconfigure)⟩
  exact ⟨_, e, ⟨hreachable, rfl⟩, response_of_reachable hreachable rfl⟩

end Reverb

end AmbisonicReverb
