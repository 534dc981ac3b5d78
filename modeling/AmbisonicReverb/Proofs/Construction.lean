import Mathlib
import AmbisonicReverb.Proofs.Messages
import AmbisonicReverb.Proofs.Range

/-!
# Building and configuring

Two calls can fail on the way to a running reverb. A reverb is made for a configuration, which is
checked then and never again, and it is configured for a sample rate, as often as the host likes and
also while it runs. Networks are made at the second call, and making one can fail as well.

**Theorem (`construction_errors`).** The first call fails with the first requirement that the
configuration does not meet, and the second one exactly for a sample rate that is not finite or
below 1. Making the networks never fails, in any state that a reverb can reach. A failure leaves
everything as it was, and a success replaces the engine and the input block and nothing else.

* `Config.requirements` — what a configuration has to meet, in order.
* `Reverb.configureInPlace` — the second call as a sequence of writes to a reverb in place, which a
  failure does not undo. No write comes before the last thing that can fail.
-/

namespace AmbisonicReverb

/-! ## Requirements -/

/-- Something to be met, and the error where it is not. -/
structure Requirement where
  met : Prop
  error : ConfigError

/-- The error is that of the first requirement that is not met. -/
inductive FirstFault : List Requirement → ConfigError → Prop
  | here {q : Requirement} {later : List Requirement} (hunmet : ¬ q.met) :
      FirstFault (q :: later) q.error
  | later {q : Requirement} {later : List Requirement} {e : ConfigError} (hmet : q.met)
      (hlater : FirstFault later e) : FirstFault (q :: later) e

namespace FirstFault

variable {requirements : List Requirement} {e e' : ConfigError}

/-- Nothing is wrong where all is met. -/
theorem not_of_forall (h : ∀ q ∈ requirements, q.met) : ¬ FirstFault requirements e := by
  intro hfault
  induction hfault with
  | here hunmet => exact hunmet (h _ List.mem_cons_self)
  | later _ _ ih => exact ih fun q hq => h q (List.mem_cons_of_mem _ hq)

/-- There is one first fault at most. -/
theorem eq (h : FirstFault requirements e) (h' : FirstFault requirements e') : e = e' := by
  induction h with
  | here hunmet =>
    cases h' with
    | here => rfl
    | later hmet => exact absurd hmet hunmet
  | later hmet _ ih =>
    cases h' with
    | here hunmet => exact absurd hmet hunmet
    | later _ hlater => exact ih hlater

end FirstFault

/-! ## Configurations -/

namespace GainMethod

/-- All names that a method has. -/
def names : List String := ["original", "mean", "schroeder"]

theorem ofName_of_mem {name : String} (h : name ∈ names) : ∃ m, ofName name = .ok m := by
  simp only [names, List.mem_cons, List.not_mem_nil, or_false] at h
  rcases h with rfl | rfl | rfl
  · exact ⟨.shortest, rfl⟩
  · exact ⟨.mean, rfl⟩
  · exact ⟨.schroeder, rfl⟩

theorem ofName_of_not_mem {name : String} (h : name ∉ names) :
    ofName name = .error (.unknownGainMethod name) := by
  simp only [names, List.mem_cons, List.not_mem_nil, or_false, not_or] at h
  obtain ⟨horiginal, hmean, hschroeder⟩ := h
  unfold ofName
  split <;> first | contradiction | rfl

end GainMethod

section

variable {α : Type} [Scalar α]

theorem Room.isProper_iff {room : Room α} :
    room.isProper = true ↔ ∀ d ∈ [room.x, room.y, room.z], 0 < d ∧ Scalar.isFinite d := by
  simp [isProper, and_comm, and_assoc]

namespace Config

/-- What a configuration has to meet, in the order in which it is checked. -/
def requirements (c : Config α) : List Requirement :=
  [⟨1 ≤ c.order, .zeroOrder⟩,
    ⟨c.bands.size = c.bandTimes.size, .lengthMismatch c.bands.size c.bandTimes.size⟩,
    ⟨c.gainMethod ∈ GainMethod.names, .unknownGainMethod c.gainMethod⟩,
    ⟨∀ d ∈ [c.room.x, c.room.y, c.room.z], 0 < d ∧ Scalar.isFinite d, .invalidRoom⟩]

/-- The check passes, or it fails with the first requirement that is not met. -/
theorem check_cases (c : Config α) :
    (∃ method, c.check = .ok method ∧ ∀ q ∈ c.requirements, q.met) ∨
      ∃ e, c.check = .error e ∧ FirstFault c.requirements e := by
  unfold check requirements
  by_cases horder : c.order = 0
  · refine .inr ⟨.zeroOrder, if_pos horder, .here ?_⟩
    show ¬ 1 ≤ c.order
    omega
  rw [if_neg horder]
  have horder : 1 ≤ c.order := Nat.one_le_iff_ne_zero.mpr horder
  by_cases hbands : c.bands.size = c.bandTimes.size
  case neg => exact .inr ⟨_, if_pos hbands, .later horder (.here hbands)⟩
  rw [if_neg (not_not.mpr hbands)]
  by_cases hname : c.gainMethod ∈ GainMethod.names
  case neg =>
    rw [GainMethod.ofName_of_not_mem hname]
    exact .inr ⟨_, rfl, .later horder (.later hbands (.here hname))⟩
  obtain ⟨method, hmethod⟩ := GainMethod.ofName_of_mem hname
  rw [hmethod]
  by_cases hroom : c.room.isProper = true
  · refine .inl ⟨method, if_pos hroom, ?_⟩
    rintro q (_ | ⟨_, _ | ⟨_, _ | ⟨_, _ | ⟨_, hq⟩⟩⟩⟩)
    · exact horder
    · exact hbands
    · exact hname
    · exact Room.isProper_iff.mp hroom
    · exact nomatch hq
  · refine .inr ⟨.invalidRoom, if_neg hroom, ?_⟩
    exact .later horder (.later hbands (.later hname (.here (mt Room.isProper_iff.mpr hroom))))

end Config

end

namespace Reverb

variable {α β : Type} [Elementary α] [Elementary β] [Widening α β]

section

omit [Elementary β] [Widening α β]

theorem new_cases (c : Config α) :
    ((∃ r : Reverb α β, Reverb.new c = .ok r) ∧ ∀ q ∈ c.requirements, q.met) ∨
      ∃ e, (Reverb.new c : Except ConfigError (Reverb α β)) = .error e ∧
        FirstFault c.requirements e := by
  rcases c.check_cases with ⟨method, hcheck, hmet⟩ | ⟨e, hcheck, hfault⟩
  · exact .inl ⟨exists_new hcheck, hmet⟩
  · refine .inr ⟨e, ?_, hfault⟩
    unfold Reverb.new
    rw [hcheck]
    rfl

/-- A reverb is made exactly for a configuration that meets its requirements. -/
theorem exists_new_iff {c : Config α} :
    (∃ r : Reverb α β, Reverb.new c = .ok r) ↔ ∀ q ∈ c.requirements, q.met := by
  rcases new_cases (β := β) c with ⟨hnew, hmet⟩ | ⟨e, herror, hfault⟩
  · exact ⟨fun _ => hmet, fun _ => hnew⟩
  · refine ⟨fun ⟨r, hnew⟩ => ?_, fun hmet => absurd hfault (FirstFault.not_of_forall hmet)⟩
    exact nomatch herror.symm.trans hnew

theorem new_eq_error_iff {c : Config α} {e : ConfigError} :
    (Reverb.new c : Except ConfigError (Reverb α β)) = .error e ↔
      FirstFault c.requirements e := by
  rcases new_cases (β := β) c with ⟨⟨r, hnew⟩, hmet⟩ | ⟨e', herror, hfault⟩
  · refine ⟨fun herror => ?_, fun hfault => absurd hfault (FirstFault.not_of_forall hmet)⟩
    exact nomatch herror.symm.trans hnew
  · rw [herror]
    constructor
    · rintro ⟨⟩
      exact hfault
    · intro hfault'
      rw [hfault.eq hfault']

end

/-! ## Configuring in place -/

/-- Puts a new engine and a new input block into their places, one after the other. -/
def install (engine : Engine α β) (fragment : ℕ) :
    ExceptT ConfigError (StateM (Reverb α β)) Unit := do
  modify fun r => { r with engine := some engine }
  modify fun r => { r with input := .silent fragment }

/-- The same on a reverb in place. What was written before a failure stays. -/
def configureInPlace (sampleRate : α) (fragment : ℕ) :
    ExceptT ConfigError (StateM (Reverb α β)) Unit := do
  if Scalar.isFinite sampleRate ∧ 1 ≤ sampleRate then
    let r ← get
    match Engine.new r.config r.method sampleRate r.parameters with
    | .ok engine => install engine fragment
    | .error e => throw e
  else throw .invalidSampleRate

/-- **No write comes before a failure.** -/
theorem run_configureInPlace (sampleRate : α) (fragment : ℕ) (r : Reverb α β) :
    (configureInPlace sampleRate fragment).run r =
      match r.configure sampleRate fragment with
      | .ok r' => (.ok (), r')
      | .error e => (.error e, r) := by
  unfold configureInPlace Reverb.configure
  by_cases hrate : Scalar.isFinite sampleRate ∧ 1 ≤ sampleRate
  · rw [if_pos hrate, if_pos hrate]
    show ExceptT.run (match Engine.new r.config r.method sampleRate r.parameters with
      | .ok engine => install engine fragment
      | .error e => throw e) r = _
    cases (Engine.new r.config r.method sampleRate r.parameters :
      Except ConfigError (Engine α β)) <;> rfl
  · rw [if_neg hrate, if_neg hrate]
    rfl

/-! ## Every outcome -/

/-- A reverb after it was configured: a new engine for the published parameters, without any signal
in it, and a silent input block. Nothing else has changed. -/
structure Configured (r : Reverb α β) (sampleRate : α) (fragment : ℕ) (r' : Reverb α β) :
    Prop where
  engine : ∃ e, r'.engine = some e ∧
    Engine.new r.config r.method sampleRate r.parameters = .ok e ∧
      e.sampleRate = sampleRate ∧ e.reset = e ∧ e.Silent
  input : r'.input = ⟨Array.replicate fragment 0⟩
  rest : r' = { r with engine := r'.engine, input := r'.input }

/-- The networks of a reachable reverb can be made anew at any sample rate. -/
theorem configured_of_reachable {c : Config α} {r : Reverb α β} (h : Reachable c r)
    {sampleRate : α} (hrate : Scalar.isFinite sampleRate ∧ 1 ≤ sampleRate) (fragment : ℕ) :
    ∃ r', r.configure sampleRate fragment = .ok r' ∧ Configured r sampleRate fragment r' := by
  have hcurrent := current_of_reachable h
  have horder : r.config.order ≠ 0 := by
    rw [hcurrent.config_eq]
    exact hcurrent.order_ne_zero
  obtain ⟨e₀, -, hfresh⟩ := Engine.exists_new (α := α) (β := β) horder r.method sampleRate
  obtain ⟨e, hnew, hsampleRate, -⟩ := hfresh r.parameters
  have hreset : e.reset = e := Engine.reset_of_new horder hnew
  have hsilent : e.Silent := hreset ▸ Engine.silent_reset e
  exact ⟨_, configure_eq_ok_iff.mpr ⟨hrate, e, hnew, rfl⟩,
    ⟨e, rfl, hnew, hsampleRate, hreset, hsilent⟩, rfl, rfl⟩

/-- **Errors are complete, and failures are atomic.** A reverb is made exactly if its configuration
meets all requirements, and otherwise there is the error of the first one that it does not meet. In
every state that it reaches then, a sample rate that is finite and at least 1 can be configured, and
any other is refused as invalid with everything left as it was. -/
theorem construction_errors (c : Config α) :
    ((∃ r : Reverb α β, Reverb.new c = .ok r) ↔ ∀ q ∈ c.requirements, q.met) ∧
      (∀ e, (Reverb.new c : Except ConfigError (Reverb α β)) = .error e ↔
        FirstFault c.requirements e) ∧
      ∀ r : Reverb α β, Reachable c r → ∀ sampleRate fragment,
        (Scalar.isFinite sampleRate ∧ 1 ≤ sampleRate →
          ∃ r', r.configure sampleRate fragment = .ok r' ∧
            (configureInPlace sampleRate fragment).run r = (.ok (), r') ∧
            Configured r sampleRate fragment r') ∧
        (¬ (Scalar.isFinite sampleRate ∧ 1 ≤ sampleRate) →
          r.configure sampleRate fragment = .error .invalidSampleRate ∧
            (configureInPlace sampleRate fragment).run r = (.error .invalidSampleRate, r)) := by
  refine ⟨?_, fun e => ?_, fun r hr sampleRate fragment => ⟨fun hrate => ?_, fun hrate => ?_⟩⟩
  · exact exists_new_iff
  · exact new_eq_error_iff
  · obtain ⟨r', hconfigure, hconfigured⟩ := configured_of_reachable hr hrate fragment
    refine ⟨r', hconfigure, ?_, hconfigured⟩
    rw [run_configureInPlace, hconfigure]
  · have hrefused : r.configure sampleRate fragment = .error .invalidSampleRate := if_neg hrate
    refine ⟨hrefused, ?_⟩
    rw [run_configureInPlace, hrefused]

/-- A hall without paths, and with a gain method that there is not. -/
def brokenHall : Config Float32 := { smallHall with order := 0, gainMethod := "loud" }

theorem construction_errors_smallHall :
    (Reverb.new brokenHall : Except ConfigError (Reverb Float32 Float)) = .error .zeroOrder ∧
      ∃ r : Reverb Float32 Float, (Reachable smallHall r ∧ r.isConfigured) ∧
        (∃ r', r.configure 44100 64 = .ok r' ∧
          (configureInPlace 44100 64).run r = (.ok (), r') ∧ Configured r 44100 64 r') ∧
        r.configure 0.5 64 = .error .invalidSampleRate ∧
        (configureInPlace 0.5 64).run r = (.error .invalidSampleRate, r) := by
  have hcheck : smallHall.check = .ok .shortest := by decide +kernel
  have hrate : Scalar.isFinite (48000 : Float32) ∧ (1 : Float32) ≤ 48000 := by decide +kernel
  have hrate' : Scalar.isFinite (44100 : Float32) ∧ (1 : Float32) ≤ 44100 := by decide +kernel
  have hslow : ¬ (Scalar.isFinite (0.5 : Float32) ∧ (1 : Float32) ≤ 0.5) := by decide +kernel
  obtain ⟨r, e, hreachable, he, -⟩ := exists_reachable (β := Float) hcheck hrate 16
  obtain ⟨-, herror, -⟩ := construction_errors (β := Float) brokenHall
  obtain ⟨-, -, houtcome⟩ := construction_errors (β := Float) smallHall
  have hconfigured : r.isConfigured := by
    unfold isConfigured
    rw [engine_of_engine? he]
    rfl
  have hzero : FirstFault brokenHall.requirements .zeroOrder := .here (by decide)
  exact ⟨(herror .zeroOrder).mpr hzero, r, ⟨hreachable, hconfigured⟩,
    (houtcome r hreachable 44100 64).1 hrate', (houtcome r hreachable 0.5 64).2 hslow⟩

end Reverb

end AmbisonicReverb
