import Mathlib
import AmbisonicReverb.Proofs.Fragments
import AmbisonicReverb.Proofs.Mute
import AmbisonicReverb.Proofs.Operations

/-!
# What a measurement leaves

A measurement sends an impulse through the engine that the listener hears. Nothing of it, and
nothing of what was ringing before, may be heard afterwards.

**Theorem (`process_after_measurement`).** After a measurement nothing but exact zeros comes out of
a reverb, until something is put in. Meanwhile it may be configured anew, its parameters may change,
and it may be measured and fitted again.

* `Engine.Mute` — all signals of an engine are mute. Its filters and rotations need not be sound.
* `Engine.Mute.runOver` — a mute engine makes exact zeros of mute input, and stays mute.
* `Reverb.Mute.perform` — so does the reverb, in all operations that put nothing in.
-/

namespace AmbisonicReverb

/-! ## Engines -/

namespace Engine

/-- All signals of the engine are mute, and nothing waits to be added to its output. -/
structure Mute (e : Engine Float32 Float) : Prop where
  networks : mute32.link.Engines fun _ => e
  output : e.feedback.output = 0
  lowCut : ∀ f, e.lowCut = some f → mute64.Registers f.w ∧ mute64.Registers f.x ∧
    mute64.Registers f.y ∧ mute64.Registers f.z

variable {e : Engine Float32 Float} {s : Sample Float32}

theorem mute_reset (e : Engine Float32 Float) : e.reset.Mute := by
  have hturns : ∀ q : Rotation Float32, mute32.link.Turns fun _ => q := fun _ => trivial
  refine ⟨⟨⟨_, fun _ => rfl⟩, Link.chains_reset e.forward hturns,
    Link.networks_reset e.feedback hturns⟩, rfl, fun f hf => ?_⟩
  obtain ⟨f, -, rfl⟩ := Option.map_eq_some_iff.mp hf
  exact ⟨Hush.registers_reset f.w, Hush.registers_reset f.x, Hush.registers_reset f.y,
    Hush.registers_reset f.z⟩

/-- A derivation silences the networks, and leaves the high-pass as it is. -/
theorem Mute.derive (h : e.Mute) (p : Parameters Float32) : (e.derive p).Mute := by
  have hturns : ∀ q : Rotation Float32, mute32.link.Turns fun _ => q := fun _ => trivial
  refine ⟨⟨⟨_, fun _ => rfl⟩, Link.chains_of_reset ?_ hturns,
    Link.networks_of_reset (Network.reset_derive _ _) hturns⟩, rfl, h.lowCut⟩
  intro n hn
  obtain ⟨m, -, rfl⟩ := List.mem_map.mp hn
  exact Network.reset_derive _ _

theorem Mute.applyLowCut (h : e.Mute) (hs : mute32.Channels s) :
    mute32.Channels (e.applyLowCut s).1 ∧ (e.applyLowCut s).2.Mute := by
  unfold Engine.applyLowCut
  cases hf : e.lowCut with
  | none => exact ⟨hs, h⟩
  | some f =>
    obtain ⟨hw, hx, hy, hz⟩ := h.lowCut f hf
    obtain ⟨hw, hw'⟩ := hw.process (mute64_widen hs.w)
    obtain ⟨hx, hx'⟩ := hx.process (mute64_widen hs.x)
    obtain ⟨hy, hy'⟩ := hy.process (mute64_widen hs.y)
    obtain ⟨hz, hz'⟩ := hz.process (mute64_widen hs.z)
    refine ⟨⟨mute32_narrow hw, mute32_narrow hx, mute32_narrow hy, mute32_narrow hz⟩,
      ⟨h.networks.usesPrefilter, h.networks.forward, h.networks.feedback⟩, h.output, fun g hg => ?_⟩
    obtain rfl := Option.some.inj hg
    exact ⟨hw', hx', hy', hz'⟩

theorem Mute.tick (h : e.Mute) (hs : mute32.Channels s) :
    (e.tick s).1 = 0 ∧ (e.tick s).2.Mute := by
  have hprocessed := h.networks.processed (s := fun _ => s) hs
  refine ⟨tick_fst_eq_zero h.output (Hush.arrays_link_iff.mp hprocessed.outputs),
    h.networks.tick (s := fun _ => s) hs, ?_, ?_⟩
  · rw [tick_eq]
    rfl
  · rw [tick_eq]
    exact h.lowCut

theorem Mute.step (h : e.Mute) (hs : mute32.Channels s) :
    (e.step s).1 = 0 ∧ (e.step s).2.Mute := by
  have hgained : mute32.Channels (s * e.inputGain) :=
    ⟨mute32.mul_right hs.w _, mute32.mul_right hs.x _, mute32.mul_right hs.y _,
      mute32.mul_right hs.z _⟩
  obtain ⟨hfiltered, hmute⟩ := h.applyLowCut hgained
  exact hmute.tick hfiltered

/-- **A mute engine stays mute.** Its outputs are exact zeros. -/
theorem Mute.runOver (h : e.Mute) {samples : Array (Sample Float32)}
    (hsamples : ∀ s ∈ samples, mute32.Channels s) :
    (AmbisonicReverb.runOver Engine.step e samples).1 = Array.replicate samples.size 0 ∧
      (AmbisonicReverb.runOver Engine.step e samples).2.Mute := by
  induction samples using push_induction with
  | empty => exact ⟨rfl, h⟩
  | push samples s ih =>
    obtain ⟨hzero, hmute⟩ := ih fun t ht => hsamples t (Array.mem_push_of_mem s ht)
    obtain ⟨hs, hmute⟩ := hmute.step (hsamples s Array.mem_push_self)
    rw [runOver_push, hzero, hs, Array.size_push, Array.replicate_succ]
    exact ⟨rfl, hmute⟩

end Engine

/-! ## Blocks -/

namespace Block

/-- All samples are zeros, of either sign. -/
def IsZero (b : Block Float32) : Prop := ∀ s ∈ b.samples, s.agrees 0

theorem mute_of_agrees {x : Float32} (h : Scalar.agrees x binary32Zero) : mute32.Mem x := by
  rcases agrees_cases h with rfl | ⟨s, -, rfl, -⟩
  · exact mute32.zero
  · exact ⟨_, .zero s, rfl⟩

theorem IsZero.channels {b : Block Float32} (h : b.IsZero) :
    ∀ s ∈ b.samples, mute32.Channels s := by
  intro s hs
  have hagrees := h s hs
  unfold Sample.agrees at hagrees
  simp only [Bool.and_eq_true] at hagrees
  obtain ⟨⟨⟨hw, hx⟩, hy⟩, hz⟩ := hagrees
  exact ⟨mute_of_agrees hw, mute_of_agrees hx, mute_of_agrees hy, mute_of_agrees hz⟩

theorem isZero_silent (n : ℕ) : (silent n : Block Float32).IsZero := by
  intro s hs
  rw [(Array.mem_replicate.mp hs).2]
  decide +kernel

/-- What lies beyond the end of a block is not added to it. -/
theorem mix_replicate_min (b : Block Float32) (n : ℕ) :
    b.mix ⟨Array.replicate (min b.size n) 0⟩ = b.mix (silent n) := by
  unfold mix silent
  congr 1
  refine Array.ext (by simp) fun i hi _ => ?_
  have hb : i < b.size := by simpa [size] using hi
  simp [Array.getElem?_replicate, hb]

end Block

/-! ## Operations -/

section

variable {α β : Type}

/-- The operations that send an impulse through the engine. -/
def Operation.measures : Operation α β → Bool
  | impulseResponse _ | bandTimes _ | broadbandTime => true
  | _ => false

/-- The operations that put something into the input block. -/
def Operation.addsInput : Operation α β → Bool
  | addPointSource _ _ _ | addDiffuse _ => true
  | _ => false

end

namespace Reverb

/-- Engine and input block are mute, and nobody holds the engine. -/
structure Mute (r : Reverb Float32 Float) : Prop where
  engine : ∃ e, r.engine? = some e ∧ e.Mute
  input : ∀ s ∈ r.input.samples, mute32.Channels s

variable {c : Config Float32} {r : Reverb Float32 Float} {e : Engine Float32 Float}

/-- A measurement leaves the engine mute, whatever it found there. -/
theorem mute_impulseResponse (he : r.engine? = some e)
    (hinput : ∀ s ∈ r.input.samples, mute32.Channels s) (n : ℕ) :
    (r.impulseResponse n).2.Mute := by
  rw [impulseResponse_eq he, Engine.impulseResponse_eq]
  exact ⟨⟨_, engine?_with he _, Engine.mute_reset _⟩, hinput⟩

theorem mute_measure {γ : Type} (he : r.engine? = some e)
    (hinput : ∀ s ∈ r.input.samples, mute32.Channels s) (analyse : Array Float32 → Float32 → γ) :
    (r.measure analyse).2.Mute := by
  rw [measure_eq he, Engine.impulseResponse_eq]
  exact ⟨⟨_, engine?_with he _, Engine.mute_reset _⟩, hinput⟩

theorem mute_perform_of_measures (he : r.engine? = some e)
    (hinput : ∀ s ∈ r.input.samples, mute32.Channels s) {m : Operation Float32 Float}
    (hm : m.measures) : (m.perform r).Mute := by
  cases m with
  | impulseResponse n => exact mute_impulseResponse he hinput n
  | bandTimes centres => exact mute_measure he hinput _
  | broadbandTime => exact mute_measure he hinput _
  | _ => exact nomatch hm

theorem Mute.update (h : r.Mute) (revise : Parameters Float32 → Parameters Float32) :
    (r.update revise).Mute := by
  obtain ⟨e, he, hmute⟩ := h.engine
  exact ⟨⟨_, engine?_update he revise, hmute.derive _⟩, h.input⟩

theorem Mute.applyAll (h : r.Mute) (queue : List (ControlMessage Float32)) :
    (r.applyAll queue).2.Mute := by
  unfold Reverb.applyAll
  generalize 0 = count
  induction queue generalizing r count with
  | nil => exact h
  | cons m queue ih => exact ih (h.update m.revise) (count + 1)

theorem Mute.configure (h : r.Mute) (hc : r.Current c) {sampleRate : Float32} {fragment : ℕ}
    {r' : Reverb Float32 Float} (hr' : r.configure sampleRate fragment = .ok r') : r'.Mute := by
  obtain ⟨e, he, -⟩ := h.engine
  obtain ⟨-, fresh, hnew, rfl⟩ := configure_eq_ok_iff.mp hr'
  rw [hc.config_eq] at hnew
  have hreset : fresh.reset = fresh := Engine.reset_of_new hc.order_ne_zero hnew
  exact ⟨⟨fresh, engine?_with he fresh, hreset ▸ Engine.mute_reset fresh⟩,
    (Block.isZero_silent fragment).channels⟩

/-- A mute reverb adds exact zeros to the output, and stays mute. -/
theorem Mute.process (h : r.Mute) (output : Block Float32) :
    (r.process output).1 = output.mix (.silent r.input.size) ∧ (r.process output).2.Mute := by
  obtain ⟨e, he, hmute⟩ := h.engine
  have htaken : ∀ s ∈ r.input.samples.take output.size, mute32.Channels s := by
    intro s hs
    obtain ⟨k, hk, rfl⟩ := Array.mem_extract_iff_getElem.mp hs
    exact h.input _ (Array.getElem_mem _)
  obtain ⟨hzero, hmute⟩ := hmute.runOver htaken
  have hsize : (r.input.samples.take output.size).size = min output.size r.input.size := by
    simp [Block.size]
  unfold Reverb.process
  rw [he]
  dsimp only
  rw [hzero, hsize]
  exact ⟨Block.mix_replicate_min output r.input.size,
    ⟨_, engine?_with he _, hmute⟩, (Block.isZero_silent r.input.size).channels⟩

/-- **Operations that put nothing in leave a reverb mute.** -/
theorem Mute.perform (h : r.Mute) (hc : r.Current c) {o : Operation Float32 Float}
    (ho : o.addsInput = false) : (o.perform r).Mute := by
  obtain ⟨e, he, -⟩ := h.engine
  cases o with
  | configure sampleRate fragment =>
    simp only [Operation.perform]
    cases hr : r.configure sampleRate fragment with
    | ok r' => exact h.configure hc hr
    | error _ => exact h
  | rederive => exact h.update id
  | update revise => exact h.update revise
  | apply m => exact h.update m.revise
  | applyAll queue => exact h.applyAll queue
  | addPointSource direction chunk gains => exact absurd ho.symm Bool.false_ne_true
  | addDiffuse chunk => exact absurd ho.symm Bool.false_ne_true
  | process output => exact (h.process output).2
  | impulseResponse n => exact mute_impulseResponse he h.input n
  | bandTimes centres => exact mute_measure he h.input _
  | broadbandTime => exact mute_measure he h.input _
  | fit options =>
    refine fitWithin_invariant (fun s revise hs => hs.update revise) (fun s hs => ?_) options h
    obtain ⟨e, he, -⟩ := hs.engine
    exact mute_measure he hs.input _

theorem Mute.performAll (h : r.Mute) (hr : Reachable c r)
    {operations : List (Operation Float32 Float)} (ho : ∀ o ∈ operations, o.addsInput = false) :
    (r.performAll operations).Mute := by
  induction operations generalizing r with
  | nil => exact h
  | cons o operations ih =>
    simp only [List.forall_mem_cons] at ho
    have hperform := h.perform (current_of_reachable hr) ho.1
    exact ih hperform (hr.steps (steps_perform r o)) ho.2

/-- **A measurement leaves silence.** A reverb in any reachable state, with zeros in its input block
but whatever is ringing in its engine, is measured. Any operations may follow that put nothing in,
among them fragments that are processed. The next fragment adds exact zeros to its output block. -/
theorem process_after_measurement (h : Reachable c r) (he : r.engine? = some e)
    (hinput : r.input.IsZero) {m : Operation Float32 Float} (hm : m.measures)
    {operations : List (Operation Float32 Float)} (ho : ∀ o ∈ operations, o.addsInput = false)
    (output : Block Float32) :
    (((m.perform r).performAll operations).process output).1 =
      output.mix (.silent ((m.perform r).performAll operations).input.size) := by
  have hmute := mute_perform_of_measures he hinput.channels hm
  exact ((hmute.performAll (h.steps (steps_perform r m)) ho).process output).1

/-- A hall with a high-pass, in which a first fragment is ringing. -/
def cutHall : Config Float32 := { smallHall with lowCut := 80 }

/-- What is asked of the hall after the measurement. Its new room is none. -/
def quietSession : List (Operation Float32 Float) :=
  [.process (.silent 16), .apply (.room ⟨0 / 0, 4, -5⟩ (0 / 0) (1 / 0)), .process (.silent 4),
    .fit .default, .configure 44100 8]

theorem process_after_measurement_cutHall :
    ∃ (r : Reverb Float32 Float) (e : Engine Float32 Float),
      (Reachable cutHall r ∧ r.engine? = some e ∧ r.input.IsZero ∧
        (Operation.impulseResponse 100 : Operation Float32 Float).measures ∧
        ∀ o ∈ quietSession, o.addsInput = false) ∧
      ((((Operation.impulseResponse 100).perform r).performAll quietSession).process
          (.silent 8)).1 =
        (Block.silent 8).mix (.silent
          (((Operation.impulseResponse 100).perform r).performAll quietSession).input.size) := by
  have hcheck : cutHall.check = .ok .shortest := by decide +kernel
  have hrate : Scalar.isFinite (48000 : Float32) ∧ (1 : Float32) ≤ 48000 := by decide +kernel
  obtain ⟨r, e, hreachable, he, hinput⟩ := exists_reachable (β := Float) hcheck hrate 16
  let piece : Block Float32 := ⟨#[.pressure 1, .pressure 2]⟩
  have hsize : piece.size ≤ 16 := by decide
  have hplay := play_eq he hinput hsize
  have hreachable : Reachable cutHall (r.play piece).2 :=
    (hreachable.step (.addDiffuse r piece)).step (.process _ _)
  have hengine : (r.play piece).2.engine? = some (runOver Engine.hear e piece.samples).2 := by
    rw [hplay]
    exact engine?_with he _
  have hzero : (r.play piece).2.input.IsZero := by
    rw [hplay]
    show r.input.IsZero
    rw [hinput]
    exact Block.isZero_silent 16
  have hquiet : ∀ o ∈ quietSession, o.addsInput = false := by
    simp [quietSession, Operation.addsInput]
  exact ⟨_, _, ⟨hreachable, hengine, hzero, rfl, hquiet⟩,
    process_after_measurement hreachable hengine hzero rfl hquiet (.silent 8)⟩

end Reverb

end AmbisonicReverb
