import Mathlib
import AmbisonicReverb.Proofs.Fragments
import AmbisonicReverb.Proofs.SignedZero

/-!
# The measured path is the audible path

An impulse response is taken on the engine itself, and not through the blocks, the input gain and
the high-pass that a signal passes. A fit to measured decay times makes sense only if both are the
same sound.

**Theorem (`impulseResponse_eq_playAll`).** On a freshly configured reverb without a high-pass, an
impulse that the input gain takes to 1, played in fragments of any sizes, is heard as the impulse
response, number for number.

The blocks add each sample to a zero twice, on the way in and on the way out. That changes nothing
but the negative zero, which is neither a factor of 1 nor a sum that began at zero
(`Engine.unsigned_tick`).
-/

namespace AmbisonicReverb

namespace Engine

section

variable {α β : Type} [Elementary α] [Elementary β] [Widening α β] {e : Engine α β}

theorem hear_eq (h : e.lowCut = none) (s : Sample α) :
    e.hear s = (0 + (e.tick ((0 + s) * e.inputGain)).1, (e.tick ((0 + s) * e.inputGain)).2) := by
  unfold hear step applyLowCut
  rw [h]

/-- A silent engine that hears an impulse goes through the states of a measurement. -/
theorem hear_measured (hlowCut : e.lowCut = none) {v : ℕ → Sample α}
    (hv : ∀ i, (0 + v i) * e.inputGain = impulse i) (i : ℕ) :
    (e.measured i).hear (v i) =
      (0 + ((e.measured i).tick (impulse i)).1, e.measured (i + 1)) := by
  have hrest := rest_measured e i
  have hgain : (e.measured i).rest.inputGain = e.rest.inputGain := by rw [hrest]
  have hgain : (e.measured i).inputGain = e.inputGain := hgain
  have hnone : (e.measured i).lowCut = none := by
    have hmap : (e.measured i).rest.lowCut = e.rest.lowCut := by rw [hrest]
    unfold rest at hmap
    rw [hlowCut] at hmap
    exact Option.map_eq_none_iff.mp hmap
  rw [hear_eq hnone, hgain, hv]
  rfl

theorem course_hear_eq (hsilent : e.reset = e) (hlowCut : e.lowCut = none) {v : ℕ → Sample α}
    (hv : ∀ i, (0 + v i) * e.inputGain = impulse i) (i : ℕ) :
    course hear e v i = e.measured i := by
  induction i with
  | zero => exact hsilent.symm
  | succ i ih =>
    show ((course hear e v i).hear (v i)).2 = _
    rw [ih, hear_measured hlowCut hv]

omit [Widening α β] in
theorem output_measured (e : Engine α β) (i : ℕ) : (e.measured i).feedback.output = 0 := by
  cases i with
  | zero => rfl
  | succ i =>
    show (((e.measured i).tick (impulse i)).2).feedback.output = 0
    rw [tick_eq]
    rfl

end

/-- What comes out of an engine is a sum from zero on, or silence. -/
theorem unsigned_tick {e : Engine Float32 Float} (h : e.feedback.output = 0)
    (s : Sample Float32) : Unsigned (e.tick s).1.w := by
  have hintake : (e.intake s).2.output = 0 := by
    unfold intake
    split_ifs
    · exact h
    · exact h
  have hprocessed : Unsigned (e.processed s).output.w := by
    unfold processed
    rw [Network.process_output, hintake]
    exact unsigned_foldl _ unsigned_zero
  rw [tick_eq]
  dsimp only
  split_ifs
  · exact hprocessed
  · exact unsigned_zero

/-- The gain of the input takes the impulse that is played to the one that is measured. -/
theorem impulse_of_mul_eq_one {room : Room Float32} {a : Float32}
    (h : a * room.inputGain = binary32One) (i : ℕ) :
    (0 + if i = 0 then Sample.pressure a else 0) * room.inputGain = impulse i := by
  obtain ⟨hfinite, hnonneg⟩ := inputGain_bounds room
  have hzero : (binary32Zero + binary32Zero) * room.inputGain = binary32Zero := by
    rw [zero_add_of_unsigned unsigned_zero]
    exact zero_mul_eq_zero hfinite hnonneg fun s => (unpack_ne_zero_of_mul_eq_one h s).2
  have hone : (binary32Zero + a) * room.inputGain = binary32One := by
    rw [zero_add_of_unsigned (unpack_ne_zero_of_mul_eq_one h .negative).1, h]
  unfold impulse
  split_ifs
  · exact Sample.eq_of_channels hone hzero hzero hzero
  · exact Sample.eq_of_channels hzero hzero hzero hzero

/-- What the input of a new engine goes through, if the configuration asks for no high-pass. -/
theorem input_of_new {c : Config Float32} (hc : c.order ≠ 0) {method : GainMethod}
    {sampleRate : Float32} {e : Engine Float32 Float}
    (h : Engine.new c method sampleRate (.ofConfig c) = .ok e)
    (hlowCut : c.lowCut ≤ binary32Zero) : e.inputGain = c.room.inputGain ∧ e.lowCut = none := by
  have hnone : ¬ binary32Zero < c.lowCut := by
    intro hlt
    exact absurd (binary32_le_iff.mp hlowCut).2 (not_le.mpr (binary32_lt_iff.mp hlt).2)
  obtain ⟨stage, feedback, capacity, rfl⟩ := exists_eq_derive_of_new hc h
  exact ⟨rfl, if_neg hnone⟩

end Engine

namespace Reverb

/-- **The measured path is the audible path.** A reverb is made and configured for any sample rate
and fragment length, without a high-pass. An impulse of pressure whose product with the input gain
is 1, followed by silence and played in fragments of any sizes, is heard on the pressure as the
impulse response, whatever its length. -/
theorem impulseResponse_eq_playAll {c : Config Float32} (hlowCut : c.lowCut ≤ binary32Zero)
    {start r : Reverb Float32 Float} (hnew : Reverb.new c = .ok start) {sampleRate : Float32}
    {fragment : ℕ} (hconfigure : start.configure sampleRate fragment = .ok r) {a : Float32}
    (ha : a * c.room.inputGain = binary32One) {n : ℕ} {pieces : List (Block Float32)}
    (hcut : Block.Cut fragment
      (Array.ofFn fun i : Fin n => if i.val = 0 then .pressure a else 0) pieces) :
    (r.impulseResponse n).1 = some ((r.playAll pieces).1.map Sample.w) := by
  obtain ⟨e, he, hsilent, hengine, hinput⟩ := configure_new hnew hconfigure
  obtain ⟨hgain, hnone⟩ := Engine.input_of_new (current_new hnew).order_ne_zero he hlowCut
  let v (i : ℕ) : Sample Float32 := if i = 0 then .pressure a else 0
  have himpulse : ∀ i, (0 + v i) * e.inputGain = Engine.impulse i := by
    intro i
    rw [hgain]
    exact Engine.impulse_of_mul_eq_one ha i
  rw [impulseResponse_eq hengine, Engine.impulseResponse_eq,
    playAll_eq hengine hinput hcut.size_le, hcut.join_eq]
  show some _ = some ((runOver Engine.hear e (Array.ofFn fun i : Fin n => v i)).1.map Sample.w)
  rw [runOver_ofFn, Array.map_ofFn]
  refine congrArg (fun f => some (Array.ofFn f)) (funext fun i => ?_)
  show _ = ((course Engine.hear e v i).hear (v i)).1.w
  rw [Engine.course_hear_eq hsilent hnone himpulse, Engine.hear_measured hnone himpulse]
  exact (zero_add_of_unsigned (Engine.unsigned_tick (Engine.output_measured e i) _)).symm

/-- A hall whose input gain is a half. -/
def cubicHall : Config Float32 := { smallHall with room := ⟨4, 4, 4⟩ }

/-- Two fragments of an impulse that the gain takes to 1. -/
def impulseCut : List (Block Float32) := [⟨#[.pressure 2, 0]⟩, ⟨#[0]⟩]

theorem impulseResponse_eq_playAll_cubicHall : ∃ start r : Reverb Float32 Float,
    (cubicHall.lowCut ≤ binary32Zero ∧ Reverb.new cubicHall = .ok start ∧
      start.configure 48000 2 = .ok r ∧ 2 * cubicHall.room.inputGain = binary32One ∧
      Block.Cut 2 (Array.ofFn fun i : Fin 3 => if i.val = 0 then .pressure 2 else 0) impulseCut) ∧
      (r.impulseResponse 3).1 = some ((r.playAll impulseCut).1.map Sample.w) := by
  have hlowCut : cubicHall.lowCut ≤ binary32Zero := by decide +kernel
  have hcheck : cubicHall.check = .ok .shortest := by decide +kernel
  have hgain : 2 * cubicHall.room.inputGain = binary32One := by decide +kernel
  have hrate : Scalar.isFinite (48000 : Float32) ∧ (1 : Float32) ≤ 48000 := by decide +kernel
  have hcut : Block.Cut 2 (Array.ofFn fun i : Fin 3 => if i.val = 0 then .pressure 2 else 0)
      impulseCut := by
    refine ⟨?_, rfl⟩
    simp [impulseCut, Block.size]
  obtain ⟨start, hnew⟩ : ∃ start : Reverb Float32 Float, Reverb.new cubicHall = .ok start := by
    unfold new
    rw [hcheck]
    exact ⟨_, rfl⟩
  obtain ⟨r, hconfigure⟩ := exists_configure hnew hrate 2
  exact ⟨start, r, ⟨hlowCut, hnew, hconfigure, hgain, hcut⟩,
    impulseResponse_eq_playAll hlowCut hnew hconfigure hgain hcut⟩

end Reverb

end AmbisonicReverb
