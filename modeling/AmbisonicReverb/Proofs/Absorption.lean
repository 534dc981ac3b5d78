import Mathlib
import AmbisonicReverb.Block
import AmbisonicReverb.Proofs.Exact
import AmbisonicReverb.Proofs.Process

/-!
# What reflections absorb

A reflection filters each channel by itself, and each channel keeps a balance of energy. What the
registers hold back of it is `Reflection.held`: the lowpass holds a share of its last output, and
the allpass only what its last input and output differ by, so that its two registers count as one.

**Theorem (`response_energy_le`).** After any number of samples from silence, no channel has given
off more than `g²` times the energy that it was given. Without damping and with gain 1, what it was
given and has not given off is held by the allpass.

Each step is balanced exactly (`filter_balance`): the allpass loses nothing, and the lowpass loses
what its input and its last output differ by. The balance of a run is the sum of those of its steps
(`run_balance`).
-/

namespace AmbisonicReverb

open Finset

/-! ## Channels -/

instance : Fintype Channel where
  elems := ⟨([.w, .y, .z, .x] : List Channel), by decide⟩
  complete a := by cases a <;> decide

namespace Sample

section

variable {α : Type}

/-- One channel of a sample. -/
def channel (s : Sample α) : Channel → α
  | .w => s.w
  | .y => s.y
  | .z => s.z
  | .x => s.x

theorem ext_channel {s t : Sample α} (h : ∀ a, s.channel a = t.channel a) : s = t :=
  eq_of_channels (h .w) (h .x) (h .y) (h .z)

variable [Scalar α] (s t : Sample α) (g : α) (a : Channel)

@[simp] theorem channel_zero : (0 : Sample α).channel a = 0 := by cases a <;> rfl

@[simp] theorem channel_add : (s + t).channel a = s.channel a + t.channel a := by cases a <;> rfl

@[simp] theorem channel_sub : (s - t).channel a = s.channel a - t.channel a := by cases a <;> rfl

@[simp] theorem channel_mul : (s * g).channel a = s.channel a * g := by cases a <;> rfl

@[simp] theorem channel_flush : s.flush.channel a = Scalar.flush (s.channel a) := by cases a <;> rfl

end

theorem energy_eq_sum (s : Sample ℝ) : s.energy = ∑ a, s.channel a ^ 2 := by
  have hsum : ∑ a, s.channel a ^ 2 = s.w ^ 2 + (s.y ^ 2 + (s.z ^ 2 + (s.x ^ 2 + 0))) := rfl
  rw [energy_eq, hsum]
  ring

end Sample

/-! ## Steps of a filter -/

namespace Reflection

section

variable {α : Type} [Scalar α] (f : Reflection α) (s : Sample α) (a : Channel)

theorem channel_lowpass_filter :
    (f.filter s).2.lowpass.channel a =
      Scalar.flush (s.channel a * f.b1 - f.lowpass.channel a * f.a2) := by
  simp [filter]

/-- The allpass is fed by the lowpass. -/
theorem allpassIn_filter : (f.filter s).2.allpassIn = (f.filter s).2.lowpass := rfl

theorem allpassOut_filter : (f.filter s).2.allpassOut = (f.filter s).1 := rfl

theorem channel_filter :
    (f.filter s).1.channel a =
      Scalar.flush ((f.filter s).2.lowpass.channel a * f.eta + f.allpassIn.channel a -
        f.allpassOut.channel a * f.eta) := by
  simp [filter]

theorem after_coefficients (v : Nat → Sample α) (t : Nat) :
    (f.after v t).b1 = f.b1 ∧ (f.after v t).a2 = f.a2 ∧ (f.after v t).eta = f.eta := by
  induction t with
  | zero => exact ⟨rfl, rfl, rfl⟩
  | succ t ih => exact ih

end

/-- The filter has gain `g` and damping `c`, and an allpass that is stable. -/
structure Tuned (g c : ℝ) (f : Reflection ℝ) : Prop where
  b1_eq : f.b1 = g * (1 - c)
  a2_eq : f.a2 = -c
  damping_nonneg : 0 ≤ c
  damping_lt : c < 1
  eta_sq_lt : f.eta ^ 2 < 1

/-- The energy that a channel of the filter can give off, for damping `c`. -/
noncomputable def held (c : ℝ) (f : Reflection ℝ) (a : Channel) : ℝ :=
  c / (1 - c) * f.lowpass.channel a ^ 2 +
    (f.allpassIn.channel a - f.eta * f.allpassOut.channel a) ^ 2 / (1 - f.eta ^ 2)

/-- The energy that a channel of the lowpass loses when a sample comes in. -/
noncomputable def lost (g c : ℝ) (f : Reflection ℝ) (s : Sample ℝ) (a : Channel) : ℝ :=
  c * (g * s.channel a - f.lowpass.channel a) ^ 2

variable {g c : ℝ} {f : Reflection ℝ}

theorem Tuned.after (h : f.Tuned g c) (v : Nat → Sample ℝ) (t : Nat) : (f.after v t).Tuned g c := by
  obtain ⟨hb1, ha2, heta⟩ := f.after_coefficients v t
  exact ⟨hb1 ▸ h.b1_eq, ha2 ▸ h.a2_eq, h.damping_nonneg, h.damping_lt, heta ▸ h.eta_sq_lt⟩

theorem held_nonneg (h : f.Tuned g c) (a : Channel) : 0 ≤ f.held c a := by
  have hc : 0 ≤ c / (1 - c) := div_nonneg h.damping_nonneg (sub_nonneg.mpr h.damping_lt.le)
  have hη : 0 ≤ 1 - f.eta ^ 2 := sub_nonneg.mpr h.eta_sq_lt.le
  exact add_nonneg (mul_nonneg hc (sq_nonneg _)) (div_nonneg (sq_nonneg _) hη)

theorem lost_nonneg (h : f.Tuned g c) (s : Sample ℝ) (a : Channel) : 0 ≤ f.lost g c s a :=
  mul_nonneg h.damping_nonneg (sq_nonneg _)

/-- What a channel gives off, holds and loses is `g²` times what it takes, and what it held. -/
theorem filter_balance (h : f.Tuned g c) (s : Sample ℝ) (a : Channel) :
    (f.filter s).1.channel a ^ 2 + (f.filter s).2.held c a + f.lost g c s a =
      g ^ 2 * s.channel a ^ 2 + f.held c a := by
  have hc : 1 - c ≠ 0 := (sub_pos.mpr h.damping_lt).ne'
  have hη : 1 - f.eta ^ 2 ≠ 0 := (sub_pos.mpr h.eta_sq_lt).ne'
  let x : ℝ := s.channel a
  let last : ℝ := f.lowpass.channel a
  let low : ℝ := x * (g * (1 - c)) - last * -c
  let u : ℝ := f.allpassIn.channel a
  let y : ℝ := f.allpassOut.channel a
  let out : ℝ := low * f.eta + u - y * f.eta
  have hlow : (f.filter s).2.lowpass.channel a = low := by
    rw [channel_lowpass_filter, Scalar.flush_eq, h.b1_eq, h.a2_eq]
  have hout : (f.filter s).1.channel a = out := by
    rw [channel_filter, Scalar.flush_eq, hlow]
  have hlowpass : low ^ 2 + c / (1 - c) * low ^ 2 + c * (g * x - last) ^ 2 =
      g ^ 2 * x ^ 2 + c / (1 - c) * last ^ 2 := by
    simp only [low]
    field
  have hallpass : out ^ 2 + (low - f.eta * out) ^ 2 / (1 - f.eta ^ 2) =
      low ^ 2 + (u - f.eta * y) ^ 2 / (1 - f.eta ^ 2) := by
    simp only [out]
    field
  have hheld : (f.filter s).2.held c a =
      c / (1 - c) * low ^ 2 + (low - f.eta * out) ^ 2 / (1 - f.eta ^ 2) := by
    unfold held
    rw [allpassIn_filter, allpassOut_filter, hlow, hout]
    rfl
  rw [hout, hheld]
  show out ^ 2 + (c / (1 - c) * low ^ 2 + (low - f.eta * out) ^ 2 / (1 - f.eta ^ 2)) +
      c * (g * x - last) ^ 2 =
    g ^ 2 * x ^ 2 + (c / (1 - c) * last ^ 2 + (u - f.eta * y) ^ 2 / (1 - f.eta ^ 2))
  linarith

/-! ## Runs -/

/-- The balance of a run is that of all its steps. -/
theorem run_balance (h : f.Tuned g c) (v : Nat → Sample ℝ) (a : Channel) (N : Nat) :
    ∑ t ∈ range N, (f.response v t).channel a ^ 2 + (f.after v N).held c a +
        ∑ t ∈ range N, (f.after v t).lost g c (v t) a =
      g ^ 2 * ∑ t ∈ range N, (v t).channel a ^ 2 + f.held c a := by
  induction N with
  | zero => simp [after]
  | succ N ih =>
    have hstep : (f.response v N).channel a ^ 2 + (f.after v (N + 1)).held c a +
        (f.after v N).lost g c (v N) a =
          g ^ 2 * (v N).channel a ^ 2 + (f.after v N).held c a :=
      filter_balance (h.after v N) (v N) a
    rw [sum_range_succ, sum_range_succ, sum_range_succ, mul_add]
    linarith

theorem sum_response_le (h : f.Tuned g c) (v : Nat → Sample ℝ) (a : Channel) (N : Nat) :
    ∑ t ∈ range N, (f.response v t).channel a ^ 2 ≤
      g ^ 2 * ∑ t ∈ range N, (v t).channel a ^ 2 + f.held c a := by
  have hlost : 0 ≤ ∑ t ∈ range N, (f.after v t).lost g c (v t) a :=
    sum_nonneg fun t _ => lost_nonneg (h.after v t) (v t) a
  linarith [run_balance h v a N, held_nonneg (h.after v N) a]

/-- Silent registers hold nothing. -/
theorem held_reset (c : ℝ) (f : Reflection ℝ) (a : Channel) : f.reset.held c a = 0 := by
  unfold held reset
  simp only [Sample.channel_zero]
  show c / (1 - c) * (0 : ℝ) ^ 2 + (0 - f.eta * 0) ^ 2 / (1 - f.eta ^ 2) = 0
  ring

/-- Without damping the allpass alone holds energy. -/
theorem held_zero (f : Reflection ℝ) (a : Channel) :
    f.held 0 a =
      (f.allpassIn.channel a - f.eta * f.allpassOut.channel a) ^ 2 / (1 - f.eta ^ 2) := by
  unfold held
  rw [zero_div, zero_mul, zero_add]

/-- The filter set anew. The allpass coefficient can be set first or last. -/
def tune {α : Type} [Scalar α] (f : Reflection α) (gain damping eta : α) : Reflection α :=
  (f.setEta eta).setLowpass gain damping

variable {η : ℝ}

theorem tuned_tune (g : ℝ) (f : Reflection ℝ) (hlow : 0 ≤ c) (hhigh : c < 1) (heta : |η| < 1) :
    (f.tune g c η).Tuned g c :=
  ⟨rfl, rfl, hlow, hhigh, (sq_lt_one_iff_abs_lt_one η).mpr heta⟩

/-- **Reflections absorb.** After any number of samples from silence, a channel has given off at
most `g²` times the energy of its input. With gain 1 and without damping, the allpass holds what is
left of that energy. -/
theorem response_energy_le (f : Reflection ℝ) (hlow : 0 ≤ c) (hhigh : c < 1) (heta : |η| < 1)
    (v : Nat → Sample ℝ) (N : Nat) (a : Channel) :
    ∑ t ∈ range N, ((f.tune g c η).response v t).channel a ^ 2 ≤
        g ^ 2 * ∑ t ∈ range N, (v t).channel a ^ 2 ∧
      ∑ t ∈ range N, ((f.tune 1 0 η).response v t).channel a ^ 2 +
          (((f.tune 1 0 η).after v N).allpassIn.channel a -
            η * ((f.tune 1 0 η).after v N).allpassOut.channel a) ^ 2 / (1 - η ^ 2) =
        ∑ t ∈ range N, (v t).channel a ^ 2 := by
  have hsilent : ∀ g c : ℝ, (f.tune g c η).held c a = 0 := fun g c => held_reset c (f.tune g c η) a
  constructor
  · have hle := sum_response_le (tuned_tune g f hlow hhigh heta) v a N
    rwa [hsilent, add_zero] at hle
  · let lossless : Reflection ℝ := f.tune 1 0 η
    have htuned : lossless.Tuned 1 0 := tuned_tune 1 f (le_refl 0) one_pos heta
    have hbalance := run_balance htuned v a N
    have hlost : ∑ t ∈ range N, (lossless.after v t).lost 1 0 (v t) a = 0 :=
      sum_eq_zero fun t _ => zero_mul _
    have hη : (lossless.after v N).eta = η := (lossless.after_coefficients v N).2.2
    rwa [hlost, hsilent, held_zero, hη, one_pow, one_mul, add_zero, add_zero] at hbalance

/-- A rising pressure through a damped wall, and through one that keeps all. -/
theorem response_energy_le_ramp :
    ((0 : ℝ) ≤ 1 / 2 ∧ (1 / 2 : ℝ) < 1 ∧ |(-1 / 2 : ℝ)| < 1) ∧
      ∑ t ∈ range 8, ((silent.tune (1 / 3) (1 / 2) (-1 / 2)).response
          (fun t => Sample.pressure (t : ℝ)) t).channel .w ^ 2 ≤
        (1 / 3) ^ 2 * ∑ t ∈ range 8, (Sample.pressure (t : ℝ)).channel .w ^ 2 ∧
      ∑ t ∈ range 8, ((silent.tune 1 0 (-1 / 2)).response
          (fun t => Sample.pressure (t : ℝ)) t).channel .w ^ 2 +
          (((silent.tune 1 0 (-1 / 2)).after
              (fun t => Sample.pressure (t : ℝ)) 8).allpassIn.channel .w -
            -1 / 2 * ((silent.tune 1 0 (-1 / 2)).after
              (fun t => Sample.pressure (t : ℝ)) 8).allpassOut.channel .w) ^ 2 /
              (1 - (-1 / 2) ^ 2) =
        ∑ t ∈ range 8, (Sample.pressure (t : ℝ)).channel .w ^ 2 := by
  have hlow : (0 : ℝ) ≤ 1 / 2 := by norm_num
  have hhigh : (1 / 2 : ℝ) < 1 := by norm_num
  have heta : |(-1 / 2 : ℝ)| < 1 := by norm_num [abs_lt]
  exact ⟨⟨hlow, hhigh, heta⟩,
    response_energy_le silent hlow hhigh heta (fun t => Sample.pressure (t : ℝ)) 8 .w⟩

end Reflection

end AmbisonicReverb
