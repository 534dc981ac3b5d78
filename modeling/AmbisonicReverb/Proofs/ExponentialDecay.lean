import Mathlib
import AmbisonicReverb.Proofs.DecayCurve

/-!
# Decay times of exponential decays

The sound of a room dies away exponentially, and a response is cut off after some samples. What was
cut off is missing in the decay curve, which then falls faster than the sound does: a decay time is
too short rather than too long.

**Theorem (`time_exponential`).** Read exactly, a response of samples `±A * r ^ n` has no decay time
exactly if its last sample is still above the lower share. Otherwise the time is off by less than
three samples from that between the two points at which the curve, as a function of real time,
reaches the shares. It is less than three samples longer than the time in which the sound falls by
60 dB.

The curve of a cut decay is the difference of two powers (`Exponential.energyFrom_mul`). It reaches
a share where `r ^ (2 * i)` comes down to `remainder`, at the real index `Exponential.crossing`,
and the first sample after that is less than one sample late.
-/

namespace AmbisonicReverb.Decay

/-- Samples of either sign, whose magnitude falls by the factor `r` with each of them. -/
structure Exponential (A r : ℝ) (response : Array ℝ) : Prop where
  amplitude_ne : A ≠ 0
  ratio_pos : 0 < r
  ratio_lt_one : r < 1
  size_pos : 0 < response.size
  sample : ∀ n < response.size,
    response.getD n 0 = A * r ^ n ∨ response.getD n 0 = -(A * r ^ n)

/-- The energy of an endless decay from the sample on at which a decay of `length` samples is down
to a share, measured by what the endless decay has at first. -/
noncomputable def remainder (r : ℝ) (length : ℕ) (share : ℝ) : ℝ :=
  r ^ (2 * length) + share * (1 - r ^ (2 * length))

namespace Exponential

variable {A r : ℝ} {response : Array ℝ} (h : Exponential A r response)

include h

/-! ## The curve -/

theorem log_ratio_neg : Real.log r < 0 := Real.log_neg h.ratio_pos h.ratio_lt_one

theorem pow_size_pos : 0 < r ^ (2 * response.size) := pow_pos h.ratio_pos _

theorem pow_size_lt_one : r ^ (2 * response.size) < 1 := by
  have hsize := h.size_pos
  exact pow_lt_one₀ h.ratio_pos.le h.ratio_lt_one (by omega)

theorem energyFrom_mul {i : ℕ} (hi : i ≤ response.size) :
    energyFrom response i * (1 - r ^ 2) = A ^ 2 * (r ^ (2 * i) - r ^ (2 * response.size)) := by
  have hterm : ∀ k ∈ Finset.Ico i response.size, response.getD k 0 ^ 2 = A ^ 2 * (r ^ 2) ^ k := by
    intro k hk
    rcases h.sample k (Finset.mem_Ico.mp hk).2 with hsample | hsample
    · rw [hsample]
      ring
    · rw [hsample]
      ring
  unfold energyFrom
  rw [Finset.sum_congr rfl hterm, ← Finset.mul_sum, mul_assoc, geom_sum_Ico_mul_neg _ hi, pow_mul,
    pow_mul]

theorem energyFrom_zero_ne : energyFrom response 0 ≠ 0 := by
  have hlt := h.pow_size_lt_one
  have hne := h.amplitude_ne
  have htotal := h.energyFrom_mul (Nat.zero_le response.size)
  intro hzero
  rw [hzero, zero_mul, mul_zero, pow_zero] at htotal
  have hpos : 0 < A ^ 2 * (1 - r ^ (2 * response.size)) :=
    mul_pos (by positivity) (by linarith)
  exact hpos.ne htotal

theorem mem_reached_iff {share : ℝ} {i : ℕ} (hi : i < response.size) :
    i ∈ reached response share ↔ r ^ (2 * i) ≤ remainder r response.size share := by
  have hne := h.amplitude_ne
  have hamplitude : 0 < A ^ 2 := by positivity
  have hratio : 0 < 1 - r ^ 2 := by
    have hsquare := pow_lt_one₀ h.ratio_pos.le h.ratio_lt_one two_ne_zero
    linarith
  have hhere := h.energyFrom_mul hi.le
  have htotal := h.energyFrom_mul (Nat.zero_le response.size)
  rw [mul_zero, pow_zero] at htotal
  calc i ∈ reached response share
      ↔ energyFrom response i ≤ share * energyFrom response 0 := and_iff_right hi
    _ ↔ energyFrom response i * (1 - r ^ 2) ≤
          share * (energyFrom response 0 * (1 - r ^ 2)) := by
        rw [← mul_assoc, mul_le_mul_iff_left₀ hratio]
    _ ↔ A ^ 2 * (r ^ (2 * i) - r ^ (2 * response.size)) ≤
          A ^ 2 * (share * (1 - r ^ (2 * response.size))) := by
        rw [hhere, htotal, mul_left_comm]
    _ ↔ r ^ (2 * i) ≤ remainder r response.size share := by
        rw [mul_le_mul_iff_right₀ hamplitude, sub_le_iff_le_add']
        rfl

/-- The curve is lowest at the last sample: a share that is reached at all is reached there. -/
theorem reached_eq_empty_iff (share : ℝ) : reached response share = ∅ ↔
    remainder r response.size share < r ^ (2 * (response.size - 1)) := by
  have hsize := h.size_pos
  have hlast : response.size - 1 < response.size := by omega
  rw [← not_le, ← h.mem_reached_iff hlast]
  constructor
  · intro hempty hmem
    rwa [hempty] at hmem
  · intro hnot
    refine Set.eq_empty_of_forall_notMem fun i hi => hnot ⟨hlast, ?_⟩
    have hle : i ≤ response.size - 1 := Nat.le_sub_one_of_lt hi.1
    exact (energyFrom_anti hle).trans hi.2

/-! ## Crossings -/

variable {share : ℝ}

theorem remainder_pos (hshare : 0 < share) : 0 < remainder r response.size share := by
  have hlt := h.pow_size_lt_one
  exact add_pos h.pow_size_pos (mul_pos hshare (by linarith))

theorem remainder_le_one (hshare : share ≤ 1) : remainder r response.size share ≤ 1 := by
  have hlt := h.pow_size_lt_one
  have hle : share * (1 - r ^ (2 * response.size)) ≤ 1 * (1 - r ^ (2 * response.size)) :=
    mul_le_mul_of_nonneg_right hshare (by linarith)
  unfold remainder
  linarith

/-- The real index at which the curve of the decay reaches a share. -/
noncomputable def crossing (_ : Exponential A r response) (share : ℝ) : ℝ :=
  Real.logb (r ^ 2) (remainder r response.size share)

theorem crossing_eq (share : ℝ) :
    h.crossing share = Real.log (remainder r response.size share) / (2 * Real.log r) := by
  unfold crossing Real.logb
  rw [Real.log_pow, Nat.cast_ofNat]

theorem pow_le_remainder_iff (hshare : 0 < share) (i : ℕ) :
    r ^ (2 * i) ≤ remainder r response.size share ↔ h.crossing share ≤ i := by
  have hlog : 2 * Real.log r < 0 := by
    have hneg := h.log_ratio_neg
    linarith
  have hpower : Real.log (r ^ (2 * i)) = i * (2 * Real.log r) := by
    rw [Real.log_pow]
    push_cast
    ring
  rw [crossing_eq, ← Real.log_le_log_iff (pow_pos h.ratio_pos _) (h.remainder_pos hshare), hpower,
    div_le_iff_of_neg hlog]

theorem crossing_nonneg (hpos : 0 < share) (hle : share ≤ 1) : 0 ≤ h.crossing share := by
  have hlog : Real.log (remainder r response.size share) ≤ 0 :=
    Real.log_nonpos (h.remainder_pos hpos).le (h.remainder_le_one hle)
  have hneg := h.log_ratio_neg
  rw [crossing_eq]
  exact div_nonneg_of_nonpos hlog (by linarith)

/-- The first sample after the crossing comes less than one sample later. -/
theorem crossing_bounds (hpos : 0 < share) (hle : share ≤ 1) {a : ℕ}
    (ha : IsLeast (reached response share) a) :
    h.crossing share ≤ a ∧ a < h.crossing share + 1 := by
  obtain ⟨hmem, hleast⟩ := ha
  have hreached := (h.mem_reached_iff hmem.1).mp hmem
  refine ⟨(h.pow_le_remainder_iff hpos a).mp hreached, ?_⟩
  cases a with
  | zero =>
    have hnonneg := h.crossing_nonneg hpos hle
    push_cast
    linarith
  | succ k =>
    have hk : k < response.size := (Nat.lt_succ_self k).trans hmem.1
    have hbefore : ¬ h.crossing share ≤ k := by
      intro hcrossed
      have hreached := (h.pow_le_remainder_iff hpos k).mpr hcrossed
      have hlater := hleast ((h.mem_reached_iff hk).mpr hreached)
      omega
    push_cast
    linarith

/-! ## The time -/

theorem crossing_sub_crossing {upper lower : ℝ} (hupper : 0 < upper) (hlower : 0 < lower) :
    h.crossing lower - h.crossing upper =
      Real.log (remainder r response.size upper / remainder r response.size lower) /
        (-2 * Real.log r) := by
  have hlog : Real.log r ≠ 0 := h.log_ratio_neg.ne
  rw [Real.log_div (h.remainder_pos hupper).ne' (h.remainder_pos hlower).ne', crossing_eq,
    crossing_eq]
  field_simp
  ring

/-- Cutting a decay off brings the crossings closer: they are at most 20 dB of the decay apart. -/
theorem crossing_sub_crossing_le :
    h.crossing shares.lower - h.crossing shares.upper ≤ 2 * Real.log 10 / (-2 * Real.log r) := by
  have hneg := h.log_ratio_neg
  have hlower := h.remainder_pos shares_lower_pos
  have hupper := h.remainder_pos shares_upper_pos
  have hle : remainder r response.size shares.upper ≤
      100 * remainder r response.size shares.lower := by
    have hpower := h.pow_size_pos
    unfold remainder
    rw [shares_upper_eq_mul]
    linarith
  rw [h.crossing_sub_crossing shares_upper_pos shares_lower_pos]
  refine div_le_div_of_nonneg_right ?_ (by linarith)
  calc Real.log (remainder r response.size shares.upper / remainder r response.size shares.lower)
      ≤ Real.log 100 := Real.log_le_log (div_pos hupper hlower) ((div_le_iff₀ hlower).mpr hle)
    _ = Real.log (10 ^ 2) := by norm_num
    _ = 2 * Real.log 10 := by rw [Real.log_pow, Nat.cast_ofNat]

/-- The time is that between the crossings, but for less than three samples. -/
theorem abs_time_sub_lt {sampleRate : ℝ} (hrate : 0 < sampleRate) {a b : ℕ}
    (hcrosses : Crosses response a b) :
    |time response sampleRate -
      3 * (h.crossing shares.lower - h.crossing shares.upper) / sampleRate| < 3 / sampleRate := by
  have hlower := h.crossing_bounds shares_lower_pos shares_lower_lt_one.le hcrosses.second
  have hupper := h.crossing_bounds shares_upper_pos shares_upper_lt_one.le hcrosses.first
  have hspan : |((b : ℝ) - a) - (h.crossing shares.lower - h.crossing shares.upper)| < 1 := by
    rw [abs_lt]
    constructor
    · linarith
    · linarith
  rw [time_of_crosses sampleRate hcrosses, ← sub_div, ← mul_sub, abs_div, abs_mul,
    abs_of_pos hrate, abs_of_pos (three_pos : (0 : ℝ) < 3), div_lt_div_iff_of_pos_right hrate]
  linarith

theorem time_eq_neg_one_iff_reached {sampleRate : ℝ} (hrate : 0 < sampleRate) :
    time response sampleRate = -1 ↔ reached response shares.lower = ∅ := by
  rw [time_eq_neg_one_iff hrate, or_iff_right h.energyFrom_zero_ne]

end Exponential

/-- The time in which a decay falls by 60 dB, to a thousandth of its amplitude. -/
noncomputable def sixtyTime (r sampleRate : ℝ) : ℝ := Real.logb r 0.001 / sampleRate

namespace Exponential

variable {A r sampleRate : ℝ} {response : Array ℝ} (h : Exponential A r response)

include h

theorem sixtyTime_eq (sampleRate : ℝ) : sixtyTime r sampleRate =
    3 * (2 * Real.log 10 / (-2 * Real.log r)) / sampleRate := by
  have hne : Real.log r ≠ 0 := h.log_ratio_neg.ne
  have hthousandth : Real.log 0.001 = -(3 * Real.log 10) := by
    rw [show (0.001 : ℝ) = (10 ^ 3)⁻¹ by norm_num, Real.log_inv, Real.log_pow, Nat.cast_ofNat]
  unfold sixtyTime Real.logb
  rw [hthousandth]
  congr 1
  field_simp

variable (hrate : 0 < sampleRate)

include hrate

theorem rpow_sixtyTime : r ^ (sixtyTime r sampleRate * sampleRate) = 0.001 := by
  unfold sixtyTime
  rw [div_mul_cancel₀ _ hrate.ne', Real.rpow_logb h.ratio_pos h.ratio_lt_one.ne (by norm_num)]

theorem sixtyTime_nonneg : 0 ≤ sixtyTime r sampleRate := by
  have hpower : r ^ (sixtyTime r sampleRate * sampleRate) ≤ 1 := by
    rw [h.rpow_sixtyTime hrate]
    norm_num
  by_contra hneg
  have hexponent : sixtyTime r sampleRate * sampleRate < 0 :=
    mul_neg_of_neg_of_pos (not_le.mp hneg) hrate
  exact absurd hpower (not_le.mpr
    (Real.one_lt_rpow_of_pos_of_lt_one_of_neg h.ratio_pos h.ratio_lt_one hexponent))

/-- A cut decay is not overestimated by three samples or more. -/
theorem time_lt : time response sampleRate < sixtyTime r sampleRate + 3 / sampleRate := by
  have hnonneg := h.sixtyTime_nonneg hrate
  rcases time_eq_or_crosses sampleRate response with hmissing | ⟨a, b, hcrosses⟩
  · have hsamples : 0 < 3 / sampleRate := div_pos three_pos hrate
    linarith
  · have hnear := (abs_lt.mp (h.abs_time_sub_lt hrate hcrosses)).2
    have hspan : 3 * (h.crossing shares.lower - h.crossing shares.upper) / sampleRate ≤
        sixtyTime r sampleRate := by
      rw [h.sixtyTime_eq]
      exact div_le_div_of_nonneg_right
        (mul_le_mul_of_nonneg_left h.crossing_sub_crossing_le three_pos.le) hrate.le
    linarith

end Exponential

/-- **Decay times of exponential decays.** For a cut decay, with `q` the share of the energy that
was cut off, there is no decay time exactly if the last sample is above the lower share. A time is
off by less than three samples from that between the two shares on the curve. Since the shares are
20 dB apart, it is less than three samples above the time `T` in which the decay falls by 60 dB, a
factor of 1000. -/
theorem time_exponential {A r q sampleRate : ℝ} {response : Array ℝ}
    (h : Exponential A r response) (hq : q = r ^ (2 * response.size)) (hrate : 0 < sampleRate) :
    (time response sampleRate = -1 ↔
        q + shares.lower * (1 - q) < r ^ (2 * (response.size - 1))) ∧
      (time response sampleRate = -1 ∨
        |time response sampleRate -
          3 * Real.log ((q + shares.upper * (1 - q)) / (q + shares.lower * (1 - q))) /
            (-2 * Real.log r) / sampleRate| < 3 / sampleRate) ∧
      shares.upper = 100 * shares.lower ∧
      ∃ T, r ^ (T * sampleRate) = 0.001 ∧ time response sampleRate < T + 3 / sampleRate := by
  have hshare (share : ℝ) : q + share * (1 - q) = remainder r response.size share := by
    rw [hq]
    rfl
  simp only [hshare]
  refine ⟨(h.time_eq_neg_one_iff_reached hrate).trans (h.reached_eq_empty_iff _), ?_,
    shares_upper_eq_mul, sixtyTime r sampleRate, h.rpow_sixtyTime hrate, h.time_lt hrate⟩
  rcases time_eq_or_crosses sampleRate response with hmissing | ⟨a, b, hcrosses⟩
  · exact .inl hmissing
  · right
    have hnear := h.abs_time_sub_lt hrate hcrosses
    rwa [h.crossing_sub_crossing shares_upper_pos shares_lower_pos, ← mul_div_assoc] at hnear

/-- A decay by 20 dB with each sample, with samples of both signs. -/
noncomputable def alternatingDecay : Array ℝ := #[1, -0.1, -0.01, 0.001]

theorem exponential_alternatingDecay : Exponential 1 (1 / 10) alternatingDecay where
  amplitude_ne := by norm_num
  ratio_pos := by norm_num
  ratio_lt_one := by norm_num
  size_pos := by decide
  sample := by
    intro n hn
    have hn : n < 4 := hn
    interval_cases n <;> norm_num [alternatingDecay]

theorem time_exponential_alternatingDecay :
    (Exponential 1 (1 / 10) alternatingDecay ∧
        (1 / 10 : ℝ) ^ 8 = (1 / 10) ^ (2 * alternatingDecay.size) ∧ (0 : ℝ) < 8000) ∧
      time alternatingDecay 8000 ≠ -1 ∧
      ∃ T, (1 / 10 : ℝ) ^ (T * 8000) = 0.001 ∧ time alternatingDecay 8000 < T + 3 / 8000 := by
  have hrate : (0 : ℝ) < 8000 := by norm_num
  have hq : (1 / 10 : ℝ) ^ 8 = (1 / 10) ^ (2 * alternatingDecay.size) := rfl
  obtain ⟨hmissing, -, -, hsixty⟩ := time_exponential exponential_alternatingDecay hq hrate
  refine ⟨⟨exponential_alternatingDecay, hq, hrate⟩, ?_, hsixty⟩
  have hsize : alternatingDecay.size = 4 := rfl
  obtain ⟨hlow, -⟩ := shares_lower_mem
  rw [Ne, hmissing, not_lt, hsize]
  norm_num
  linarith

end AmbisonicReverb.Decay
