import Mathlib
import AmbisonicReverb.Network.Gain
import AmbisonicReverb.Proofs.Exact

/-!
# Gain laws

Each gain method looks at one pass through a network, the shortest or the average one, and lets a
sound decay exponentially with the number of such passes. The methods differ in the pass that they
look at and in the rate of the decay, so that one formula covers them (`gain_eq_exp`) and gains are
compared by their exponents (`gain_le_gain_iff`).

**Theorem (`gain_laws`).** Read exactly, the gain of every method grows with the decay time and
falls with the pass that it looks at, and the methods are ordered. `GainMethod.schroeder` is the one
that is 60 dB down after the decay time, since its rate is three times the logarithm of ten, and
this is more than the 4.2 of the others (`rate_mean_le`).
-/

namespace AmbisonicReverb.GainMethod

/-- The pass that a method looks at. -/
def pass {α : Type} (shortest average : α) : GainMethod → α
  | .shortest => shortest
  | .mean | .schroeder => average

/-- How far a sound decays, on a logarithmic scale, while it takes a whole decay time. -/
noncomputable def rate : GainMethod → ℝ
  | .shortest | .mean => 4.2
  | .schroeder => 3.0 * Real.log 10.0

theorem rate_shortest_pos : 0 < rate .shortest := by
  unfold rate
  norm_num

/-- `e ^ 4.2` is less than ten to the third. -/
theorem rate_mean_le : rate .mean ≤ rate .schroeder := by
  have hexp : Real.exp (7 / 5) ≤ 10.0 := by
    calc Real.exp (7 / 5) ≤ Real.exp (2 * 1) := Real.exp_le_exp.mpr (by norm_num)
      _ = Real.exp 1 ^ 2 := by exact_mod_cast Real.exp_nat_mul 1 2
      _ ≤ 2.7182818286 ^ 2 := by gcongr; exact Real.exp_one_lt_d9.le
      _ ≤ 10.0 := by norm_num
  have hlog : 7 / 5 ≤ Real.log 10.0 := (Real.le_log_iff_exp_le (by norm_num)).mpr hexp
  unfold rate
  linarith

theorem rate_pos (m : GainMethod) : 0 < m.rate := by
  cases m with
  | shortest => exact rate_shortest_pos
  | mean => exact rate_shortest_pos
  | schroeder => exact rate_shortest_pos.trans_le rate_mean_le

section

variable {m m' : GainMethod} {shortest average decayTime shortest' average' decayTime' : ℝ}

theorem law_eq_exp (m : GainMethod) (shortest average decayTime : ℝ) :
    m.law shortest average decayTime =
      Real.exp (-(m.rate * m.pass shortest average / decayTime)) := by
  cases m with
  | shortest =>
    show Real.exp (-4.2 * shortest / decayTime) = Real.exp (-(4.2 * shortest / decayTime))
    rw [neg_mul, neg_div]
  | mean =>
    show Real.exp (-4.2 * average / decayTime) = Real.exp (-(4.2 * average / decayTime))
    rw [neg_mul, neg_div]
  | schroeder =>
    show (10.0 : ℝ) ^ (-3.0 * average / decayTime) =
      Real.exp (-(3.0 * Real.log 10.0 * average / decayTime))
    have hten : (0 : ℝ) < 10.0 := by norm_num
    rw [Real.rpow_def_of_pos hten, neg_mul, neg_div, mul_neg, mul_div_assoc, mul_div_assoc,
      ← mul_assoc, mul_comm (Real.log 10.0)]

/-- The law needs not be brought into range. -/
theorem gain_eq_exp (hpass : 0 ≤ m.pass shortest average) (hdecay : 0 < decayTime) :
    m.gain shortest average decayTime =
      Real.exp (-(m.rate * m.pass shortest average / decayTime)) := by
  have hexponent : 0 ≤ m.rate * m.pass shortest average / decayTime :=
    div_nonneg (mul_nonneg m.rate_pos.le hpass) hdecay.le
  have hmem : Real.exp (-(m.rate * m.pass shortest average / decayTime)) ∈ Set.Icc (0 : ℝ) 1 :=
    ⟨(Real.exp_pos _).le, Real.exp_le_one_iff.mpr (neg_nonpos.mpr hexponent)⟩
  unfold gain
  simp only [Scalar.isFinite_eq, if_true, law_eq_exp]
  exact Scalar.clamp_of_mem hmem

/-- Of two gains, the one with the larger exponent is smaller. -/
theorem gain_le_gain_iff (hpass : 0 ≤ m.pass shortest average) (hdecay : 0 < decayTime)
    (hpass' : 0 ≤ m'.pass shortest' average') (hdecay' : 0 < decayTime') :
    m.gain shortest average decayTime ≤ m'.gain shortest' average' decayTime' ↔
      m'.rate * m'.pass shortest' average' / decayTime' ≤
        m.rate * m.pass shortest average / decayTime := by
  rw [gain_eq_exp hpass hdecay, gain_eq_exp hpass' hdecay', Real.exp_le_exp, neg_le_neg_iff]

theorem gain_lt_gain_iff (hpass : 0 ≤ m.pass shortest average) (hdecay : 0 < decayTime)
    (hpass' : 0 ≤ m'.pass shortest' average') (hdecay' : 0 < decayTime') :
    m.gain shortest average decayTime < m'.gain shortest' average' decayTime' ↔
      m'.rate * m'.pass shortest' average' / decayTime' <
        m.rate * m.pass shortest average / decayTime := by
  rw [gain_eq_exp hpass hdecay, gain_eq_exp hpass' hdecay', Real.exp_lt_exp, neg_lt_neg_iff]

theorem gain_mono_decayTime (hpass : 0 ≤ m.pass shortest average) (hdecay : 0 < decayTime)
    (hle : decayTime ≤ decayTime') :
    m.gain shortest average decayTime ≤ m.gain shortest average decayTime' := by
  rw [gain_le_gain_iff hpass hdecay hpass (hdecay.trans_le hle)]
  exact div_le_div_of_nonneg_left (mul_nonneg m.rate_pos.le hpass) hdecay hle

theorem gain_strictMono_decayTime (hpass : 0 < m.pass shortest average) (hdecay : 0 < decayTime)
    (hlt : decayTime < decayTime') :
    m.gain shortest average decayTime < m.gain shortest average decayTime' := by
  rw [gain_lt_gain_iff hpass.le hdecay hpass.le (hdecay.trans hlt)]
  exact div_lt_div_of_pos_left (mul_pos m.rate_pos hpass) hdecay hlt

theorem gain_anti_pass (hpass : 0 ≤ m.pass shortest average) (hdecay : 0 < decayTime)
    (hle : m.pass shortest average ≤ m.pass shortest' average') :
    m.gain shortest' average' decayTime ≤ m.gain shortest average decayTime := by
  rw [gain_le_gain_iff (hpass.trans hle) hdecay hpass hdecay]
  have hrate := m.rate_pos.le
  gcongr

theorem gain_strictAnti_pass (hpass : 0 ≤ m.pass shortest average) (hdecay : 0 < decayTime)
    (hlt : m.pass shortest average < m.pass shortest' average') :
    m.gain shortest' average' decayTime < m.gain shortest average decayTime := by
  rw [gain_lt_gain_iff (hpass.trans hlt.le) hdecay hpass hdecay]
  have hrate := m.rate_pos
  gcongr

end

/-! ## The three methods -/

/-- The gains of the three methods, in their order. -/
structure Ordered (shortest average decayTime : ℝ) : Prop where
  schroeder_pos : 0 < gain .schroeder shortest average decayTime
  schroeder_le_mean :
    gain .schroeder shortest average decayTime ≤ gain .mean shortest average decayTime
  mean_le_shortest :
    gain .mean shortest average decayTime ≤ gain .shortest shortest average decayTime
  shortest_le_one : gain .shortest shortest average decayTime ≤ 1
  /-- After as many average passes as fit into the decay time, a sound is 60 dB down. -/
  schroeder_rpow : 0 < average →
    gain .schroeder shortest average decayTime ^ (decayTime / average) = (10 : ℝ) ^ (-3 : ℤ)

/-- The gain grows with the decay time, and falls with the pass that the method looks at. -/
structure Graded (m : GainMethod) (shortest average decayTime : ℝ) : Prop where
  mono_decayTime : ∀ later, decayTime ≤ later →
    m.gain shortest average decayTime ≤ m.gain shortest average later
  strictMono_decayTime : 0 < m.pass shortest average → ∀ later, decayTime < later →
    m.gain shortest average decayTime < m.gain shortest average later
  anti_pass : ∀ shortest' average', m.pass shortest average ≤ m.pass shortest' average' →
    m.gain shortest' average' decayTime ≤ m.gain shortest average decayTime
  strictAnti_pass : ∀ shortest' average', m.pass shortest average < m.pass shortest' average' →
    m.gain shortest' average' decayTime < m.gain shortest average decayTime

variable {shortest average decayTime : ℝ}

theorem pass_nonneg (hshortest : 0 ≤ shortest) (haverage : shortest ≤ average) (m : GainMethod) :
    0 ≤ m.pass shortest average := by
  cases m with
  | shortest => exact hshortest
  | mean => exact hshortest.trans haverage
  | schroeder => exact hshortest.trans haverage

theorem ordered (hshortest : 0 ≤ shortest) (haverage : shortest ≤ average)
    (hdecay : 0 < decayTime) : Ordered shortest average decayTime := by
  have hpass := pass_nonneg hshortest haverage
  refine ⟨?_, ?_, ?_, ?_, fun hpos => ?_⟩
  · rw [gain_eq_exp (hpass .schroeder) hdecay]
    exact Real.exp_pos _
  · rw [gain_le_gain_iff (hpass .schroeder) hdecay (hpass .mean) hdecay]
    exact div_le_div_of_nonneg_right (mul_le_mul_of_nonneg_right rate_mean_le (hpass .mean))
      hdecay.le
  · rw [gain_le_gain_iff (hpass .mean) hdecay (hpass .shortest) hdecay]
    exact div_le_div_of_nonneg_right (mul_le_mul_of_nonneg_left haverage rate_shortest_pos.le)
      hdecay.le
  · rw [gain_eq_exp (hpass .shortest) hdecay, Real.exp_le_one_iff, neg_nonpos]
    exact div_nonneg (mul_nonneg rate_shortest_pos.le hshortest) hdecay.le
  · have hexponent : -(rate .schroeder * average / decayTime) * (decayTime / average) =
        Real.log 10 * (-3 : ℤ) := by
      have haverage := hpos.ne'
      have hdecay := hdecay.ne'
      unfold rate
      field_simp
      norm_num
      exact mul_comm _ _
    have hgain : gain .schroeder shortest average decayTime =
        Real.exp (-(rate .schroeder * average / decayTime)) := gain_eq_exp (hpass .schroeder) hdecay
    rw [hgain, ← Real.exp_mul, hexponent, ← Real.rpow_def_of_pos (by norm_num), Real.rpow_intCast]

theorem graded {m : GainMethod} (hpass : 0 ≤ m.pass shortest average) (hdecay : 0 < decayTime) :
    m.Graded shortest average decayTime where
  mono_decayTime _ := gain_mono_decayTime hpass hdecay
  strictMono_decayTime hpos _ := gain_strictMono_decayTime hpos hdecay
  anti_pass _ _ := gain_anti_pass hpass hdecay
  strictAnti_pass _ _ := gain_strictAnti_pass hpass hdecay

/-- **Gain laws.** For every decay time and all passes the three gains are positive, at most 1 and
in their order, and each of them grows with the decay time and falls with its own pass. -/
theorem gain_laws (hshortest : 0 ≤ shortest) (haverage : shortest ≤ average)
    (hdecay : 0 < decayTime) :
    Ordered shortest average decayTime ∧ ∀ m : GainMethod, m.Graded shortest average decayTime :=
  ⟨ordered hshortest haverage hdecay, fun m => graded (pass_nonneg hshortest haverage m) hdecay⟩

theorem gain_laws_hall :
    ((0 : ℝ) ≤ 10 ∧ (10 : ℝ) ≤ 20 ∧ (0 : ℝ) < 500) ∧
      Ordered 10 20 500 ∧ ∀ m : GainMethod, m.Graded 10 20 500 :=
  ⟨by norm_num, gain_laws (by norm_num) (by norm_num) (by norm_num)⟩

end AmbisonicReverb.GainMethod
