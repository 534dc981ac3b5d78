import AmbisonicReverb.Proofs.Energy
import AmbisonicReverb.Proofs.Spacing

/-!
# The order of delays

With exact arithmetic the delays of a design are in order. Both delay laws run from the shortest
time to the longest as the index of the path grows, rounding and clamping keep the order, and the
mode of a network shifts all delays by the same amount.

**Theorem (`delays_ordered`).** A derivation gives later paths longer delays, or equal ones. In a
feedback network, longer end points do not make any delay shorter.

The geometric law in the form `a * (b / a) ^ f` divides by the shortest time, and does not show that
it grows with it. In the form `a ^ (1 - f) * b ^ f` it does (`geometric_eq`).
-/

namespace AmbisonicReverb

/-! ## Laws between two times -/

namespace DelayLaw

/-- The time between `a` and `b` at a fraction of the way. -/
noncomputable def timeAt (a b f : ℝ) : DelayLaw → ℝ
  | .geometric => a * (b / a) ^ f
  | .squareRoot => a + (b - a) * √f

variable {a b f : ℝ} (law : DelayLaw)

theorem timeAt_zero (a b : ℝ) : law.timeAt a b 0 = a := by
  cases law <;> simp [timeAt]

theorem timeAt_one (ha : 0 < a) (b : ℝ) : law.timeAt a b 1 = b := by
  cases law with
  | geometric =>
    have hne : a ≠ 0 := ha.ne'
    simp only [timeAt, Real.rpow_one]
    field_simp
  | squareRoot => simp [timeAt]

theorem timeAt_mono (ha : 0 < a) (hab : a ≤ b) {g : ℝ} (hfg : f ≤ g) :
    law.timeAt a b f ≤ law.timeAt a b g := by
  cases law with
  | geometric =>
    have hratio : 1 ≤ b / a := (one_le_div ha).mpr hab
    exact mul_le_mul_of_nonneg_left (Real.rpow_le_rpow_of_exponent_le hratio hfg) ha.le
  | squareRoot =>
    have hspan : 0 ≤ b - a := sub_nonneg.mpr hab
    have hroot : √f ≤ √g := Real.sqrt_le_sqrt hfg
    exact add_le_add_right (mul_le_mul_of_nonneg_left hroot hspan) a

/-- The geometric law as a mean of both ends. -/
theorem geometric_eq (ha : 0 < a) (hb : 0 < b) (f : ℝ) :
    a * (b / a) ^ f = a ^ (1 - f) * b ^ f := by
  have hpow : a ^ f ≠ 0 := (Real.rpow_pos_of_pos ha f).ne'
  calc a * (b / a) ^ f
      = a * (b ^ f / a ^ f) := by rw [Real.div_rpow hb.le ha.le]
    _ = a / a ^ f * b ^ f := by ring
    _ = a ^ (1 - f) * b ^ f := by rw [Real.rpow_sub ha, Real.rpow_one]

/-- The square-root law as a mean of both ends. -/
theorem squareRoot_eq (a b f : ℝ) : a + (b - a) * √f = (1 - √f) * a + √f * b := by
  ring

/-- A time grows with both ends. -/
theorem timeAt_mono_ends (ha : 0 < a) (hb : 0 < b) {a' b' : ℝ} (haa : a ≤ a') (hbb : b ≤ b')
    (hf : f ∈ Set.Icc 0 1) : law.timeAt a b f ≤ law.timeAt a' b' f := by
  obtain ⟨hzero, hone⟩ := hf
  cases law with
  | geometric =>
    have hleft : a ^ (1 - f) ≤ a' ^ (1 - f) := Real.rpow_le_rpow ha.le haa (by linarith)
    have hright : b ^ f ≤ b' ^ f := Real.rpow_le_rpow hb.le hbb hzero
    simp only [timeAt]
    rw [geometric_eq ha hb, geometric_eq (ha.trans_le haa) (hb.trans_le hbb)]
    exact mul_le_mul hleft hright (Real.rpow_nonneg hb.le f) (Real.rpow_nonneg (ha.le.trans haa) _)
  | squareRoot =>
    have hroot : √f ≤ 1 := Real.sqrt_le_one.mpr hone
    simp only [timeAt]
    rw [squareRoot_eq, squareRoot_eq]
    gcongr

end DelayLaw

/-! ## Times and delays of a design -/

namespace NetworkDesign

theorem fraction_eq {order : ℕ} (h : 1 < order) (k : ℕ) :
    (fraction order k : ℝ) = k / (order - 1) := if_pos h

theorem fraction_zero {order : ℕ} (h : 1 < order) : (fraction order 0 : ℝ) = 0 := by
  simp [fraction_eq h]

theorem fraction_last {order : ℕ} (h : 1 < order) : (fraction order (order - 1) : ℝ) = 1 := by
  have hlt : (1 : ℝ) < order := by exact_mod_cast h
  have hne : (order : ℝ) - 1 ≠ 0 := by linarith
  rw [fraction_eq h, Nat.cast_sub h.le, Nat.cast_one, div_self hne]

theorem fraction_mono {order j k : ℕ} (h : 1 < order) (hjk : j ≤ k) :
    (fraction order j : ℝ) ≤ fraction order k := by
  have hlt : (1 : ℝ) < order := by exact_mod_cast h
  have hle : (j : ℝ) ≤ k := by exact_mod_cast hjk
  rw [fraction_eq h, fraction_eq h]
  exact div_le_div_of_nonneg_right hle (by linarith)

/-- The time rounded to the nearest number of samples, half up. -/
theorem roundToNat_eq (t : ℝ) : Elementary.roundToNat t = ⌊t + 1 / 2⌋₊ := rfl

/-- A time, rounded and clamped to the delays below a bound. -/
noncomputable def clampedDelay (maxDelay : ℕ) (t : ℝ) : ℕ :=
  max 2 (min (Elementary.roundToNat t) (maxDelay - 1))

theorem clampedDelay_mono (maxDelay : ℕ) : Monotone (clampedDelay maxDelay) := by
  intro t t' h
  have hround : Elementary.roundToNat t ≤ Elementary.roundToNat t' := by
    rw [roundToNat_eq, roundToNat_eq]
    exact Nat.floor_le_floor (by linarith)
  exact max_le_max_left 2 (min_le_min_right _ hround)

/-- The delay of a path is the time that the law gives it. -/
theorem pathDelay_eq {order : ℕ} (h : 1 < order) (d : NetworkDesign ℝ) (law : DelayLaw)
    (maxDelay k : ℕ) :
    d.pathDelay law maxDelay order k =
      clampedDelay maxDelay (law.timeAt d.shortest d.longest (fraction order k)) := by
  have htime : d.pathTime law order k = law.timeAt d.shortest d.longest (fraction order k) := by
    unfold pathTime
    rw [if_neg h.ne']
    cases law <;> rfl
  unfold pathDelay
  rw [htime]
  rfl

end NetworkDesign

/-! ## Delays of a network -/

namespace Network

open NetworkDesign

/-- The base delays run from the shortest time to the longest, and the delays are in their order. -/
structure Rising (n : Network ℝ) (d : NetworkDesign ℝ) : Prop where
  spaced : n.Spaced d (n.baseDelay d)
  first : n.baseDelay d 0 = clampedDelay n.maxDelay d.shortest
  last : n.baseDelay d (n.order - 1) = clampedDelay n.maxDelay d.longest
  mono : ∀ (j k delay delay' : ℕ), j ≤ k → (n.derive d).delays[j]? = some delay →
    (n.derive d).delays[k]? = some delay' → delay ≤ delay'

variable {n : Network ℝ} {d d' : NetworkDesign ℝ}

theorem Roomy.rising (h : n.Roomy) (horder : 1 < n.order) (hpos : 0 < d.shortest)
    (hle : d.shortest ≤ d.longest) : n.Rising d := by
  have hbase : ∀ k, n.baseDelay d k =
      clampedDelay n.maxDelay (n.law.timeAt d.shortest d.longest (fraction n.order k)) :=
    pathDelay_eq horder d n.law n.maxDelay
  refine ⟨h.spaced d, ?_, ?_, ?_⟩
  · rw [hbase, fraction_zero horder, DelayLaw.timeAt_zero]
  · rw [hbase, fraction_last horder, DelayLaw.timeAt_one _ hpos]
  · intro j k delay delay' hjk hj hk
    have hmono : n.baseDelay d j ≤ n.baseDelay d k := by
      rw [hbase, hbase]
      apply clampedDelay_mono
      exact DelayLaw.timeAt_mono _ hpos hle (fraction_mono horder hjk)
    have hdistance := (h.spaced d).distance j k delay delay' hj hk
    omega

/-- Later end points do not make a delay of a feedback network shorter. -/
theorem Roomy.delays_mono_ends (h : n.Roomy) (horder : 1 < n.order) (hmode : n.mode = .feedback)
    (hpos : 0 < d.shortest) (hpos' : 0 < d.longest) (hshortest : d.shortest ≤ d'.shortest)
    (hlongest : d.longest ≤ d'.longest) {k delay delay' : ℕ}
    (hd : (n.derive d).delays[k]? = some delay) (hd' : (n.derive d').delays[k]? = some delay') :
    delay ≤ delay' := by
  have hk : k < n.order := by
    obtain ⟨hk, -⟩ := Array.getElem?_eq_some_iff.mp hd
    rwa [show (n.derive d).delays.size = n.order from Array.size_map.trans (order_derive n d)] at hk
  rw [(h.spaced d).feedback hmode k hk] at hd
  rw [(h.spaced d').feedback hmode k hk] at hd'
  obtain rfl := Option.some.inj hd
  obtain rfl := Option.some.inj hd'
  unfold baseDelay
  rw [pathDelay_eq horder, pathDelay_eq horder]
  apply clampedDelay_mono
  exact DelayLaw.timeAt_mono_ends _ hpos hpos' hshortest hlongest (fraction_mem hk)

/-- **Delays are in order.** A network of two or more paths, whatever happened to it, gets delays
from a design that rise from the shortest time to the longest. In a feedback network they also rise
with both times. -/
theorem delays_ordered {order : ℕ} (h : 2 ≤ order) (maxDelay : ℕ) (law : DelayLaw)
    (method : GainMethod) (mode : Mode) :
    ∃ start : Network ℝ, new order maxDelay law method mode = .ok start ∧
      ∀ (moves : List (Move ℝ)) (d : NetworkDesign ℝ), 0 < d.shortest → d.shortest ≤ d.longest →
        (start.applyAll moves).order = order ∧
        (start.applyAll moves).maxDelay = max maxDelay leastMaxDelay ∧
        (start.applyAll moves).mode = mode ∧
        (start.applyAll moves).Rising d ∧
        (mode = .feedback → ∀ d' : NetworkDesign ℝ, d.shortest ≤ d'.shortest →
          d'.shortest ≤ d'.longest → d.longest ≤ d'.longest → ∀ (k delay delay' : ℕ),
            ((start.applyAll moves).derive d).delays[k]? = some delay →
            ((start.applyAll moves).derive d').delays[k]? = some delay' → delay ≤ delay') := by
  obtain ⟨start, hnew, horder, hmax, hmode, hroomy⟩ :=
    exists_roomy_new (α := ℝ) (show 0 < order by omega) maxDelay law method mode
  refine ⟨start, hnew, fun moves d hpos hle => ?_⟩
  have hroomy' := hroomy.applyAll moves
  have horder' := (order_applyAll start moves).trans horder
  have hmode' := (mode_applyAll start moves).trans hmode
  have htwo : 1 < (start.applyAll moves).order := by omega
  refine ⟨horder', (maxDelay_applyAll start moves).trans hmax, hmode',
    hroomy'.rising htwo hpos hle, ?_⟩
  intro hfeedback d' hshortest _ hlongest k delay delay'
  exact hroomy'.delays_mono_ends htwo (hmode'.trans hfeedback) hpos (hpos.trans_le hle)
    hshortest hlongest

/-- A design with delays of one sample and more, in the order of the paths. -/
noncomputable def risingDesign (longest : ℕ) : NetworkDesign ℝ where
  turn := 0
  spread := 0
  shortest := 1
  longest := longest
  decayTime := 1
  damping := 0
  layout := .fixed
  truncateForward := true

theorem delays_ordered_three :
    (2 ≤ 3 ∧ 0 < (risingDesign 40).shortest ∧
        (risingDesign 40).shortest ≤ (risingDesign 40).longest ∧
        (risingDesign 40).longest ≤ (risingDesign 50).longest) ∧
      ∃ start : Network ℝ, new 3 100 .geometric .mean .feedback = .ok start ∧
        (start.applyAll [.derive (risingDesign 90), .take]).Rising (risingDesign 40) ∧
        ∀ (k delay delay' : ℕ),
          ((start.applyAll [.derive (risingDesign 90), .take]).derive
            (risingDesign 40)).delays[k]? = some delay →
          ((start.applyAll [.derive (risingDesign 90), .take]).derive
            (risingDesign 50)).delays[k]? = some delay' → delay ≤ delay' := by
  have hpos : 0 < (risingDesign 40).shortest := zero_lt_one
  have hle : ∀ longest : ℕ, 0 < longest →
      (risingDesign longest).shortest ≤ (risingDesign longest).longest :=
    fun _ h => Nat.one_le_cast.mpr h
  have hlongest : (risingDesign 40).longest ≤ (risingDesign 50).longest :=
    Nat.cast_le.mpr (by decide)
  obtain ⟨start, hnew, hordered⟩ :=
    delays_ordered (show 2 ≤ 3 by decide) 100 .geometric .mean .feedback
  obtain ⟨-, -, -, hrising, hends⟩ :=
    hordered [.derive (risingDesign 90), .take] (risingDesign 40) hpos (hle 40 (by decide))
  refine ⟨⟨by decide, hpos, hle 40 (by decide), hlongest⟩, start, hnew, hrising, ?_⟩
  exact hends rfl (risingDesign 50) le_rfl (hle 50 (by decide)) hlongest

end Network

end AmbisonicReverb
