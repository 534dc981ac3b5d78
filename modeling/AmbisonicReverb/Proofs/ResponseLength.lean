import Mathlib
import AmbisonicReverb.Proofs.Curve
import AmbisonicReverb.Proofs.Usable

/-!
# The length of a response

The length of a response follows from parameters and a decay time that are any binary32 numbers. It
is a second at least and twenty at most, in whole samples, and a longer decay does not make it
shorter (`responseLengthFor_bounds`, `responseLengthFor_mono`).

* `roundToNat_le` — a larger number is not rounded to a smaller count. Counts end somewhere, and
  that keeps their order.
* `mul_le_mul_of_nonneg` — a product with a positive number keeps order up to infinity.
* `responseSeconds` — the length in seconds. What is not above a second, NaN among it, has no part
  in it. Of a decay time below zero it is enough to know that no product makes it positive
  (`mul_le_zero`).
-/

namespace AmbisonicReverb

open Float.Model (Format UnpackedFloat)
open Float.Model.UnpackedFloat
open Scalar (Within maxNum minNum)

/-! ## Counts -/

namespace BinaryValue

/-- Up to the largest count, a half goes up. -/
theorem roundToNat_finite (m : ℕ) (e : ℤ) :
    (finite false m e).roundToNat = min ⌊(m : ℝ) * 2 ^ e + 1 / 2⌋₊ largestCount := by
  rcases e with k | k
  · have hwhole : ((m : ℝ) * 2 ^ (Int.ofNat k)) = (m * 2 ^ k : ℕ) := by
      push_cast
      rfl
    have hfloor : ⌊((m * 2 ^ k : ℕ) : ℝ) + 1 / 2⌋₊ = m * 2 ^ k := by
      rw [Nat.floor_eq_iff (by positivity)]
      constructor <;> linarith
    rw [hwhole, hfloor]
    rfl
  · have hfraction : (m : ℝ) * 2 ^ (Int.negSucc k) + 1 / 2 =
        ((2 * m + 2 ^ (k + 1) : ℕ) : ℝ) / (2 * 2 ^ (k + 1) : ℕ) := by
      rw [zpow_negSucc]
      push_cast
      field_simp
    rw [hfraction, Nat.floor_div_eq_div]
    rfl

theorem roundToNat_eq_zero {v : BinaryValue} {s : Sign} (h : v.unpacked = .zero s) :
    v.roundToNat = 0 := by
  rcases v with ⟨_ | _, m, e⟩ | negative | _
  · obtain rfl : m = 0 := by
      by_contra hm
      simp [unpacked, hm] at h
    have hfloor : ⌊((0 : ℕ) : ℝ) * 2 ^ e + 1 / 2⌋₊ = 0 := by norm_num
    rw [roundToNat_finite, hfloor, Nat.zero_min]
  · rfl
  · cases h
  · cases h

end BinaryValue

section

variable {x y : Float32}

/-- The count of a number that is not negative. -/
theorem roundToNat_eq (hx : x.isFinite) (hnonneg : 0 ≤ realOf x) :
    (binary32Value x).roundToNat = min ⌊realOf x + 1 / 2⌋₊ BinaryValue.largestCount := by
  rcases unpack_cases hx hnonneg with ⟨hvalue, s, hu⟩ | ⟨m, e, hm, hu, -, hvalue⟩
  · rw [unpack_toModel] at hu
    have hfloor : ⌊(0 : ℝ) + 1 / 2⌋₊ = 0 := by norm_num
    rw [BinaryValue.roundToNat_eq_zero hu, hvalue, hfloor, Nat.zero_min]
  · rw [unpack_toModel] at hu
    rw [BinaryValue.eq_finite_of_unpacked hu, BinaryValue.roundToNat_finite, hvalue]

/-- A larger number is not rounded to a smaller count. -/
theorem roundToNat_le (hx : x.isFinite) (hy : y.isFinite) (hnonneg : 0 ≤ realOf x) (h : x ≤ y) :
    (binary32Value x).roundToNat ≤ (binary32Value y).roundToNat := by
  have hle := (binary32_le_iff_realOf hx hy).mp h
  rw [roundToNat_eq hx hnonneg, roundToNat_eq hy (hnonneg.trans hle)]
  exact min_le_min_right _ (Nat.floor_le_floor (by linarith))

end

/-! ## Products -/

section

variable {x y z : Float32}

/-- From zero on there are finite numbers and infinity. -/
theorem nonneg_cases (h : binary32Zero ≤ x) :
    (x.isFinite ∧ 0 ≤ realOf x) ∨ x.toModel.unpack = .infinity .positive := by
  by_cases hpos : binary32Zero < x
  · rcases unpack_of_pos hpos with hu | ⟨m, e, hm, hu, -⟩
    · exact .inr hu
    · have hx : x.isFinite = true := congrArg UnpackedFloat.isFinite hu
      exact .inl ⟨hx, (binary32_le_iff_realOf isFinite_binary32Zero hx).mp h⟩
  · obtain ⟨⟨-, hnumber⟩, -⟩ := binary32_le_iff.mp h
    have hle : x ≤ binary32Zero := binary32_le_of_not_lt rfl hnumber hpos
    have hx := isFinite_of_le_of_le isFinite_binary32Zero isFinite_binary32Zero h hle
    exact .inl ⟨hx, (binary32_le_iff_realOf isFinite_binary32Zero hx).mp h⟩

/-- A negative number is infinite or has a canonical form, too. -/
theorem unpack_of_neg (h : x < binary32Zero) :
    x.toModel.unpack = .infinity .negative ∨
      ∃ m e hm, x.toModel.unpack = .finite .negative m e hm ∧ Fits m e := by
  have hcanonical := canonical_of x
  obtain ⟨⟨hnumber, -⟩, hplace⟩ := binary32_lt_iff.mp h
  rw [isNaN_eq_false_iff] at hnumber
  have hplace : place x.toModel.unpack < toLex (0, toLex (0, 0)) := hplace
  rcases hu : x.toModel.unpack with ⟨_ | _⟩ | _ | _ | ⟨_ | _, m, e, hm⟩ <;>
    rw [hu] at hplace hcanonical
  · exact .inl rfl
  · exact absurd hplace (by decide)
  · exact absurd hu hnumber
  · exact absurd hplace (lt_irrefl _)
  · exact .inr ⟨m, e, hm, rfl, hcanonical.1⟩
  · exact absurd hplace (by simp [place, Prod.Lex.toLex_lt_toLex])

theorem unpack_of_realOf_pos (hx : x.isFinite) (hpos : 0 < realOf x) :
    ∃ m e hm, x.toModel.unpack = .finite .positive m e hm ∧ Fits m e := by
  rcases unpack_cases hx hpos.le with ⟨hzero, -⟩ | ⟨m, e, hm, hu, hfits, -⟩
  · exact absurd hzero hpos.ne'
  · exact ⟨m, e, hm, hu, hfits⟩

theorem unpack_mul_infinity (hx : x.isFinite) (hpos : 0 < realOf x)
    (hy : y.toModel.unpack = .infinity .positive) :
    (x * y).toModel.unpack = .infinity .positive := by
  obtain ⟨m, e, hm, hu, -⟩ := unpack_of_realOf_pos hx hpos
  rw [mul_eq_ofUnpacked, hu, hy]
  exact toModel_ofUnpacked (u := .infinity .positive) trivial

/-- **Products keep order**, also where they become infinite. -/
theorem mul_le_mul_of_nonneg (hx : x.isFinite) (hpos : 0 < realOf x) (hy : binary32Zero ≤ y)
    (hyz : y ≤ z) : x * y ≤ x * z := by
  rcases nonneg_cases (binary32_le_trans hy hyz) with ⟨hz, hz'⟩ | hz
  · have hy' := isFinite_of_le_of_le isFinite_binary32Zero hz hy hyz
    have hle := (binary32_le_iff_realOf hy' hz).mp hyz
    have hnonneg := (binary32_le_iff_realOf isFinite_binary32Zero hy').mp hy
    exact (rounded_mul hx hy' hpos.le hnonneg).le (rounded_mul hx hz hpos.le hz') (by gcongr)
  · refine le_of_unpack_eq_infinity ?_ (unpack_mul_infinity hx hpos hz)
    rcases nonneg_cases hy with ⟨hy', hnonneg⟩ | hy'
    · exact (rounded_mul hx hy' hpos.le hnonneg).isNaN_eq
    · rw [isNaN_eq_false_iff, unpack_mul_infinity hx hpos hy']
      exact nofun

theorem le_zero_of_unpack {u : UnpackedFloat} (hx : x.toModel.unpack = u) (hu : u ≠ .notANumber)
    (h : place u ≤ place (.zero .positive)) : x ≤ binary32Zero := by
  rw [binary32_le_iff, isNaN_eq_false_iff, placeOf, hx]
  exact ⟨⟨hu, rfl⟩, h⟩

/-- With a positive number, a negative one does not become positive. -/
theorem mul_le_zero (hx : x.isFinite) (hpos : 0 < realOf x) (hy : y < binary32Zero) :
    x * y ≤ binary32Zero := by
  obtain ⟨m, e, hm, hu, hfits⟩ := unpack_of_realOf_pos hx hpos
  rcases unpack_of_neg hy with hu' | ⟨n, f, hn, hu', hfits'⟩
  · have hr : (x * y).toModel.unpack = .infinity .negative := by
      rw [mul_eq_ofUnpacked, hu, hu']
      exact toModel_ofUnpacked (u := .infinity .negative) trivial
    exact le_zero_of_unpack hr nofun (by decide)
  · obtain ⟨k, i, hk, hround, -⟩ :=
      exists_roundWithAccuracy (.exact _) (mul_exponent_le hm hn hfits hfits')
    have hmul : x * y = ofUnpacked (if h : k = 0 then .zero .negative else
        .finite .negative k i (Nat.pos_of_ne_zero h)) := by
      rw [← hround, mul_eq_ofUnpacked, hu, hu']
      rfl
    rcases unpack_form_cases hk hmul with ⟨-, hr⟩ | ⟨_, -, hr⟩ | ⟨-, hr⟩
    · exact le_zero_of_unpack hr nofun le_rfl
    · exact le_zero_of_unpack hr nofun (by simp [place, Prod.Lex.toLex_le_toLex])
    · exact le_zero_of_unpack hr nofun (by decide)

end

/-! ## Seconds -/

section

variable {b x y z : Float32}

theorem le_maxNum (hb : b.isNaN = false) (z : Float32) : b ≤ maxNum b z := by
  rw [maxNum_eq hb]
  split_ifs with hlt
  · exact binary32_le_of_lt hlt
  · exact binary32_le_refl hb

theorem maxNum_le_maxNum (hb : b.isNaN = false) (hyz : y ≤ z) : maxNum b y ≤ maxNum b z := by
  obtain ⟨hy, hz⟩ := (binary32_le_iff.mp hyz).1
  obtain ⟨heq | heq, -, -⟩ := maxNum_spec hb hy
  · rw [heq]
    exact le_maxNum hb z
  · rw [heq]
    exact binary32_le_trans hyz (maxNum_spec hb hz).2.2

/-- A decay time has its part in a length from some positive number on. -/
theorem maxNum_mul_le (hx : x.isFinite) (hpos : 0 < realOf x) (hb : binary32Zero ≤ b)
    (hyz : y ≤ z) : maxNum b (x * y) ≤ maxNum b (x * z) := by
  obtain ⟨⟨hy, -⟩, -⟩ := binary32_le_iff.mp hyz
  have hb' : b.isNaN = false := (binary32_le_iff.mp hb).1.2
  by_cases hneg : y < binary32Zero
  · have hxy := binary32_le_trans (mul_le_zero hx hpos hneg) hb
    have hsmall : ¬ b < x * y :=
      fun hlt => absurd (binary32_le_iff.mp hxy).2 (not_le.mpr (binary32_lt_iff.mp hlt).2)
    rw [maxNum_eq hb' (x * y), if_neg hsmall]
    exact le_maxNum hb' _
  · have hy' : binary32Zero ≤ y := binary32_le_of_not_lt hy rfl hneg
    exact maxNum_le_maxNum hb' (mul_le_mul_of_nonneg hx hpos hy' hyz)

theorem minNum_eq (hx : x.isNaN = false) (y : Float32) : minNum x y = if y < x then y else x := by
  unfold Scalar.minNum
  rw [isNaN_eq, hx]
  simp only [Bool.false_eq_true, or_false]

theorem within_minNum (hbx : b ≤ x) (hby : b ≤ y) : Within b y (minNum x y) := by
  obtain ⟨hx, hy⟩ := (binary32_le_iff.mp hbx).1.2, (binary32_le_iff.mp hby).1.2
  rw [minNum_eq hx]
  split_ifs with hlt
  · exact within_of_le hby (binary32_le_refl hy)
  · exact within_of_le hbx (binary32_le_of_not_lt hy hx hlt)

theorem minNum_le_minNum (hy : y.isNaN = false) (hxz : x ≤ z) : minNum x y ≤ minNum z y := by
  obtain ⟨hx, hz⟩ := (binary32_le_iff.mp hxz).1
  rw [minNum_eq hx, minNum_eq hz]
  split_ifs with hlt hlt' hlt'
  · exact binary32_le_refl hy
  · exact binary32_le_trans (binary32_le_of_lt hlt) hxz
  · exact binary32_le_of_not_lt hy hx hlt
  · exact hxz

end

namespace Parameters

section

variable {α : Type} [Scalar α]

/-- The length of a response in seconds: a second at least, ten crossings of the longest dimension
and twice the decay, and 20 seconds at most. -/
def responseSeconds (p : Parameters α) (seconds : α) : α :=
  minNum (maxNum (maxNum 1 (10.0 * p.longestTime)) (2.0 * seconds)) maxResponseSeconds

end

variable (p : Parameters Float32) {rate seconds seconds' : Float32}

theorem one_le_longest : binary32One ≤ maxNum binary32One (10.0 * p.longestTime) :=
  le_maxNum rfl _

/-- **Responses last between 1 and 20 seconds**, whatever the decay time is. -/
theorem within_responseSeconds (seconds : Float32) :
    Within binary32One maxResponseSeconds (p.responseSeconds seconds) := by
  have hone := one_le_longest p
  refine within_minNum (binary32_le_trans hone (le_maxNum ?_ _)) (by decide +kernel)
  exact (binary32_le_iff.mp hone).1.2

theorem responseSeconds_mono (h : seconds ≤ seconds') :
    p.responseSeconds seconds ≤ p.responseSeconds seconds' := by
  have htwo : (2.0 : Float32) = Float32.ofNat 2 := by decide +kernel
  obtain ⟨hfinite, hvalue⟩ := realOf_ofNat (n := 2) (by norm_num)
  rw [← htwo] at hfinite hvalue
  have hpos : 0 < realOf 2.0 := by
    rw [hvalue]
    norm_num
  have hzero : binary32Zero ≤ binary32One := by decide +kernel
  apply minNum_le_minNum (by decide +kernel)
  exact maxNum_mul_le hfinite hpos (binary32_le_trans hzero (one_le_longest p)) h

/-! ## Samples -/

section

variable {x y : Float32} (hrate : rate.isFinite) (hone : binary32One ≤ rate)

include hrate hone

theorem one_le_realOf_rate : 1 ≤ realOf rate :=
  realOf_binary32One ▸ (binary32_le_iff_realOf isFinite_binary32One hrate).mp hone

/-- So many samples last so long. -/
theorem rounded_mul_rate (hx : Within binary32One maxResponseSeconds x) :
    Rounded (realOf x * realOf rate) (x * rate) := by
  have hx' := (within_iff isFinite_binary32One (by decide +kernel)).mp hx
  have hpos : 0 ≤ realOf x := zero_le_one.trans (realOf_binary32One ▸ hx'.2.1)
  exact rounded_mul hx'.1 hrate hpos (zero_le_one.trans (one_le_realOf_rate hrate hone))

theorem mul_rate_mono (hx : Within binary32One maxResponseSeconds x)
    (hy : Within binary32One maxResponseSeconds y) (h : x ≤ y) : x * rate ≤ y * rate := by
  have hpos := one_le_realOf_rate hrate hone
  have hfinite : ∀ {z}, Within binary32One maxResponseSeconds z → z.isFinite :=
    fun hz => ((within_iff isFinite_binary32One (by decide +kernel)).mp hz).1
  have hle := (binary32_le_iff_realOf (hfinite hx) (hfinite hy)).mp h
  exact (rounded_mul_rate hrate hone hx).le (rounded_mul_rate hrate hone hy) (by gcongr)

/-- A second and more has as many samples as the rate says, or more. -/
theorem le_mul_rate (hx : Within binary32One maxResponseSeconds x) : rate ≤ x * rate := by
  have hx' := (within_iff isFinite_binary32One (by decide +kernel)).mp hx
  have hpos := one_le_realOf_rate hrate hone
  refine (rounded_mul_rate hrate hone hx).rounds.ge rate hrate ?_
  exact le_mul_of_one_le_left (by linarith) (realOf_binary32One ▸ hx'.2.1)

variable (hlarge : (maxResponseSeconds * rate).isFinite)

include hlarge

/-- **The length of a response is the count of its seconds.** -/
theorem responseLengthFor_eq (seconds : Float32) :
    (p.responseSeconds seconds * rate).isFinite ∧ rate ≤ p.responseSeconds seconds * rate ∧
      p.responseSeconds seconds * rate ≤ maxResponseSeconds * rate ∧
      p.responseLengthFor rate seconds =
        Elementary.roundToNat (p.responseSeconds seconds * rate) := by
  have hseconds := within_responseSeconds p seconds
  have hlongest : Within binary32One maxResponseSeconds (maxResponseSeconds : Float32) :=
    within_of_le (by decide +kernel) (by decide +kernel)
  have hlow := le_mul_rate hrate hone hseconds
  have hhigh := mul_rate_mono hrate hone hseconds hlongest hseconds.le_hi
  have hfinite := isFinite_of_le_of_le hrate hlarge hlow hhigh
  exact ⟨hfinite, hlow, hhigh, if_pos hfinite⟩

/-- **Responses have the samples of 1 to 20 seconds**, for any parameters and any decay time. -/
theorem responseLengthFor_bounds (seconds : Float32) :
    Elementary.roundToNat rate ≤ p.responseLengthFor rate seconds ∧
      p.responseLengthFor rate seconds ≤ Elementary.roundToNat (maxResponseSeconds * rate) := by
  obtain ⟨hfinite, hlow, hhigh, heq⟩ := responseLengthFor_eq p hrate hone hlarge seconds
  have hpos := zero_le_one.trans (one_le_realOf_rate hrate hone)
  have hpos' := hpos.trans ((binary32_le_iff_realOf hrate hfinite).mp hlow)
  rw [heq]
  exact ⟨roundToNat_le hrate hfinite hpos hlow, roundToNat_le hfinite hlarge hpos' hhigh⟩

/-- **A longer decay does not shorten the response.** -/
theorem responseLengthFor_mono (h : seconds ≤ seconds') :
    p.responseLengthFor rate seconds ≤ p.responseLengthFor rate seconds' := by
  obtain ⟨hfinite, hlow, -, heq⟩ := responseLengthFor_eq p hrate hone hlarge seconds
  obtain ⟨hfinite', -, -, heq'⟩ := responseLengthFor_eq p hrate hone hlarge seconds'
  have hpos := zero_le_one.trans (one_le_realOf_rate hrate hone)
  rw [heq, heq']
  refine roundToNat_le hfinite hfinite' ?_ ?_
  · exact hpos.trans ((binary32_le_iff_realOf hrate hfinite).mp hlow)
  · exact mul_rate_mono hrate hone (within_responseSeconds p _) (within_responseSeconds p _)
      (responseSeconds_mono p h)

end

end Parameters

end AmbisonicReverb
