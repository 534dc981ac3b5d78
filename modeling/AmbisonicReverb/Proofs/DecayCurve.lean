import Mathlib
import AmbisonicReverb.Decay
import AmbisonicReverb.Proofs.Exact
import AmbisonicReverb.Proofs.Sums

/-!
# Decay times are read off the decay curve

The decay curve of a response is the energy left from each sample on, `energyFrom`, a sum over the
samples behind. A decay time is found without this curve, in a single walk forward that subtracts
each sample from what was left before it.

**Theorem (`time_eq_span`).** Read exactly, the decay time is three times the span between the first
samples at which the curve is at most the two shares of its start. There is none exactly if the
response is silent or the lower share is not reached before its last sample.

The walk stands at sample `i` with the energy left from `i` on, and it holds the first crossing from
the moment it has passed it (`heldAt`, `crossings_drop`). The curve falls, so the upper share is
reached on the way to the lower one (`Crosses.le`).
-/

namespace AmbisonicReverb.Decay

/-! ## The curve -/

/-- The energy left of a response from sample `i` on. -/
def energyFrom (response : Array ℝ) (i : ℕ) : ℝ :=
  ∑ k ∈ Finset.Ico i response.size, response.getD k 0 ^ 2

section

variable {response : Array ℝ} {i j : ℕ}

theorem energyFrom_of_size_le (h : response.size ≤ i) : energyFrom response i = 0 := by
  unfold energyFrom
  rw [Finset.Ico_eq_empty_of_le h, Finset.sum_empty]

theorem energyFrom_eq_add (h : i < response.size) :
    energyFrom response i = response[i] ^ 2 + energyFrom response (i + 1) := by
  have hentry : response.getD i 0 = response[i] := by
    rw [Array.getD_eq_getD_getElem?, Array.getElem?_eq_getElem h, Option.getD_some]
  unfold energyFrom
  rw [Finset.sum_eq_sum_Ico_succ_bot h, hentry]

theorem energyFrom_nonneg (response : Array ℝ) (i : ℕ) : 0 ≤ energyFrom response i :=
  Finset.sum_nonneg fun _ _ => sq_nonneg _

theorem energyFrom_anti (h : i ≤ j) : energyFrom response j ≤ energyFrom response i :=
  Finset.sum_le_sum_of_subset_of_nonneg (Finset.Ico_subset_Ico_left h) fun _ _ _ => sq_nonneg _

theorem energyFrom_zero_pos (h : energyFrom response 0 ≠ 0) : 0 < energyFrom response 0 :=
  lt_of_le_of_ne (energyFrom_nonneg response 0) h.symm

theorem totalEnergy_eq (response : Array ℝ) :
    (totalEnergy response : ℝ) = energyFrom response 0 := by
  have hterm : ∀ (sum : ℝ) (k : ℕ), sum + power (response.getD k 0) =
      sum + response.getD k 0 ^ 2 := by
    intro sum k
    rw [sq]
    rfl
  unfold totalEnergy energyFrom
  rw [foldl_eq_foldl_range response 0, foldl_range_eq_sum (fun x => x) hterm, zero_add,
    Finset.range_eq_Ico]

end

/-! ## The shares -/

/-- The two shares of the energy, read exactly. -/
noncomputable def shares : Thresholds ℝ := Thresholds.standard (α := ℝ)

theorem shares_upper_eq : shares.upper = 10 ^ (-1.02 : ℝ) := by
  show (10.0 : ℝ) ^ (-10.2 / 10.0 : ℝ) = _
  norm_num

theorem shares_lower_eq : shares.lower = 10 ^ (-3.02 : ℝ) := by
  show (10.0 : ℝ) ^ (-30.2 / 10.0 : ℝ) = _
  norm_num

theorem shares_lower_pos : 0 < shares.lower := by
  rw [shares_lower_eq]
  positivity

/-- There are 20 dB between the shares. -/
theorem shares_upper_eq_mul : shares.upper = 100 * shares.lower := by
  have hexponent : (-1.02 : ℝ) = 2 + -3.02 := by norm_num
  rw [shares_upper_eq, shares_lower_eq, hexponent, Real.rpow_add (by norm_num)]
  norm_num

theorem shares_lower_lt_upper : shares.lower < shares.upper := by
  have hpos := shares_lower_pos
  rw [shares_upper_eq_mul]
  linarith

theorem shares_upper_pos : 0 < shares.upper := shares_lower_pos.trans shares_lower_lt_upper

theorem shares_upper_lt_one : shares.upper < 1 := by
  rw [shares_upper_eq]
  exact Real.rpow_lt_one_of_one_lt_of_neg (by norm_num) (by norm_num)

theorem shares_lower_lt_one : shares.lower < 1 := shares_lower_lt_upper.trans shares_upper_lt_one

theorem shares_lower_mem : shares.lower ∈ Set.Icc (1 / 10000 : ℝ) (1 / 1000) := by
  have hlow : (10 : ℝ) ^ (-4 : ℝ) = 1 / 10000 := by
    rw [Real.rpow_neg (by norm_num)]
    norm_num
  have hhigh : (10 : ℝ) ^ (-3 : ℝ) = 1 / 1000 := by
    rw [Real.rpow_neg (by norm_num)]
    norm_num
  rw [shares_lower_eq, ← hlow, ← hhigh]
  exact ⟨Real.rpow_le_rpow_of_exponent_le (by norm_num) (by norm_num),
    Real.rpow_le_rpow_of_exponent_le (by norm_num) (by norm_num)⟩

/-! ## Crossings -/

/-- The samples from which on at most a share of the energy is left. -/
def reached (response : Array ℝ) (share : ℝ) : Set ℕ :=
  {i | i < response.size ∧ energyFrom response i ≤ share * energyFrom response 0}

/-- Samples `a` and `b` are the first ones at which the curve has fallen to the upper and to the
lower share. -/
structure Crosses (response : Array ℝ) (a b : ℕ) : Prop where
  energy_ne : energyFrom response 0 ≠ 0
  first : IsLeast (reached response shares.upper) a
  second : IsLeast (reached response shares.lower) b

section

variable {response : Array ℝ} {a b : ℕ}

theorem reached_lower_subset_upper (response : Array ℝ) :
    reached response shares.lower ⊆ reached response shares.upper := by
  rintro i ⟨hi, hleft⟩
  refine ⟨hi, hleft.trans ?_⟩
  exact mul_le_mul_of_nonneg_right shares_lower_lt_upper.le (energyFrom_nonneg response 0)

theorem Crosses.le (h : Crosses response a b) : a ≤ b :=
  h.first.2 (reached_lower_subset_upper response h.second.1)

/-- Since the curve falls, it is down to a share first where it passes it between two samples. -/
theorem isLeast_reached_succ {share : ℝ} {i : ℕ} (hi : i + 1 < response.size)
    (hbefore : share * energyFrom response 0 < energyFrom response i)
    (hafter : energyFrom response (i + 1) ≤ share * energyFrom response 0) :
    IsLeast (reached response share) (i + 1) := by
  refine ⟨⟨hi, hafter⟩, fun j hj => ?_⟩
  by_contra hlt
  have hji : j ≤ i := by omega
  exact absurd (hbefore.trans_le (energyFrom_anti hji)) (not_lt.mpr hj.2)

/-- A response that reaches the lower share crosses both. -/
theorem exists_crosses (henergy : energyFrom response 0 ≠ 0)
    (hreached : (reached response shares.lower).Nonempty) : ∃ a b, Crosses response a b := by
  have hupper : (reached response shares.upper).Nonempty :=
    hreached.mono (reached_lower_subset_upper response)
  exact ⟨sInf (reached response shares.upper), sInf (reached response shares.lower), henergy,
    ⟨Nat.sInf_mem hupper, fun _ h => Nat.sInf_le h⟩,
    ⟨Nat.sInf_mem hreached, fun _ h => Nat.sInf_le h⟩⟩

/-- There are no crossings in a silent response, and none if the lower share is not reached. -/
theorem forall_not_crosses_iff : (∀ a b, ¬ Crosses response a b) ↔
    energyFrom response 0 = 0 ∨ reached response shares.lower = ∅ := by
  constructor
  · intro h
    by_contra hboth
    obtain ⟨henergy, hreached⟩ := not_or.mp hboth
    obtain ⟨a, b, hcrosses⟩ := exists_crosses henergy (Set.nonempty_iff_ne_empty.mpr hreached)
    exact h a b hcrosses
  · rintro (hzero | hempty) a b h
    · exact h.energy_ne hzero
    · have hmem := h.second.1
      rwa [hempty] at hmem

/-- The two energies that the walk looks for. -/
noncomputable def levels (response : Array ℝ) : Thresholds ℝ :=
  ⟨energyFrom response 0 * shares.upper, energyFrom response 0 * shares.lower⟩

theorem mem_reached_iff {share : ℝ} {i : ℕ} (hi : i < response.size) :
    i ∈ reached response share ↔ energyFrom response i ≤ energyFrom response 0 * share := by
  show i < response.size ∧ _ ↔ _
  rw [mul_comm, and_iff_right hi]

/-- One step of the walk, which stands at sample `i` with the energy left from there on. -/
theorem crossings_step {i : ℕ} (hi : i < response.size) (levels : Thresholds ℝ)
    (above : Option ℕ) :
    crossings levels (energyFrom response i) i above (response.toList.drop i) =
      let above := if above.isNone && energyFrom response i ≤ levels.upper then some i else above
      if energyFrom response i ≤ levels.lower then above.map (·, i)
      else crossings levels (energyFrom response (i + 1)) (i + 1) above
        (response.toList.drop (i + 1)) := by
  have hleft : energyFrom response i - power response[i] = energyFrom response (i + 1) := by
    rw [energyFrom_eq_add hi]
    show response[i] ^ 2 + _ - response[i] * response[i] = _
    ring
  rw [List.drop_eq_getElem_cons (by simpa using hi), crossings, Array.getElem_toList, hleft]

/-- What the walk holds of the first crossing `a` when it comes to sample `i`. -/
def heldAt (a i : ℕ) : Option ℕ := if a < i then some a else none

/-- The first crossing is held from the moment at which it is passed. -/
theorem heldAt_succ (ha : IsLeast (reached response shares.upper) a) {i : ℕ}
    (hi : i < response.size) :
    (if (heldAt a i).isNone && energyFrom response i ≤ (levels response).upper then some i
      else heldAt a i) = heldAt a (i + 1) := by
  have hreached : i ∈ reached response shares.upper ↔
      energyFrom response i ≤ (levels response).upper := mem_reached_iff hi
  unfold heldAt
  rcases lt_trichotomy a i with hpast | rfl | hfuture
  · simp [hpast, hpast.trans (Nat.lt_succ_self i)]
  · simp [hreached.mp ha.1]
  · have hnot : ¬ energyFrom response i ≤ (levels response).upper := by
      intro hle
      have hle := ha.2 (hreached.mpr hle)
      omega
    have hbefore : ¬ a < i + 1 := by omega
    simp [hnot, hbefore, hfuture.le]

/-- From every sample up to the second crossing, the walk finds both. -/
theorem crossings_drop (h : Crosses response a b) {i : ℕ} (hi : i ≤ b) :
    crossings (levels response) (energyFrom response i) i (heldAt a i) (response.toList.drop i) =
      some (a, b) := by
  induction hi using Nat.decreasingInduction with
  | self =>
    have hb := h.second.1.1
    have hreached : energyFrom response b ≤ (levels response).lower :=
      (mem_reached_iff hb).mp h.second.1
    have hheld : heldAt a (b + 1) = some a := if_pos (Nat.lt_succ_of_le h.le)
    rw [crossings_step hb, heldAt_succ h.first hb]
    simp only [hreached, hheld, if_true, Option.map_some]
  | of_succ i hi ih =>
    have hsize : i < response.size := (Nat.lt_of_succ_le hi).trans h.second.1.1
    have hnot : ¬ energyFrom response i ≤ (levels response).lower := by
      intro hle
      have hle := h.second.2 ((mem_reached_iff hsize).mpr hle)
      omega
    rw [crossings_step hsize, heldAt_succ h.first hsize]
    simp only [hnot, if_false]
    exact ih

/-- Where the lower share is not reached, the walk ends without a result. -/
theorem crossings_drop_eq_none (h : reached response shares.lower = ∅) {i : ℕ}
    (hi : i ≤ response.size) (above : Option ℕ) :
    crossings (levels response) (energyFrom response i) i above (response.toList.drop i) =
      none := by
  induction hi using Nat.decreasingInduction generalizing above with
  | self => rw [List.drop_of_length_le (by simp), crossings]
  | of_succ i hi ih =>
    have hnot : ¬ energyFrom response i ≤ (levels response).lower := by
      intro hle
      have hmem : i ∈ reached response shares.lower := (mem_reached_iff hi).mpr hle
      rwa [h] at hmem
    rw [crossings_step hi]
    simp only [hnot, if_false]
    exact ih _

end

/-! ## The time -/

section

variable {response : Array ℝ} {a b : ℕ} (sampleRate : ℝ)

/-- A silent response has no time, and otherwise the walk decides. -/
theorem time_eq_match (response : Array ℝ) : time response sampleRate =
    if energyFrom response 0 = 0 then -1
    else match crossings (levels response) (energyFrom response 0) 0 none response.toList with
      | some (a, b) => 3 * ((b - a : ℕ) : ℝ) / sampleRate
      | none => -1 := by
  have hsilent : (energyFrom response 0 ≤ 0 ∨ ¬ Scalar.isFinite (energyFrom response 0) = true) ↔
      energyFrom response 0 = 0 := by
    have hnonneg := energyFrom_nonneg response 0
    rw [Scalar.isFinite_eq]
    constructor
    · rintro (hle | hinfinite)
      · exact le_antisymm hle hnonneg
      · exact absurd rfl hinfinite
    · intro hzero
      exact .inl hzero.le
  have hthree : (3.0 : ℝ) = 3 := by norm_num
  unfold time
  simp only [totalEnergy_eq, hsilent]
  split_ifs
  · rfl
  · show (match crossings (levels response) (energyFrom response 0) 0 none response.toList with
      | some (a, b) => 3.0 * Scalar.ofNat (b - a) / sampleRate
      | none => unmeasured) = _
    rw [hthree]
    rfl

theorem time_of_crosses (h : Crosses response a b) :
    time response sampleRate = 3 * ((b : ℝ) - a) / sampleRate := by
  have hwalk : crossings (levels response) (energyFrom response 0) 0 none response.toList =
      some (a, b) := crossings_drop h (Nat.zero_le b)
  rw [time_eq_match, if_neg h.energy_ne, hwalk]
  simp only
  rw [Nat.cast_sub h.le]

theorem time_of_not_crosses (h : ∀ a b, ¬ Crosses response a b) :
    time response sampleRate = -1 := by
  rcases forall_not_crosses_iff.mp h with hsilent | hempty
  · rw [time_eq_match, if_pos hsilent]
  · have hwalk : crossings (levels response) (energyFrom response 0) 0 none response.toList =
        none := crossings_drop_eq_none hempty (Nat.zero_le _) none
    rw [time_eq_match, hwalk]
    exact ite_self _

/-- A time is missing or comes from two crossings. -/
theorem time_eq_or_crosses (response : Array ℝ) :
    time response sampleRate = -1 ∨ ∃ a b, Crosses response a b := by
  by_cases hcrosses : ∃ a b, Crosses response a b
  · exact .inr hcrosses
  · exact .inl (time_of_not_crosses sampleRate fun a b h => hcrosses ⟨a, b, h⟩)

variable {sampleRate}

/-- A time that was found is not taken for a missing one. -/
theorem time_nonneg_of_crosses (hrate : 0 < sampleRate) (h : Crosses response a b) :
    0 ≤ time response sampleRate := by
  have hle : (a : ℝ) ≤ b := Nat.cast_le.mpr h.le
  rw [time_of_crosses sampleRate h]
  exact div_nonneg (by linarith) hrate.le

theorem time_eq_neg_one_iff (hrate : 0 < sampleRate) : time response sampleRate = -1 ↔
    energyFrom response 0 = 0 ∨ reached response shares.lower = ∅ := by
  rw [← forall_not_crosses_iff]
  constructor
  · intro htime a b h
    have hnonneg := time_nonneg_of_crosses hrate h
    linarith
  · exact time_of_not_crosses sampleRate

end

/-- **Decay times are read off the decay curve.** There is none exactly if the response is silent or
the lower share of its energy is left at all samples. Otherwise the walk finds the first sample at
which each share is left, the upper one not after the lower one, and the time is three times the
span between them. -/
theorem time_eq_span (response : Array ℝ) {sampleRate : ℝ} (hrate : 0 < sampleRate) :
    (0 < shares.lower ∧ shares.lower < shares.upper ∧ shares.upper < 1) ∧
      (time response sampleRate = -1 ↔ energyFrom response 0 = 0 ∨
        ∀ i < response.size, shares.lower * energyFrom response 0 < energyFrom response i) ∧
      (energyFrom response 0 ≠ 0 →
        (∃ i < response.size, energyFrom response i ≤ shares.lower * energyFrom response 0) →
        ∃ a b, IsLeast {i | i < response.size ∧
            energyFrom response i ≤ shares.upper * energyFrom response 0} a ∧
          IsLeast {i | i < response.size ∧
            energyFrom response i ≤ shares.lower * energyFrom response 0} b ∧
          a ≤ b ∧
          crossings ⟨totalEnergy response * shares.upper, totalEnergy response * shares.lower⟩
            (totalEnergy response) 0 none response.toList = some (a, b) ∧
          time response sampleRate = 3 * ((b : ℝ) - a) / sampleRate) := by
  refine ⟨⟨shares_lower_pos, shares_lower_lt_upper, shares_upper_lt_one⟩, ?_, ?_⟩
  · have hempty : reached response shares.lower = ∅ ↔
        ∀ i < response.size, shares.lower * energyFrom response 0 < energyFrom response i := by
      rw [Set.eq_empty_iff_forall_notMem]
      refine forall_congr' fun i => ?_
      show ¬ (i < response.size ∧ _ ≤ _) ↔ _
      rw [not_and, not_le]
    rw [time_eq_neg_one_iff hrate, hempty]
  · intro henergy hreached
    obtain ⟨a, b, h⟩ := exists_crosses henergy hreached
    rw [totalEnergy_eq]
    exact ⟨a, b, h.first, h.second, h.le, crossings_drop h (Nat.zero_le b),
      time_of_crosses sampleRate h⟩

/-- A response that sets in after one sample and falls by 20 dB with each of the next ones. -/
noncomputable def fallingResponse : Array ℝ := #[0, 1, 0.1, 0.01]

theorem energyFrom_fallingResponse : energyFrom fallingResponse 0 = 10101 / 10000 ∧
    energyFrom fallingResponse 1 = 10101 / 10000 ∧ energyFrom fallingResponse 2 = 101 / 10000 ∧
    energyFrom fallingResponse 3 = 1 / 10000 := by
  have hthree : energyFrom fallingResponse 3 = 1 / 10000 := by
    rw [energyFrom_eq_add (by decide), energyFrom_of_size_le (by decide)]
    norm_num [fallingResponse]
  have htwo : energyFrom fallingResponse 2 = 101 / 10000 := by
    rw [energyFrom_eq_add (by decide), hthree]
    norm_num [fallingResponse]
  have hone : energyFrom fallingResponse 1 = 10101 / 10000 := by
    rw [energyFrom_eq_add (by decide), htwo]
    norm_num [fallingResponse]
  have hzero : energyFrom fallingResponse 0 = 10101 / 10000 := by
    rw [energyFrom_eq_add (by decide), hone]
    norm_num [fallingResponse]
  exact ⟨hzero, hone, htwo, hthree⟩

theorem crosses_fallingResponse : Crosses fallingResponse 2 3 := by
  obtain ⟨hzero, hone, htwo, hthree⟩ := energyFrom_fallingResponse
  obtain ⟨hlow, hhigh⟩ := shares_lower_mem
  refine ⟨by rw [hzero]; norm_num, isLeast_reached_succ (by decide) ?_ ?_,
    isLeast_reached_succ (by decide) ?_ ?_⟩
  · rw [hzero, hone, shares_upper_eq_mul]
    linarith
  · rw [hzero, htwo, shares_upper_eq_mul]
    linarith
  · rw [hzero, htwo]
    linarith
  · rw [hzero, hthree]
    linarith

theorem time_eq_span_fallingResponse :
    (0 : ℝ) < 8000 ∧ energyFrom fallingResponse 0 ≠ 0 ∧
      (∃ i < fallingResponse.size,
        energyFrom fallingResponse i ≤ shares.lower * energyFrom fallingResponse 0) ∧
      time fallingResponse 8000 = 3 * ((3 : ℕ) - (2 : ℕ)) / 8000 := by
  have hrate : (0 : ℝ) < 8000 := by norm_num
  have hcrosses := crosses_fallingResponse
  have hreached : ∃ i < fallingResponse.size,
      energyFrom fallingResponse i ≤ shares.lower * energyFrom fallingResponse 0 :=
    ⟨3, hcrosses.second.1⟩
  obtain ⟨a, b, hfirst, hsecond, -, -, htime⟩ :=
    (time_eq_span fallingResponse hrate).2.2 hcrosses.energy_ne hreached
  obtain rfl := hfirst.unique hcrosses.first
  obtain rfl := hsecond.unique hcrosses.second
  exact ⟨hrate, hcrosses.energy_ne, hreached, htime⟩

end AmbisonicReverb.Decay
