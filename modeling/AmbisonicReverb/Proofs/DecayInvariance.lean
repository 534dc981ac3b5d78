import Mathlib
import AmbisonicReverb.Proofs.DecayCurve

/-!
# What decay times do not depend on

A room has the same decay time at every level and polarity, however late its response sets in and
however long it is listened to.

**Theorem (`time_invariant`).** Read exactly, the decay time of a response does not change with its
gain or with the signs of its samples, nor with silence before it. A time that was found does not
change with silence after it either.

Only the shape of the decay curve matters, and where it starts does not: a response is `Delayed`
against another one if each share is reached a fixed number of samples later, and then the times
are the same (`Delayed.time_eq`). Silence behind a response is different, since it lets samples
count at which a share is reached. They all come after the old ones, so that a first crossing stays
the first (`Crosses.append`), but a response without a time may get one.
-/

namespace AmbisonicReverb.Decay

/-! ## Curves of changed responses -/

section

variable {response other : Array ℝ} {i : ℕ}

theorem energyFrom_eq_mul {c : ℝ} (hsize : other.size = response.size)
    (hsamples : ∀ k < response.size, other.getD k 0 ^ 2 = c * response.getD k 0 ^ 2) (i : ℕ) :
    energyFrom other i = c * energyFrom response i := by
  unfold energyFrom
  rw [hsize, Finset.mul_sum]
  exact Finset.sum_congr rfl fun k hk => hsamples k (Finset.mem_Ico.mp hk).2

theorem energyFrom_map_mul (response : Array ℝ) (g : ℝ) (i : ℕ) :
    energyFrom (response.map (· * g)) i = g ^ 2 * energyFrom response i := by
  refine energyFrom_eq_mul Array.size_map (fun k hk => ?_) i
  simp only [Array.getD_eq_getD_getElem?, Array.getElem?_map, Array.getElem?_eq_getElem hk,
    Option.map_some, Option.getD_some]
  ring

theorem energyFrom_flip (response : Array ℝ) (flipped : ℕ → Bool) (i : ℕ) :
    energyFrom (response.mapIdx fun k x => if flipped k then -x else x) i =
      1 * energyFrom response i := by
  refine energyFrom_eq_mul Array.size_mapIdx (fun k hk => ?_) i
  simp only [Array.getD_eq_getD_getElem?, Array.getElem?_mapIdx, Array.getElem?_eq_getElem hk,
    Option.map_some, Option.getD_some]
  split_ifs
  · ring
  · ring

theorem energyFrom_silence (m i : ℕ) : energyFrom (Array.replicate m 0) i = 0 := by
  refine Finset.sum_eq_zero fun k hk => ?_
  have hk : k < m := by simpa using (Finset.mem_Ico.mp hk).2
  simp [Array.getD_eq_getD_getElem?, hk]

theorem energyFrom_append_right (first second : Array ℝ) (i : ℕ) :
    energyFrom (first ++ second) (first.size + i) = energyFrom second i := by
  unfold energyFrom
  rw [Array.size_append, add_comm first.size i, add_comm first.size second.size,
    ← Finset.sum_Ico_add]
  refine Finset.sum_congr rfl fun k _ => ?_
  simp [Array.getD_eq_getD_getElem?, Array.getElem?_append_right (Nat.le_add_right first.size k)]

theorem energyFrom_append_left (second : Array ℝ) (hi : i ≤ response.size) :
    energyFrom (response ++ second) i = energyFrom response i + energyFrom second 0 := by
  have hsize : response.size ≤ (response ++ second).size := by simp
  rw [← energyFrom_append_right response second 0, add_zero]
  unfold energyFrom
  rw [← Finset.sum_Ico_consecutive _ hi hsize]
  congr 1
  refine Finset.sum_congr rfl fun k hk => ?_
  rw [Array.getD_eq_getD_getElem?, Array.getD_eq_getD_getElem?,
    Array.getElem?_append_left (Finset.mem_Ico.mp hk).2]

end

/-! ## Delays -/

/-- The other response reaches each share of its energy `m` samples later. -/
structure Delayed (m : ℕ) (response other : Array ℝ) : Prop where
  energy_eq_zero_iff : energyFrom other 0 = 0 ↔ energyFrom response 0 = 0
  reached_eq : energyFrom response 0 ≠ 0 → ∀ share < 1,
    reached other share = (m + ·) '' reached response share

section

variable {response other : Array ℝ} {m a b : ℕ}

theorem Delayed.isLeast (h : Delayed m response other) (henergy : energyFrom response 0 ≠ 0)
    {share : ℝ} (hshare : share < 1) (ha : IsLeast (reached response share) a) :
    IsLeast (reached other share) (m + a) := by
  rw [h.reached_eq henergy share hshare]
  exact Monotone.map_isLeast (fun _ _ hij => Nat.add_le_add_left hij m) ha

theorem Delayed.crosses (h : Delayed m response other) (hcrosses : Crosses response a b) :
    Crosses other (m + a) (m + b) where
  energy_ne := mt h.energy_eq_zero_iff.mp hcrosses.energy_ne
  first := h.isLeast hcrosses.energy_ne shares_upper_lt_one hcrosses.first
  second := h.isLeast hcrosses.energy_ne shares_lower_lt_one hcrosses.second

theorem Delayed.not_crosses (h : Delayed m response other) (hnot : ∀ a b, ¬ Crosses response a b) :
    ∀ a b, ¬ Crosses other a b := by
  rw [forall_not_crosses_iff] at hnot ⊢
  by_cases henergy : energyFrom response 0 = 0
  · exact .inl (h.energy_eq_zero_iff.mpr henergy)
  · have hempty := hnot.resolve_left henergy
    right
    rw [h.reached_eq henergy _ shares_lower_lt_one, hempty, Set.image_empty]

/-- The span between the crossings is the same, and so is the time. -/
theorem Delayed.time_eq (h : Delayed m response other) (sampleRate : ℝ) :
    time other sampleRate = time response sampleRate := by
  by_cases hcrosses : ∃ a b, Crosses response a b
  · obtain ⟨a, b, hcrosses⟩ := hcrosses
    rw [time_of_crosses sampleRate hcrosses, time_of_crosses sampleRate (h.crosses hcrosses)]
    push_cast
    ring
  · have hnot : ∀ a b, ¬ Crosses response a b := fun a b hab => hcrosses ⟨a, b, hab⟩
    rw [time_of_not_crosses sampleRate hnot, time_of_not_crosses sampleRate (h.not_crosses hnot)]

/-- A curve of the same shape reaches all shares at the same samples. -/
theorem delayed_of_mul {c : ℝ} (hc : 0 < c) (hsize : other.size = response.size)
    (hcurve : ∀ i, energyFrom other i = c * energyFrom response i) : Delayed 0 response other := by
  refine ⟨by rw [hcurve, mul_eq_zero, or_iff_right hc.ne'], fun _ share _ => ?_⟩
  have hshare (i : ℕ) : c * energyFrom response i ≤ share * (c * energyFrom response 0) ↔
      energyFrom response i ≤ share * energyFrom response 0 := by
    rw [mul_left_comm, mul_le_mul_iff_right₀ hc]
  simp only [zero_add, Set.image_id']
  unfold reached
  simp only [hsize, hcurve, hshare]

/-- Silence before a response delays it. -/
theorem delayed_append (response : Array ℝ) (m : ℕ) :
    Delayed m response (Array.replicate m 0 ++ response) := by
  have hbefore : ∀ i ≤ m,
      energyFrom (Array.replicate m 0 ++ response) i = energyFrom response 0 := by
    intro i hi
    rw [energyFrom_append_left response (by simpa using hi), energyFrom_silence, zero_add]
  have hafter : ∀ i,
      energyFrom (Array.replicate m 0 ++ response) (m + i) = energyFrom response i := by
    intro i
    have hright := energyFrom_append_right (Array.replicate m 0) response i
    rwa [Array.size_replicate] at hright
  refine ⟨by rw [hbefore 0 (Nat.zero_le m)], fun henergy share hshare => ?_⟩
  have hpos := energyFrom_zero_pos henergy
  ext j
  constructor
  · rintro ⟨hj, hleft⟩
    rw [hbefore 0 (Nat.zero_le m)] at hleft
    -- on the leading silence all of the energy is left, which is more than the share
    have hlater : m < j := by
      by_contra hle
      rw [hbefore j (not_lt.mp hle)] at hleft
      have hlt := mul_lt_mul_of_pos_right hshare hpos
      linarith
    obtain ⟨i, rfl⟩ := Nat.exists_eq_add_of_le hlater.le
    rw [hafter] at hleft
    refine ⟨i, ⟨?_, hleft⟩, rfl⟩
    simpa using hj
  · rintro ⟨i, ⟨hi, hleft⟩, rfl⟩
    refine ⟨by simpa using hi, ?_⟩
    rw [hafter, hbefore 0 (Nat.zero_le m)]
    exact hleft

/-! ## Silence behind a response -/

/-- Silence behind a response brings no earlier crossing. -/
theorem isLeast_reached_append {share : ℝ} (m : ℕ) (ha : IsLeast (reached response share) a) :
    IsLeast (reached (response ++ Array.replicate m 0) share) a := by
  have hcurve : ∀ i ≤ response.size,
      energyFrom (response ++ Array.replicate m 0) i = energyFrom response i := by
    intro i hi
    rw [energyFrom_append_left _ hi, energyFrom_silence, add_zero]
  obtain ⟨⟨hsize, hleft⟩, hleast⟩ := ha
  refine ⟨⟨?_, ?_⟩, ?_⟩
  · rw [Array.size_append]
    omega
  · rwa [hcurve a hsize.le, hcurve 0 (Nat.zero_le _)]
  · rintro j ⟨-, hj⟩
    rcases lt_or_ge j response.size with hlt | hge
    · rw [hcurve j hlt.le, hcurve 0 (Nat.zero_le _)] at hj
      exact hleast ⟨hlt, hj⟩
    · exact hsize.le.trans hge

theorem Crosses.append (h : Crosses response a b) (m : ℕ) :
    Crosses (response ++ Array.replicate m 0) a b where
  energy_ne := by
    rw [energyFrom_append_left _ (Nat.zero_le _), energyFrom_silence, add_zero]
    exact h.energy_ne
  first := isLeast_reached_append m h.first
  second := isLeast_reached_append m h.second

end

/-- **What decay times do not depend on.** The decay time of a response is the same at any gain but
zero, with any samples flipped in sign, and with any silence before it. If there is one, it is also
the same with any silence behind the response. -/
theorem time_invariant (response : Array ℝ) (sampleRate : ℝ) :
    (∀ g ≠ 0, time (response.map (· * g)) sampleRate = time response sampleRate) ∧
      (∀ flipped : ℕ → Bool,
        time (response.mapIdx fun k x => if flipped k then -x else x) sampleRate =
          time response sampleRate) ∧
      (∀ m, time (Array.replicate m 0 ++ response) sampleRate = time response sampleRate) ∧
      (time response sampleRate ≠ -1 → ∀ m,
        time (response ++ Array.replicate m 0) sampleRate = time response sampleRate) := by
  refine ⟨fun g hg => ?_, fun flipped => ?_, fun m => ?_, fun hfound m => ?_⟩
  · have hgain : 0 < g ^ 2 := by positivity
    exact (delayed_of_mul hgain Array.size_map (energyFrom_map_mul response g)).time_eq sampleRate
  · exact (delayed_of_mul one_pos Array.size_mapIdx (energyFrom_flip response flipped)).time_eq
      sampleRate
  · exact (delayed_append response m).time_eq sampleRate
  · obtain ⟨a, b, hcrosses⟩ := (time_eq_or_crosses sampleRate response).resolve_left hfound
    rw [time_of_crosses sampleRate hcrosses, time_of_crosses sampleRate (hcrosses.append m)]

theorem time_invariant_fallingResponse :
    ((-2 : ℝ) ≠ 0 ∧ time fallingResponse 8000 ≠ -1) ∧
      time (fallingResponse.map (· * -2)) 8000 = time fallingResponse 8000 ∧
      time (fallingResponse ++ Array.replicate 3 0) 8000 = time fallingResponse 8000 := by
  have hgain : (-2 : ℝ) ≠ 0 := by norm_num
  have hnonneg := time_nonneg_of_crosses (show (0 : ℝ) < 8000 by norm_num) crosses_fallingResponse
  have hfound : time fallingResponse 8000 ≠ -1 := by linarith
  obtain ⟨hgains, -, -, hsilence⟩ := time_invariant fallingResponse 8000
  exact ⟨⟨hgain, hfound⟩, hgains (-2) hgain, hsilence hfound 3⟩

end AmbisonicReverb.Decay
