import Mathlib
import AmbisonicReverb.Proofs.BinaryValue

/-!
# Rounding

The result of an operation on binary32 numbers is the exact result, rounded. All that is said about
the rounding here is that no finite number lies between the exact and the rounded result
(`Rounds`). Whatever bounds the exact result and is a binary32 number also bounds the rounded one.

* `Reads` — the bits behind a significand say where the exact number is. `Locates` also says on
  which side of the middle between two significands.
* `rounds_roundWithAccuracy` — rounding to the exponent of a canonical form passes no number.
* `Rounded` — a result that was rounded in this way, so that more can be said about it.
* `rounds_mul`, `rounds_sub`, `rounds_div`, `rounds_ofNat` — the operations, where the exact result
  is not negative.
-/

namespace AmbisonicReverb

open Float.Model (Format UnpackedFloat totalExponent)
open Float.Model.UnpackedFloat

/-! ## Significands -/

/-- The number that an extended significand was cut from is not less than the significand and less
than the next one. The bits behind the significand are clear only if nothing was cut off, and the
first of them is set only if something was. -/
structure Reads (em : ExtendedMantissa) (x : ℝ) : Prop where
  le : em.mantissa ≤ x
  lt : x < em.mantissa + 1
  eq : em.roundBit = false → em.stickyBit = false → x = em.mantissa
  lt_of_roundBit : em.roundBit = true → em.mantissa < x

namespace Reads

variable {em : ExtendedMantissa} {x : ℝ}

theorem exact (m : ℕ) : Reads (.ofMantissaAndAccuracy m .exact) m where
  le := le_rfl
  lt := lt_add_one _
  eq _ _ := rfl
  lt_of_roundBit h := nomatch h

theorem shiftRightOne (h : Reads em x) : Reads em.shiftRightOne (x / 2) := by
  have hle := h.le
  have hlt := h.lt
  have hm : (em.mantissa : ℝ) = 2 * (em.mantissa / 2 : ℕ) + (em.mantissa % 2 : ℕ) := by
    exact_mod_cast (Nat.div_add_mod em.mantissa 2).symm
  have hmantissa : em.shiftRightOne.mantissa = em.mantissa / 2 := rfl
  have hsticky : em.shiftRightOne.stickyBit = (em.roundBit || em.stickyBit) := rfl
  rcases Nat.mod_two_eq_zero_or_one em.mantissa with hparity | hparity
  · have hround : em.shiftRightOne.roundBit = false := by
      simp [ExtendedMantissa.shiftRightOne, hparity]
    rw [hparity, Nat.cast_zero, add_zero] at hm
    refine ⟨?_, ?_, fun _ hclear => ?_, fun hset => ?_⟩
    · rw [hmantissa]; linarith
    · rw [hmantissa]; linarith
    · rw [hsticky, Bool.or_eq_false_iff] at hclear
      rw [hmantissa, h.eq hclear.1 hclear.2, hm]
      ring
    · exact absurd (hround.symm.trans hset) Bool.false_ne_true
  · have hround : em.shiftRightOne.roundBit = true := by
      simp [ExtendedMantissa.shiftRightOne, hparity]
    rw [hparity, Nat.cast_one] at hm
    refine ⟨?_, ?_, fun hclear => ?_, fun _ => ?_⟩
    · rw [hmantissa]; linarith
    · rw [hmantissa]; linarith
    · exact absurd (hclear.symm.trans hround) Bool.false_ne_true
    · rw [hmantissa]; linarith

theorem shiftRight (h : Reads em x) (n : ℕ) : Reads (em >>> n) (x / 2 ^ n) := by
  induction n with
  | zero =>
    rw [pow_zero, div_one]
    exact h
  | succ n ih =>
    have hstep := ih.shiftRightOne
    rw [div_div, ← pow_succ] at hstep
    exact hstep

/-- A significand is rounded up only if something was cut off. -/
theorem roundedMantissa_le (h : Reads em x) {n : ℕ} (hn : x ≤ n) : em.roundedMantissa ≤ n := by
  have hm : em.mantissa ≤ n := by exact_mod_cast h.le.trans hn
  obtain ⟨m, round, sticky⟩ := em
  cases round with
  | false => cases sticky <;> exact hm
  | true =>
    have hlt : m < n := by exact_mod_cast (h.lt_of_roundBit rfl).trans_le hn
    have hparity := Nat.mod_lt m two_pos
    cases sticky with
    | false => exact (Nat.add_le_add_left (Nat.lt_succ_iff.mp hparity) m).trans hlt
    | true => exact hlt

theorem le_roundedMantissa (h : Reads em x) {n : ℕ} (hn : n ≤ x) : n ≤ em.roundedMantissa := by
  have hm : n ≤ em.mantissa := by
    have hlt : (n : ℝ) < (em.mantissa + 1 : ℕ) := by exact_mod_cast hn.trans_lt h.lt
    exact Nat.lt_succ_iff.mp (by exact_mod_cast hlt)
  obtain ⟨m, round, sticky⟩ := em
  cases round <;> cases sticky
  · exact hm
  · exact hm
  · exact hm.trans (Nat.le_add_right _ _)
  · exact hm.trans (Nat.le_succ m)

end Reads

/-- The bits also say on which side of the next half the number is. -/
structure Locates (em : ExtendedMantissa) (x : ℝ) : Prop extends Reads em x where
  lt_half : em.roundBit = false → x < em.mantissa + 1 / 2
  eq_half : em.roundBit = true → em.stickyBit = false → x = em.mantissa + 1 / 2
  half_lt : em.roundBit = true → em.stickyBit = true → em.mantissa + 1 / 2 < x
  lt_of_stickyBit : em.stickyBit = true → em.mantissa < x

namespace Locates

variable {em : ExtendedMantissa} {x : ℝ}

theorem exact (m : ℕ) : Locates (.ofMantissaAndAccuracy m .exact) m where
  toReads := .exact m
  lt_half _ := lt_add_of_pos_right _ one_half_pos
  eq_half h := nomatch h
  half_lt h := nomatch h
  lt_of_stickyBit h := nomatch h

theorem shiftRightOne (h : Locates em x) : Locates em.shiftRightOne (x / 2) := by
  have hle := h.le
  have hlt := h.lt
  have hm : (em.mantissa : ℝ) = 2 * (em.mantissa / 2 : ℕ) + (em.mantissa % 2 : ℕ) := by
    exact_mod_cast (Nat.div_add_mod em.mantissa 2).symm
  have hmantissa : em.shiftRightOne.mantissa = em.mantissa / 2 := rfl
  have hsticky : em.shiftRightOne.stickyBit = (em.roundBit || em.stickyBit) := rfl
  -- What was cut off before now lies behind the last digit.
  have hcut : em.shiftRightOne.stickyBit = true → em.mantissa < x := by
    rw [hsticky, Bool.or_eq_true]
    rintro (hround | hsticky)
    · exact h.lt_of_roundBit hround
    · exact h.lt_of_stickyBit hsticky
  have hexact : em.shiftRightOne.stickyBit = false → x = em.mantissa := by
    rw [hsticky, Bool.or_eq_false_iff]
    exact fun hclear => h.eq hclear.1 hclear.2
  refine ⟨h.toReads.shiftRightOne, ?_, ?_, ?_, fun hset => ?_⟩ <;>
    rcases Nat.mod_two_eq_zero_or_one em.mantissa with hparity | hparity <;>
    rw [hparity] at hm <;> push_cast at hm <;> rw [hmantissa]
  · exact fun _ => by linarith
  · exact fun hround => absurd hround (by simp [ExtendedMantissa.shiftRightOne, hparity])
  · exact fun hround => absurd hround (by simp [ExtendedMantissa.shiftRightOne, hparity])
  · exact fun _ hclear => by linarith [hexact hclear]
  · exact fun hround => absurd hround (by simp [ExtendedMantissa.shiftRightOne, hparity])
  · exact fun _ hset => by linarith [hcut hset]
  · linarith [hcut hset]
  · linarith [hcut hset]

theorem shiftRight (h : Locates em x) (n : ℕ) : Locates (em >>> n) (x / 2 ^ n) := by
  induction n with
  | zero =>
    rw [pow_zero, div_one]
    exact h
  | succ n ih =>
    have hstep := ih.shiftRightOne
    rw [div_div, ← pow_succ] at hstep
    exact hstep

end Locates

/-! ## Canonical forms next to a value -/

/-- A canonical form stands for a multiple of any smaller power of two. -/
theorem value_eq_of_le {n : ℕ} {e f : ℤ} (h : e ≤ f) :
    (n : ℝ) * 2 ^ f = (n * 2 ^ (f - e).toNat : ℕ) * 2 ^ e := by
  obtain ⟨k, rfl⟩ := Int.le.dest h
  have hk : (e + k - e).toNat = k := by omega
  rw [hk, zpow_add₀ two_ne_zero]
  push_cast
  rw [zpow_natCast]
  ring

/-- No canonical form lies between a value and the significand that it is rounded to. -/
theorem rounded_value {em : ExtendedMantissa} {x : ℝ} {e : ℤ} (h : Reads em x)
    (hnormal : -149 < e → 2 ^ 23 ≤ x) {n : ℕ} {f : ℤ} (hfits : Fits n f) :
    (x * 2 ^ e ≤ n * 2 ^ f → (em.roundedMantissa : ℝ) * 2 ^ e ≤ n * 2 ^ f) ∧
      (n * 2 ^ f ≤ x * 2 ^ e → (n : ℝ) * 2 ^ f ≤ em.roundedMantissa * 2 ^ e) := by
  have hpos : (0 : ℝ) < 2 ^ e := zpow_pos two_pos e
  rcases le_or_gt e f with hef | hfe
  · rw [value_eq_of_le hef, mul_le_mul_iff_left₀ hpos, mul_le_mul_iff_left₀ hpos,
      mul_le_mul_iff_left₀ hpos, mul_le_mul_iff_left₀ hpos]
    exact ⟨fun hx => by exact_mod_cast h.roundedMantissa_le hx,
      fun hx => by exact_mod_cast h.le_roundedMantissa hx⟩
  · have hlarge : (2 ^ 23 : ℕ) ≤ x := by
      exact_mod_cast hnormal (hfits.least_le.trans_lt hfe)
    have hrounded : ((2 ^ 23 : ℕ) : ℝ) ≤ em.roundedMantissa := by
      exact_mod_cast h.le_roundedMantissa hlarge
    have hbinade : (n : ℝ) * 2 ^ f < (2 ^ 23 : ℕ) * 2 ^ e := by
      calc (n : ℝ) * 2 ^ f < 2 ^ (24 + f) := hfits.value_lt
        _ ≤ 2 ^ (23 + e) := zpow_le_zpow_right₀ one_le_two (by omega)
        _ = (2 ^ 23 : ℕ) * 2 ^ e := by rw [zpow_add₀ two_ne_zero]; norm_num
    have hx := hbinade.trans_le (mul_le_mul_of_nonneg_right hlarge hpos.le)
    have hr := hbinade.trans_le (mul_le_mul_of_nonneg_right hrounded hpos.le)
    exact ⟨fun hle => absurd hle (not_le.mpr hx), fun _ => hr.le⟩

theorem shiftToTargetExponent_eq {m n : ℕ} {e : ℤ} {accuracy : Accuracy}
    (h : (max ((m.log2 : ℤ) + 1 + e - 24) (-149) - e).toNat = n) :
    shiftToTargetExponent Format.binary32 m e accuracy =
      (ExtendedMantissa.ofMantissaAndAccuracy m accuracy >>> n, e + n) := by
  subst h
  rfl

/-- A rounded significand of 25 digits loses its last one, which is 0. -/
theorem fits_shift_rounded {r : ℕ} {e : ℤ} (hr : r ≤ 2 ^ 24) (hleast : -149 ≤ e)
    (hnormal : -149 < e → 2 ^ 23 ≤ r) {shifted : ExtendedMantissa × ℤ}
    (hshifted : shiftToTargetExponent Format.binary32 r e .exact = shifted) :
    Fits shifted.1.mantissa shifted.2 ∧ (shifted.1.mantissa : ℝ) * 2 ^ shifted.2 = r * 2 ^ e := by
  rcases hr.lt_or_eq with hlt | rfl
  · have hlog : r.log2 < 24 := by
      by_cases hzero : r = 0
      · rw [hzero]
        decide
      · exact (Nat.log2_lt hzero).mpr hlt
    have hstay : (max ((r.log2 : ℤ) + 1 + e - 24) (-149) - e).toNat = 0 := by omega
    rw [shiftToTargetExponent_eq hstay, Nat.cast_zero, add_zero] at hshifted
    subst hshifted
    exact ⟨⟨hlt, hleast, hnormal⟩, rfl⟩
  · have hlog : (2 ^ 24 : ℕ).log2 = 24 := Nat.log2_two_pow
    have hmove : (max (((2 ^ 24 : ℕ).log2 : ℤ) + 1 + e - 24) (-149) - e).toNat = 1 := by
      rw [hlog]
      omega
    rw [shiftToTargetExponent_eq hmove] at hshifted
    subst hshifted
    have hmantissa : (ExtendedMantissa.ofMantissaAndAccuracy (2 ^ 24) .exact >>> 1).mantissa =
        2 ^ 23 := rfl
    refine ⟨⟨?_, ?_, fun _ => ?_⟩, ?_⟩
    · rw [hmantissa]
      norm_num
    · dsimp only
      omega
    · rw [hmantissa]
    · rw [hmantissa, zpow_add₀ two_ne_zero]
      push_cast
      ring

/-! ## Rounded numbers -/

/-- No finite number lies between the value and the number. -/
structure Rounds (v : ℝ) (r : Float32) : Prop where
  le : ∀ y : Float32, y.isFinite → v ≤ realOf y → r ≤ y
  ge : ∀ y : Float32, y.isFinite → realOf y ≤ v → y ≤ r

namespace Rounds

variable {v w : ℝ} {r x y : Float32}

theorem of_isFinite (h : x.isFinite) : Rounds (realOf x) x where
  le _ hy hle := (binary32_le_iff_realOf h hy).mpr hle
  ge _ hy hle := (binary32_le_iff_realOf hy h).mpr hle

/-- What lies between finite numbers is rounded to a finite number between them. -/
theorem between (h : Rounds v r) (hx : x.isFinite) (hy : y.isFinite) (hxv : realOf x ≤ v)
    (hvy : v ≤ realOf y) : r.isFinite ∧ realOf x ≤ realOf r ∧ realOf r ≤ realOf y := by
  have hge := h.ge x hx hxv
  have hle := h.le y hy hvy
  have hr := isFinite_of_le_of_le hx hy hge hle
  exact ⟨hr, (binary32_le_iff_realOf hx hr).mp hge, (binary32_le_iff_realOf hr hy).mp hle⟩

/-- A value that is a number is not rounded. -/
theorem exact (h : Rounds v r) (hx : x.isFinite) (hxv : realOf x = v) :
    r.isFinite ∧ realOf r = v := by
  obtain ⟨hr, hge, hle⟩ := h.between hx hx hxv.le hxv.ge
  exact ⟨hr, (le_antisymm hle hge).trans hxv⟩

section

variable {m : ℕ} {e : ℤ} (hv : 0 ≤ v)
  (hnear : ∀ n f, Fits n f → (v ≤ n * 2 ^ f → (m : ℝ) * 2 ^ e ≤ n * 2 ^ f) ∧
    (n * 2 ^ f ≤ v → (n : ℝ) * 2 ^ f ≤ m * 2 ^ e))

include hv hnear

theorem of_realOf_eq (hr : r.isFinite) (hreal : realOf r = m * 2 ^ e) : Rounds v r := by
  have hnonneg : 0 ≤ (m : ℝ) * 2 ^ e := by positivity
  refine ⟨fun y hy hle => ?_, fun y hy hle => ?_⟩
  · rw [binary32_le_iff_realOf hr hy, hreal]
    rcases realOf_cases hy with hneg | ⟨n, f, hf, -, hyf⟩
    · exact absurd (hv.trans hle) (not_le.mpr hneg)
    · rw [hyf] at hle ⊢
      exact (hnear n f hf).1 hle
  · rw [binary32_le_iff_realOf hy hr, hreal]
    rcases realOf_cases hy with hneg | ⟨n, f, hf, -, hyf⟩
    · exact hneg.le.trans hnonneg
    · rw [hyf] at hle ⊢
      exact (hnear n f hf).2 hle

/-- A value that is rounded to infinity is above all numbers. -/
theorem of_overflow (hfits : Fits m e) (hlarge : 104 < e)
    (hr : r.toModel.unpack = .infinity .positive) : Rounds v r := by
  have habove : ∀ y : Float32, y.isFinite → realOf y < v := by
    intro y hy
    rcases realOf_cases hy with hneg | ⟨n, f, hf, hf', hyf⟩
    · exact hneg.trans_le hv
    · rw [hyf]
      refine lt_of_not_ge fun hle => ?_
      refine absurd ((hnear n f hf).1 hle) (not_le.mpr ?_)
      exact hf.value_lt_of_exponent_lt hfits (by omega)
  have hnan : r.isNaN = false := by
    rw [isNaN_eq_false_iff, hr]
    intro h
    cases h
  refine ⟨fun y hy hle => absurd hle (not_le.mpr (habove y hy)), fun y hy _ => ?_⟩
  have hplace : placeOf y ≤ placeOf r := by
    unfold placeOf
    rw [hr]
    exact (place_infinity hy).2.le
  exact binary32_le_iff.mpr ⟨⟨isNaN_of_isFinite hy, hnan⟩, hplace⟩

/-- The number with the canonical form next to a value. -/
theorem of_fits (hfits : Fits m e)
    (hr : r = ofUnpacked (if h : m = 0 then .zero .positive else
      .finite .positive m e (Nat.pos_of_ne_zero h))) : Rounds v r := by
  by_cases hm : m = 0
  · rw [dif_pos hm] at hr
    have hzero : Canonical (.zero .positive) := trivial
    apply of_realOf_eq hv hnear
    · exact hr ▸ isFinite_ofUnpacked hzero rfl
    · rw [hr, realOf_ofUnpacked hzero, hm, Nat.cast_zero, zero_mul]
      rfl
  · rw [dif_neg hm] at hr
    by_cases hlarge : e ≤ 104
    · have hcanonical : Canonical (.finite .positive m e (Nat.pos_of_ne_zero hm)) :=
        ⟨hfits, hlarge⟩
      apply of_realOf_eq hv hnear
      · exact hr ▸ isFinite_ofUnpacked hcanonical rfl
      · rw [hr, realOf_ofUnpacked hcanonical]
        rfl
    · apply of_overflow hv hnear hfits (not_le.mp hlarge)
      rw [hr]
      exact unpack_pack_overflow .positive (not_le.mp hlarge) (Nat.pos_of_ne_zero hm)

end

end Rounds

/-- The number that a significand was cut from has as many binary digits as the significand. -/
theorem Reads.binade {m : ℕ} {accuracy : Accuracy} {x : ℝ}
    (h : Reads (.ofMantissaAndAccuracy m accuracy) x) :
    0 ≤ x ∧ (m ≠ 0 → 2 ^ m.log2 ≤ x) ∧ x < 2 ^ (m.log2 + 1) := by
  have hmantissa : (ExtendedMantissa.ofMantissaAndAccuracy m accuracy).mantissa = m := by
    rcases accuracy with _ | _ | _ | _ <;> rfl
  have hlow : (m : ℝ) ≤ x := hmantissa ▸ h.le
  have hhigh : x < m + 1 := hmantissa ▸ h.lt
  refine ⟨m.cast_nonneg.trans hlow, fun hm => ?_, hhigh.trans_le ?_⟩
  · have hlog : (2 : ℝ) ^ m.log2 ≤ m := by exact_mod_cast Nat.log2_self_le hm
    exact hlog.trans hlow
  · exact_mod_cast Nat.lt_log2_self

/-- The first shift leaves as many digits as a canonical form has. -/
theorem exists_cut {m : ℕ} {e : ℤ} {accuracy : Accuracy} {x : ℝ}
    (hreads : Reads (.ofMantissaAndAccuracy m accuracy) x)
    (he : e ≤ max ((m.log2 : ℤ) + 1 + e - 24) (-149)) :
    ∃ k : ℕ, shiftToTargetExponent Format.binary32 m e accuracy =
        (ExtendedMantissa.ofMantissaAndAccuracy m accuracy >>> k, e + k) ∧
      x * 2 ^ e = x / 2 ^ k * 2 ^ (e + k) ∧ -149 ≤ e + k ∧ x / 2 ^ k < (2 ^ 24 : ℕ) ∧
      (-149 < e + k → (2 ^ 23 : ℕ) ≤ x / 2 ^ k) := by
  obtain ⟨k, hk⟩ := Int.le.dest he
  obtain ⟨hx, hlow, hhigh⟩ := hreads.binade
  have hpow : (0 : ℝ) < 2 ^ k := by positivity
  refine ⟨k, shiftToTargetExponent_eq (by omega), ?_, by omega, ?_, fun h => ?_⟩
  · rw [zpow_add₀ two_ne_zero, zpow_natCast]
    field_simp
  · rw [div_lt_iff₀ hpow, Nat.cast_pow, Nat.cast_ofNat, ← pow_add]
    exact hhigh.trans_le (pow_le_pow_right₀ one_le_two (by omega))
  · have hm : m ≠ 0 := by
      rintro rfl
      rw [Nat.log2_zero] at hk
      omega
    have hlog : 23 + k = m.log2 := by omega
    rw [le_div_iff₀ hpow, Nat.cast_pow, Nat.cast_ofNat, ← pow_add, hlog]
    exact hlow hm

/-- Rounding leads to a canonical form next to the value. The sign has no part in it. -/
theorem exists_roundWithAccuracy {m : ℕ} {e : ℤ} {accuracy : Accuracy} {x : ℝ}
    (hreads : Reads (.ofMantissaAndAccuracy m accuracy) x)
    (he : e ≤ max ((m.log2 : ℤ) + 1 + e - 24) (-149)) :
    ∃ n f, Fits n f ∧
      (∀ s, roundWithAccuracy Format.binary32 s m e accuracy =
        if h : n = 0 then .zero s else .finite s n f (Nat.pos_of_ne_zero h)) ∧
      ∀ n' f', Fits n' f' → (x * 2 ^ e ≤ n' * 2 ^ f' → (n : ℝ) * 2 ^ f ≤ n' * 2 ^ f') ∧
        (n' * 2 ^ f' ≤ x * 2 ^ e → (n' : ℝ) * 2 ^ f' ≤ n * 2 ^ f) := by
  obtain ⟨k, hfirst, hvalue, hleast, hdigits, hnormal⟩ := exists_cut hreads he
  have hcut := hreads.shiftRight k
  obtain ⟨hfits, hfinal⟩ := fits_shift_rounded (hcut.roundedMantissa_le hdigits.le) hleast
    (fun h => hcut.le_roundedMantissa (hnormal h)) rfl
  rw [hvalue]
  refine ⟨_, _, hfits, fun s => ?_, fun n f hf => ?_⟩
  · unfold roundWithAccuracy
    simp only [hfirst]
  · rw [hfinal]
    exact rounded_value hcut (by exact_mod_cast hnormal) hf

/-- **Rounding passes no number.** The significand was cut from a number, with an exponent that is
not too large. -/
theorem rounds_roundWithAccuracy {m : ℕ} {e : ℤ} {accuracy : Accuracy} {x : ℝ}
    (hreads : Reads (.ofMantissaAndAccuracy m accuracy) x)
    (he : e ≤ max ((m.log2 : ℤ) + 1 + e - 24) (-149)) :
    Rounds (x * 2 ^ e)
      (ofUnpacked (roundWithAccuracy Format.binary32 .positive m e accuracy)) := by
  obtain ⟨n, f, hfits, hround, hnear⟩ := exists_roundWithAccuracy hreads he
  have hx : 0 ≤ x * 2 ^ e := mul_nonneg hreads.binade.1 (by positivity)
  exact Rounds.of_fits hx hnear hfits (congrArg ofUnpacked (hround .positive))

/-- The value was rounded to the number: it is zero, or it was cut to a significand that says where
it is. -/
inductive Rounded : ℝ → Float32 → Prop
  | zero (s : Sign) : Rounded 0 (ofUnpacked (.zero s))
  | cut {m : ℕ} {e : ℤ} {accuracy : Accuracy} {x : ℝ}
      (hx : Locates (.ofMantissaAndAccuracy m accuracy) x)
      (he : e ≤ max ((m.log2 : ℤ) + 1 + e - 24) (-149)) :
      Rounded (x * 2 ^ e) (ofUnpacked (roundWithAccuracy Format.binary32 .positive m e accuracy))

/-- Rounding that first moves the exponent as far down as it has to. -/
theorem exists_round {m : ℕ} (hm : m ≠ 0) (e : ℤ) :
    ∃ n f, Fits n f ∧
      (∀ s, round Format.binary32 s m e =
        if h : n = 0 then .zero s else .finite s n f (Nat.pos_of_ne_zero h)) ∧
      ∀ n' f', Fits n' f' → (m * 2 ^ e ≤ (n' : ℝ) * 2 ^ f' → (n : ℝ) * 2 ^ f ≤ n' * 2 ^ f') ∧
        ((n' : ℝ) * 2 ^ f' ≤ m * 2 ^ e → (n' : ℝ) * 2 ^ f' ≤ n * 2 ^ f) := by
  generalize hk : (e - max ((m.log2 : ℤ) + 1 + e - 24) (-149)).toNat = k
  have hround : ∀ s, round Format.binary32 s m e =
      roundWithAccuracy Format.binary32 s (m * 2 ^ k) (e - k) .exact := by
    intro s
    rw [← hk, ← Nat.shiftLeft_eq]
    rfl
  have hvalue : (m : ℝ) * 2 ^ e = (m * 2 ^ k : ℕ) * 2 ^ (e - k) := by
    rw [zpow_sub₀ two_ne_zero, zpow_natCast]
    push_cast
    field_simp
  simp only [hround, hvalue]
  refine exists_roundWithAccuracy (.exact _) ?_
  rw [log2_mul_two_pow hm]
  omega

theorem rounds_round {m : ℕ} (hm : m ≠ 0) (e : ℤ) :
    Rounds (m * 2 ^ e) (ofUnpacked (round Format.binary32 .positive m e)) := by
  obtain ⟨n, f, hfits, hround, hnear⟩ := exists_round hm e
  exact Rounds.of_fits (by positivity) hnear hfits (congrArg ofUnpacked (hround .positive))

theorem rounds_ofUnpacked {u : UnpackedFloat} (h : Canonical u) (hu : u.isFinite) :
    Rounds (valueOf u) (ofUnpacked u) :=
  realOf_ofUnpacked h ▸ .of_isFinite (isFinite_ofUnpacked h hu)

theorem rounds_zero (s : Sign) : Rounds 0 (ofUnpacked (.zero s)) :=
  rounds_ofUnpacked (u := .zero s) trivial rfl

theorem Rounded.rounds {v : ℝ} {r : Float32} (h : Rounded v r) : Rounds v r := by
  cases h with
  | zero s => exact rounds_zero s
  | cut hx he => exact rounds_roundWithAccuracy hx.toReads he

theorem rounds_normalize {n : ℤ} (hn : 0 ≤ n) (e : ℤ) :
    Rounds (n * 2 ^ e) (ofUnpacked (UnpackedFloat.normalize Format.binary32 n e .positive)) := by
  obtain ⟨m, rfl⟩ := Int.eq_ofNat_of_zero_le hn
  cases m with
  | zero => simpa [UnpackedFloat.normalize] using rounds_zero .positive
  | succ m =>
    have hsign : compare ((m + 1 : ℕ) : ℤ) 0 = .gt := Int.compare_eq_gt.mpr (by omega)
    have hround := rounds_round (Nat.succ_ne_zero m) e
    simp only [UnpackedFloat.normalize, hsign]
    exact hround

/-! ## Operations -/

section

variable {x y : Float32}

/-- A finite number that is not negative is zero or has no sign. -/
theorem unpack_cases (hx : x.isFinite) (hnonneg : 0 ≤ realOf x) :
    (realOf x = 0 ∧ ∃ s, x.toModel.unpack = .zero s) ∨
      ∃ m e hm, x.toModel.unpack = .finite .positive m e hm ∧ Fits m e ∧
        realOf x = m * 2 ^ e := by
  have hcanonical := canonical_of x
  have hx : x.toModel.unpack.isFinite = true := hx
  unfold realOf at hnonneg ⊢
  cases hunpack : x.toModel.unpack with
  | notANumber => exact nomatch hunpack ▸ hx
  | infinity => exact nomatch hunpack ▸ hx
  | zero s => exact .inl ⟨rfl, s, rfl⟩
  | finite s m e hm =>
    rw [hunpack] at hnonneg hcanonical
    cases s with
    | negative => exact absurd hnonneg (not_le.mpr (neg_lt_zero.mpr (significand_pos hm e)))
    | positive => exact .inr ⟨m, e, hm, rfl, hcanonical.1, rfl⟩

/-- The exact product of two significands has digits enough to be cut. -/
theorem mul_exponent_le {m n : ℕ} {e f : ℤ} (hm : 0 < m) (hn : 0 < n) (hfits : Fits m e)
    (hfits' : Fits n f) : e + f ≤ max (((m * n).log2 : ℤ) + 1 + (e + f) - 24) (-149) := by
  by_cases hleast : e = -149 ∧ f = -149
  · omega
  · have he := hfits.least_le
    have hf := hfits'.least_le
    have hlarge : 2 ^ 23 ≤ m * n := by
      rcases not_and_or.mp hleast with hnormal | hnormal
      · exact (hfits.normal (by omega)).trans (Nat.le_mul_of_pos_right m hn)
      · exact (hfits'.normal (by omega)).trans (Nat.le_mul_of_pos_left n hm)
    have hlog : 23 ≤ (m * n).log2 := (Nat.le_log2 (by positivity)).mpr hlarge
    omega

theorem rounded_mul (hx : x.isFinite) (hy : y.isFinite) (hx' : 0 ≤ realOf x)
    (hy' : 0 ≤ realOf y) : Rounded (realOf x * realOf y) (x * y) := by
  have hmul : x * y =
      ofUnpacked (UnpackedFloat.mul Format.binary32 x.toModel.unpack y.toModel.unpack) := rfl
  rw [hmul]
  rcases unpack_cases hx hx' with ⟨hxv, s, hxu⟩ | ⟨m, e, hm, hxu, hfits, hxv⟩ <;>
    rcases unpack_cases hy hy' with ⟨hyv, t, hyu⟩ | ⟨n, f, hn, hyu, hfits', hyv⟩
  · rw [hxv, hxu, hyu, zero_mul]
    exact .zero _
  · rw [hxv, hxu, hyu, zero_mul]
    exact .zero _
  · rw [hyv, hxu, hyu, mul_zero]
    exact .zero _
  · have hvalue : realOf x * realOf y = (m * n : ℕ) * 2 ^ (e + f) := by
      rw [hxv, hyv, zpow_add₀ two_ne_zero]
      push_cast
      ring
    rw [hvalue, hxu, hyu]
    exact .cut (.exact _) (mul_exponent_le hm hn hfits hfits')

theorem rounds_mul (hx : x.isFinite) (hy : y.isFinite) (hx' : 0 ≤ realOf x) (hy' : 0 ≤ realOf y) :
    Rounds (realOf x * realOf y) (x * y) :=
  (rounded_mul hx hy hx' hy').rounds

theorem rounds_sub (hx : x.isFinite) (hy : y.isFinite) (hy' : 0 ≤ realOf y)
    (hyx : realOf y ≤ realOf x) : Rounds (realOf x - realOf y) (x - y) := by
  have hsub : x - y =
      ofUnpacked (UnpackedFloat.sub Format.binary32 x.toModel.unpack y.toModel.unpack) := rfl
  rw [hsub]
  rcases unpack_cases hx (hy'.trans hyx) with ⟨hxv, s, hxu⟩ | ⟨m, e, hm, hxu, hfits, hxv⟩ <;>
    rcases unpack_cases hy hy' with ⟨hyv, t, hyu⟩ | ⟨n, f, hn, hyu, hfits', hyv⟩
  · rw [hxv, hyv, sub_zero, hxu, hyu]
    rcases s with _ | _ <;> rcases t with _ | _ <;> exact rounds_zero _
  · rw [hxv, hyv] at hyx
    exact absurd hyx (not_le.mpr (significand_pos hn f))
  · have hcanonical := canonical_of x
    rw [hxu] at hcanonical
    rw [hxv, hyv, sub_zero, hxu, hyu]
    exact rounds_ofUnpacked (u := .finite .positive m e hm) hcanonical rfl
  · let difference : ℤ := ↑(m <<< (e - min e f).toNat) - ↑(n <<< (f - min e f).toNat)
    have hvalue : realOf x - realOf y = difference * 2 ^ min e f := by
      rw [hxv, hyv, value_eq_of_le (min_le_left e f), value_eq_of_le (min_le_right e f)]
      simp only [difference, Nat.shiftLeft_eq]
      push_cast
      ring
    have hpos : (0 : ℝ) < 2 ^ min e f := by positivity
    have hdifference : 0 ≤ difference := by
      have hnonneg : 0 ≤ (difference : ℝ) * 2 ^ min e f := hvalue ▸ sub_nonneg.mpr hyx
      exact_mod_cast nonneg_of_mul_nonneg_left hnonneg hpos
    rw [hvalue, hxu, hyu]
    exact rounds_normalize hdifference (min e f)

/-- How a quotient goes on is told from the remainder. -/
theorem locates_quotient (m : ℕ) {n : ℕ} (hn : 0 < n) :
    Locates (.ofMantissaAndAccuracy (m / n) (accuracyOfFraction (m % n) n)) (m / n) := by
  have hn' : (0 : ℝ) < n := by exact_mod_cast hn
  have hdivision : (m : ℝ) = n * (m / n : ℕ) + (m % n : ℕ) := by
    exact_mod_cast (Nat.div_add_mod m n).symm
  have hremainder : ((m % n : ℕ) : ℝ) < n := by exact_mod_cast Nat.mod_lt m hn
  unfold accuracyOfFraction
  by_cases hzero : m % n = 0
  · have hquotient : (m : ℝ) / n = (m / n : ℕ) := by
      rw [div_eq_iff hn'.ne', hdivision, hzero]
      push_cast
      ring
    rw [if_pos hzero, hquotient]
    exact .exact _
  · have hpos : (0 : ℝ) < (m % n : ℕ) := by exact_mod_cast Nat.pos_of_ne_zero hzero
    have hlt : ((m / n : ℕ) : ℝ) < m / n := by
      rw [lt_div_iff₀ hn']
      linarith
    have hlt' : (m : ℝ) / n < (m / n : ℕ) + 1 := by
      rw [div_lt_iff₀ hn']
      linarith
    have hfraction : (m : ℝ) / n = (m / n : ℕ) + (m % n : ℕ) / n := by
      rw [div_eq_iff hn'.ne']
      field_simp
      linarith
    rw [if_neg hzero]
    cases hhalf : compare (2 * (m % n)) n with
    | lt =>
      have hlow : (2 : ℝ) * (m % n : ℕ) < n := by exact_mod_cast Nat.compare_eq_lt.mp hhalf
      refine ⟨⟨hlt.le, hlt', fun _ h => (nomatch h), fun _ => hlt⟩, fun _ => ?_,
        fun h => (nomatch h), fun h => (nomatch h), fun _ => hlt⟩
      show (m : ℝ) / n < (m / n : ℕ) + 1 / 2
      rw [hfraction, add_lt_add_iff_left, div_lt_div_iff₀ hn' two_pos]
      linarith
    | eq =>
      have hmiddle : (2 : ℝ) * (m % n : ℕ) = n := by exact_mod_cast Nat.compare_eq_eq.mp hhalf
      refine ⟨⟨hlt.le, hlt', fun h => (nomatch h), fun _ => hlt⟩, fun h => (nomatch h),
        fun _ _ => ?_, fun _ h => (nomatch h), fun _ => hlt⟩
      show (m : ℝ) / n = (m / n : ℕ) + 1 / 2
      rw [hfraction, add_right_inj, div_eq_div_iff hn'.ne' two_ne_zero]
      linarith
    | gt =>
      have hhigh : (n : ℝ) < 2 * (m % n : ℕ) := by exact_mod_cast Nat.compare_eq_gt.mp hhalf
      refine ⟨⟨hlt.le, hlt', fun h => (nomatch h), fun _ => hlt⟩, fun h => (nomatch h),
        fun _ h => (nomatch h), fun _ _ => ?_, fun _ => hlt⟩
      show ((m / n : ℕ) : ℝ) + 1 / 2 < m / n
      rw [hfraction, add_lt_add_iff_left, div_lt_div_iff₀ two_pos hn']
      linarith

/-- A quotient has as many digits as its logarithms say, or one less. -/
theorem le_log2_div {m n : ℕ} (hm : m ≠ 0) (hn : n ≠ 0) {k : ℕ}
    (h : n.log2 + 1 + k ≤ m.log2) : k ≤ (m / n).log2 := by
  have hn' : n < 2 ^ (n.log2 + 1) := Nat.lt_log2_self
  have hle : 2 ^ k ≤ m / n := by
    rw [Nat.le_div_iff_mul_le (Nat.pos_of_ne_zero hn)]
    calc 2 ^ k * n ≤ 2 ^ k * 2 ^ (n.log2 + 1) := Nat.mul_le_mul_left _ hn'.le
      _ = 2 ^ (n.log2 + 1 + k) := by ring
      _ ≤ 2 ^ m.log2 := Nat.pow_le_pow_right two_pos h
      _ ≤ m := Nat.log2_self_le hm
  have hpos := Nat.two_pow_pos k
  exact (Nat.le_log2 (by omega)).mpr hle

theorem rounded_div (hx : x.isFinite) (hy : y.isFinite) (hx' : 0 ≤ realOf x)
    (hy' : 0 < realOf y) : Rounded (realOf x / realOf y) (x / y) := by
  have hdiv : x / y =
      ofUnpacked (UnpackedFloat.div Format.binary32 x.toModel.unpack y.toModel.unpack) := rfl
  rw [hdiv]
  rcases unpack_cases hx hx' with ⟨hxv, s, hxu⟩ | ⟨m, e, hm, hxu, hfits, hxv⟩ <;>
    rcases unpack_cases hy hy'.le with ⟨hyv, t, hyu⟩ | ⟨n, f, hn, hyu, hfits', hyv⟩
  · exact absurd hyv hy'.ne'
  · rw [hxv, hxu, hyu, zero_div]
    exact .zero _
  · exact absurd hyv hy'.ne'
  · generalize ht : min (e - f) (max (totalExponent m e - totalExponent n f - 24) (-149)) = t
    generalize hk : (e - f - t).toNat = k
    have hdivCore : UnpackedFloat.div Format.binary32 (.finite .positive m e hm)
        (.finite .positive n f hn) = roundWithAccuracy Format.binary32 .positive (m * 2 ^ k / n) t
          (accuracyOfFraction (m * 2 ^ k % n) n) := by
      rw [← hk, ← ht, ← Nat.shiftLeft_eq]
      rfl
    have hvalue : realOf x / realOf y = (m * 2 ^ k : ℕ) / n * 2 ^ t := by
      have hef : e = t + k + f := by omega
      rw [hxv, hyv, hef, zpow_add₀ two_ne_zero, zpow_add₀ two_ne_zero, zpow_natCast]
      push_cast
      field_simp
    rw [hvalue, hxu, hyu, hdivCore]
    refine .cut (locates_quotient _ hn) ?_
    have hlog := log2_mul_two_pow hm.ne' k
    unfold totalExponent at ht
    by_cases hleast : t ≤ -149
    · omega
    · have hdigits := le_log2_div (m := m * 2 ^ k) (k := m.log2 + k - n.log2 - 1) (by positivity)
        hn.ne' (by omega)
      omega

theorem rounds_div (hx : x.isFinite) (hy : y.isFinite) (hx' : 0 ≤ realOf x) (hy' : 0 < realOf y) :
    Rounds (realOf x / realOf y) (x / y) :=
  (rounded_div hx hy hx' hy').rounds

theorem exists_realOf_eq_of_fits {m : ℕ} {e : ℤ} (hm : 0 < m) (h : Fits m e) (he : e ≤ 104) :
    ∃ y : Float32, y.isFinite ∧ realOf y = m * 2 ^ e := by
  have hcanonical : Canonical (.finite .positive m e hm) := ⟨h, he⟩
  exact ⟨ofUnpacked _, isFinite_ofUnpacked hcanonical rfl, realOf_ofUnpacked hcanonical⟩

/-- Natural numbers up to `2 ^ 24` are binary32 numbers. -/
theorem exists_realOf_eq {n : ℕ} (h : n ≤ 2 ^ 24) : ∃ y : Float32, y.isFinite ∧ realOf y = n := by
  rcases h.lt_or_eq with hlt | rfl
  · by_cases hn : n = 0
    · have hzero : Canonical (.zero .positive) := trivial
      refine ⟨ofUnpacked (.zero .positive), isFinite_ofUnpacked hzero rfl, ?_⟩
      rw [realOf_ofUnpacked hzero, hn]
      exact Nat.cast_zero.symm
    · have hlog : n.log2 < 24 := (Nat.log2_lt hn).mpr hlt
      obtain ⟨k, hk⟩ := Nat.exists_eq_add_of_le (Nat.lt_succ_iff.mp hlog)
      have hdigits : (n * 2 ^ k).log2 = 23 := by rw [log2_mul_two_pow hn, ← hk]
      obtain ⟨hlow, hhigh⟩ := (Nat.log2_eq_iff (by positivity)).mp hdigits
      obtain ⟨y, hy, hyn⟩ := exists_realOf_eq_of_fits (m := n * 2 ^ k) (e := -k) (by positivity)
        ⟨hhigh, by omega, fun _ => hlow⟩ (by omega)
      refine ⟨y, hy, hyn.trans ?_⟩
      rw [zpow_neg, zpow_natCast]
      push_cast
      field_simp
  · obtain ⟨y, hy, hyn⟩ := exists_realOf_eq_of_fits (m := 2 ^ 23) (e := 1) (by norm_num)
      ⟨by norm_num, by norm_num, fun _ => le_rfl⟩ (by norm_num)
    exact ⟨y, hy, hyn.trans (by norm_num)⟩

theorem isFinite_binary32One : binary32One.isFinite = true := rfl

theorem realOf_binary32One : realOf binary32One = 1 := by
  have hunpack : binary32One.toModel.unpack = .finite .positive (2 ^ 23) (-23) (by norm_num) := rfl
  rw [realOf, hunpack]
  show ((2 ^ 23 : ℕ) : ℝ) * 2 ^ (-23 : ℤ) = 1
  norm_num

theorem rounded_ofNat (n : ℕ) : Rounded n (Float32.ofNat n) := by
  by_cases hsmall : n < 2 ^ 23 ∧ 0 ≤ 10
  · have hofNat : Float32.ofNat n = n.toUInt64.toFloat32 * binary32One := dif_pos hsmall
    have hconvert : n.toUInt64.toFloat32 =
        ofUnpacked (UnpackedFloat.normalize Format.binary32 n.toUInt64.toNat 0 .positive) := rfl
    have hcount : n.toUInt64.toNat = n := Nat.mod_eq_of_lt (by omega)
    have hrounds : Rounds n n.toUInt64.toFloat32 := by
      have hnormalize := rounds_normalize (Int.natCast_nonneg n) 0
      rw [hconvert, hcount]
      rwa [zpow_zero, mul_one, Int.cast_natCast] at hnormalize
    obtain ⟨y, hy, hyn⟩ := exists_realOf_eq (hsmall.1.le.trans (by norm_num))
    obtain ⟨hx, hxn⟩ := hrounds.exact hy hyn
    have hproduct := rounded_mul hx isFinite_binary32One (by rw [hxn]; positivity)
      (by rw [realOf_binary32One]; norm_num)
    rwa [hxn, realOf_binary32One, mul_one, ← hofNat] at hproduct
  · have hn : n ≠ 0 := by
      rintro rfl
      exact hsmall ⟨by norm_num, by norm_num⟩
    have hofNat : Float32.ofNat n =
        ofUnpacked (UnpackedFloat.ofScientific Format.binary32 n 0) := dif_neg hsmall
    have hexponent : ¬ (0 : ℤ) < -((2 ^ Format.binary32.exponentBits : ℤ) + n.log2) := by
      show ¬ (0 : ℤ) < -(256 + n.log2)
      omega
    have hround : UnpackedFloat.ofScientific Format.binary32 n 0 =
        roundWithAccuracy Format.binary32 .positive (n * 2 ^ 24 * 1) (-24 + 0) .exact := by
      unfold UnpackedFloat.ofScientific
      rw [dif_neg hn, if_neg (by decide), if_neg hexponent, if_pos le_rfl, ← Nat.shiftLeft_eq]
      rfl
    have hvalue : (n : ℝ) = (n * 2 ^ 24 * 1 : ℕ) * 2 ^ (-24 + 0 : ℤ) := by
      push_cast
      norm_num
      ring
    rw [hofNat, hround, hvalue]
    refine .cut (.exact _) ?_
    rw [mul_one, log2_mul_two_pow hn]
    omega

theorem rounds_ofNat (n : ℕ) : Rounds n (Float32.ofNat n) := (rounded_ofNat n).rounds

theorem realOf_ofNat {n : ℕ} (h : n ≤ 2 ^ 24) :
    (Float32.ofNat n).isFinite ∧ realOf (Float32.ofNat n) = n := by
  obtain ⟨y, hy, hyn⟩ := exists_realOf_eq h
  exact (rounds_ofNat n).exact hy hyn

end

end AmbisonicReverb
