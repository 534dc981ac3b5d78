import Mathlib
import AmbisonicReverb.Proofs.BinaryRounding

/-!
# Rounding keeps order

That no number lies between an exact result and the rounded one does not say that rounding keeps
order: two results between the same numbers could be rounded apart. They are not, since each is
rounded to the nearest number, and to the even one at a tie.

* `Locates.roundedMantissa_mono` — of two numbers the larger one does not get the smaller
  significand.
* `Rounded.le` — nor is it rounded to the smaller number, also where numbers end and infinity
  begins.
-/

namespace AmbisonicReverb

open Float.Model (Format UnpackedFloat)
open Float.Model.UnpackedFloat

namespace Locates

variable {em em' : ExtendedMantissa} {x y : ℝ}

/-- If the round bit is set, the number is at the next half or above. -/
theorem half_le (h : Locates em x) (hround : em.roundBit = true) : em.mantissa + 1 / 2 ≤ x := by
  cases hsticky : em.stickyBit with
  | false => exact (h.eq_half hround hsticky).ge
  | true => exact (h.half_lt hround hsticky).le

theorem roundedMantissa_mono (hx : Locates em x) (hy : Locates em' y) (hxy : x ≤ y) :
    em.roundedMantissa ≤ em'.roundedMantissa := by
  have hfloor : em.mantissa ≤ em'.mantissa := by
    have hlt : (em.mantissa : ℝ) < (em'.mantissa + 1 : ℕ) := by
      push_cast
      exact (hx.le.trans hxy).trans_lt hy.lt
    exact Nat.lt_succ_iff.mp (by exact_mod_cast hlt)
  rcases hfloor.lt_or_eq with hlt | heq
  · have hup : em.roundedMantissa ≤ em.mantissa + 1 :=
      hx.toReads.roundedMantissa_le (by push_cast; exact hx.lt.le)
    exact (hup.trans hlt).trans (hy.toReads.le_roundedMantissa hy.le)
  · -- Between the same two integers the bits are in the order of the numbers.
    obtain ⟨m, round, sticky⟩ := em
    obtain ⟨m', round', sticky'⟩ := em'
    obtain rfl : m = m' := heq
    cases round with
    | false =>
      have hstay : ExtendedMantissa.roundedMantissa ⟨m, false, sticky⟩ = m := by
        cases sticky <;> rfl
      rw [hstay]
      exact hy.toReads.le_roundedMantissa hy.le
    | true =>
      have hhalf : (m : ℝ) + 1 / 2 ≤ x := hx.half_le rfl
      obtain rfl : round' = true := by
        by_contra hround
        have hlt : y < m + 1 / 2 := hy.lt_half (Bool.eq_false_iff.mpr hround)
        linarith
      cases sticky with
      | false =>
        cases sticky' with
        | false => exact le_rfl
        | true =>
          have hparity := Nat.mod_lt m two_pos
          exact Nat.add_le_add_left (Nat.lt_succ_iff.mp hparity) m
      | true =>
        have habove : (m : ℝ) + 1 / 2 < x := hx.half_lt rfl rfl
        obtain rfl : sticky' = true := by
          by_contra hsticky
          have heq : y = m + 1 / 2 := hy.eq_half rfl (Bool.eq_false_iff.mpr hsticky)
          linarith
        exact le_rfl

end Locates

/-- A value and what it is rounded to, in units of the last digit of a canonical form. The result
may be too large for a number. -/
inductive Located : ℝ → ℝ → Prop
  | digits {em : ExtendedMantissa} {x : ℝ} {e : ℤ} (hx : Locates em x) (least_le : -149 ≤ e)
      (lt : x < (2 ^ 24 : ℕ)) (normal : -149 < e → (2 ^ 23 : ℕ) ≤ x) :
      Located (x * 2 ^ e) (em.roundedMantissa * 2 ^ e)

theorem Located.mono {v w q q' : ℝ} (h : Located v q) (h' : Located w q') (hvw : v ≤ w) :
    q ≤ q' := by
  obtain @⟨em, x, e, hx, hleast, hdigits, hnormal⟩ := h
  obtain @⟨em', y, f, hy, hleast', hdigits', hnormal'⟩ := h'
  have hbinade : ∀ {i j : ℤ}, i < j → ((2 ^ 24 : ℕ) : ℝ) * 2 ^ i ≤ (2 ^ 23 : ℕ) * 2 ^ j := by
    intro i j hij
    calc ((2 ^ 24 : ℕ) : ℝ) * 2 ^ i = 2 ^ (24 + i) := by rw [zpow_add₀ two_ne_zero]; norm_num
      _ ≤ 2 ^ (23 + j) := zpow_le_zpow_right₀ one_le_two (by omega)
      _ = (2 ^ 23 : ℕ) * 2 ^ j := by rw [zpow_add₀ two_ne_zero]; norm_num
  rcases lt_trichotomy e f with hef | rfl | hfe
  · have hup : (em.roundedMantissa : ℝ) ≤ (2 ^ 24 : ℕ) := by
      exact_mod_cast hx.toReads.roundedMantissa_le hdigits.le
    have hdown : ((2 ^ 23 : ℕ) : ℝ) ≤ em'.roundedMantissa := by
      exact_mod_cast hy.toReads.le_roundedMantissa (hnormal' (by omega))
    calc (em.roundedMantissa : ℝ) * 2 ^ e ≤ (2 ^ 24 : ℕ) * 2 ^ e := by gcongr
      _ ≤ (2 ^ 23 : ℕ) * 2 ^ f := hbinade hef
      _ ≤ em'.roundedMantissa * 2 ^ f := by gcongr
  · have hpos : (0 : ℝ) < 2 ^ e := zpow_pos two_pos e
    have hxy := (mul_le_mul_iff_left₀ hpos).mp hvw
    gcongr
    exact hx.roundedMantissa_mono hy hxy
  · have hlt : y * 2 ^ f < x * 2 ^ e := by
      calc y * 2 ^ f < (2 ^ 24 : ℕ) * 2 ^ f := by gcongr
        _ ≤ (2 ^ 23 : ℕ) * 2 ^ e := hbinade hfe
        _ ≤ x * 2 ^ e := mul_le_mul_of_nonneg_right (hnormal (by omega)) (by positivity)
    exact absurd hvw (not_le.mpr hlt)

/-- The largest numbers are below this power of two. -/
theorem realOf_lt {x : Float32} (h : x.isFinite) : realOf x < 2 ^ (128 : ℤ) := by
  rcases realOf_cases h with hneg | ⟨m, e, hfits, he, hvalue⟩
  · exact hneg.trans (by positivity)
  · rw [hvalue]
    exact hfits.value_lt.trans_le (zpow_le_zpow_right₀ one_le_two (by omega))

/-- No number is above infinity. -/
theorem le_of_unpack_eq_infinity {x y : Float32} (hx : x.isNaN = false)
    (hy : y.toModel.unpack = .infinity .positive) : x ≤ y := by
  have hplace : ∀ u, place u ≤ place (.infinity .positive) := by
    rintro (⟨_ | _⟩ | _ | _ | ⟨_ | _, m, e, hm⟩) <;> simp [place, Prod.Lex.toLex_le_toLex]
  refine binary32_le_iff.mpr ⟨⟨hx, isNaN_eq_false_iff.mpr ?_⟩, ?_⟩
  · rw [hy]
    intro h
    cases h
  · unfold placeOf
    rw [hy]
    exact hplace _

/-- Whatever its size is, a canonical form keeps its sign. -/
theorem unpack_form_cases {r : Float32} {s : Sign} {m : ℕ} {e : ℤ} (hfits : Fits m e)
    (hr : r = ofUnpacked (if h : m = 0 then .zero s else
      .finite s m e (Nat.pos_of_ne_zero h))) :
    (m = 0 ∧ r.toModel.unpack = .zero s) ∨
      (∃ hm, e ≤ 104 ∧ r.toModel.unpack = .finite s m e hm) ∨
        (104 < e ∧ r.toModel.unpack = .infinity s) := by
  by_cases hm : m = 0
  · have hzero : Canonical (.zero s) := trivial
    rw [dif_pos hm] at hr
    exact .inl ⟨hm, hr ▸ toModel_ofUnpacked hzero⟩
  · rw [dif_neg hm] at hr
    by_cases hlarge : e ≤ 104
    · have hcanonical : Canonical (.finite s m e (Nat.pos_of_ne_zero hm)) := ⟨hfits, hlarge⟩
      exact .inr (.inl ⟨_, hlarge, hr ▸ toModel_ofUnpacked hcanonical⟩)
    · refine .inr (.inr ⟨not_le.mp hlarge, ?_⟩)
      rw [hr]
      exact unpack_pack_overflow s (not_le.mp hlarge) (Nat.pos_of_ne_zero hm)

namespace Rounded

variable {v w : ℝ} {r s : Float32}

/-- A canonical form is that of a number, unless it is too large. -/
theorem form_cases {m : ℕ} {e : ℤ} (hfits : Fits m e)
    (hr : r = ofUnpacked (if h : m = 0 then .zero .positive else
      .finite .positive m e (Nat.pos_of_ne_zero h))) :
    (r.isFinite ∧ realOf r = m * 2 ^ e) ∨
      (r.toModel.unpack = .infinity .positive ∧ (2 : ℝ) ^ (128 : ℤ) ≤ m * 2 ^ e) := by
  have hfinite : ∀ {u : UnpackedFloat}, r.toModel.unpack = u → u.isFinite →
      r.isFinite ∧ realOf r = valueOf u :=
    fun hu hfinite => ⟨(congrArg UnpackedFloat.isFinite hu).trans hfinite, congrArg valueOf hu⟩
  rcases unpack_form_cases hfits hr with ⟨rfl, hu⟩ | ⟨hm, -, hu⟩ | ⟨hlarge, hu⟩
  · refine .inl ((hfinite hu rfl).imp_right fun hvalue => ?_)
    rw [hvalue, Nat.cast_zero, zero_mul]
    rfl
  · exact .inl (hfinite hu rfl)
  · exact .inr ⟨hu, (zpow_le_zpow_right₀ one_le_two (by omega)).trans (hfits.le_value (by omega))⟩

/-- What is rounded to is the number, or it is too large and the number infinite. -/
theorem located_cases (h : Rounded v r) :
    (r.isFinite ∧ Located v (realOf r)) ∨
      (r.toModel.unpack = .infinity .positive ∧ ∃ q, Located v q ∧ 2 ^ (128 : ℤ) ≤ q) := by
  cases h with
  | zero t =>
    have hzero : Canonical (.zero t) := trivial
    have hvalue : realOf (ofUnpacked (.zero t)) = 0 := realOf_ofUnpacked hzero
    have hlocated : Located ((0 : ℕ) * 2 ^ (-149 : ℤ)) ((0 : ℕ) * 2 ^ (-149 : ℤ)) :=
      .digits (.exact 0) le_rfl (by norm_num) fun h => absurd h (lt_irrefl _)
    rw [Nat.cast_zero, zero_mul] at hlocated
    exact .inl ⟨isFinite_ofUnpacked hzero rfl, hvalue.symm ▸ hlocated⟩
  | @cut m e accuracy x hx he =>
    obtain ⟨k, hfirst, hvalue, hleast, hdigits, hnormal⟩ := exists_cut hx.toReads he
    have hcut := hx.shiftRight k
    obtain ⟨hfits, hfinal⟩ := fits_shift_rounded (hcut.toReads.roundedMantissa_le hdigits.le) hleast
      (fun h => hcut.toReads.le_roundedMantissa (hnormal h)) rfl
    have hlocated := Located.digits hcut hleast hdigits hnormal
    rw [← hfinal, ← hvalue] at hlocated
    have hform := form_cases (r := ofUnpacked (roundWithAccuracy Format.binary32 .positive m e
      accuracy)) hfits (by unfold roundWithAccuracy; simp only [hfirst])
    rcases hform with ⟨hfinite, hreal⟩ | ⟨hinfinite, hlarge⟩
    · exact .inl ⟨hfinite, hreal ▸ hlocated⟩
    · exact .inr ⟨hinfinite, _, hlocated, hlarge⟩

/-- What is rounded is a number. -/
theorem isNaN_eq (h : Rounded v r) : r.isNaN = false := by
  rcases h.located_cases with ⟨hr, -⟩ | ⟨hr, -⟩
  · exact isNaN_of_isFinite hr
  · rw [isNaN_eq_false_iff, hr]
    exact nofun

/-- **Rounding keeps order.** -/
theorem le (hr : Rounded v r) (hs : Rounded w s) (hvw : v ≤ w) : r ≤ s := by
  rcases hs.located_cases with ⟨hs', hw⟩ | ⟨hs', -⟩
  · rcases hr.located_cases with ⟨hr', hv⟩ | ⟨-, q, hv, hlarge⟩
    · exact (binary32_le_iff_realOf hr' hs').mpr (hv.mono hw hvw)
    · exact absurd ((hlarge.trans (hv.mono hw hvw)).trans_lt (realOf_lt hs')) (lt_irrefl _)
  · exact le_of_unpack_eq_infinity hr.isNaN_eq hs'

theorem mono (hr : Rounded v r) (hs : Rounded w s) (hvw : v ≤ w) (hr' : r.isFinite)
    (hs' : s.isFinite) : realOf r ≤ realOf s :=
  (binary32_le_iff_realOf hr' hs').mp (hr.le hs hvw)

end Rounded

end AmbisonicReverb
