import Mathlib
import AmbisonicReverb.Proofs.BinaryValue

/-!
# Widening is exact

A binary32 number is widened to the binary64 number with the same value, and comes back from it as
it was. This holds of all numbers, and of infinities, zeros of both signs and NaN too, so that it is
said of bits and not of values.

**Theorem (`binary32Of_binary64Of`).** Narrowing undoes widening.

* Where the significand has all its digits, the bits are shifted and the bias of the exponent
  changes (`narrow_widen_normal`).
* Below that, the machine scales a count of the least number, and adds a number that is large enough
  to cut off all digits behind that count. Neither is rounded, since the digits that are cut off are
  zero (`round_exact`).
* The sign is put away and put back again (`toNat_signed`).
-/

namespace AmbisonicReverb

open Float.Model (Format UnpackedFloat totalExponent)
open Float.Model.UnpackedFloat

/-! ## Exact rounding -/

section

variable {f : Format} {n : ℕ} {e : ℤ}

/-- Zeros at the end can be shifted out. -/
theorem shiftRight_exact (n k : ℕ) :
    ExtendedMantissa.ofMantissaAndAccuracy (n * 2 ^ k) .exact >>> k =
      ExtendedMantissa.ofMantissaAndAccuracy n .exact := by
  induction k generalizing n with
  | zero =>
    rw [pow_zero, mul_one]
    rfl
  | succ k ih =>
    have hstep : ExtendedMantissa.ofMantissaAndAccuracy (n * 2 ^ (k + 1)) .exact >>> (k + 1) =
        (ExtendedMantissa.ofMantissaAndAccuracy (n * 2 * 2 ^ k) .exact >>> k).shiftRightOne := by
      rw [pow_succ', ← mul_assoc]
      rfl
    rw [hstep, ih]
    simp [ExtendedMantissa.ofMantissaAndAccuracy, ExtendedMantissa.shiftRightOne]

/-- Zeros at the end do not move the leading digit. -/
theorem totalExponent_mul (hn : 0 < n) (k : ℕ) :
    totalExponent (n * 2 ^ k) (e - k) = totalExponent n e := by
  unfold totalExponent
  rw [log2_mul_two_pow hn.ne']
  push_cast
  ring

variable (hn : 0 < n) (htarget : f.targetExponent (totalExponent n e) = e) (s : Sign)

include hn htarget in
theorem shiftToTargetExponent_exact (k : ℕ) :
    shiftToTargetExponent f (n * 2 ^ k) (e - k) .exact =
      (ExtendedMantissa.ofMantissaAndAccuracy n .exact, e) := by
  have hamount : (e - (e - k)).toNat = k := by omega
  unfold shiftToTargetExponent shiftToExponent
  simp only [totalExponent_mul hn, htarget, hamount, shiftRight_exact, sub_add_cancel]

include htarget

/-- A form that is right for its format is rounded to itself, with zeros at its end or without. -/
theorem roundWithAccuracy_exact (k : ℕ) :
    roundWithAccuracy f s (n * 2 ^ k) (e - k) .exact = .finite s n e hn := by
  have hagain := shiftToTargetExponent_exact hn htarget 0
  rw [pow_zero, mul_one, Nat.cast_zero, sub_zero] at hagain
  have hround : (ExtendedMantissa.ofMantissaAndAccuracy n .exact).roundedMantissa = n := rfl
  unfold roundWithAccuracy
  simp only [shiftToTargetExponent_exact hn htarget, hround, hagain]
  exact dif_neg hn.ne'

theorem round_exact (k : ℕ) :
    UnpackedFloat.round f s (n * 2 ^ k) (e - k) = .finite s n e hn := by
  have hkeep : (e - k - e).toNat = 0 := by omega
  unfold UnpackedFloat.round decreaseExponent
  simp only [totalExponent_mul hn, htarget, hkeep, Nat.shiftLeft_zero, Nat.cast_zero, sub_zero]
  exact roundWithAccuracy_exact hn htarget s k

/-- Where digits are missing, zeros are added at the end. -/
theorem round_pad {m k : ℕ} (hm : m * 2 ^ k = n) :
    UnpackedFloat.round f s m (e + k) = .finite s n e hn := by
  have hpos : 0 < m := Nat.pos_of_ne_zero (by rintro rfl; omega)
  have htotal : totalExponent m (e + k) = totalExponent n e := by
    rw [← totalExponent_mul hpos k, hm, add_sub_cancel_right]
  have hamount : (e + k - e).toNat = k := by omega
  have hrounded := roundWithAccuracy_exact hn htarget s 0
  rw [pow_zero, mul_one, Nat.cast_zero, sub_zero] at hrounded
  unfold UnpackedFloat.round decreaseExponent
  simp only [htotal, htarget, hamount, Nat.shiftLeft_eq, hm, add_sub_cancel_right]
  exact hrounded

end

/-! ## Binary64 numbers and their bits -/

/-- The binary64 number with the given form. -/
def ofUnpacked64 (u : UnpackedFloat) : Float := .ofModel (.pack u)

theorem ofBits_toBits (x : Float) : Float.ofBits x.toBits = x := by
  obtain ⟨bits, hvalid⟩ := x
  have hpack := pack_unpack_of_valid (by decide) hvalid
  show Float.ofModel (.pack (unpack Format.binary64 bits.toBitVec)) = _
  simp only [Float.Model.pack, hpack]

theorem toBits_ofBits {b : UInt64} (h : Format.binary64.Valid b.toBitVec) :
    (Float.ofBits b).toBits = b := by
  show UInt64.ofBitVec (pack Format.binary64 (unpack Format.binary64 b.toBitVec)) = b
  rw [pack_unpack_of_valid (by decide) h, UInt64.ofBitVec_toBitVec]

/-- The form of a binary64 number whose significand has all its digits. -/
structure Full (n : ℕ) (e : ℤ) : Prop where
  le : 2 ^ 52 ≤ n
  lt : n < 2 ^ 53
  least : -1074 ≤ e
  largest : e ≤ 971

namespace Full

variable {n : ℕ} {e : ℤ} (h : Full n e)

include h

theorem pos : 0 < n := lt_of_lt_of_le (by norm_num) h.le

theorem target : Format.binary64.targetExponent (totalExponent n e) = e := by
  have hlog : n.log2 = 52 := (Nat.log2_eq_iff h.pos.ne').mpr ⟨h.le, h.lt⟩
  have hleast := h.least
  show max ((n.log2 : ℤ) + 1 + e - 53) (-1074) = e
  omega

theorem biased : e + Format.binary64.exponentBias + Format.binary64.mantissaBitsWithoutImplicit =
    (e + 1075).toNat := by
  have hleast := h.least
  show e + 1023 + 52 = _
  omega

theorem fits : (e + 1075).toNat + 1 < 2 ^ Format.binary64.exponentBits := by
  have hlargest := h.largest
  show _ < 2048
  omega

theorem unpack_ofUnpacked64 (s : Sign) :
    (ofUnpacked64 (.finite s n e h.pos)).toModel.unpack = .finite s n e h.pos := by
  have hleast := h.least
  exact unpack_pack_normal s h.le h.lt h.biased h.fits h.pos (by omega)

theorem toNat_toBits : (ofUnpacked64 (.finite .positive n e h.pos)).toBits.toNat =
    (e + 1075).toNat * 2 ^ 52 + (n - 2 ^ 52) := by
  have hle := h.le
  have hlt := h.lt
  have hfits : (e + 1075).toNat + 1 < 2048 := h.fits
  show (pack Format.binary64 (.finite .positive n e h.pos)).toNat = _
  rw [pack_normal .positive h.le h.lt h.biased h.fits h.pos, toNat_packComponents,
    BitVec.toNat_ofNat, BitVec.toNat_ofNat]
  show (0 * 2 ^ 11 + _ % 2 ^ 11) * 2 ^ 52 + n % 2 ^ 52 = _
  omega

end Full

/-! ## Subnormal magnitudes -/

section

variable {m j : ℕ} (hm : 0 < m) (hdigits : m.log2 + j = 52)

include hm hdigits

/-- A count that is padded to all digits. -/
theorem full_padded {e : ℤ} (hleast : -1074 ≤ e) (hlargest : e ≤ 971) : Full (m * 2 ^ j) e := by
  have hlog := log2_mul_two_pow hm.ne' j
  rw [hdigits, Nat.log2_eq_iff (by positivity)] at hlog
  exact ⟨hlog.1, hlog.2, hleast, hlargest⟩

omit hdigits in
theorem toFloat_eq (h : Full (m * 2 ^ j) (-j)) {x : UInt64} (hx : x.toNat = m) :
    x.toFloat = ofUnpacked64 (.finite .positive (m * 2 ^ j) (-j) h.pos) := by
  have hsign : compare (m : ℤ) 0 = .gt := Int.compare_eq_gt.mpr (by omega)
  have hround : UnpackedFloat.round Format.binary64 .positive m 0 =
      .finite .positive (m * 2 ^ j) (-j) h.pos := by
    have hpad := round_pad h.pos h.target .positive (k := j) rfl
    rwa [neg_add_cancel] at hpad
  show ofUnpacked64 (UnpackedFloat.normalize Format.binary64 x.toNat 0 .positive) = _
  unfold UnpackedFloat.normalize
  rw [hx, hsign]
  exact congrArg ofUnpacked64 hround

/-- Scaling a count to the least number is exact. -/
theorem scaled_eq (h : Full (m * 2 ^ j) (-149 - j)) {x : UInt64} (hx : x.toNat = m) :
    x.toFloat * .ofBits 0x36a0000000000000 =
      ofUnpacked64 (.finite .positive (m * 2 ^ j) (-149 - j) h.pos) := by
  have hcount : Full (m * 2 ^ j) (-j) := full_padded hm hdigits (by omega) (by omega)
  have hscale : (Float.ofBits 0x36a0000000000000).toModel.unpack =
      .finite .positive (2 ^ 52) (-201) (by norm_num) := rfl
  have hexponent : (-j + -201 : ℤ) = -149 - j - (52 : ℕ) := by
    push_cast
    ring
  rw [toFloat_eq hm hcount hx]
  show ofUnpacked64 (UnpackedFloat.mul Format.binary64 _ _) = _
  rw [hcount.unpack_ofUnpacked64, hscale]
  show ofUnpacked64 (roundWithAccuracy Format.binary64 .positive (m * 2 ^ j * 2 ^ 52) (-j + -201)
    .exact) = _
  rw [hexponent, roundWithAccuracy_exact h.pos h.target]

/-- Added to a large number, the count is left in its last digits. -/
theorem toNat_toBits_add (h : Full (m * 2 ^ j) (-149 - j)) (hsmall : m < 2 ^ 23) :
    (ofUnpacked64 (.finite .positive (m * 2 ^ j) (-149 - j) h.pos) +
      .ofBits 0x39e0000000000000).toBits.toNat = 0x39e0000000000000 + m := by
  have hsum : Full (2 ^ 52 + m) (-149) := ⟨by omega, by omega, by omega, by omega⟩
  have hlarge : (Float.ofBits 0x39e0000000000000).toModel.unpack =
      .finite .positive (2 ^ 52) (-149) (by norm_num) := rfl
  have hadd : UnpackedFloat.add Format.binary64 (.finite .positive (m * 2 ^ j) (-149 - j) h.pos)
      (.finite .positive (2 ^ 52) (-149) (by norm_num)) =
        .finite .positive (2 ^ 52 + m) (-149) hsum.pos := by
    have hmin : min (-149 - j : ℤ) (-149) = -149 - j := by omega
    have hfirst : (-149 - j - (-149 - j) : ℤ).toNat = 0 := by omega
    have hsecond : (-149 - (-149 - j) : ℤ).toNat = j := by omega
    have hsignificand : ((m * 2 ^ j : ℕ) : ℤ) + ((2 ^ 52 * 2 ^ j : ℕ) : ℤ) =
        ((2 ^ 52 + m) * 2 ^ j : ℕ) := by
      push_cast
      ring
    have hsign : compare (((2 ^ 52 + m) * 2 ^ j : ℕ) : ℤ) 0 = .gt :=
      Int.compare_eq_gt.mpr (by positivity)
    unfold UnpackedFloat.add UnpackedFloat.normalize
    simp only [hmin, decreaseExponent, hfirst, hsecond, Nat.shiftLeft_eq, pow_zero, mul_one,
      Sign.apply]
    rw [hsignificand, hsign]
    exact round_exact hsum.pos hsum.target .positive j
  have hbits : ofUnpacked64 (.finite .positive (m * 2 ^ j) (-149 - j) h.pos) +
      .ofBits 0x39e0000000000000 =
        ofUnpacked64 (.finite .positive (2 ^ 52 + m) (-149) hsum.pos) := by
    show ofUnpacked64 (UnpackedFloat.add Format.binary64 _ _) = _
    rw [h.unpack_ofUnpacked64, hlarge, hadd]
  rw [hbits, hsum.toNat_toBits]
  omega

end

/-! ## Magnitudes -/

section

variable {m : UInt64}

theorem narrow_widen_subnormal (hsmall : m < 0x00800000) :
    widenMagnitude m < 0x3810000000000000 ∧ narrowMagnitude (widenMagnitude m) = m := by
  have hsmall' : m.toNat < 2 ^ 23 := UInt64.lt_iff_toNat_lt.mp hsmall
  rcases Nat.eq_zero_or_pos m.toNat with hzero | hpos
  · obtain rfl : m = 0 := UInt64.toNat_inj.mp hzero
    decide +kernel
  have hlog : m.toNat.log2 < 23 := (Nat.log2_lt hpos.ne').mpr hsmall'
  obtain ⟨j, hdigits⟩ := Nat.exists_eq_add_of_le (show m.toNat.log2 ≤ 52 by omega)
  have hfull : Full (m.toNat * 2 ^ j) (-149 - j) :=
    full_padded hpos hdigits.symm (by omega) (by omega)
  have hwide : widenMagnitude m =
      (ofUnpacked64 (.finite .positive (m.toNat * 2 ^ j) (-149 - j) hfull.pos)).toBits := by
    unfold widenMagnitude
    rw [if_pos hsmall, scaled_eq hpos hdigits.symm hfull rfl]
  have hleast : widenMagnitude m < 0x3810000000000000 := by
    have hlt := hfull.lt
    rw [UInt64.lt_iff_toNat_lt, hwide, hfull.toNat_toBits]
    show _ < 0x3810000000000000
    omega
  have hnumber : ¬ 0x7ff0000000000000 < widenMagnitude m := by
    rw [UInt64.lt_iff_toNat_lt] at hleast ⊢
    exact not_lt.mpr (hleast.le.trans (by decide))
  refine ⟨hleast, ?_⟩
  unfold narrowMagnitude
  rw [if_neg hnumber, if_pos hleast, hwide, ofBits_toBits]
  apply UInt64.toNat_inj.mp
  rw [UInt64.toNat_sub, toNat_toBits_add hpos hdigits.symm hfull hsmall']
  show (2 ^ 64 - 0x39e0000000000000 + (0x39e0000000000000 + m.toNat)) % 2 ^ 64 = _
  omega

theorem toNat_widenMagnitude (hlow : 0x00800000 ≤ m) (hhigh : m < 0x7f800000) :
    (widenMagnitude m).toNat = m.toNat * 2 ^ 29 + 0x3800000000000000 := by
  have hhigh' : m.toNat < 0x7f800000 := UInt64.lt_iff_toNat_lt.mp hhigh
  unfold widenMagnitude
  rw [if_neg (UInt64.not_lt.mpr hlow), if_pos hhigh, UInt64.toNat_add, UInt64.toNat_shiftLeft,
    Nat.shiftLeft_eq]
  show (m.toNat * 2 ^ 29 % 2 ^ 64 + 0x3800000000000000) % 2 ^ 64 = _
  omega

theorem narrow_widen_normal (hlow : 0x00800000 ≤ m) (hhigh : m < 0x7f800000) :
    narrowMagnitude (widenMagnitude m) = m := by
  have hwide := toNat_widenMagnitude hlow hhigh
  have hlow' : 0x00800000 ≤ m.toNat := UInt64.le_iff_toNat_le.mp hlow
  have hhigh' : m.toNat < 0x7f800000 := UInt64.lt_iff_toNat_lt.mp hhigh
  generalize widenMagnitude m = w at hwide
  have hnumber : ¬ 0x7ff0000000000000 < w := by
    rw [UInt64.lt_iff_toNat_lt, hwide]
    show ¬ 0x7ff0000000000000 < _
    omega
  have hnormal : ¬ w < 0x3810000000000000 := by
    rw [UInt64.lt_iff_toNat_lt, hwide]
    show ¬ _ < 0x3810000000000000
    omega
  have hrebased : (w - 0x3800000000000000).toNat = m.toNat * 2 ^ 29 := by
    rw [UInt64.toNat_sub, hwide]
    show (2 ^ 64 - 0x3800000000000000 + _) % 2 ^ 64 = _
    omega
  unfold narrowMagnitude
  rw [if_neg hnumber, if_neg hnormal]
  dsimp only
  generalize w - 0x3800000000000000 = r at hrebased
  have hodd : ((r >>> 29) &&& 1).toNat = m.toNat % 2 := by
    rw [UInt64.toNat_and, UInt64.toNat_shiftRight, Nat.shiftRight_eq_div_pow, hrebased]
    show m.toNat * 2 ^ 29 / 2 ^ 29 &&& 1 = _
    rw [Nat.mul_div_cancel _ (by norm_num), Nat.and_one_is_mod]
  generalize (r >>> 29) &&& 1 = odd at hodd
  -- the 29 digits that are rounded away are zero, and so nothing is carried
  have hshort : (r + 0x0fffffff + odd) >>> 29 = m := by
    apply UInt64.toNat_inj.mp
    rw [UInt64.toNat_shiftRight, Nat.shiftRight_eq_div_pow, UInt64.toNat_add, UInt64.toNat_add,
      hrebased, hodd]
    show ((m.toNat * 2 ^ 29 + 0x0fffffff) % 2 ^ 64 + m.toNat % 2) % 2 ^ 64 / 2 ^ 29 = _
    rw [Nat.mod_eq_of_lt (by omega : m.toNat * 2 ^ 29 + 0x0fffffff < 2 ^ 64),
      Nat.mod_eq_of_lt (by omega)]
    omega
  rw [hshort]
  exact if_pos (UInt64.le_of_lt hhigh)

/-- Magnitudes up to infinity come back, and are not above infinity in between. -/
theorem narrow_widen (hm : m ≤ 0x7f800000) :
    widenMagnitude m ≤ 0x7ff0000000000000 ∧ narrowMagnitude (widenMagnitude m) = m := by
  rcases UInt64.lt_or_le m 0x00800000 with hsmall | hlow
  · obtain ⟨hwide, hback⟩ := narrow_widen_subnormal hsmall
    exact ⟨UInt64.le_trans (UInt64.le_of_lt hwide) (by decide), hback⟩
  rcases UInt64.lt_or_le m 0x7f800000 with hhigh | hlast
  · refine ⟨?_, narrow_widen_normal hlow hhigh⟩
    have hhigh' : m.toNat < 0x7f800000 := UInt64.lt_iff_toNat_lt.mp hhigh
    rw [UInt64.le_iff_toNat_le, toNat_widenMagnitude hlow hhigh]
    show _ ≤ 0x7ff0000000000000
    omega
  · obtain rfl : m = 0x7f800000 := UInt64.le_antisymm hm hlast
    decide +kernel

end

/-! ## Signs -/

theorem toNat_signed {s w : UInt64} {k : ℕ} (hk : k < 64) (hs : s.toNat ≤ 1)
    (hw : w.toNat < 2 ^ k) :
    (s <<< UInt64.ofNat k ||| w).toNat = s.toNat * 2 ^ k + w.toNat := by
  have hplace : (UInt64.ofNat k).toNat % 64 = k := by
    rw [UInt64.toNat_ofNat', Nat.mod_eq_of_lt (by omega : k < 2 ^ 64), Nat.mod_eq_of_lt hk]
  have hfits : s.toNat * 2 ^ k < 2 ^ 64 := by
    calc s.toNat * 2 ^ k ≤ 1 * 2 ^ 63 :=
          Nat.mul_le_mul hs (Nat.pow_le_pow_right two_pos (by omega))
      _ < 2 ^ 64 := by norm_num
  rw [UInt64.toNat_or, UInt64.toNat_shiftLeft, hplace, Nat.shiftLeft_eq, Nat.mod_eq_of_lt hfits,
    ← Nat.shiftLeft_eq, ← Nat.shiftLeft_add_eq_or_of_lt hw]

/-- A sign before a magnitude up to infinity makes valid bits. -/
theorem valid_signed {s w b : UInt64} (hw : w.toNat ≤ 0x7ff0000000000000)
    (hb : b.toNat = s.toNat * 2 ^ 63 + w.toNat) : Format.binary64.Valid b.toBitVec := by
  refine ⟨fun hlast hfraction => absurd ?_ hfraction⟩
  have hfields := toNat_fields (f := Format.binary64) b.toBitVec
  have hb : b.toBitVec.toNat = s.toNat * 2 ^ 63 + w.toNat := hb
  have hones : (@unpackExponent Format.binary64 b.toBitVec).toNat = 2047 := by
    rw [hlast]
    rfl
  have hsign : (@unpackSign Format.binary64 b.toBitVec).toNat < 2 := BitVec.isLt _
  have hm : (@unpackMantissa Format.binary64 b.toBitVec).toNat < 2 ^ 52 := BitVec.isLt _
  rw [hones, hb] at hfields
  apply BitVec.eq_of_toNat_eq
  show _ = 0
  simp only [Format.binary64] at hfields
  omega

/-- Valid bits that are a number have a magnitude up to infinity. -/
theorem magnitude_le {b : UInt32} (h : Format.binary32.Valid b.toBitVec) (hne : b ≠ 0x7fc00000) :
    b.toNat % 2 ^ 31 ≤ 0x7f800000 := by
  have hfields := toNat_fields (f := Format.binary32) b.toBitVec
  have hb : b.toBitVec.toNat = b.toNat := rfl
  have hfraction : (@unpackExponent Format.binary32 b.toBitVec).toNat = 255 →
      (@unpackMantissa Format.binary32 b.toBitVec).toNat = 0 := by
    intro hones
    have hlast : @unpackExponent Format.binary32 b.toBitVec = -1#_ :=
      BitVec.eq_of_toNat_eq hones
    by_contra hfraction
    refine hne (UInt32.toBitVec_inj.mp (h.eq_packedNaN hlast fun hzero => hfraction ?_))
    rw [hzero]
    rfl
  have hsign : (@unpackSign Format.binary32 b.toBitVec).toNat < 2 := BitVec.isLt _
  have he : (@unpackExponent Format.binary32 b.toBitVec).toNat < 2 ^ 8 := BitVec.isLt _
  have hm : (@unpackMantissa Format.binary32 b.toBitVec).toNat < 2 ^ 23 := BitVec.isLt _
  rw [hb] at hfields
  simp only [Format.binary32] at hfields
  omega

/-! ## There and back -/

/-- **Widening is exact.** -/
theorem binary32Of_binary64Of (x : Float32) : binary32Of (binary64Of x) = x := by
  have hbits : Float32.ofBits x.toBits = x := ofUnpacked_unpack x
  by_cases hnan : x.toBits = 0x7fc00000
  · rw [← hbits, hnan]
    decide +kernel
  have hlimit := magnitude_le x.toModel.valid hnan
  have hlt : x.toBits.toNat < 2 ^ 32 := x.toBits.toNat_lt
  have hsign : (x.toBits.toUInt64 >>> 31).toNat = x.toBits.toNat / 2 ^ 31 := by
    rw [UInt64.toNat_shiftRight, Nat.shiftRight_eq_div_pow]
    rfl
  have hmagnitude : (x.toBits.toUInt64 &&& 0x7fffffff).toNat = x.toBits.toNat % 2 ^ 31 := by
    rw [UInt64.toNat_and]
    exact Nat.and_two_pow_sub_one_eq_mod x.toBits.toNat 31
  unfold binary64Of
  dsimp only
  generalize x.toBits.toUInt64 >>> 31 = s at hsign
  generalize x.toBits.toUInt64 &&& 0x7fffffff = m at hmagnitude
  have hm : m ≤ 0x7f800000 := by
    rw [UInt64.le_iff_toNat_le, hmagnitude]
    exact hlimit
  obtain ⟨hwide, hback⟩ := narrow_widen hm
  have hwide : (widenMagnitude m).toNat ≤ 0x7ff0000000000000 := UInt64.le_iff_toNat_le.mp hwide
  have hs : s.toNat ≤ 1 := by omega
  have hsigned : (s <<< 63 ||| widenMagnitude m).toNat =
      s.toNat * 2 ^ 63 + (widenMagnitude m).toNat :=
    toNat_signed (by norm_num : 63 < 64) hs (show _ < 2 ^ 63 by omega)
  have hsign' : (s <<< 63 ||| widenMagnitude m) >>> 63 = s := by
    apply UInt64.toNat_inj.mp
    rw [UInt64.toNat_shiftRight, Nat.shiftRight_eq_div_pow, hsigned]
    show _ / 2 ^ 63 = _
    omega
  have hmagnitude' : (s <<< 63 ||| widenMagnitude m) &&& 0x7fffffffffffffff =
      widenMagnitude m := by
    apply UInt64.toNat_inj.mp
    rw [UInt64.toNat_and, hsigned]
    refine (Nat.and_two_pow_sub_one_eq_mod _ 63).trans ?_
    omega
  have hagain : (s <<< 31 ||| m).toUInt32 = x.toBits := by
    have hshort : (s <<< 31 ||| m).toNat = s.toNat * 2 ^ 31 + m.toNat :=
      toNat_signed (by norm_num : 31 < 64) hs (show _ < 2 ^ 31 by omega)
    apply UInt32.toNat_inj.mp
    rw [UInt64.toNat_toUInt32, hshort]
    omega
  unfold binary32Of
  dsimp only
  rw [toBits_ofBits (valid_signed hwide hsigned), hsign', hmagnitude', hback, hagain, hbits]

end AmbisonicReverb
