import Mathlib
import AmbisonicReverb.Scalar.Binary

/-!
# Forms and bits

A number of a binary format has a form, in which its sign, significand and exponent are apart, and
bits, in which they are packed. The two formats differ in the widths of their fields only, and what
is said here is said of all formats.

* `unpack_pack_normal` — a form whose significand has all its digits is read from its bits again.
* `pack_unpack_of_valid` — bits are made again from the form that is read from them, since there is
  a single pattern that is no number.
-/

namespace AmbisonicReverb

open Float.Model (Format UnpackedFloat)
open Float.Model.UnpackedFloat

variable {f : Format}

/-! ## Fields -/

theorem toBitVec_ofBitVec (b : BitVec 1) : (Sign.ofBitVec b).toBitVec = b := by
  revert b
  decide

/-- The three fields make up the bits. -/
theorem packComponents_unpack (b : BitVec f.numBits) :
    packComponents f (Sign.ofBitVec (unpackSign b)) (unpackExponent b) (unpackMantissa b) = b := by
  have hm := f.hm
  have he := f.he
  unfold packComponents
  rw [toBitVec_ofBitVec]
  ext i hi
  have hi' : i < 1 + f.exponentBits + f.mantissaBitsWithoutImplicit := hi
  simp only [BitVec.getElem_append, unpackSign, unpackExponent, unpackMantissa,
    BitVec.getElem_cast, BitVec.getElem_extract]
  have hbit : ∀ j, j = i → b.getLsbD j = b[i] := by
    rintro j rfl
    exact BitVec.getLsbD_eq_getElem hi
  split_ifs <;> exact hbit _ (by omega)

theorem toNat_packComponents (s : Sign) (e : BitVec f.exponentBits)
    (m : BitVec f.mantissaBitsWithoutImplicit) :
    (packComponents f s e m).toNat =
      (s.toBitVec.toNat * 2 ^ f.exponentBits + e.toNat) * 2 ^ f.mantissaBitsWithoutImplicit +
        m.toNat := by
  unfold packComponents
  rw [BitVec.toNat_append, BitVec.toNat_append, ← Nat.shiftLeft_add_eq_or_of_lt m.isLt,
    ← Nat.shiftLeft_add_eq_or_of_lt e.isLt, Nat.shiftLeft_eq, Nat.shiftLeft_eq]

/-- Bits as a number are read off their fields. -/
theorem toNat_fields (b : BitVec f.numBits) :
    b.toNat = ((unpackSign b).toNat * 2 ^ f.exponentBits + (unpackExponent b).toNat) *
      2 ^ f.mantissaBitsWithoutImplicit + (unpackMantissa b).toNat := by
  conv_lhs => rw [← packComponents_unpack b]
  rw [toNat_packComponents, toBitVec_ofBitVec]

theorem toNat_one_append {w : ℕ} (v : BitVec w) : (1#1 ++ v).toNat = 2 ^ w + v.toNat := by
  rw [BitVec.toNat_append, ← Nat.shiftLeft_add_eq_or_of_lt v.isLt]
  simp [Nat.shiftLeft_eq]

theorem toNat_ones (w : ℕ) : (-1#w).toNat = 2 ^ w - 1 := by
  rw [BitVec.neg_one_eq_allOnes, BitVec.toNat_allOnes]

/-! ## Significands with all their digits -/

theorem log2_mul_two_pow {m : ℕ} (hm : m ≠ 0) (k : ℕ) : (m * 2 ^ k).log2 = m.log2 + k := by
  induction k with
  | zero => rw [pow_zero, mul_one, add_zero]
  | succ k ih =>
    rw [show m * 2 ^ (k + 1) = 2 * (m * 2 ^ k) by ring, Nat.log2_two_mul (by positivity), ih,
      add_assoc]

section

variable (s : Sign) {m k : ℕ} {e : ℤ} (hlow : 2 ^ f.mantissaBitsWithoutImplicit ≤ m)
  (hhigh : m < 2 ^ (f.mantissaBitsWithoutImplicit + 1))
  (hk : e + f.exponentBias + f.mantissaBitsWithoutImplicit = k)
  (hlargest : k + 1 < 2 ^ f.exponentBits) (hm : 0 < m)

include hlow hhigh hk hlargest

/-- The leading digit is not stored. -/
theorem pack_normal :
    pack f (.finite s m e hm) = packComponents f s (BitVec.ofNat _ k) (BitVec.ofNat _ m) := by
  have hlog : m.log2 + 1 = f.mantissaBits := by
    rw [(Nat.log2_eq_iff hm.ne').mpr ⟨hlow, hhigh⟩, Format.mantissaBits, Nat.add_comm]
  unfold pack
  dsimp only
  rw [hk, Int.toNat_natCast, if_neg (not_le.mpr hlargest), if_pos hlog]

theorem unpack_pack_normal (hleast : 0 < k) :
    unpack f (pack f (.finite s m e hm)) = .finite s m e hm := by
  have hexponent : (BitVec.ofNat f.exponentBits k).toNat = k := by
    rw [BitVec.toNat_ofNat, Nat.mod_eq_of_lt (by omega)]
  have hones : BitVec.ofNat f.exponentBits k ≠ -1#_ := by
    intro h
    have h := hexponent.symm.trans (congrArg BitVec.toNat h)
    rw [toNat_ones] at h
    omega
  have hzero : BitVec.ofNat f.exponentBits k ≠ 0#_ := by
    intro h
    have h : k = 0 := hexponent.symm.trans (congrArg BitVec.toNat h)
    omega
  have hmantissa : (1#1 ++ BitVec.ofNat f.mantissaBitsWithoutImplicit m).toNat = m := by
    rw [pow_succ] at hhigh
    rw [toNat_one_append, BitVec.toNat_ofNat, Nat.mod_eq_sub_mod hlow, Nat.mod_eq_of_lt (by omega)]
    omega
  rw [pack_normal s hlow hhigh hk hlargest hm]
  unfold unpack
  simp only [unpackMantissa_packComponents, unpackExponent_packComponents,
    unpackSign_packComponents, if_neg hones, if_neg hzero, hmantissa, hexponent,
    Sign.ofBitVec_toBitVec]
  congr 1
  omega

end

/-! ## Valid bits -/

/-- Valid bits are kept by their form. -/
theorem pack_unpack_of_valid (hf : 1 < f.exponentBits) {b : BitVec f.numBits} (h : f.Valid b) :
    pack f (unpack f b) = b := by
  have hfields := packComponents_unpack b
  have hm := (unpackMantissa b).isLt
  have he := (unpackExponent b).isLt
  have hfour : 2 ^ 2 ≤ 2 ^ f.exponentBits := Nat.pow_le_pow_right two_pos hf
  unfold unpack
  dsimp only
  split_ifs with hlast hzero hleast hzero
  · rw [hlast, hzero] at hfields
    exact hfields
  · exact (h.eq_packedNaN hlast hzero).symm
  · rw [hleast, hzero] at hfields
    exact hfields
  · have hexponent : (unpackExponent b).toNat = 0 := by rw [hleast]; rfl
    have hpos : (unpackMantissa b).toNat ≠ 0 := fun hm => hzero (BitVec.eq_of_toNat_eq hm)
    have hlog : ¬ (unpackMantissa b).toNat.log2 + 1 = f.mantissaBits := by
      have hlt := (Nat.log2_lt hpos).mpr hm
      unfold Format.mantissaBits
      omega
    have hbiased : (((unpackExponent b).toNat : ℤ) - (f.exponentBias +
        f.mantissaBitsWithoutImplicit) + 1 + f.exponentBias +
        f.mantissaBitsWithoutImplicit).toNat = 1 := by
      rw [hexponent]
      omega
    have hfits : ¬ 2 ^ f.exponentBits ≤ 1 + 1 := by omega
    unfold pack
    dsimp only
    rw [hbiased, if_neg hfits, if_neg hlog, BitVec.ofNat_toNat, BitVec.setWidth_eq]
    rw [hleast] at hfields
    exact hfields
  · have hhidden := toNat_one_append (unpackMantissa b)
    have hexponent : (unpackExponent b).toNat + 1 < 2 ^ f.exponentBits := by
      have hne : (unpackExponent b).toNat ≠ (-1#f.exponentBits).toNat :=
        fun h => hlast (BitVec.eq_of_toNat_eq h)
      rw [toNat_ones] at hne
      omega
    have hmantissa : BitVec.ofNat _ (1#1 ++ unpackMantissa b).toNat = unpackMantissa b := by
      apply BitVec.eq_of_toNat_eq
      rw [BitVec.toNat_ofNat, hhidden, Nat.add_mod_left, Nat.mod_eq_of_lt hm]
    rw [pack_normal _ (by omega) (by rw [pow_succ]; omega) (by omega) hexponent, hmantissa,
      BitVec.ofNat_toNat, BitVec.setWidth_eq]
    exact hfields

end AmbisonicReverb
