import Mathlib
import AmbisonicReverb.Proofs.BinaryRounding

/-!
# Cube roots of binary32 numbers

Bit patterns are read twice: by the machine, and by `BinaryFormat.decode`, on which the cube root is
computed. Both read the same numbers (`unpack_eq_decode`).

The significand of a cube root is a floor (`floorCubeRoot_spec`), and the root of a positive number
is a number again, of a size that is neither very large nor very small (`cubeRoot32_bounds`).
-/

namespace AmbisonicReverb

open Float.Model (Format UnpackedFloat)
open Float.Model.UnpackedFloat

/-! ## The floor of a cube root -/

theorem cube_le_cube {a b : ℕ} (h : a ≤ b) : cube a ≤ cube b :=
  Nat.mul_le_mul (Nat.mul_le_mul h h) h

/-- **Floor of the cube root.** -/
theorem floorCubeRoot_spec (n : ℕ) :
    cube (floorCubeRoot n) ≤ n ∧ n < cube (floorCubeRoot n + 1) := by
  fun_induction floorCubeRoot n with
  | case1 => decide
  | case2 n hn r hcube ih =>
    have hnext : cube (r + 1 + 1) = 8 * cube (floorCubeRoot (n / 8) + 1) := by
      unfold cube r
      ring
    omega
  | case3 n hn r hcube ih =>
    have hthis : cube r = 8 * cube (floorCubeRoot (n / 8)) := by
      unfold cube r
      ring
    omega

theorem le_floorCubeRoot {r n : ℕ} (h : cube r ≤ n) : r ≤ floorCubeRoot n := by
  by_contra hlt
  have hle := cube_le_cube (Nat.succ_le_of_lt (not_le.mp hlt))
  exact absurd ((floorCubeRoot_spec n).2.trans_le (hle.trans h)) (lt_irrefl n)

theorem floorCubeRoot_lt {r n : ℕ} (h : n < cube r) : floorCubeRoot n < r := by
  by_contra hle
  have hle := cube_le_cube (not_lt.mp hle)
  exact absurd (h.trans_le (hle.trans (floorCubeRoot_spec n).1)) (lt_irrefl n)

/-! ## Reading bit patterns -/

/-- The form in which the machine reads a number. -/
def BinaryValue.unpacked : BinaryValue → UnpackedFloat
  | .finite negative m e =>
    let sign := if negative then Sign.negative else .positive
    if h : m = 0 then .zero sign else .finite sign m e (Nat.pos_of_ne_zero h)
  | .infinite negative => .infinity (if negative then .negative else .positive)
  | .undefined => .notANumber

section

variable (b : BitVec Format.binary32.numBits)

theorem toNat_unpackMantissa : (unpackMantissa b).toNat = b.toNat % 2 ^ 23 := by
  rw [unpackMantissa_def, BitVec.extractLsb'_toNat, Nat.shiftRight_zero]

theorem toNat_unpackExponent : (unpackExponent b).toNat = b.toNat / 2 ^ 23 % 2 ^ 8 := by
  rw [unpackExponent_def, BitVec.extractLsb'_toNat, Nat.shiftRight_eq_div_pow]

theorem toNat_unpackSign : (unpackSign b).toNat = b.toNat / 2 ^ 31 % 2 := by
  rw [unpackSign_def, BitVec.extractLsb'_toNat, Nat.shiftRight_eq_div_pow]
  rfl

theorem ofBitVec_unpackSign : Sign.ofBitVec (unpackSign b) =
    if b.toNat / 2 ^ 31 % 2 == 1 then Sign.negative else .positive := by
  have hbit : unpackSign b = 0#1 ↔ b.toNat / 2 ^ 31 % 2 = 0 := by
    rw [← toNat_unpackSign, ← BitVec.toNat_inj]
    rfl
  unfold Sign.ofBitVec
  rcases Nat.mod_two_eq_zero_or_one (b.toNat / 2 ^ 31) with h | h
  · rw [if_pos (hbit.mpr h), h]
    rfl
  · rw [if_neg (by rw [hbit, h]; decide), h]
    rfl

theorem decode_eq : BinaryFormat.binary32.decode b.toNat =
    let negative := b.toNat / 2 ^ 31 % 2 == 1
    if (unpackExponent b).toNat = 255 then
      if (unpackMantissa b).toNat = 0 then .infinite negative else .undefined
    else if (unpackExponent b).toNat = 0 then .finite negative (unpackMantissa b).toNat (-149)
    else .finite negative (2 ^ 23 + (unpackMantissa b).toNat)
      (-149 + (unpackExponent b).toNat - 1) := by
  rw [toNat_unpackExponent, toNat_unpackMantissa]
  rfl

/-- **Both read the same number.** -/
theorem unpack_eq_decode :
    unpack Format.binary32 b = (BinaryFormat.binary32.decode b.toNat).unpacked := by
  have hmantissa : unpackMantissa b = 0#23 ↔ (unpackMantissa b).toNat = 0 := by
    rw [← BitVec.toNat_inj]
    rfl
  have hones : unpackExponent b = -1#8 ↔ (unpackExponent b).toNat = 255 := by
    rw [← BitVec.toNat_inj]
    rfl
  have hzero : unpackExponent b = 0#8 ↔ (unpackExponent b).toNat = 0 := by
    rw [← BitVec.toNat_inj]
    rfl
  have hbias : (Format.binary32.exponentBias : ℤ) = 127 := rfl
  have hbits : (Format.binary32.mantissaBitsWithoutImplicit : ℤ) = 23 := rfl
  rw [decode_eq]
  unfold unpack
  dsimp only
  rw [ofBitVec_unpackSign]
  by_cases h1 : (unpackExponent b).toNat = 255
  · rw [if_pos (hones.mpr h1), if_pos h1]
    by_cases h2 : (unpackMantissa b).toNat = 0
    · rw [if_pos (hmantissa.mpr h2), if_pos h2]
      rfl
    · rw [if_neg (mt hmantissa.mp h2), if_neg h2]
      rfl
  · rw [if_neg (mt hones.mp h1), if_neg h1]
    by_cases h3 : (unpackExponent b).toNat = 0
    · rw [if_pos (hzero.mpr h3), if_pos h3]
      by_cases h2 : (unpackMantissa b).toNat = 0
      · rw [dif_pos (hmantissa.mpr h2)]
        simp [BinaryValue.unpacked, h2]
      · rw [dif_neg (mt hmantissa.mp h2)]
        simp [BinaryValue.unpacked, h2, h3, hbias]
    · have hhidden : (1#1 ++ unpackMantissa b).toNat = 2 ^ 23 + (unpackMantissa b).toNat :=
        toNat_one_append (unpackMantissa b)
      rw [if_neg (mt hzero.mp h3), if_neg h3]
      simp [BinaryValue.unpacked, hbias]
      omega

end

theorem unpack_toModel (x : Float32) : x.toModel.unpack = (binary32Value x).unpacked :=
  unpack_eq_decode x.toModel.toBits.toBitVec

namespace BinaryValue

variable {v : BinaryValue}

theorem eq_finite_of_unpacked {m : ℕ} {e : ℤ} {hm : 0 < m}
    (h : v.unpacked = .finite .positive m e hm) : v = .finite false m e := by
  rcases v with ⟨_ | _, n, f⟩ | ⟨_ | _⟩ | _
  case finite.false =>
    by_cases hn : n = 0
    · simp [unpacked, hn] at h
    · simpa [unpacked, hn] using h
  case finite.true => by_cases hn : n = 0 <;> simp [unpacked, hn] at h
  all_goals exact nomatch h

theorem eq_infinite_of_unpacked (h : v.unpacked = .infinity .positive) : v = .infinite false := by
  rcases v with ⟨_ | _, n, f⟩ | ⟨_ | _⟩ | _
  case infinite.false => rfl
  case infinite.true => exact nomatch h
  case undefined => exact nomatch h
  all_goals by_cases hn : n = 0 <;> simp [unpacked, hn] at h

end BinaryValue

/-! ## Powers of two -/

theorem unpack_binary32PowTwo {k : ℤ} (hlow : -126 ≤ k) (hhigh : k ≤ 127) :
    (binary32PowTwo k).toModel.unpack = .finite .positive (2 ^ 23) (k - 23) (by norm_num) := by
  have hbits : ((k + 127).toNat <<< 23).toUInt32.toNat = (k + 127).toNat * 2 ^ 23 := by
    rw [Nat.shiftLeft_eq, Nat.toUInt32_eq, UInt32.toNat_ofNat', Nat.mod_eq_of_lt (by omega)]
  have hread : (binary32PowTwo k).toModel.unpack =
      unpack Format.binary32 ((k + 127).toNat <<< 23).toUInt32.toBitVec :=
    unpack_pack (canonical_unpack _)
  have hexponent : (k + 127).toNat * 2 ^ 23 / 2 ^ 23 % 2 ^ 8 = (k + 127).toNat := by omega
  have hmantissa : (k + 127).toNat * 2 ^ 23 % 2 ^ 23 = 0 := by omega
  have hsign : (k + 127).toNat * 2 ^ 23 / 2 ^ 31 % 2 = 0 := by omega
  have hlargest : ¬ (k + 127).toNat = 255 := by omega
  have hleast : ¬ (k + 127).toNat = 0 := by omega
  rw [hread, unpack_eq_decode, decode_eq, toNat_unpackExponent, toNat_unpackMantissa]
  simp only [UInt32.toNat_toBitVec, hbits, hexponent, hmantissa, hsign, if_neg hlargest,
    if_neg hleast]
  simp [BinaryValue.unpacked]
  omega

theorem isFinite_binary32PowTwo {k : ℤ} (hlow : -126 ≤ k) (hhigh : k ≤ 127) :
    (binary32PowTwo k).isFinite = true := by
  show (binary32PowTwo k).toModel.unpack.isFinite = true
  rw [unpack_binary32PowTwo hlow hhigh]
  rfl

theorem realOf_binary32PowTwo {k : ℤ} (hlow : -126 ≤ k) (hhigh : k ≤ 127) :
    realOf (binary32PowTwo k) = 2 ^ k := by
  rw [realOf, unpack_binary32PowTwo hlow hhigh]
  show ((2 ^ 23 : ℕ) : ℝ) * 2 ^ (k - 23) = 2 ^ k
  rw [zpow_sub₀ two_ne_zero]
  push_cast
  field_simp
  norm_num

/-- What lies between powers of two is rounded to a number between them. -/
theorem Rounds.between_binary32PowTwo {v : ℝ} {r : Float32} (h : Rounds v r) {i j : ℤ}
    (hi : -126 ≤ i) (hj : j ≤ 127) (hiv : 2 ^ i ≤ v) (hvj : v ≤ 2 ^ j) :
    r.isFinite ∧ 2 ^ i ≤ realOf r ∧ realOf r ≤ 2 ^ j := by
  have hij : i ≤ j := (zpow_le_zpow_iff_right₀ one_lt_two).mp (hiv.trans hvj)
  have hvi := realOf_binary32PowTwo hi (hij.trans hj)
  have hvj' := realOf_binary32PowTwo (hi.trans hij) hj
  have hbetween := h.between (isFinite_binary32PowTwo hi (hij.trans hj))
    (isFinite_binary32PowTwo (hi.trans hij) hj) (hvi.trans_le hiv) (hvj.trans_eq hvj'.symm)
  rwa [hvi, hvj'] at hbetween

/-! ## Cube roots -/

namespace BinaryValue

/-- The significand of a root, with a last digit that says whether the root is exact. -/
def rootDigits (scaled : ℕ) : ℕ :=
  2 * floorCubeRoot scaled + (if cube (floorCubeRoot scaled) = scaled then 0 else 1)

/-- The significand was scaled to 27 digits of the root or more. -/
theorem rootDigits_bounds {m pad : ℕ} (hm : m ≠ 0) (hlt : m < 2 ^ 24) (hlow : 81 ≤ pad)
    (hhigh : pad ≤ 83) :
    2 ^ 28 ≤ rootDigits (m * 2 ^ pad) ∧ rootDigits (m * 2 ^ pad) ≤ 2 ^ 37 := by
  have hleast : cube (2 ^ 27) ≤ m * 2 ^ pad := by
    calc cube (2 ^ 27) = 2 ^ 81 := by norm_num [cube]
      _ ≤ 2 ^ pad := Nat.pow_le_pow_right two_pos hlow
      _ ≤ m * 2 ^ pad := Nat.le_mul_of_pos_left _ (Nat.pos_of_ne_zero hm)
  have hlargest : m * 2 ^ pad < cube (2 ^ 36) := by
    calc m * 2 ^ pad < 2 ^ 24 * 2 ^ pad := Nat.mul_lt_mul_of_pos_right hlt (Nat.two_pow_pos pad)
      _ ≤ 2 ^ 24 * 2 ^ 83 := Nat.mul_le_mul_left _ (Nat.pow_le_pow_right two_pos hhigh)
      _ ≤ cube (2 ^ 36) := by norm_num [cube]
  have hle := le_floorCubeRoot hleast
  have hlt := floorCubeRoot_lt hlargest
  unfold rootDigits
  split_ifs <;> omega

/-- The root of a positive number is finite, and `2 ^ -50` at least. -/
theorem cubeRoot32_bounds {m : ℕ} {e : ℤ} (hm : m ≠ 0) (hfits : Fits m e) (he : e ≤ 104) :
    (cubeRoot32 (.finite false m e)).isFinite ∧
      2 ^ (-50 : ℤ) ≤ realOf (cubeRoot32 (.finite false m e)) := by
  have hleast := hfits.least_le
  generalize hpad : 81 + (e % 3).toNat = pad
  generalize hk : (e - pad) / 3 - 1 = k
  have hroot : cubeRoot32 (.finite false m e) =
      Float32.ofNat (rootDigits (m * 2 ^ pad)) * binary32PowTwo k := by
    unfold cubeRoot32 rootDigits
    simp only [if_neg hm, hpad, hk]
    rfl
  have hklow : -78 ≤ k := by omega
  have hkhigh : k ≤ 6 := by omega
  have hpadlow : 81 ≤ pad := by omega
  have hpadhigh : pad ≤ 83 := by omega
  obtain ⟨hlow, hhigh⟩ := rootDigits_bounds hm hfits.lt hpadlow hpadhigh
  generalize rootDigits (m * 2 ^ pad) = digits at hroot hlow hhigh
  obtain ⟨hd, hdlow, hdhigh⟩ := (rounds_ofNat digits).between_binary32PowTwo (i := 28) (j := 37)
    (by norm_num) (by norm_num) (by exact_mod_cast hlow) (by exact_mod_cast hhigh)
  have hpow := realOf_binary32PowTwo (k := k) (by omega) (by omega)
  have hpos : (0 : ℝ) < 2 ^ k := by positivity
  have hproduct := rounds_mul hd (isFinite_binary32PowTwo (k := k) (by omega) (by omega))
    ((zpow_pos two_pos _).le.trans hdlow) (hpow ▸ hpos.le)
  rw [hpow, ← hroot] at hproduct
  have hsmall : (2 : ℝ) ^ (-50 : ℤ) ≤ realOf (Float32.ofNat digits) * 2 ^ k := by
    calc (2 : ℝ) ^ (-50 : ℤ) ≤ 2 ^ (28 + k) := zpow_le_zpow_right₀ one_le_two (by omega)
      _ = 2 ^ (28 : ℤ) * 2 ^ k := zpow_add₀ two_ne_zero _ _
      _ ≤ realOf (Float32.ofNat digits) * 2 ^ k := by gcongr
  have hlarge : realOf (Float32.ofNat digits) * 2 ^ k ≤ 2 ^ (43 : ℤ) := by
    calc realOf (Float32.ofNat digits) * 2 ^ k ≤ 2 ^ (37 : ℤ) * 2 ^ k := by gcongr
      _ = 2 ^ (37 + k) := (zpow_add₀ two_ne_zero _ _).symm
      _ ≤ 2 ^ (43 : ℤ) := zpow_le_zpow_right₀ one_le_two (by omega)
  obtain ⟨hfinite, hge, -⟩ :=
    hproduct.between_binary32PowTwo (by norm_num) (by norm_num) hsmall hlarge
  exact ⟨hfinite, hge⟩

end BinaryValue

end AmbisonicReverb
