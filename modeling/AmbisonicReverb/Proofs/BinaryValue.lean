import Mathlib
import AmbisonicReverb.Proofs.BinaryBits
import AmbisonicReverb.Proofs.BinaryOrder

/-!
# The values of binary32 numbers

A finite binary32 number is a significand times a power of two, with a sign. It has one such form
only, the canonical one, in which the significand has 24 binary digits, or the exponent is the
least. Numbers are stored in this form (`canonical_unpack`) and survive the way through their bits
(`unpack_pack`), and the machine orders finite numbers as their values are ordered
(`binary32_le_iff_realOf`).
-/

namespace AmbisonicReverb

open Float.Model (Format UnpackedFloat)
open Float.Model.UnpackedFloat

/-! ## Canonical forms -/

/-- Significand and exponent are those of a binary32 number, but that the exponent may be too
large. -/
structure Fits (m : ℕ) (e : ℤ) : Prop where
  lt : m < 2 ^ 24
  least_le : -149 ≤ e
  normal : -149 < e → 2 ^ 23 ≤ m

/-- A number in the form in which binary32 numbers are stored. -/
def Canonical : UnpackedFloat → Prop
  | .finite _ m e _ => Fits m e ∧ e ≤ 104
  | _ => True

/-- The sign does not matter. -/
theorem Canonical.neg {u : UnpackedFloat} (h : Canonical u) : Canonical u.neg := by
  cases u with
  | finite s m e hm => exact h
  | _ => trivial

theorem canonical_unpack (b : BitVec Format.binary32.numBits) :
    Canonical (unpack Format.binary32 b) := by
  have hbias : (Format.binary32.exponentBias : ℤ) = 127 := rfl
  have hbits : (Format.binary32.mantissaBitsWithoutImplicit : ℤ) = 23 := rfl
  have hm : (unpackMantissa b).toNat < 2 ^ 23 := (unpackMantissa b).isLt
  have he : (unpackExponent b).toNat < 2 ^ 8 := (unpackExponent b).isLt
  unfold unpack
  dsimp only
  split_ifs with hinfinite _ hzero _
  · trivial
  · trivial
  · trivial
  · have hexponent : (unpackExponent b).toNat = 0 := by rw [hzero]; rfl
    refine ⟨⟨?_, ?_, ?_⟩, ?_⟩
    · omega
    · simp only [hexponent, hbias, hbits]; omega
    · simp only [hexponent, hbias, hbits]; omega
    · simp only [hexponent, hbias, hbits]; omega
  · have happend : (1#1 ++ unpackMantissa b).toNat = 2 ^ 23 + (unpackMantissa b).toNat :=
      toNat_one_append (unpackMantissa b)
    have hleast : (unpackExponent b).toNat ≠ 0 := fun h => hzero (BitVec.eq_of_toNat_eq h)
    have hlargest : (unpackExponent b).toNat ≠ 255 := fun h => hinfinite (BitVec.eq_of_toNat_eq h)
    refine ⟨⟨?_, ?_, ?_⟩, ?_⟩
    · omega
    · simp only [hbias, hbits]; omega
    · omega
    · simp only [hbias, hbits]; omega

theorem toNat_biased (e : ℤ) :
    (e + Format.binary32.exponentBias + Format.binary32.mantissaBitsWithoutImplicit).toNat =
      (e + 150).toNat := by
  show (e + 127 + 23).toNat = _
  omega

theorem unpack_pack_subnormal (s : Sign) {m : ℕ} (hhigh : m < 2 ^ 23) (hm : 0 < m) :
    unpack Format.binary32 (pack Format.binary32 (.finite s m (-149) hm)) =
      .finite s m (-149) hm := by
  have hlog : ¬ m.log2 + 1 = Format.binary32.mantissaBits := by
    intro h
    have h : m.log2 = 23 := Nat.succ.inj h
    have hlow := ((Nat.log2_eq_iff hm.ne').mp h).1
    omega
  have hbias : (Format.binary32.exponentBias : ℤ) = 127 := rfl
  have hmantissa : (BitVec.ofNat 23 m).toNat = m := by
    rw [BitVec.toNat_ofNat]
    omega
  have hzero : BitVec.ofNat 23 m ≠ 0#23 := by
    intro h
    exact hm.ne' (hmantissa.symm.trans (congrArg BitVec.toNat h))
  have hfits : ¬ 2 ^ Format.binary32.exponentBits ≤ ((-149 : ℤ) + 150).toNat + 1 := by decide
  unfold pack
  dsimp only
  rw [toNat_biased, if_neg hfits, if_neg hlog]
  unfold unpack
  simp only [unpackMantissa_packComponents, unpackExponent_packComponents,
    unpackSign_packComponents, dif_neg hzero, hmantissa, Sign.ofBitVec_toBitVec, hbias]
  rfl

/-- Bits keep canonical numbers. -/
theorem unpack_pack {u : UnpackedFloat} (h : Canonical u) :
    unpack Format.binary32 (pack Format.binary32 u) = u := by
  cases u with
  | notANumber => rfl
  | infinity s => cases s <;> rfl
  | zero s => cases s <;> rfl
  | finite s m e hm =>
    obtain ⟨⟨hlt, hleast, hnormal⟩, hlargest⟩ := h
    by_cases hlow : 2 ^ 23 ≤ m
    · have hk : e + Format.binary32.exponentBias +
          Format.binary32.mantissaBitsWithoutImplicit = (e + 150).toNat := by
        show e + 127 + 23 = _
        omega
      have hfits : (e + 150).toNat + 1 < 2 ^ Format.binary32.exponentBits := by
        show _ < 256
        omega
      exact unpack_pack_normal s hlow hlt hk hfits hm (by omega)
    · obtain rfl : e = -149 := by
        by_contra hne
        exact hlow (hnormal (by omega))
      exact unpack_pack_subnormal s (by omega) hm

/-- An exponent that is too large makes an infinity. -/
theorem unpack_pack_overflow (s : Sign) {m : ℕ} {e : ℤ} (hlarge : 104 < e) (hm : 0 < m) :
    unpack Format.binary32 (pack Format.binary32 (.finite s m e hm)) = .infinity s := by
  have hlimit : 2 ^ Format.binary32.exponentBits ≤ (e + 150).toNat + 1 := by
    show 256 ≤ _
    omega
  unfold pack
  dsimp only
  rw [toNat_biased, if_pos hlimit]
  cases s <;> rfl

/-! ## Values -/

/-- What an unpacked number stands for. Infinities and NaN count as 0. -/
noncomputable def valueOf : UnpackedFloat → ℝ
  | .finite .positive m e _ => m * ((2 : ℕ) : ℝ) ^ e
  | .finite .negative m e _ => -(m * ((2 : ℕ) : ℝ) ^ e)
  | _ => 0

theorem valueOf_neg (u : UnpackedFloat) : valueOf u.neg = -valueOf u := by
  rcases u with _ | _ | _ | ⟨_ | _, m, e, hm⟩
  case finite.negative => exact (neg_neg _).symm
  case finite.positive => rfl
  all_goals exact neg_zero.symm

namespace Fits

variable {m n : ℕ} {e f : ℤ}

theorem value_lt (h : Fits m e) : (m : ℝ) * 2 ^ e < 2 ^ (24 + e) := by
  have hm : (m : ℝ) < 2 ^ 24 := by exact_mod_cast h.lt
  calc (m : ℝ) * 2 ^ e < 2 ^ 24 * 2 ^ e := by gcongr
    _ = 2 ^ (24 + e) := by rw [zpow_add₀ two_ne_zero]; norm_num

theorem le_value (h : Fits m e) (he : -149 < e) : (2 : ℝ) ^ (23 + e) ≤ m * 2 ^ e := by
  have hm : (2 : ℝ) ^ 23 ≤ m := by exact_mod_cast h.normal he
  calc (2 : ℝ) ^ (23 + e) = 2 ^ 23 * 2 ^ e := by rw [zpow_add₀ two_ne_zero]; norm_num
    _ ≤ m * 2 ^ e := by gcongr

theorem value_lt_of_exponent_lt (hm : Fits m e) (hn : Fits n f) (h : e < f) :
    (m : ℝ) * 2 ^ e < n * 2 ^ f := by
  have hleast := hm.least_le
  calc (m : ℝ) * 2 ^ e < 2 ^ (24 + e) := hm.value_lt
    _ ≤ 2 ^ (23 + f) := zpow_le_zpow_right₀ one_le_two (by omega)
    _ ≤ n * 2 ^ f := hn.le_value (by omega)

/-- Canonical forms are ordered by exponent and significand. -/
theorem value_lt_iff (hm : Fits m e) (hn : Fits n f) :
    (m : ℝ) * 2 ^ e < n * 2 ^ f ↔ e < f ∨ e = f ∧ m < n := by
  rcases lt_trichotomy e f with h | rfl | h
  · exact ⟨fun _ => .inl h, fun _ => hm.value_lt_of_exponent_lt hn h⟩
  · simp [zpow_pos]
  · have hlt := hn.value_lt_of_exponent_lt hm h
    refine ⟨fun hlt' => absurd (hlt.trans hlt') (lt_irrefl _), fun hplace => ?_⟩
    omega

end Fits

theorem significand_pos {m : ℕ} (h : 0 < m) (e : ℤ) : 0 < (m : ℝ) * 2 ^ e := by positivity

/-- Canonical numbers have their places in the order of their values. -/
theorem place_lt_iff {a b : UnpackedFloat} (ha : Canonical a) (hb : Canonical b)
    (hfinite : a.isFinite) (hfinite' : b.isFinite) :
    place a < place b ↔ valueOf a < valueOf b := by
  rcases a with _ | _ | _ | ⟨_ | _, m, e, hm⟩ <;>
    rcases b with _ | _ | _ | ⟨_ | _, n, f, hn⟩ <;>
    first
      | exact absurd hfinite Bool.false_ne_true
      | exact absurd hfinite' Bool.false_ne_true
      | skip
  all_goals simp only [place, valueOf, Nat.cast_ofNat, Prod.Lex.toLex_lt_toLex]
  case zero.zero => simp
  case zero.finite.negative => simp [(significand_pos hn f).le]
  case zero.finite.positive => simp [significand_pos hn f]
  case finite.negative.zero => simp [significand_pos hm e]
  case finite.positive.zero => simp [(significand_pos hm e).le]
  case finite.negative.finite.positive =>
    have hlt : -((m : ℝ) * 2 ^ e) < n * 2 ^ f :=
      (neg_lt_zero.mpr (significand_pos hm e)).trans (significand_pos hn f)
    simp [hlt]
  case finite.positive.finite.negative =>
    have hle : -((n : ℝ) * 2 ^ f) ≤ m * 2 ^ e :=
      (neg_lt_zero.mpr (significand_pos hn f)).le.trans (significand_pos hm e).le
    simp [hle]
  case finite.positive.finite.positive => simp [ha.1.value_lt_iff hb.1]
  case finite.negative.finite.negative => simp [hb.1.value_lt_iff ha.1, eq_comm]

/-- A finite number is negative, or its value has a canonical form without sign. -/
theorem valueOf_cases {a : UnpackedFloat} (ha : Canonical a) (h : a.isFinite) :
    valueOf a < 0 ∨ ∃ m e, Fits m e ∧ e ≤ 104 ∧ valueOf a = m * 2 ^ e := by
  rcases a with _ | _ | _ | ⟨_ | _, m, e, hm⟩
  · exact absurd h Bool.false_ne_true
  · exact absurd h Bool.false_ne_true
  · exact .inr ⟨0, -149, ⟨by norm_num, le_rfl, fun h => absurd h (lt_irrefl _)⟩, by norm_num,
      by simp [valueOf]⟩
  · exact .inl (neg_lt_zero.mpr (significand_pos hm e))
  · exact .inr ⟨m, e, ha.1, ha.2, rfl⟩

/-- Finite numbers are between the infinities. -/
theorem place_infinity {a : UnpackedFloat} (h : a.isFinite) :
    place (.infinity .negative) < place a ∧ place a < place (.infinity .positive) := by
  rcases a with _ | _ | _ | ⟨_ | _, m, e, hm⟩ <;>
    first | exact absurd h Bool.false_ne_true | simp [place, Prod.Lex.toLex_lt_toLex]

/-! ## Machine numbers -/

/-- The place of a binary32 number. -/
def placeOf (x : Float32) : ℤ ×ₗ ℤ ×ₗ ℤ := place x.toModel.unpack

/-- The value of a finite binary32 number. -/
noncomputable def realOf (x : Float32) : ℝ := valueOf x.toModel.unpack

/-- The binary32 number with the given form. -/
def ofUnpacked (u : UnpackedFloat) : Float32 := .ofModel (.pack u)

/-- A number is made again from its form. -/
theorem ofUnpacked_unpack (x : Float32) : ofUnpacked x.toModel.unpack = x := by
  obtain ⟨bits, hvalid⟩ := x
  have hpack := pack_unpack_of_valid (by decide) hvalid
  simp only [ofUnpacked, Float32.Model.pack, Float32.Model.unpack, hpack]

theorem compare_eq_none {a b : UnpackedFloat} (h : a = .notANumber ∨ b = .notANumber) :
    a.compare b = none := by
  rcases h with rfl | rfl
  · rfl
  · cases a <;> rfl

section

variable {x y z : Float32}

theorem canonical_of (x : Float32) : Canonical x.toModel.unpack := canonical_unpack _

theorem isNaN_eq_false_iff : x.isNaN = false ↔ x.toModel.unpack ≠ .notANumber := by
  rw [← Bool.not_eq_true]
  exact not_congr isNaN_iff

/-- Numbers are compared by their places, but NaN is not compared. -/
theorem binary32_le_iff :
    x ≤ y ↔ (x.isNaN = false ∧ y.isNaN = false) ∧ placeOf x ≤ placeOf y := by
  have hle : x ≤ y ↔ x.toModel.unpack.le y.toModel.unpack = true := decide_eq_true_iff
  rw [hle, isNaN_eq_false_iff, isNaN_eq_false_iff]
  by_cases h : x.toModel.unpack = .notANumber ∨ y.toModel.unpack = .notANumber
  · have hnan : ¬ (x.toModel.unpack ≠ .notANumber ∧ y.toModel.unpack ≠ .notANumber) := by tauto
    simp [UnpackedFloat.le, compare_eq_none h, hnan]
  · obtain ⟨hx, hy⟩ := not_or.mp h
    simp [hx, hy, le_iff_place hx hy, placeOf]

theorem binary32_lt_iff :
    x < y ↔ (x.isNaN = false ∧ y.isNaN = false) ∧ placeOf x < placeOf y := by
  have hlt : x < y ↔ x.toModel.unpack.lt y.toModel.unpack = true := decide_eq_true_iff
  rw [hlt, isNaN_eq_false_iff, isNaN_eq_false_iff]
  by_cases h : x.toModel.unpack = .notANumber ∨ y.toModel.unpack = .notANumber
  · have hnan : ¬ (x.toModel.unpack ≠ .notANumber ∧ y.toModel.unpack ≠ .notANumber) := by tauto
    simp [UnpackedFloat.lt, compare_eq_none h, hnan]
  · obtain ⟨hx, hy⟩ := not_or.mp h
    simp [hx, hy, lt_iff_place hx hy, placeOf]

theorem binary32_le_trans (hxy : x ≤ y) (hyz : y ≤ z) : x ≤ z := by
  rw [binary32_le_iff] at hxy hyz ⊢
  exact ⟨⟨hxy.1.1, hyz.1.2⟩, hxy.2.trans hyz.2⟩

theorem binary32_le_of_not_lt (hx : x.isNaN = false) (hy : y.isNaN = false) (h : ¬ x < y) :
    y ≤ x := by
  rw [binary32_lt_iff] at h
  rw [binary32_le_iff]
  exact ⟨⟨hy, hx⟩, not_lt.mp fun hlt => h ⟨⟨hx, hy⟩, hlt⟩⟩

theorem isNaN_of_isFinite (h : x.isFinite) : x.isNaN = false := by
  rw [isNaN_eq_false_iff]
  intro hnan
  have h : x.toModel.unpack.isFinite = true := h
  rw [hnan] at h
  exact Bool.false_ne_true h

theorem realOf_cases (hx : x.isFinite) :
    realOf x < 0 ∨ ∃ m e, Fits m e ∧ e ≤ 104 ∧ realOf x = m * 2 ^ e :=
  valueOf_cases (canonical_of x) hx

/-- **Finite numbers are ordered as their values.** -/
theorem binary32_le_iff_realOf (hx : x.isFinite) (hy : y.isFinite) :
    x ≤ y ↔ realOf x ≤ realOf y := by
  rw [binary32_le_iff, and_iff_right ⟨isNaN_of_isFinite hx, isNaN_of_isFinite hy⟩, ← not_lt,
    ← not_lt]
  exact not_congr (place_lt_iff (canonical_of y) (canonical_of x) hy hx)

/-- What lies between finite numbers is finite. -/
theorem isFinite_of_le_of_le (hx : x.isFinite) (hz : z.isFinite) (hxy : x ≤ y) (hyz : y ≤ z) :
    y.isFinite := by
  have hnan := isNaN_eq_false_iff.mp (binary32_le_iff.mp hxy).1.2
  have hlow : place (.infinity .negative) < placeOf y :=
    (place_infinity hx).1.trans_le (binary32_le_iff.mp hxy).2
  have hhigh : placeOf y < place (.infinity .positive) :=
    (binary32_le_iff.mp hyz).2.trans_lt (place_infinity hz).2
  show y.toModel.unpack.isFinite = true
  unfold placeOf at hlow hhigh
  cases hy : y.toModel.unpack with
  | notANumber => exact absurd hy hnan
  | infinity s =>
    rw [hy] at hlow hhigh
    cases s with
    | negative => exact absurd hlow (lt_irrefl _)
    | positive => exact absurd hhigh (lt_irrefl _)
  | zero => rfl
  | finite => rfl

theorem toModel_ofUnpacked {u : UnpackedFloat} (h : Canonical u) :
    (ofUnpacked u).toModel.unpack = u := unpack_pack h

theorem isFinite_ofUnpacked {u : UnpackedFloat} (h : Canonical u) (hu : u.isFinite) :
    (ofUnpacked u).isFinite = true := by
  show (ofUnpacked u).toModel.unpack.isFinite = true
  rw [toModel_ofUnpacked h]
  exact hu

theorem realOf_ofUnpacked {u : UnpackedFloat} (h : Canonical u) :
    realOf (ofUnpacked u) = valueOf u := by
  rw [realOf, toModel_ofUnpacked h]

theorem unpack_neg (x : Float32) : (-x).toModel.unpack = x.toModel.unpack.neg :=
  toModel_ofUnpacked (canonical_of x).neg

theorem isFinite_neg (hx : x.isFinite) : (-x).isFinite = true := by
  have hx : x.toModel.unpack.isFinite = true := hx
  show (-x).toModel.unpack.isFinite = true
  rw [unpack_neg]
  cases hu : x.toModel.unpack with
  | finite | zero => rfl
  | infinity | notANumber => exact nomatch hu ▸ hx

theorem realOf_neg (x : Float32) : realOf (-x) = -realOf x := by
  rw [realOf, unpack_neg, valueOf_neg, realOf]

end

end AmbisonicReverb
