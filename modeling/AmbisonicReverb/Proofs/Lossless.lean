import Mathlib
import AmbisonicReverb.Circulant
import AmbisonicReverb.Proofs.Derive
import AmbisonicReverb.Proofs.Exact
import AmbisonicReverb.Proofs.Sums

/-!
# Feedback matrices are lossless

Read exactly, the feedback matrix of every order and of both layouts is orthogonal. Its generating
row is the inverse discrete Fourier transform of eigenvalues of magnitude 1. Indices are taken in
`ZMod n`, where eigenvalue `-k` is the conjugate of eigenvalue `k` (`eigenvalue_neg`). Two facts
follow by the orthogonality of characters: the row is real (`coe_generator`), and its cyclic
autocorrelation is that of a unit impulse (`sum_generator_mul`).

A column of the matrix is the row, shifted and for one layout reversed, so that the products of
columns are values of the autocorrelation. The columns are orthonormal, and so are then the rows
(`feedbackMatrix_lossless`).
-/

namespace AmbisonicReverb

open Finset

/-! ## Phasors as complex numbers -/

namespace Phasor

def toComplex (p : Phasor ℝ) : ℂ := ⟨p.re, p.im⟩

theorem toComplex_add (p q : Phasor ℝ) : (p + q).toComplex = p.toComplex + q.toComplex := rfl

theorem toComplex_mul (p q : Phasor ℝ) : (p * q).toComplex = p.toComplex * q.toComplex :=
  Complex.ext rfl rfl

theorem toComplex_conj (p : Phasor ℝ) :
    p.conj.toComplex = (starRingEnd ℂ) p.toComplex := rfl

theorem toComplex_unit (angle : ℝ) : (unit angle).toComplex = Complex.exp (angle * Complex.I) := by
  refine Complex.ext ?_ ?_
  · rw [Complex.exp_ofReal_mul_I_re]
    rfl
  · rw [Complex.exp_ofReal_mul_I_im]
    rfl

theorem toComplex_scale (p : Phasor ℝ) (g : ℝ) : (p.scale g).toComplex = g * p.toComplex := by
  refine Complex.ext ?_ ?_
  · rw [Complex.re_ofReal_mul]
    exact mul_comm _ _
  · rw [Complex.im_ofReal_mul]
    exact mul_comm _ _

theorem toComplex_addReal (a : ℝ) (p : Phasor ℝ) : (addReal a p).toComplex = a + p.toComplex := by
  refine Complex.ext rfl ?_
  rw [Complex.add_im, Complex.ofReal_im, zero_add]
  rfl

theorem toComplex_div (p q : Phasor ℝ) : (p / q).toComplex = p.toComplex / q.toComplex := by
  refine Complex.ext ?_ ?_
  · rw [Complex.div_re, ← add_div]
    rfl
  · rw [Complex.div_im, ← sub_div]
    rfl

variable {n : Nat} [NeZero n]

/-- The factor of term `k` of the transform at `m` is a value of the standard character. -/
theorem toComplex_turns (k m : Nat) :
    (unit (Elementary.tau * (Scalar.ofNat (k * m % n) / Scalar.ofNat n : ℝ))).toComplex =
      ZMod.stdAddChar ((k * m : Nat) : ZMod n) := by
  have hcast : ((k * m : Nat) : ZMod n) = (((k * m % n : Nat) : ℤ) : ZMod n) := by
    rw [Int.cast_natCast, ZMod.natCast_mod]
  rw [hcast, ZMod.stdAddChar_coe, toComplex_unit]
  generalize k * m % n = j
  congr 1
  show ((2 * Real.pi * (j / n) : ℝ) : ℂ) * Complex.I = _
  push_cast
  ring

theorem toComplex_inverseDFT {spectrum : Array (Phasor ℝ)} (hs : spectrum.size = n) {m : Nat}
    (hm : m < n) :
    ((inverseDFT spectrum).getD m ⟨0, 0⟩).toComplex =
      ∑ k ∈ range n, (spectrum.getD k ⟨0, 0⟩).toComplex *
        ZMod.stdAddChar ((k * m : Nat) : ZMod n) := by
  subst hs
  have hsize : m < (inverseDFT spectrum).size := by simpa [inverseDFT] using hm
  have hterm : ∀ (sum : Phasor ℝ) (k : Nat),
      (sum + spectrum.getD k ⟨0, 0⟩ * unit (Elementary.tau *
        (Scalar.ofNat (k * m % spectrum.size) / Scalar.ofNat spectrum.size))).toComplex =
      sum.toComplex + (spectrum.getD k ⟨0, 0⟩).toComplex *
        ZMod.stdAddChar ((k * m : Nat) : ZMod spectrum.size) := by
    intro sum k
    rw [toComplex_add, toComplex_mul, toComplex_turns]
  rw [Array.getD_eq_getD_getElem?, Array.getElem?_eq_getElem hsize, Option.getD_some]
  simp only [inverseDFT, Array.getElem_ofFn]
  rw [fold_eq_foldl_range (g := fun sum k => sum + spectrum.getD k ⟨0, 0⟩ *
    unit (Elementary.tau * (Scalar.ofNat (k * m % spectrum.size) / Scalar.ofNat spectrum.size)))]
  · rw [foldl_range_eq_sum toComplex hterm]
    show (0 : ℂ) + _ = _
    rw [zero_add]
  · intro k hk sum
    rw [Array.getD_eq_getD_getElem?, Array.getElem?_eq_getElem hk, Option.getD_some]

end Phasor

namespace Circulant

/-! ## Eigenvalues -/

theorem toComplex_chirp (n k : Nat) :
    (chirp n k : Phasor ℝ).toComplex =
      Complex.exp ((2 * Real.pi * (2 * k / n) ^ 2 : ℝ) * Complex.I) := by
  have hratio : (Scalar.ofNat k / (0.5 * Scalar.ofNat n) : ℝ) = 2 * k / n := by
    rw [Scalar.ofNat_eq, Scalar.ofNat_eq]
    norm_num
    ring
  unfold chirp
  rw [hratio, Phasor.toComplex_unit, sq]
  rfl

theorem chirp_zero (n : Nat) : (chirp n 0 : Phasor ℝ).toComplex = 1 := by
  simp [toComplex_chirp]

/-- At half the order the chirp has made a full turn. -/
theorem chirp_half {n k : Nat} (hn : n ≠ 0) (h : 2 * k = n) :
    (chirp n k : Phasor ℝ).toComplex = 1 := by
  have hn : (n : ℝ) ≠ 0 := Nat.cast_ne_zero.mpr hn
  have hratio : (2 * k / n : ℝ) = 1 := by
    rw [← h]
    push_cast
    rw [← h] at hn
    push_cast at hn
    exact div_self hn
  rw [toComplex_chirp, hratio, one_pow, mul_one]
  push_cast
  exact Complex.exp_two_pi_mul_I

theorem norm_chirp (n k : Nat) : ‖(chirp n k : Phasor ℝ).toComplex‖ = 1 := by
  rw [toComplex_chirp, Complex.norm_exp_ofReal_mul_I]

section

variable {n : Nat} [NeZero n]

/-- The eigenvalues, with their index modulo the order. -/
noncomputable def eigenvalue (k : ZMod n) : ℂ :=
  ((spectrum n).getD k.val (⟨0, 0⟩ : Phasor ℝ)).toComplex

/-- The chirp runs forward on the lower half and backward on the upper half. -/
theorem eigenvalue_eq (k : ZMod n) :
    eigenvalue k = if 2 * k.val ≤ n then (chirp n k.val : Phasor ℝ).toComplex
      else (starRingEnd ℂ) (chirp n (n - k.val) : Phasor ℝ).toComplex := by
  have hk : k.val < n := ZMod.val_lt k
  have hsize : k.val < (spectrum n : Array (Phasor ℝ)).size := by simpa [spectrum] using hk
  unfold eigenvalue
  rw [Array.getD_eq_getD_getElem?, Array.getElem?_eq_getElem hsize, Option.getD_some]
  simp only [spectrum, Array.getElem_ofFn]
  split_ifs with hreal hlow hlow hlow
  · -- here the chirp is real, so that nothing is lost with its imaginary part
    have hone : (chirp n k.val : Phasor ℝ).toComplex = 1 := by
      rcases hreal with hzero | hhalf
      · rw [hzero, chirp_zero]
      · exact chirp_half (NeZero.ne n) hhalf
    have hre : (chirp n k.val : Phasor ℝ).re = 1 := congrArg Complex.re hone
    rw [hone]
    exact Complex.ext hre rfl
  · omega
  · rfl
  · omega
  · omega
  · exact Phasor.toComplex_conj _

theorem eigenvalue_zero : eigenvalue (0 : ZMod n) = 1 := by
  rw [eigenvalue_eq, ZMod.val_zero, if_pos (Nat.zero_le n), chirp_zero]

theorem norm_eigenvalue (k : ZMod n) : ‖eigenvalue k‖ = 1 := by
  rw [eigenvalue_eq]
  split_ifs
  · exact norm_chirp n _
  · rw [Complex.norm_conj, norm_chirp]

theorem eigenvalue_neg (k : ZMod n) : eigenvalue (-k) = (starRingEnd ℂ) (eigenvalue k) := by
  have hk : k.val < n := ZMod.val_lt k
  rw [eigenvalue_eq, eigenvalue_eq, ZMod.neg_val]
  by_cases hzero : k = 0
  · rw [if_pos hzero, hzero, ZMod.val_zero]
    simp [chirp_zero]
  · have hpos : k.val ≠ 0 := (ZMod.val_ne_zero k).mpr hzero
    rw [if_neg hzero]
    by_cases hhalf : 2 * k.val = n
    · have hself : n - k.val = k.val := by omega
      rw [hself, if_pos hhalf.le, if_pos hhalf.le, chirp_half (NeZero.ne n) hhalf, map_one]
    · by_cases hlow : 2 * k.val ≤ n
      · rw [if_pos hlow, if_neg (by omega), show n - (n - k.val) = k.val by omega]
      · rw [if_neg hlow, if_pos (by omega), Complex.conj_conj]

theorem eigenvalue_neg_mul (k : ZMod n) : eigenvalue (-k) * eigenvalue k = 1 := by
  rw [eigenvalue_neg, Complex.conj_mul', norm_eigenvalue]
  norm_num

/-! ## The generating row -/

omit [NeZero n] in
theorem sum_range_natCast [NeZero n] {M : Type} [AddCommMonoid M] (f : ZMod n → M) :
    ∑ k ∈ range n, f k = ∑ k, f k :=
  sum_nbij' (fun k => (k : ZMod n)) ZMod.val (fun _ _ => mem_univ _)
    (fun k _ => mem_range.mpr (ZMod.val_lt k))
    (fun _ hk => ZMod.val_cast_of_lt (mem_range.mp hk)) (fun k _ => ZMod.natCast_zmod_val k)
    (fun _ _ => rfl)

omit [NeZero n] in
theorem row_eq (h : ¬ n ≤ 1) :
    (row n : Array ℝ) =
      (Phasor.inverseDFT (spectrum n : Array (Phasor ℝ))).map fun p => p.re * (1 / (n : ℝ)) := by
  have hwide : (spectrum n : Array (Phasor ℝ)).map (fun p => ⟨widen p.re, widen p.im⟩) =
      spectrum n := Array.map_id _
  unfold row
  rw [if_neg h, hwide]
  rfl

/-- The generating row, with its index modulo the order. -/
noncomputable def generator (z : ZMod n) : ℝ := (row n : Array ℝ).getD z.val 0

/-- The inverse transform of the eigenvalues. -/
noncomputable def transform (z : ZMod n) : ℂ := ∑ k, eigenvalue k * ZMod.stdAddChar (k * z)

theorem conj_transform (z : ZMod n) : (starRingEnd ℂ) (transform z) = transform z := by
  unfold transform
  rw [map_sum]
  refine (Equiv.sum_comp (Equiv.neg (ZMod n)) _).symm.trans (sum_congr rfl fun k _ => ?_)
  show (starRingEnd ℂ) (eigenvalue (-k) * ZMod.stdAddChar (-k * z)) = _
  rw [map_mul, eigenvalue_neg, Complex.conj_conj, neg_mul, AddChar.map_neg_eq_conj,
    Complex.conj_conj]

theorem toComplex_inverseDFT_spectrum (z : ZMod n) :
    ((Phasor.inverseDFT (spectrum n : Array (Phasor ℝ))).getD z.val ⟨0, 0⟩).toComplex =
      transform z := by
  have hsize : (spectrum n : Array (Phasor ℝ)).size = n := Array.size_ofFn
  rw [Phasor.toComplex_inverseDFT hsize (ZMod.val_lt z)]
  unfold transform
  rw [← sum_range_natCast]
  refine sum_congr rfl fun k hk => ?_
  unfold eigenvalue
  rw [ZMod.val_cast_of_lt (mem_range.mp hk), Nat.cast_mul, ZMod.natCast_zmod_val]

/-- The generating row is the real inverse transform of the eigenvalues. -/
theorem coe_generator (z : ZMod n) : (generator z : ℂ) = (n : ℂ)⁻¹ * transform z := by
  have hreal : ((transform z).re : ℂ) = transform z := Complex.conj_eq_iff_re.mp (conj_transform z)
  rw [← hreal]
  by_cases hn : n ≤ 1
  · obtain rfl : n = 1 := le_antisymm hn (NeZero.pos n)
    have hz : z = 0 := Subsingleton.elim z 0
    have htransform : transform z = 1 := by
      unfold transform
      rw [Fintype.sum_subsingleton _ 0, eigenvalue_zero, zero_mul, AddChar.map_zero_eq_one, one_mul]
    rw [htransform]
    simp [generator, row, hz]
  · have hz : z.val < n := ZMod.val_lt z
    have hre := congrArg Complex.re (toComplex_inverseDFT_spectrum z)
    have hsize : z.val < (Phasor.inverseDFT (spectrum n : Array (Phasor ℝ))).size := by
      simpa [Phasor.inverseDFT, spectrum] using hz
    rw [← hre]
    unfold generator
    rw [row_eq hn, Array.getD_eq_getD_getElem?, Array.getD_eq_getD_getElem?, Array.getElem?_map,
      Array.getElem?_eq_getElem hsize, Option.map_some, Option.getD_some, Option.getD_some]
    show ((_ * (1 / n) : ℝ) : ℂ) = (n : ℂ)⁻¹ * ((_ : ℝ) : ℂ)
    push_cast
    rw [one_div, mul_comm]
    rfl

/-- A character sums to zero unless it is the trivial one. -/
theorem sum_character (a : ZMod n) :
    ∑ z, ZMod.stdAddChar (a * z) = if a = 0 then (n : ℂ) else 0 := by
  have hsum := AddChar.sum_mulShift a (ZMod.isPrimitive_stdAddChar n)
  rw [ZMod.card] at hsum
  simp only [mul_comm a, hsum]
  split_ifs <;> simp

/-- The row sums to the eigenvalue of the constant signal. -/
theorem sum_generator : ∑ z : ZMod n, generator z = 1 := by
  have hn : (n : ℂ) ≠ 0 := Nat.cast_ne_zero.mpr (NeZero.ne n)
  have hsum : ∑ z : ZMod n, transform z = n := by
    unfold transform
    rw [sum_comm]
    calc ∑ k : ZMod n, ∑ z, eigenvalue k * ZMod.stdAddChar (k * z)
        = ∑ k : ZMod n, eigenvalue k * if k = 0 then (n : ℂ) else 0 := by
          refine sum_congr rfl fun k _ => ?_
          rw [← mul_sum, sum_character]
      _ = n := by simp [eigenvalue_zero]
  have hcomplex : ((∑ z : ZMod n, generator z : ℝ) : ℂ) = 1 := by
    rw [Complex.ofReal_sum]
    simp only [coe_generator]
    rw [← mul_sum, hsum, inv_mul_cancel₀ hn]
  exact_mod_cast hcomplex

/-- The cyclic autocorrelation of the row is a unit impulse. -/
theorem sum_generator_mul (r : ZMod n) :
    ∑ z, generator z * generator (z + r) = if r = 0 then 1 else 0 := by
  have hn : (n : ℂ) ≠ 0 := Nat.cast_ne_zero.mpr (NeZero.ne n)
  have hsum : ∑ z : ZMod n, transform z * transform (z + r) = n * if r = 0 then (n : ℂ) else 0 := by
    unfold transform
    calc ∑ z : ZMod n, (∑ k, eigenvalue k * ZMod.stdAddChar (k * z)) *
          ∑ l, eigenvalue l * ZMod.stdAddChar (l * (z + r))
        = ∑ l : ZMod n, ∑ k, eigenvalue k * eigenvalue l * ZMod.stdAddChar (l * r) *
            ∑ z, ZMod.stdAddChar ((k + l) * z) := by
          simp only [mul_sum, sum_mul]
          refine sum_comm.trans (sum_congr rfl fun l _ => sum_comm.trans ?_)
          refine sum_congr rfl fun k _ => sum_congr rfl fun z _ => ?_
          rw [mul_add, add_mul, AddChar.map_add_eq_mul, AddChar.map_add_eq_mul]
          ring
      _ = ∑ l : ZMod n, ∑ k, eigenvalue k * eigenvalue l * ZMod.stdAddChar (l * r) *
            if k = -l then (n : ℂ) else 0 := by
          simp only [sum_character, add_eq_zero_iff_eq_neg]
      _ = ∑ l : ZMod n, ZMod.stdAddChar (r * l) * n := by
          refine sum_congr rfl fun l _ => ?_
          simp [eigenvalue_neg_mul, mul_comm l]
      _ = n * if r = 0 then (n : ℂ) else 0 := by
          rw [← sum_mul, sum_character, mul_comm]
  have hcomplex : ((∑ z, generator z * generator (z + r) : ℝ) : ℂ) =
      ((if r = 0 then 1 else 0 : ℝ) : ℂ) := by
    rw [Complex.ofReal_sum]
    simp only [Complex.ofReal_mul, coe_generator]
    calc ∑ z : ZMod n, (n : ℂ)⁻¹ * transform z * ((n : ℂ)⁻¹ * transform (z + r))
        = (n : ℂ)⁻¹ * (n : ℂ)⁻¹ * ∑ z : ZMod n, transform z * transform (z + r) := by
          rw [mul_sum]
          exact sum_congr rfl fun z _ => by ring
      _ = ((if r = 0 then 1 else 0 : ℝ) : ℂ) := by
          rw [hsum]
          split_ifs
          · rw [Complex.ofReal_one]
            field_simp
          · rw [Complex.ofReal_zero, mul_zero, mul_zero]
  exact Complex.ofReal_injective hcomplex

/-! ## The matrix -/

/-- The line of the matrix that starts with `w z` in its generating row `w`. -/
def Layout.line (l : Layout) : ZMod n ≃ ZMod n :=
  match l with
  | .fixed => Equiv.neg (ZMod n)
  | .legacy => Equiv.refl (ZMod n)

omit [NeZero n] in
theorem natCast_place (l : Layout) {i : Nat} (hi : i < n) (j : Nat) :
    (l.place n i j : ZMod n) = l.line (i : ZMod n) + (j : ZMod n) := by
  cases l with
  | fixed =>
    show (((j + n - i) % n : Nat) : ZMod n) = -(i : ZMod n) + (j : ZMod n)
    rw [ZMod.natCast_mod, Nat.cast_sub (by omega), Nat.cast_add, ZMod.natCast_self]
    ring
  | legacy =>
    show (((i + j) % n : Nat) : ZMod n) = (i : ZMod n) + (j : ZMod n)
    rw [ZMod.natCast_mod, Nat.cast_add]

/-- The entry of the feedback matrix in row `i` and column `j`. -/
noncomputable def entry (l : Layout) (n i j : Nat) : ℝ :=
  ((matrix l (row n : Array ℝ)).getD i #[]).getD j 0

omit [NeZero n] in
theorem entry_eq (l : Layout) {i j : Nat} (hi : i < n) (hj : j < n) :
    entry l n i j = generator (l.line (i : ZMod n) + (j : ZMod n)) := by
  have hplace : l.place n i j < n := l.place_lt hi j
  have hrow : (row n : Array ℝ).size = n := size_row n
  rw [← natCast_place l hi]
  unfold entry generator
  rw [ZMod.val_cast_of_lt hplace]
  simp [matrix, hrow, hi, hj, hplace]

/-- The rows of the matrix sum to one. -/
theorem sum_entry (l : Layout) {i : Nat} (hi : i < n) : ∑ j ∈ range n, entry l n i j = 1 := by
  calc ∑ j ∈ range n, entry l n i j
      = ∑ j ∈ range n, generator (l.line (i : ZMod n) + (j : ZMod n)) :=
        sum_congr rfl fun j hj => entry_eq l hi (mem_range.mp hj)
    _ = ∑ z : ZMod n, generator (l.line (i : ZMod n) + z) :=
        sum_range_natCast fun z : ZMod n => generator (l.line (i : ZMod n) + z)
    _ = ∑ z : ZMod n, generator z := Equiv.sum_comp (Equiv.addLeft (l.line (i : ZMod n))) generator
    _ = 1 := sum_generator

/-- The columns of the matrix are orthonormal. -/
theorem sum_entry_mul (l : Layout) {j j' : Nat} (hj : j < n) (hj' : j' < n) :
    ∑ i ∈ range n, entry l n i j * entry l n i j' = if j = j' then 1 else 0 := by
  have hshift : ∀ z : ZMod n, l.line z + (j' : ZMod n) =
      l.line z + (j : ZMod n) + ((j' : ZMod n) - (j : ZMod n)) := fun z => by ring
  have hdiff : ((j' : ZMod n) - j = 0) ↔ j = j' := by
    rw [sub_eq_zero, eq_comm, ZMod.natCast_eq_natCast_iff, Nat.ModEq, Nat.mod_eq_of_lt hj,
      Nat.mod_eq_of_lt hj']
  calc ∑ i ∈ range n, entry l n i j * entry l n i j'
      = ∑ i ∈ range n, generator (l.line (i : ZMod n) + (j : ZMod n)) *
          generator (l.line (i : ZMod n) + (j' : ZMod n)) := by
        refine sum_congr rfl fun i hi => ?_
        rw [entry_eq l (mem_range.mp hi) hj, entry_eq l (mem_range.mp hi) hj']
    _ = ∑ z : ZMod n, generator (l.line z + (j : ZMod n)) *
          generator (l.line z + (j : ZMod n) + ((j' : ZMod n) - (j : ZMod n))) := by
        simp only [← hshift]
        exact sum_range_natCast fun z : ZMod n =>
          generator (l.line z + (j : ZMod n)) * generator (l.line z + (j' : ZMod n))
    _ = ∑ z : ZMod n, generator z * generator (z + ((j' : ZMod n) - (j : ZMod n))) :=
        Equiv.sum_comp (l.line.trans (Equiv.addRight (j : ZMod n))) fun z =>
          generator z * generator (z + ((j' : ZMod n) - (j : ZMod n)))
    _ = if j = j' then 1 else 0 := by
        rw [sum_generator_mul]
        simp only [hdiff]

/-- Mixing keeps the sum of the squares. -/
theorem sum_sq_mix (l : Layout) (x : Nat → ℝ) :
    ∑ i ∈ range n, (∑ j ∈ range n, x j * entry l n i j) ^ 2 = ∑ j ∈ range n, x j ^ 2 := by
  calc ∑ i ∈ range n, (∑ j ∈ range n, x j * entry l n i j) ^ 2
      = ∑ j ∈ range n, ∑ j' ∈ range n,
          x j * x j' * ∑ i ∈ range n, entry l n i j * entry l n i j' := by
        simp only [sq, mul_sum, sum_mul]
        rw [sum_comm]
        refine sum_congr rfl fun j _ => sum_comm.trans ?_
        refine sum_congr rfl fun j' _ => sum_congr rfl fun i _ => ?_
        ring
    _ = ∑ j ∈ range n, x j ^ 2 := by
        refine sum_congr rfl fun j hj => ?_
        rw [sum_eq_single j]
        · rw [sum_entry_mul l (mem_range.mp hj) (mem_range.mp hj), if_pos rfl, mul_one, sq]
        · intro j' hj' hne
          rw [sum_entry_mul l (mem_range.mp hj) (mem_range.mp hj'), if_neg hne.symm, mul_zero]
        · intro hnot
          exact absurd hj hnot

end

/-! ## Losslessness -/

open Matrix

/-- The feedback matrix of order `n`. -/
noncomputable def feedbackMatrix (l : Layout) (n : ℕ) : Matrix (Fin n) (Fin n) ℝ :=
  fun i j => entry l n i j

/-- It is what the network holds, row by row. -/
theorem matrix_eq_ofFn (l : Layout) (n : ℕ) :
    matrix l (row n : Array ℝ) = Array.ofFn fun i => Array.ofFn (feedbackMatrix l n i) := by
  have hsize : (row n : Array ℝ).size = n := size_row n
  have hrows : (matrix l (row n : Array ℝ)).size = n := Array.size_ofFn.trans hsize
  refine Array.ext (by rw [hrows, Array.size_ofFn]) fun i hi hi' => ?_
  have hcolumns : (matrix l (row n : Array ℝ))[i].size = n := by simp [matrix, hsize]
  rw [Array.getElem_ofFn]
  refine Array.ext (by rw [hcolumns, Array.size_ofFn]) fun j hj hj' => ?_
  rw [Array.getElem_ofFn]
  show _ = ((matrix l (row n : Array ℝ)).getD i #[]).getD j 0
  have hrow : (matrix l (row n : Array ℝ)).getD i #[] = (matrix l (row n : Array ℝ))[i] := by
    rw [Array.getD_eq_getD_getElem?, Array.getElem?_eq_getElem hi, Option.getD_some]
  rw [hrow, Array.getD_eq_getD_getElem?, Array.getElem?_eq_getElem hj, Option.getD_some]

/-- The eigenvalues come in conjugate pairs, so that their transform is real. -/
theorem im_inverseDFT_spectrum (n : ℕ) :
    ∀ p ∈ Phasor.inverseDFT (spectrum n : Array (Phasor ℝ)), p.im = 0 := by
  intro p hp
  obtain ⟨m, hm, rfl⟩ := Array.mem_iff_getElem.mp hp
  have hmn : m < n := by simpa [Phasor.inverseDFT, spectrum] using hm
  have : NeZero n := ⟨by omega⟩
  have htransform := toComplex_inverseDFT_spectrum (m : ZMod n)
  rw [ZMod.val_cast_of_lt hmn, Array.getD_eq_getD_getElem?, Array.getElem?_eq_getElem hm,
    Option.getD_some] at htransform
  have him := Complex.conj_eq_iff_im.mp (conj_transform (m : ZMod n))
  rw [← htransform] at him
  exact him

section

variable {n : ℕ} [NeZero n]

theorem transpose_mul_feedbackMatrix (l : Layout) :
    (feedbackMatrix l n)ᵀ * feedbackMatrix l n = 1 := by
  ext j j'
  rw [Matrix.mul_apply, Matrix.one_apply]
  simp only [Matrix.transpose_apply, feedbackMatrix]
  rw [Fin.sum_univ_eq_sum_range fun i => entry l n i j * entry l n i j',
    sum_entry_mul l j.isLt j'.isLt]
  simp only [Fin.ext_iff]

omit [NeZero n] in
theorem mulVec_one_apply (M : Matrix (Fin n) (Fin n) ℝ) (i : Fin n) :
    (M *ᵥ 1) i = ∑ j, M i j := by
  simp [Matrix.mulVec, dotProduct]

theorem feedbackMatrix_mulVec_one (l : Layout) : feedbackMatrix l n *ᵥ 1 = 1 := by
  ext i
  rw [mulVec_one_apply]
  exact (Fin.sum_univ_eq_sum_range (entry l n i) n).trans (sum_entry l i.isLt)

/-- The columns sum to one as the rows do, because the transpose undoes the matrix. -/
theorem transpose_feedbackMatrix_mulVec_one (l : Layout) : (feedbackMatrix l n)ᵀ *ᵥ 1 = 1 := by
  calc (feedbackMatrix l n)ᵀ *ᵥ 1
      = (feedbackMatrix l n)ᵀ *ᵥ (feedbackMatrix l n *ᵥ 1) := by rw [feedbackMatrix_mulVec_one]
    _ = ((feedbackMatrix l n)ᵀ * feedbackMatrix l n) *ᵥ 1 := Matrix.mulVec_mulVec ..
    _ = 1 := by rw [transpose_mul_feedbackMatrix, Matrix.one_mulVec]

end

/-- **The feedback matrix is lossless.** For every order and both layouts, the transform that gives
its entries is real, the matrix is orthogonal, and its rows and its columns sum to one. -/
theorem feedbackMatrix_lossless (l : Layout) (n : ℕ) :
    (∀ p ∈ Phasor.inverseDFT (spectrum n : Array (Phasor ℝ)), p.im = 0) ∧
      (matrix l (row n : Array ℝ) = Array.ofFn fun i => Array.ofFn (feedbackMatrix l n i)) ∧
      feedbackMatrix l n * (feedbackMatrix l n)ᵀ = 1 ∧
      (∀ i, ∑ j, feedbackMatrix l n i j = 1) ∧ ∀ j, ∑ i, feedbackMatrix l n i j = 1 := by
  refine ⟨im_inverseDFT_spectrum n, matrix_eq_ofFn l n, ?_⟩
  cases n with
  | zero => exact ⟨Subsingleton.elim _ _, fun i => i.elim0, fun j => j.elim0⟩
  | succ n =>
    refine ⟨mul_eq_one_comm.mp (transpose_mul_feedbackMatrix l), fun i => ?_, fun j => ?_⟩
    · rw [← mulVec_one_apply, feedbackMatrix_mulVec_one]
      rfl
    · have hcolumn := mulVec_one_apply (feedbackMatrix l (n + 1))ᵀ j
      rw [transpose_feedbackMatrix_mulVec_one, Pi.one_apply] at hcolumn
      simp only [Matrix.transpose_apply] at hcolumn
      exact hcolumn.symm

end Circulant

end AmbisonicReverb
