import Mathlib
import AmbisonicReverb.Sample

/-!
# The exact reading

Real numbers as a scalar. Read over them, the definitions that run on binary32 numbers compute with
exact arithmetic and exact elementary functions, and every number is finite. What is left of the
machine is the threshold below which signals are flushed: `realElementary` takes it as a parameter,
and the instance sets it to zero, where flushing changes nothing (`flush_eq`).
-/

namespace AmbisonicReverb

/-- The real numbers, with the magnitude below which signals are flushed. -/
@[reducible] noncomputable def realScalar (tiny : ℝ) : Scalar ℝ where
  toZero := inferInstance
  toOne := inferInstance
  toAdd := inferInstance
  toSub := inferInstance
  toMul := inferInstance
  toDiv := inferInstance
  toNeg := inferInstance
  toLT := inferInstance
  toLE := inferInstance
  toOfScientific := inferInstance
  decLT := Classical.decRel _
  decLE := Classical.decRel _
  tiny
  isFinite _ := true
  ofNat n := n

@[reducible] noncomputable def realElementary (tiny : ℝ) : Elementary ℝ where
  toScalar := realScalar tiny
  tau := 2 * Real.pi
  sqrt := Real.sqrt
  cubeRoot x := if 0 ≤ x then x ^ (1 / 3 : ℝ) else -(-x) ^ (1 / 3 : ℝ)
  exp := Real.exp
  log := Real.log
  pow x y := x ^ y
  cos := Real.cos
  sin := Real.sin
  roundToNat x := ⌊x + 1 / 2⌋₊
  truncToNat x := ⌊x⌋₊

noncomputable instance : Elementary ℝ := realElementary 0

/-- Real signals are filtered as they are. -/
instance : Widening ℝ ℝ where
  widen x := x
  narrow x := x

namespace Scalar

theorem ofNat_eq (n : Nat) : (ofNat n : ℝ) = n := rfl

theorem isFinite_eq (x : ℝ) : isFinite x = true := rfl

/-- No magnitude is below zero. -/
theorem flush_eq (x : ℝ) : flush x = x := by
  unfold flush
  rw [if_neg]
  rintro ⟨hlow, hhigh⟩
  have hlow : -0 < x := hlow
  have hhigh : x < 0 := hhigh
  linarith

theorem abs_eq_abs (x : ℝ) : Scalar.abs x = |x| := by
  unfold Scalar.abs
  split_ifs with h
  · exact (abs_of_neg h).symm
  · exact (abs_of_nonneg (not_lt.mp h)).symm

theorem isNaN_eq_false (x : ℝ) : isNaN x = false := by simp [isNaN]

theorem maxNum_eq_max (x y : ℝ) : maxNum x y = max x y := by
  unfold maxNum
  rw [isNaN_eq_false]
  simp only [Bool.false_eq_true, or_false]
  split_ifs with h
  · exact (max_eq_right h.le).symm
  · exact (max_eq_left (not_lt.mp h)).symm

theorem minNum_eq_min (x y : ℝ) : minNum x y = min x y := by
  unfold minNum
  rw [isNaN_eq_false]
  simp only [Bool.false_eq_true, or_false]
  split_ifs with h
  · exact (min_eq_right h.le).symm
  · exact (min_eq_left (not_lt.mp h)).symm

theorem minNum_eq_left {x y : ℝ} (h : x ≤ y) : minNum x y = x :=
  (minNum_eq_min x y).trans (min_eq_left h)

/-- Bringing a number into a range is cutting it off at both ends. -/
theorem clamp_mem {lo hi : ℝ} (h : lo ≤ hi) (x : ℝ) : clamp lo hi x ∈ Set.Icc lo hi := by
  unfold clamp
  split_ifs with hlo hhi
  · exact ⟨le_refl lo, h⟩
  · exact ⟨h, le_refl hi⟩
  · exact ⟨not_lt.mp hlo, not_lt.mp hhi⟩

theorem clamp_of_mem {lo hi x : ℝ} (h : x ∈ Set.Icc lo hi) : clamp lo hi x = x := by
  unfold clamp
  rw [if_neg (not_lt.mpr h.1), if_neg (not_lt.mpr h.2)]

end Scalar

namespace Sample

theorem flush_eq (s : Sample ℝ) : s.flush = s := by
  unfold flush map
  simp only [Scalar.flush_eq]

/-- Adding silence changes nothing. -/
theorem add_silence (s : Sample ℝ) : s + 0 = s := by
  show (⟨s.w + 0, s.x + 0, s.y + 0, s.z + 0⟩ : Sample ℝ) = s
  simp only [add_zero]

theorem sub_silence (s : Sample ℝ) : s - 0 = s := by
  show (⟨s.w - 0, s.x - 0, s.y - 0, s.z - 0⟩ : Sample ℝ) = s
  simp only [sub_zero]

theorem silence_mul (g : ℝ) : (0 : Sample ℝ) * g = 0 := by
  show (⟨0 * g, 0 * g, 0 * g, 0 * g⟩ : Sample ℝ) = ⟨0, 0, 0, 0⟩
  simp only [zero_mul]

theorem mul_zero_eq (s : Sample ℝ) : s * (0 : ℝ) = 0 := by
  show (⟨s.w * 0, s.x * 0, s.y * 0, s.z * 0⟩ : Sample ℝ) = ⟨0, 0, 0, 0⟩
  simp only [mul_zero]

theorem rotate_silence (q : Rotation ℝ) : (0 : Sample ℝ).rotate q = 0 := by
  show (⟨0, _, _, _⟩ : Sample ℝ) = ⟨0, 0, 0, 0⟩
  simp [Rotation.apply, Direction.cross, Direction.add, Direction.scale]

/-! ## Energy -/

theorem energy_eq (s : Sample ℝ) : s.energy = s.w ^ 2 + s.x ^ 2 + s.y ^ 2 + s.z ^ 2 := by
  unfold energy
  ring

theorem energy_zero : (0 : Sample ℝ).energy = 0 := by
  show (0 : ℝ) * 0 + 0 * 0 + 0 * 0 + 0 * 0 = 0
  norm_num

theorem energy_nonneg (s : Sample ℝ) : 0 ≤ s.energy := by
  rw [energy_eq]
  positivity

end Sample

end AmbisonicReverb
