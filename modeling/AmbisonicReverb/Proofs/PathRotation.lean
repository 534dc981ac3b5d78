import Mathlib
import AmbisonicReverb.Proofs.Energy

/-!
# The turns of the paths

Each path of a network turns the sound field, about the front axis, then about the side axis, then
about the vertical one. The network holds the three turns as one quaternion, a product of three
that are made from half angles, and applies it by cross products. A wrong order of the factors or a
wrong sign would still be a rotation.

**Theorem (`turns_derive`).** Read exactly, each path of a network that is derived from a design
multiplies the directional channels of every sample by `Rz * Ry * Rx`, the matrices of its turns
about the axes, and keeps the pressure and the energy.

Unit quaternions act by conjugation (`Rotation.toQuaternion_apply`), so that the action of a product
is first the one of its second factor (`Rotation.apply_comp`). What a single factor does is
Rodrigues' formula, with the whole angle (`Rotation.apply_about`).
-/

namespace AmbisonicReverb

open scoped Matrix Quaternion

/-! ## Quaternions and vectors -/

namespace Direction

/-- The direction as an imaginary quaternion. -/
def toQuaternion (v : Direction ℝ) : ℍ[ℝ] := ⟨0, v.x, v.y, v.z⟩

def toVector (v : Direction ℝ) : Fin 3 → ℝ := ![v.x, v.y, v.z]

section

variable (v : Direction ℝ)

@[simp] theorem re_toQuaternion : v.toQuaternion.re = 0 := rfl

@[simp] theorem imI_toQuaternion : v.toQuaternion.imI = v.x := rfl

@[simp] theorem imJ_toQuaternion : v.toQuaternion.imJ = v.y := rfl

@[simp] theorem imK_toQuaternion : v.toQuaternion.imK = v.z := rfl

end

theorem toQuaternion_injective : Function.Injective toQuaternion := by
  rintro ⟨x, y, z⟩ ⟨x', y', z'⟩ h
  obtain ⟨-, rfl, rfl, rfl⟩ := Quaternion.ext_iff.mp h
  rfl

end Direction

namespace Rotation

def toQuaternion (q : Rotation ℝ) : ℍ[ℝ] := ⟨q.re, q.i, q.j, q.k⟩

section

variable (q : Rotation ℝ)

@[simp] theorem re_toQuaternion : q.toQuaternion.re = q.re := rfl

@[simp] theorem imI_toQuaternion : q.toQuaternion.imI = q.i := rfl

@[simp] theorem imJ_toQuaternion : q.toQuaternion.imJ = q.j := rfl

@[simp] theorem imK_toQuaternion : q.toQuaternion.imK = q.k := rfl

end

theorem toQuaternion_comp (p q : Rotation ℝ) :
    (p.comp q).toQuaternion = p.toQuaternion * q.toQuaternion := by
  ext <;> simp [comp]

variable {p q : Rotation ℝ}

/-- A unit quaternion acts by conjugation. -/
theorem toQuaternion_apply (h : q.normSq = 1) (v : Direction ℝ) :
    (q.apply v).toQuaternion = q.toQuaternion * v.toQuaternion * star q.toQuaternion := by
  have hunit : q.re ^ 2 + q.i ^ 2 + q.j ^ 2 + q.k ^ 2 = 1 := h
  ext <;> simp [apply, imag, Direction.cross, Direction.add, Direction.scale]
  · ring
  · linear_combination (-v.x) * hunit
  · linear_combination (-v.y) * hunit
  · linear_combination (-v.z) * hunit

/-- First `q`, then `p`. -/
theorem apply_comp (hp : p.normSq = 1) (hq : q.normSq = 1) (v : Direction ℝ) :
    (p.comp q).apply v = p.apply (q.apply v) := by
  have hcomp : (p.comp q).normSq = 1 := by rw [normSq_comp, hp, hq, mul_one]
  refine Direction.toQuaternion_injective ?_
  rw [toQuaternion_apply hcomp, toQuaternion_apply hp, toQuaternion_apply hq, toQuaternion_comp,
    star_mul]
  simp only [mul_assoc]

/-! ## Turns about the axes -/

/-- Rodrigues' formula: what a turn about an axis adds to a direction. -/
theorem apply_about (axis v : Direction ℝ) (angle : ℝ) : (about axis angle).apply v =
    (v.add ((axis.cross v).scale (Real.sin angle))).add
      ((axis.cross (axis.cross v)).scale (1 - Real.cos angle)) := by
  have hsin : Real.sin angle = 2 * Real.sin (angle / 2) * Real.cos (angle / 2) := by
    rw [← Real.sin_two_mul, mul_div_cancel₀ angle two_ne_zero]
  have hcos : 1 - Real.cos angle = 2 * Real.sin (angle / 2) ^ 2 := by
    rw [Real.sin_sq_eq_half_sub, mul_div_cancel₀ angle two_ne_zero]
    ring
  have habout : about axis angle = ⟨Real.cos (angle / 2), axis.x * Real.sin (angle / 2),
      axis.y * Real.sin (angle / 2), axis.z * Real.sin (angle / 2)⟩ := by
    have htwo : (2.0 : ℝ) = 2 := by norm_num
    rw [← htwo]
    rfl
  rw [habout, hsin, hcos]
  simp only [apply, imag, Direction.cross, Direction.add, Direction.scale, Direction.mk.injEq]
  exact ⟨by ring, by ring, by ring⟩

/-- The matrix of a turn about the front axis, from the left upwards. -/
noncomputable def matrixX (angle : ℝ) : Matrix (Fin 3) (Fin 3) ℝ :=
  !![1, 0, 0;
     0, Real.cos angle, -Real.sin angle;
     0, Real.sin angle, Real.cos angle]

/-- The matrix of a turn about the side axis, from above to the front. -/
noncomputable def matrixY (angle : ℝ) : Matrix (Fin 3) (Fin 3) ℝ :=
  !![Real.cos angle, 0, Real.sin angle;
     0, 1, 0;
     -Real.sin angle, 0, Real.cos angle]

/-- The matrix of a turn about the vertical axis, from the front to the left. -/
noncomputable def matrixZ (angle : ℝ) : Matrix (Fin 3) (Fin 3) ℝ :=
  !![Real.cos angle, -Real.sin angle, 0;
     Real.sin angle, Real.cos angle, 0;
     0, 0, 1]

theorem toVector_aboutX (angle : ℝ) (v : Direction ℝ) :
    ((aboutX angle).apply v).toVector = matrixX angle *ᵥ v.toVector := by
  unfold aboutX
  rw [apply_about]
  ext i
  fin_cases i <;>
    simp [matrixX, Direction.toVector, Direction.cross, Direction.add, Direction.scale] <;> ring

theorem toVector_aboutY (angle : ℝ) (v : Direction ℝ) :
    ((aboutY angle).apply v).toVector = matrixY angle *ᵥ v.toVector := by
  unfold aboutY
  rw [apply_about]
  ext i
  fin_cases i <;>
    simp [matrixY, Direction.toVector, Direction.cross, Direction.add, Direction.scale] <;> ring

theorem toVector_aboutZ (angle : ℝ) (v : Direction ℝ) :
    ((aboutZ angle).apply v).toVector = matrixZ angle *ᵥ v.toVector := by
  unfold aboutZ
  rw [apply_about]
  ext i
  fin_cases i <;>
    simp [matrixZ, Direction.toVector, Direction.cross, Direction.add, Direction.scale] <;> ring

theorem normSq_aboutX (angle : ℝ) : (aboutX angle).normSq = 1 := normSq_about (by norm_num) angle

theorem normSq_aboutY (angle : ℝ) : (aboutY angle).normSq = 1 := normSq_about (by norm_num) angle

theorem normSq_aboutZ (angle : ℝ) : (aboutZ angle).normSq = 1 := normSq_about (by norm_num) angle

/-- The quaternion turns the sound field about the front axis by `roll`, then about the side axis by
`tilt`, then about the vertical axis by `turn`. -/
structure Turns (q : Rotation ℝ) (turn tilt roll : ℝ) : Prop where
  normSq_eq : q.normSq = 1
  w_eq : ∀ s : Sample ℝ, (s.rotate q).w = s.w
  direction_eq : ∀ s : Sample ℝ, (s.rotate q).direction.toVector =
    (matrixZ turn * matrixY tilt * matrixX roll) *ᵥ s.direction.toVector
  energy_eq : ∀ s : Sample ℝ, (s.rotate q).energy = s.energy

theorem turns_comp (turn tilt roll : ℝ) :
    (((aboutZ turn).comp (aboutY tilt)).comp (aboutX roll)).Turns turn tilt roll := by
  have hzy : ((aboutZ turn).comp (aboutY tilt)).normSq = 1 := by
    rw [normSq_comp, normSq_aboutZ, normSq_aboutY, mul_one]
  have hunit : (((aboutZ turn).comp (aboutY tilt)).comp (aboutX roll)).normSq = 1 := by
    rw [normSq_comp, hzy, normSq_aboutX, mul_one]
  refine ⟨hunit, fun s => rfl, fun s => ?_, Sample.energy_rotate hunit⟩
  rw [Sample.rotate_direction, apply_comp hzy (normSq_aboutX roll),
    apply_comp (normSq_aboutZ turn) (normSq_aboutY tilt), toVector_aboutZ, toVector_aboutY,
    toVector_aboutX, Matrix.mulVec_mulVec, Matrix.mulVec_mulVec]

end Rotation

/-! ## Paths -/

theorem NetworkDesign.pathRotation_eq (d : NetworkDesign ℝ) {order k : ℕ} (hk : k < order) :
    d.pathRotation order k =
      ((Rotation.aboutZ
          (if order = 1 then d.turn else d.turn - d.spread + 2 * d.spread * k / order)).comp
        (Rotation.aboutY (if Odd k then d.spread / 2 else -d.spread / 2))).comp
      (Rotation.aboutX (d.spread * (k % 3 : ℕ) / 8 - d.spread / 4)) := by
  have hturn : (if 1 < order then d.turn - d.spread + 2.0 * d.spread * k / order else d.turn) =
      if order = 1 then d.turn else d.turn - d.spread + 2 * d.spread * k / order := by
    have htwo : (2.0 : ℝ) = 2 := by norm_num
    rw [htwo]
    by_cases hone : order = 1
    · rw [if_pos hone, if_neg (by omega)]
    · rw [if_neg hone, if_pos (by omega)]
  have htilt : (if k % 2 = 1 then 0.5 * d.spread else -0.5 * d.spread) =
      if Odd k then d.spread / 2 else -d.spread / 2 := by
    have hhalf : (0.5 : ℝ) = 1 / 2 := by norm_num
    rw [hhalf]
    simp only [Nat.odd_iff]
    split_ifs
    all_goals ring
  have hroll : 0.125 * d.spread * (k % 3 : ℕ) - 0.25 * d.spread =
      d.spread * (k % 3 : ℕ) / 8 - d.spread / 4 := by
    have heighth : (0.125 : ℝ) = 1 / 8 := by norm_num
    have hquarter : (0.25 : ℝ) = 1 / 4 := by norm_num
    rw [heighth, hquarter]
    ring
  rw [← hturn, ← htilt, ← hroll]
  rfl

/-- **Paths turn the sound field as designed.** -/
theorem Network.turns_derive (n : Network ℝ) (d : NetworkDesign ℝ) {k : ℕ} (hk : k < n.order) :
    ∃ p, (n.derive d).paths[k]? = some p ∧
      p.rotation.Turns
        (if n.order = 1 then d.turn else d.turn - d.spread + 2 * d.spread * k / n.order)
        (if Odd k then d.spread / 2 else -d.spread / 2)
        (d.spread * (k % 3 : ℕ) / 8 - d.spread / 4) := by
  have hpath : n.paths[k]? = some n.paths[k] := Array.getElem?_eq_getElem hk
  refine ⟨n.derivedPath d k n.paths[k], ?_, ?_⟩
  · rw [getElem?_derive_paths, hpath]
    rfl
  · show (d.pathRotation n.order k).Turns _ _ _
    rw [d.pathRotation_eq hk]
    exact Rotation.turns_comp _ _ _

/-- The second of three paths is tilted to the side of the odd ones. -/
theorem Network.turns_derive_three : ∃ n : Network ℝ,
    Network.new 3 1000 .geometric .shortest .feedback = .ok n ∧ 1 < n.order ∧
      ∀ d : NetworkDesign ℝ, ∃ p, (n.derive d).paths[1]? = some p ∧
        p.rotation.Turns (d.turn - d.spread + 2 * d.spread / 3) (d.spread / 2)
          (d.spread / 8 - d.spread / 4) := by
  obtain ⟨n, hn, horder, -⟩ :=
    exists_new (α := ℝ) three_pos 1000 .geometric .shortest .feedback
  have hk : 1 < n.order := by omega
  refine ⟨n, hn, hk, fun d => ?_⟩
  simpa [horder] using turns_derive n d hk

end AmbisonicReverb
