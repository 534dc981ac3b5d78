import Mathlib
import AmbisonicReverb.Scalar.Binary
import AmbisonicReverb.Proofs.Search

/-!
# The order of binary numbers

A binary number that is not NaN has a place in a linear order, in which zeros of both signs have the
same place, and machine numbers are compared by their places (`lt_iff_place`, `le_iff_place`). NaN
is left out on purpose: it is neither below nor above anything, and not even equal to itself.

The values of an objective without NaN are therefore totally ordered (`Simplex.ordered_of_isNaN`).
-/

namespace AmbisonicReverb

open Float.Model

/-- The place of a number: its class, then exponent and significand, which count down below zero. -/
def place : UnpackedFloat → ℤ ×ₗ ℤ ×ₗ ℤ
  | .infinity .negative => toLex (-2, toLex (0, 0))
  | .finite .negative significand exponent _ => toLex (-1, toLex (-exponent, -significand))
  | .finite .positive significand exponent _ => toLex (1, toLex (exponent, significand))
  | .infinity .positive => toLex (2, toLex (0, 0))
  | .zero _ | .notANumber => toLex (0, toLex (0, 0))

section

variable {a b : UnpackedFloat}

/-- Two numbers can be compared, unless one of them is NaN, and compare as their places. -/
theorem compare_place (ha : a ≠ .notANumber) (hb : b ≠ .notANumber) :
    (a.compare b).isSome ∧ (a.compare b = some .lt ↔ place a < place b) ∧
      (a.compare b = some .gt ↔ place b < place a) := by
  rcases a with ⟨_ | _⟩ | _ | _ | ⟨_ | _, m, e, hm⟩ <;>
    rcases b with ⟨_ | _⟩ | _ | _ | ⟨_ | _, m', e', hm'⟩ <;>
    first | exact absurd rfl ha | exact absurd rfl hb | skip
  -- of different classes the comparison is evaluated; of one class it is that of exponent and
  -- significand
  all_goals
    simp [UnpackedFloat.compare, place, Prod.Lex.toLex_lt_toLex, Ordering.then_eq_lt,
      Ordering.then_eq_gt, compare_lt_iff_lt, compare_gt_iff_gt]
  all_goals first | decide | omega

theorem lt_iff_place (ha : a ≠ .notANumber) (hb : b ≠ .notANumber) :
    a.lt b = true ↔ place a < place b := by
  unfold UnpackedFloat.lt
  rw [beq_iff_eq]
  exact (compare_place ha hb).2.1

theorem le_iff_place (ha : a ≠ .notANumber) (hb : b ≠ .notANumber) :
    a.le b = true ↔ place a ≤ place b := by
  obtain ⟨hsome, -, hgt⟩ := compare_place ha hb
  obtain ⟨o, ho⟩ := Option.isSome_iff_exists.mp hsome
  unfold UnpackedFloat.le
  rw [← not_lt, ← hgt, ho, Option.any_some, Option.some.injEq]
  cases o <;> decide

/-- Only zeros share a place with another number. -/
theorem place_eq_cases (ha : a ≠ .notANumber) (hb : b ≠ .notANumber) (h : place a = place b) :
    a = b ∨ ∃ s t, a = .zero s ∧ b = .zero t := by
  rcases a with ⟨_ | _⟩ | _ | s | ⟨_ | _, m, e, hm⟩ <;>
    rcases b with ⟨_ | _⟩ | _ | t | ⟨_ | _, m', e', hm'⟩ <;>
    first
    | exact absurd rfl ha
    | exact absurd rfl hb
    | exact .inl rfl
    | exact .inr ⟨s, t, rfl, rfl⟩
    | simp [place] at h
  -- what is left are finite numbers of one sign
  all_goals
    obtain ⟨rfl, rfl⟩ := h
    exact .inl rfl

end

variable {x y : Float}

theorem binary64_lt_iff : x < y ↔ x.toModel.unpack.lt y.toModel.unpack = true := decide_eq_true_iff

theorem binary64_le_iff : x ≤ y ↔ x.toModel.unpack.le y.toModel.unpack = true := decide_eq_true_iff

theorem ne_notANumber_of_isNaN (h : x.isNaN = false) : x.toModel.unpack ≠ .notANumber := by
  intro hnan
  unfold Float.isNaN Float.Model.isNaN at h
  rw [hnan] at h
  exact Bool.false_ne_true h.symm

theorem binary64_isNaN_of_isFinite (h : x.isFinite = true) : x.isNaN = false := by
  unfold Float.isFinite Float.Model.isFinite at h
  unfold Float.isNaN Float.Model.isNaN
  cases hx : x.toModel.unpack with
  | notANumber =>
    rw [hx] at h
    exact absurd h Bool.false_ne_true
  | infinity | zero | finite => rfl

/-- No number is below itself, and NaN is below nothing. -/
theorem binary64_not_lt_self (x : Float) : ¬ x < x := by
  rw [binary64_lt_iff]
  by_cases hnan : x.toModel.unpack = .notANumber
  · rw [hnan]
    decide
  · rw [lt_iff_place hnan hnan]
    exact lt_irrefl _

/-- **Values without NaN are totally ordered.** -/
theorem Simplex.ordered_of_isNaN {g : Array ℝ → Float} (h : ∀ x, (g x).isNaN = false) :
    Simplex.Ordered g := by
  have hlt : ∀ x y, g x < g y ↔ place (g x).toModel.unpack < place (g y).toModel.unpack := by
    intro x y
    rw [binary64_lt_iff]
    exact lt_iff_place (ne_notANumber_of_isNaN (h x)) (ne_notANumber_of_isNaN (h y))
  have hle : ∀ x y, g x ≤ g y ↔ place (g x).toModel.unpack ≤ place (g y).toModel.unpack := by
    intro x y
    rw [binary64_le_iff]
    exact le_iff_place (ne_notANumber_of_isNaN (h x)) (ne_notANumber_of_isNaN (h y))
  refine ⟨fun x y hxy => ?_, fun x y z hxy hyz => ?_, fun x y => ?_⟩
  · rw [hlt] at hxy ⊢
    exact lt_asymm hxy
  · rw [hlt, not_lt] at hxy hyz ⊢
    exact hyz.trans hxy
  · rw [hle, hlt, not_lt]

theorem Simplex.ordered_of_isFinite {g : Array ℝ → Float} (h : ∀ x, (g x).isFinite = true) :
    Simplex.Ordered g :=
  ordered_of_isNaN fun x => binary64_isNaN_of_isFinite (h x)

end AmbisonicReverb
