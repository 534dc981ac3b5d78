import Mathlib
import AmbisonicReverb.Proofs.Range

/-!
# Signed zeros

Binary32 numbers have two zeros. Adding to the positive one leaves every number as it is but the
negative zero, and so silence is neutral only as long as that does not turn up. It does not turn up
in sums: a sum is the negative zero only if both of its terms are (`unsigned_add`).

* `agrees_cases` — the order does not see the sign of a zero, but all the rest of a number.
* `zero_add_of_unsigned` — zero is neutral for everything but the negative zero.
* `unpack_ne_zero_of_mul_eq_one` — of two factors of 1, none is a zero.
-/

namespace AmbisonicReverb

open Float.Model (Format UnpackedFloat)
open Float.Model.UnpackedFloat

/-! ## Numbers that agree -/

theorem Scalar.agrees_iff {α : Type} [Scalar α] {x y : α} :
    Scalar.agrees x y = true ↔ x ≤ y ∧ y ≤ x := by
  unfold Scalar.agrees
  rw [Bool.and_eq_true, decide_eq_true_eq, decide_eq_true_eq]

/-- Numbers that agree are the same, but for the sign of a zero. -/
theorem agrees_cases {x y : Float32} (h : Scalar.agrees x y) :
    x = y ∨ ∃ s t, x = ofUnpacked (.zero s) ∧ y = ofUnpacked (.zero t) := by
  obtain ⟨hle, hge⟩ := Scalar.agrees_iff.mp h
  obtain ⟨⟨hx, hy⟩, hxy⟩ := binary32_le_iff.mp hle
  rw [isNaN_eq_false_iff] at hx hy
  rcases place_eq_cases hx hy (le_antisymm hxy (binary32_le_iff.mp hge).2) with heq | ⟨s, t, hs, ht⟩
  · left
    rw [← ofUnpacked_unpack x, heq, ofUnpacked_unpack]
  · right
    exact ⟨s, t, by rw [← hs, ofUnpacked_unpack], by rw [← ht, ofUnpacked_unpack]⟩

/-! ## Sums -/

/-- Not the negative zero. -/
def Unsigned (x : Float32) : Prop := x.toModel.unpack ≠ .zero .negative

theorem add_eq_ofUnpacked (x y : Float32) : x + y =
    ofUnpacked (UnpackedFloat.add Format.binary32 x.toModel.unpack y.toModel.unpack) := rfl

theorem sub_eq_ofUnpacked (x y : Float32) : x - y =
    ofUnpacked (UnpackedFloat.sub Format.binary32 x.toModel.unpack y.toModel.unpack) := rfl

/-- Zero is neutral for everything but the negative zero. -/
theorem zero_add_of_unsigned {x : Float32} (h : Unsigned x) : binary32Zero + x = x := by
  have hadd : UnpackedFloat.add Format.binary32 (.zero .positive) x.toModel.unpack =
      x.toModel.unpack := by
    unfold Unsigned at h
    cases hx : x.toModel.unpack with
    | zero s =>
      cases s with
      | positive => rfl
      | negative => exact absurd hx h
    | _ => rfl
  have hzero : binary32Zero.toModel.unpack = .zero .positive := rfl
  rw [add_eq_ofUnpacked, hzero, hadd, ofUnpacked_unpack]

/-- What is not zero is not rounded to zero, if it is a multiple of the least number. -/
theorem unpack_round_ne_zero {m : ℕ} (hm : m ≠ 0) {e : ℤ} (he : -149 ≤ e) (s t : Sign) :
    (ofUnpacked (round Format.binary32 s m e)).toModel.unpack ≠ .zero t := by
  obtain ⟨n, f, hfits, hround, hnear⟩ := exists_round hm e
  have hone : Fits 1 (-149) := ⟨by norm_num, le_rfl, fun h => absurd h (lt_irrefl _)⟩
  have hleast : ((1 : ℕ) : ℝ) * 2 ^ (-149 : ℤ) ≤ m * 2 ^ e := by
    have hm : ((1 : ℕ) : ℝ) ≤ m := by exact_mod_cast Nat.one_le_iff_ne_zero.mpr hm
    exact mul_le_mul hm (zpow_le_zpow_right₀ one_le_two he) (by positivity) (by positivity)
  have hn : n ≠ 0 := by
    rintro rfl
    have hle := (hnear 1 (-149) hone).2 hleast
    have hpos := significand_pos one_pos (-149)
    rw [Nat.cast_zero, zero_mul] at hle
    exact absurd hle (not_le.mpr hpos)
  rw [hround, dif_neg hn]
  intro hzero
  by_cases hlarge : f ≤ 104
  · rw [toModel_ofUnpacked (u := .finite s n f _) ⟨hfits, hlarge⟩] at hzero
    exact nomatch hzero
  · exact nomatch (unpack_pack_overflow s (not_le.mp hlarge) (Nat.pos_of_ne_zero hn)).symm.trans
      hzero

theorem unsigned_ofUnpacked {u : UnpackedFloat} (hu : Canonical u) (hne : u ≠ .zero .negative) :
    Unsigned (ofUnpacked u) := by
  unfold Unsigned
  rwa [toModel_ofUnpacked hu]

theorem unsigned_normalize (n : ℤ) {e : ℤ} (he : -149 ≤ e) :
    Unsigned (ofUnpacked (UnpackedFloat.normalize Format.binary32 n e .positive)) := by
  unfold UnpackedFloat.normalize
  cases hsign : compare n 0 with
  | lt =>
    have hn := Int.compare_eq_lt.mp hsign
    exact unpack_round_ne_zero (by omega) he .negative .negative
  | eq => exact unsigned_ofUnpacked (u := .zero .positive) trivial nofun
  | gt =>
    have hn := Int.compare_eq_gt.mp hsign
    exact unpack_round_ne_zero (by omega) he .positive .negative

/-- A sum is exact, and not the negative zero, or it is rounded from a multiple of the least
number. -/
theorem add_cases {u v : UnpackedFloat} (hu : Canonical u) (hv : Canonical v)
    (hne : u ≠ .zero .negative) :
    (Canonical (UnpackedFloat.add Format.binary32 u v) ∧
        UnpackedFloat.add Format.binary32 u v ≠ .zero .negative) ∨
      ∃ n e, -149 ≤ e ∧ UnpackedFloat.add Format.binary32 u v =
        UnpackedFloat.normalize Format.binary32 n e .positive := by
  cases u with
  | notANumber => exact .inl ⟨trivial, nofun⟩
  | infinity s =>
    cases v with
    | infinity t => cases s <;> cases t <;> exact .inl ⟨trivial, nofun⟩
    | _ => exact .inl ⟨trivial, nofun⟩
  | zero s =>
    cases s with
    | negative => exact absurd rfl hne
    | positive =>
      cases v with
      | zero t => cases t <;> exact .inl ⟨trivial, nofun⟩
      | finite t n f hn => exact .inl ⟨hv, nofun⟩
      | _ => exact .inl ⟨trivial, nofun⟩
  | finite s m e hm =>
    cases v with
    | zero t => exact .inl ⟨hu, nofun⟩
    | finite t n f hn => exact .inr ⟨_, min e f, le_min hu.1.least_le hv.1.least_le, rfl⟩
    | _ => exact .inl ⟨trivial, nofun⟩

/-- A sum is the negative zero only if its terms are. -/
theorem unsigned_add {x : Float32} (hx : Unsigned x) (y : Float32) : Unsigned (x + y) := by
  rw [add_eq_ofUnpacked]
  rcases add_cases (canonical_of x) (canonical_of y) hx with ⟨hsum, hne⟩ | ⟨n, e, he, hsum⟩
  · exact unsigned_ofUnpacked hsum hne
  · rw [hsum]
    exact unsigned_normalize n he

theorem unsigned_zero : Unsigned binary32Zero := nofun

/-- A sum from zero on is not the negative zero, whatever its terms are. -/
theorem unsigned_foldl (terms : Array (Sample Float32)) {start : Sample Float32}
    (h : Unsigned start.w) : Unsigned (terms.foldl (fun sum s => sum + s) start).w := by
  let motive (_ : Nat) (sum : Sample Float32) : Prop := Unsigned sum.w
  exact Array.foldl_induction motive h fun k sum hsum => unsigned_add hsum terms[k].w

/-! ## Products -/

theorem mul_eq_ofUnpacked (x y : Float32) : x * y =
    ofUnpacked (UnpackedFloat.mul Format.binary32 x.toModel.unpack y.toModel.unpack) := rfl

/-- A product with a zero is a zero, or no number. -/
theorem mul_zero_cases (u : UnpackedFloat) (s : Sign) :
    (UnpackedFloat.mul Format.binary32 u (.zero s) = .notANumber ∨
        ∃ t, UnpackedFloat.mul Format.binary32 u (.zero s) = .zero t) ∧
      (UnpackedFloat.mul Format.binary32 (.zero s) u = .notANumber ∨
        ∃ t, UnpackedFloat.mul Format.binary32 (.zero s) u = .zero t) := by
  cases u with
  | notANumber => exact ⟨.inl rfl, .inl rfl⟩
  | infinity t => exact ⟨.inl rfl, .inl rfl⟩
  | zero t => exact ⟨.inr ⟨_, rfl⟩, .inr ⟨_, rfl⟩⟩
  | finite t m e hm => exact ⟨.inr ⟨_, rfl⟩, .inr ⟨_, rfl⟩⟩

section

variable {x y : Float32}

/-- Of two factors of 1, none is a zero. -/
theorem unpack_ne_zero_of_mul_eq_one (h : x * y = binary32One) (s : Sign) :
    x.toModel.unpack ≠ .zero s ∧ y.toModel.unpack ≠ .zero s := by
  have hone : ∀ u, (u = .notANumber ∨ ∃ t, u = .zero t) → ofUnpacked u ≠ binary32One := by
    rintro u (rfl | ⟨t | t, rfl⟩) <;> decide +kernel
  rw [mul_eq_ofUnpacked] at h
  constructor
  · intro hx
    rw [hx] at h
    exact hone _ (mul_zero_cases _ s).2 h
  · intro hy
    rw [hy] at h
    exact hone _ (mul_zero_cases _ s).1 h

/-- Silence stays silent with a gain that is finite and not negative, and not a zero. -/
theorem zero_mul_eq_zero (hy : y.isFinite) (hnonneg : binary32Zero ≤ y)
    (hne : ∀ s, y.toModel.unpack ≠ .zero s) : binary32Zero * y = binary32Zero := by
  have hreal : 0 ≤ realOf y := by
    rw [← realOf_binary32Zero]
    exact (binary32_le_iff_realOf isFinite_binary32Zero hy).mp hnonneg
  have hzero : binary32Zero.toModel.unpack = .zero .positive := rfl
  rcases unpack_cases hy hreal with ⟨-, s, hs⟩ | ⟨m, e, hm, hu, -⟩
  · exact absurd hs (hne s)
  · rw [mul_eq_ofUnpacked, hzero, hu]
    rfl

end

end AmbisonicReverb
