import AmbisonicReverb.Scalar
import Mathlib

/-!
# Folds over ranges

The sums of the library are folds, over a number of terms or over the entries of an array. Both are
folds over a range of indices.
-/

namespace AmbisonicReverb

theorem fold_eq_foldl_range {σ : Type} {m : Nat} {f : (i : Nat) → i < m → σ → σ}
    {g : σ → Nat → σ} (h : ∀ i hi s, f i hi s = g s i) (init : σ) :
    m.fold f init = (List.range m).foldl g init := by
  induction m with
  | zero => rfl
  | succ m ih =>
    rw [Nat.fold_succ, List.range_succ, List.foldl_append,
      ih fun i hi s => h i (Nat.lt_succ_of_lt hi) s]
    exact h m (Nat.lt_succ_self m) _

theorem foldl_eq_foldl_range {σ τ : Type} (xs : Array τ) (default : τ) (f : σ → τ → σ) (init : σ) :
    xs.foldl f init = (List.range xs.size).foldl (fun s k => f s (xs.getD k default)) init := by
  have hlist : xs.toList = (List.range xs.size).map fun k => xs.getD k default := by
    refine List.ext_getElem (by simp) fun k hk _ => ?_
    have hk' : k < xs.size := by simpa using hk
    simp [Array.getD_eq_getD_getElem?, hk']
  rw [← Array.foldl_toList, hlist, List.foldl_map]

/-- A quantity that grows by a term in each step of a fold grows by their sum. -/
theorem foldl_range_eq_sum {σ M : Type} [AddCommMonoid M] (value : σ → M) {step : σ → Nat → σ}
    {term : Nat → M} (h : ∀ s k, value (step s k) = value s + term k) (init : σ) (m : Nat) :
    value ((List.range m).foldl step init) = value init + ∑ k ∈ Finset.range m, term k := by
  induction m with
  | zero => rw [List.range_zero, List.foldl_nil, Finset.sum_range_zero, add_zero]
  | succ m ih =>
    rw [List.range_succ, List.foldl_append, List.foldl_cons, List.foldl_nil, h, ih,
      Finset.sum_range_succ, add_assoc]

end AmbisonicReverb
