import AmbisonicReverb.Phasor

/-!
# Circulant feedback matrices

The discrete Fourier transform diagonalises a circulant matrix, so the matrix is given by its
eigenvalues. Eigenvalues of magnitude 1 make it orthogonal: it neither adds nor removes energy. A
chirp of eigenvalues, `e ^ (2πi (2k/n)²)`, spreads the energy evenly over the paths.

Two layouts of the generating row `w` are in use. `Layout.fixed` has `w[(j - i) mod n]` in row `i`
and column `j`, a circulant; `Layout.legacy` has `w[(i + j) mod n]`, which permutes its rows and
keeps the sound of presets made for it.
-/

namespace AmbisonicReverb.Circulant

inductive Layout
  | legacy
  | fixed
deriving DecidableEq, Repr

def Layout.ofFixed (isFixed : Bool) : Layout := if isFixed then .fixed else .legacy

def Layout.isFixed : Layout → Bool
  | .fixed => true
  | .legacy => false

/-- The place in the generating row of the entry in row `i` and column `j`. -/
def Layout.place (n i j : Nat) : Layout → Nat
  | .fixed => (j + n - i) % n
  | .legacy => (i + j) % n

theorem Layout.place_lt {n i : Nat} (hi : i < n) (j : Nat) (l : Layout) : l.place n i j < n := by
  cases l <;> exact Nat.mod_lt _ (Nat.zero_lt_of_lt hi)

section Spectrum

variable {α : Type} [Elementary α]

/-- The eigenvalue `k` of the chirp, for `k` up to half the order. -/
def chirp (order k : Nat) : Phasor α :=
  let ratio := Scalar.ofNat k / (0.5 * Scalar.ofNat order)
  Phasor.unit (Elementary.tau * (ratio * ratio))

/-- The eigenvalues: a chirp up to half the order, continued so that eigenvalue `n - k` is the
conjugate of eigenvalue `k`, and real where the two are one. -/
def spectrum (order : Nat) : Array (Phasor α) :=
  Array.ofFn fun k : Fin order =>
    if k.val = 0 ∨ 2 * k.val = order then ⟨(chirp order k.val).re, 0⟩
    else if k.val ≤ order / 2 then chirp order k.val
    else (chirp order (order - k.val)).conj

variable {β : Type} [Elementary β] [Widening α β]

/-- The generating row: the eigenvalues transformed back, with the scale `1 / n`. -/
def row (order : Nat) : Array α :=
  if order ≤ 1 then Array.replicate order 1
  else
    let scale : α := 1 / Scalar.ofNat order
    let wide := (spectrum order : Array (Phasor α)).map fun p => ⟨widen p.re, widen p.im⟩
    (Phasor.inverseDFT wide).map fun p => narrow p.re * scale

end Spectrum

/-- The rows of the matrix generated by `w`. -/
def matrix {α : Type} (l : Layout) (w : Array α) : Array (Array α) :=
  Array.ofFn fun i : Fin w.size => Array.ofFn fun j : Fin w.size =>
    have := l.place_lt i.isLt j.val
    w[l.place w.size i.val j.val]

end AmbisonicReverb.Circulant
