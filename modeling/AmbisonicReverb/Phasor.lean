import AmbisonicReverb.Scalar

/-!
# Phasors

Complex numbers over a scalar: frequency responses and spectra. `Phasor.inverseDFT` is the inverse
discrete Fourier transform without a scale factor, written as its defining sum.
-/

namespace AmbisonicReverb

structure Phasor (α : Type) where
  re : α
  im : α
deriving DecidableEq

namespace Phasor

section

variable {α : Type} [Scalar α]

@[inline] instance : Add (Phasor α) := ⟨fun p q => ⟨p.re + q.re, p.im + q.im⟩⟩

@[inline] instance : Mul (Phasor α) :=
  ⟨fun p q => ⟨p.re * q.re - p.im * q.im, p.re * q.im + p.im * q.re⟩⟩

instance : Div (Phasor α) := ⟨fun p q =>
  let n := q.re * q.re + q.im * q.im
  ⟨(p.re * q.re + p.im * q.im) / n, (p.im * q.re - p.re * q.im) / n⟩⟩

def conj (p : Phasor α) : Phasor α := ⟨p.re, -p.im⟩

def scale (p : Phasor α) (g : α) : Phasor α := ⟨p.re * g, p.im * g⟩

/-- The real number `a` as a phasor, plus `p`. -/
def addReal (a : α) (p : Phasor α) : Phasor α := ⟨a + p.re, p.im⟩

end

variable {α : Type} [Elementary α]

/-- The unit phasor at an angle. -/
def unit (angle : α) : Phasor α := ⟨Elementary.cos angle, Elementary.sin angle⟩

/-- The magnitude. The larger part is factored out, so that neither square can overflow; an
infinite part makes it infinite. -/
def norm (p : Phasor α) : α :=
  let a := Scalar.abs p.re
  let b := Scalar.abs p.im
  let infinite (c : α) : Bool := !Scalar.isFinite c && !Scalar.isNaN c
  if infinite a then a
  else if infinite b then b
  else
    let hi := Scalar.maxNum a b
    let lo := Scalar.minNum a b
    if 0 < hi ∧ ¬ Scalar.isNaN a ∧ ¬ Scalar.isNaN b then
      hi * Elementary.sqrt (1 + lo / hi * (lo / hi))
    else a + b

/-- The terms `s[k] * e ^ (2πi k m / n)` summed over `k`, for `m` below the length `n`. -/
def inverseDFT (spectrum : Array (Phasor α)) : Array (Phasor α) :=
  let n := spectrum.size
  Array.ofFn fun m : Fin n => n.fold (fun k _ sum =>
    let turns : α := Scalar.ofNat (k * m.val % n) / Scalar.ofNat n
    sum + spectrum[k] * unit (Elementary.tau * turns)) ⟨0, 0⟩

end Phasor

end AmbisonicReverb
