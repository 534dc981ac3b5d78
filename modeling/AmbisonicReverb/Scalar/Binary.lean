import AmbisonicReverb.Scalar

/-!
# Binary floating-point scalars

Binary32 and binary64 numbers as scalars. Arithmetic and the elementary functions are those of the
machine. Conversions to counts, the cube root and the conversions between the two formats are
computed on bit patterns, so that their values follow from their definitions here:

* `BinaryValue.roundToNat` and `truncToNat`, which stop at `largestCount`;
* `floorCubeRoot`, the floor of a cube root, and `BinaryValue.cubeRoot32`, rounded from it;
* `binary64Of`, which is exact, and `binary32Of`, which rounds to nearest.
-/

namespace AmbisonicReverb

/-! ## Bit patterns -/

/-- Widths of the two fields below the sign bit. -/
structure BinaryFormat where
  exponentBits : Nat
  fractionBits : Nat
deriving Repr, DecidableEq

def BinaryFormat.binary32 : BinaryFormat := ⟨8, 23⟩

def BinaryFormat.binary64 : BinaryFormat := ⟨11, 52⟩

/-- The exponent of the smallest numbers. -/
def BinaryFormat.lowestExponent (f : BinaryFormat) : Int :=
  2 - Nat.pow 2 (f.exponentBits - 1) - f.fractionBits

/-- The number that a bit pattern stands for: `significand * 2 ^ exponent` with a sign, an
infinity, or no number. -/
inductive BinaryValue
  | finite (negative : Bool) (significand : Nat) (exponent : Int)
  | infinite (negative : Bool)
  | undefined
deriving Repr, DecidableEq

/-- Reads sign, exponent and fraction; the least exponent has no hidden bit. -/
def BinaryFormat.decode (f : BinaryFormat) (bits : Nat) : BinaryValue :=
  let fraction := bits % Nat.pow 2 f.fractionBits
  let exponent := bits / Nat.pow 2 f.fractionBits % Nat.pow 2 f.exponentBits
  let negative := bits / Nat.pow 2 (f.fractionBits + f.exponentBits) % 2 == 1
  if exponent = Nat.pow 2 f.exponentBits - 1 then
    if fraction = 0 then .infinite negative else .undefined
  else if exponent = 0 then
    .finite negative fraction f.lowestExponent
  else
    .finite negative (Nat.pow 2 f.fractionBits + fraction) (f.lowestExponent + exponent - 1)

namespace BinaryValue

/-! ## Counts -/

/-- Counts are held in 64 bits and stop there. -/
def largestCount : Nat := UInt64.size - 1

/-- Applies a rounding `q p ↦ q / p` to a positive number; negative ones and NaN have count 0. -/
def toNatBy (quotient : Nat → Nat → Nat) : BinaryValue → Nat
  | .finite true _ _ => 0
  | .finite false m (.ofNat e) => min (m * Nat.pow 2 e) largestCount
  | .finite false m (.negSucc e) => min (quotient m (Nat.pow 2 (e + 1))) largestCount
  | .infinite negative => if negative then 0 else largestCount
  | .undefined => 0

def truncToNat : BinaryValue → Nat := toNatBy (· / ·)

def roundToNat : BinaryValue → Nat := toNatBy fun n d => (2 * n + d) / (2 * d)

end BinaryValue

/-! ## Cube roots -/

def cube (n : Nat) : Nat := n * n * n

/-- The largest number whose cube is at most `n`, one binary digit for three of `n`. -/
def floorCubeRoot (n : Nat) : Nat :=
  if n = 0 then 0
  else
    let r := 2 * floorCubeRoot (n / 8)
    if cube (r + 1) ≤ n then r + 1 else r

/-- The binary32 number `2 ^ k`, for `k` in the range of its normal exponents. -/
def binary32PowTwo (k : Int) : Float32 := .ofBits ((k + 127).toNat <<< 23).toUInt32

/-- The cube root of a binary32 number, to nearest. The significand is scaled by a power of eight
to 27 digits of the root or more, and a last digit says whether the root was exact. -/
def BinaryValue.cubeRoot32 : BinaryValue → Float32
  | .finite negative m e =>
    let pad := 81 + (e % 3).toNat
    let scaled := m * Nat.pow 2 pad
    let root := floorCubeRoot scaled
    let digits := 2 * root + (if cube root = scaled then 0 else 1)
    let magnitude := Float32.ofNat digits * binary32PowTwo ((e - pad) / 3 - 1)
    if m = 0 then (if negative then -0.0 else 0.0)
    else if negative then -magnitude else magnitude
  | .infinite negative => .ofBits (if negative then 0xff800000 else 0x7f800000)
  | .undefined => .ofBits 0x7fc00000

/-! ## Between the formats -/

/-- The bits of a binary64 number without its sign, from those of a binary32 number. The bias of the
exponents differs by 896, at infinity and NaN by twice that. A subnormal pattern is a count of
`2 ^ -149`. -/
@[inline] def widenMagnitude (magnitude : UInt64) : UInt64 :=
  if magnitude < 0x00800000 then (magnitude.toFloat * .ofBits 0x36a0000000000000).toBits
  else if magnitude < 0x7f800000 then (magnitude <<< 29) + 0x3800000000000000
  else (magnitude <<< 29) + 0x7000000000000000

/-- The binary64 number equal to a binary32 number. -/
def binary64Of (x : Float32) : Float :=
  let bits := x.toBits.toUInt64
  .ofBits ((bits >>> 31) <<< 63 ||| widenMagnitude (bits &&& 0x7fffffff))

/-- The bits of a binary32 number without its sign, from those of a binary64 number, rounded to
nearest and at a tie to an even pattern. Below `2 ^ -126` the sum with `2 ^ -97`, whose last digit
stands for `2 ^ -149`, does the rounding; above, 29 digits of the fraction are rounded away and may
carry into the exponent, up to infinity. -/
@[inline] def narrowMagnitude (magnitude : UInt64) : UInt64 :=
  if 0x7ff0000000000000 < magnitude then 0x7fc00000
  else if magnitude < 0x3810000000000000 then
    (Float.ofBits magnitude + .ofBits 0x39e0000000000000).toBits - 0x39e0000000000000
  else
    let rebased := magnitude - 0x3800000000000000
    let odd : UInt64 := (rebased >>> 29) &&& 1
    min ((rebased + 0x0fffffff + odd) >>> 29) 0x7f800000

/-- The binary32 number nearest to a binary64 number. -/
def binary32Of (x : Float) : Float32 :=
  let bits := x.toBits
  .ofBits ((bits >>> 63) <<< 31 ||| narrowMagnitude (bits &&& 0x7fffffffffffffff)).toUInt32

/-! ## The two scalars -/

/- Constants of inner loops are evaluated once. -/

@[noinline] def binary32Zero : Float32 := 0.0

@[noinline] def binary32One : Float32 := 1.0

@[noinline] def binary32Tiny : Float32 := 1e-30

@[noinline] def binary64Zero : Float := 0.0

@[noinline] def binary64One : Float := 1.0

@[noinline] def binary64Tiny : Float := 1e-30

@[inline] instance : Scalar Float32 where
  zero := binary32Zero
  one := binary32One
  decLT := inferInstance
  decLE := inferInstance
  tiny := binary32Tiny
  isFinite := Float32.isFinite
  ofNat := Float32.ofNat

@[inline] instance : Scalar Float where
  zero := binary64Zero
  one := binary64One
  decLT := inferInstance
  decLE := inferInstance
  tiny := binary64Tiny
  isFinite := Float.isFinite
  ofNat := Float.ofNat

def binary32Value (x : Float32) : BinaryValue := BinaryFormat.binary32.decode x.toBits.toNat

def binary64Value (x : Float) : BinaryValue := BinaryFormat.binary64.decode x.toBits.toNat

@[inline] instance : Elementary Float32 where
  tau := 6.283185307179586
  sqrt := Float32.sqrt
  cubeRoot x := (binary32Value x).cubeRoot32
  exp := Float32.exp
  log := Float32.log
  pow := Float32.pow
  cos := Float32.cos
  sin := Float32.sin
  roundToNat x := (binary32Value x).roundToNat
  truncToNat x := (binary32Value x).truncToNat

@[inline] instance : Elementary Float where
  tau := 6.283185307179586
  sqrt := Float.sqrt
  cubeRoot := Float.cbrt
  exp := Float.exp
  log := Float.log
  pow := Float.pow
  cos := Float.cos
  sin := Float.sin
  roundToNat x := (binary64Value x).roundToNat
  truncToNat x := (binary64Value x).truncToNat

@[inline] instance : Widening Float32 Float where
  widen := binary64Of
  narrow := binary32Of

end AmbisonicReverb
