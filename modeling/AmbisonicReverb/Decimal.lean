import AmbisonicReverb.Scalar.Binary
import AmbisonicReverb.Text.Reader

/-!
# Decimal numbers

Numbers written with decimal digits, and the binary number nearest to each.
-/

namespace AmbisonicReverb

open Text

/-- The number `significand * 10 ^ exponent`. -/
structure Decimal where
  significand : Nat
  exponent : Int
deriving DecidableEq, Repr

namespace Decimal

/-! ## Digits -/

def digitValue (c : Char) : Nat :=
  if c.isDigit then c.toNat - '0'.toNat
  else if c.isUpper then c.toNat - 'A'.toNat + 10
  else c.toNat - 'a'.toNat + 10

/-- The number that digits stand for, the highest one first. -/
def ofDigits (base : Nat) (digits : List Char) : Nat :=
  digits.foldl (fun n c => n * base + digitValue c) 0

def digitCount (n : Nat) : Nat := if n = 0 then 0 else (Nat.toDigits 10 n).length

/-! ## Reading -/

/-- Whether there is a minus sign. -/
def sign : Reader Bool :=
  (Reader.char '-' *> pure true) <|> (Reader.char '+' *> pure false) <|> pure false

def signed (negative : Bool) (n : Nat) : Int := if negative then -n else n

/-- The letter E, a sign or none, and digits. -/
def exponentBy (digits : Reader (List Char)) : Reader Int := do
  let _ ← Reader.one fun c => c == 'e' || c == 'E'
  return signed (← sign) (ofDigits 10 (← digits))

/-- The number with these digits before and after the point. -/
def ofParts (whole fraction : List Char) (exponent : Int) : Decimal :=
  ⟨ofDigits 10 (whole ++ fraction), exponent - fraction.length⟩

/-! ## The nearest binary number -/

/-- Exponents of ten from which on every number is infinite, and below which every number is zero,
in both binary formats. -/
def exponentRange : Nat := 400

/-- Applies a conversion where the number is in range of the format, so that no power of ten is
computed in vain. -/
def nearest {α : Type} (zero infinite : α) (convert : Nat → Bool → Nat → α) (d : Decimal) : α :=
  let leading := d.exponent + digitCount d.significand
  if d.significand = 0 ∨ leading < -exponentRange then zero
  else if exponentRange < leading then infinite
  else convert d.significand (decide (d.exponent < 0)) d.exponent.natAbs

def toFloat (d : Decimal) : Float := d.nearest 0.0 (1.0 / 0.0) Float.ofScientific

def toFloat32 (d : Decimal) : Float32 := d.nearest 0.0 (1.0 / 0.0) Float32.ofScientific

end Decimal

end AmbisonicReverb
