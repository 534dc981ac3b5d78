import AmbisonicReverb.Toml.Quoted

/-!
# Numbers

Integers of 64 bits, in four bases, and floating-point numbers. An underscore may stand between two
digits.
-/

namespace AmbisonicReverb.Toml

open Text

namespace Number

/-- Whether each underscore has a digit on either side. -/
def isGrouped : List Char → Bool
  | [] => false
  | '_' :: _ => false
  | [_] => true
  | _ :: '_' :: rest => isGrouped rest
  | _ :: c :: rest => isGrouped (c :: rest)

/-- Digits, with underscores between them left out. -/
def digits (isDigit : Char → Bool) : Reader (List Char) := do
  let run ← Reader.run fun c => isDigit c || c == '_'
  if isGrouped run then return run.filter (· != '_') else failure

/-- Digits without a leading zero, unless that is all. -/
def wholeDigits : Reader (List Char) := do
  let ds ← digits Char.isDigit
  if ds.head? == some '0' && ds.length ≠ 1 then failure else return ds

/-! ## Integers -/

def decimalInteger : Reader Int := do
  return Decimal.signed (← Decimal.sign) (Decimal.ofDigits 10 (← wholeDigits))

/-- Digits in another base, after a mark that says which. -/
def basedInteger (mark : String) (base : Nat) (isDigit : Char → Bool) : Reader Int := do
  Reader.word mark
  return Decimal.ofDigits base (← digits isDigit)

/-- An integer that fits 64 bits. -/
def integer : Reader Int := do
  let n ← basedInteger "0x" 16 Quoted.isHexDigit <|>
    basedInteger "0o" 8 (fun c => '0' ≤ c && c ≤ '7') <|>
    basedInteger "0b" 2 (fun c => c == '0' || c == '1') <|>
    decimalInteger
  if Int64.minValue.toInt ≤ n ∧ n ≤ Int64.maxValue.toInt then return n else failure

/-! ## Floating-point numbers -/

def fraction : Reader (List Char) := Reader.char '.' *> digits Char.isDigit

def exponent : Reader Int := Decimal.exponentBy (digits Char.isDigit)

/-- The digits after the point and the exponent, of which one at least is there. -/
def tail : Reader (List Char × Int) :=
  (do return (← fraction, ← exponent <|> pure 0)) <|> (do return ([], ← exponent))

def applySign (negative : Bool) (x : Float) : Float := if negative then -x else x

/-- A literal with a point or an exponent. One that is too large is refused, unless it is
negative. -/
def literal : Reader Float := do
  let negative ← Decimal.sign
  let whole ← wholeDigits
  let (fraction, exponent) ← tail
  let x := applySign negative (Decimal.ofParts whole fraction exponent).toFloat
  if x == 1.0 / 0.0 then failure else return x

def special : Reader Float := do
  let negative ← Decimal.sign
  let x ← (Reader.word "inf" *> pure (1.0 / 0.0)) <|> (Reader.word "nan" *> pure (0.0 / 0.0))
  return applySign negative x

def real : Reader Float := literal <|> special

end Number

end AmbisonicReverb.Toml
