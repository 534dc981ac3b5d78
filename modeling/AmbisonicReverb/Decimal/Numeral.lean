import AmbisonicReverb.Decimal

/-!
# Numerals

The numbers that can be given as arguments. A numeral has a sign or none, and then digits with a
point before, between or after them and with or without an exponent, or the word `inf`, `infinity`
or `nan` in letters of either case.
-/

namespace AmbisonicReverb.Decimal

open Text

namespace Numeral

/-- A word in letters of either case. -/
def caselessWord (w : String) : Reader Unit := w.toList.forM fun c => do
  let _ ← Reader.one fun d => d.toLower == c

/-- Digits with at most one point and an exponent. -/
def unsigned : Reader Decimal := do
  let whole ← Reader.run Char.isDigit
  let fraction ← (Reader.char '.' *> Reader.run Char.isDigit) <|> pure []
  if whole.isEmpty && fraction.isEmpty then failure
  return ofParts whole fraction (← exponentBy (Reader.run1 Char.isDigit) <|> pure 0)

def binary32 : Reader Float32 := do
  let negative ← sign
  let magnitude ←
    (caselessWord "infinity" *> pure (1.0 / 0.0)) <|> (caselessWord "inf" *> pure (1.0 / 0.0)) <|>
    (caselessWord "nan" *> pure (0.0 / 0.0)) <|> (toFloat32 <$> unsigned)
  return if negative then -magnitude else magnitude

/-- A count has no minus sign. -/
def count : Reader Nat := do
  let _ ← Reader.char '+' <|> pure ()
  let n := ofDigits 10 (← Reader.run1 Char.isDigit)
  if n ≤ BinaryValue.largestCount then return n else failure

end Numeral

def readFloat32? (text : String) : Option Float32 := Numeral.binary32.readAll? text

def readCount? (text : String) : Option Nat := Numeral.count.readAll? text

end AmbisonicReverb.Decimal
