import AmbisonicReverb.Decimal.Rounding

/-!
# Numbers in reports

The three ways in which reports write a binary number: with the fewest digits, with a fixed number
of places, and with an exponent. All write `inf` and `NaN` for what is no number, and keep the sign
of a zero.
-/

namespace AmbisonicReverb

namespace Decimal

/-- Digits and a point, without an exponent. -/
def positional (d : Decimal) : String :=
  let digits := Nat.toDigits 10 d.significand
  match d.exponent with
  | .ofNat e => String.ofList (digits ++ List.replicate e '0')
  | .negSucc e =>
    let places := e + 1
    let padded := List.replicate (places + 1 - digits.length) '0' ++ digits
    let whole := padded.length - places
    String.ofList (padded.take whole ++ '.' :: padded.drop whole)

/-- The leading digit, a point before the others, and the exponent of the leading digit. -/
def scientific (d : Decimal) : String :=
  match Nat.toDigits 10 d.significand with
  | [] => ""
  | first :: others =>
    String.ofList (first :: '.' :: others) ++ "e" ++ toString (d.exponent + others.length)

end Decimal

namespace BinaryValue

/-- Writes a sign before the text of a magnitude. -/
def textBy (magnitude : Nat → Int → String) : BinaryValue → String
  | .finite negative m e => (if negative then "-" else "") ++ magnitude m e
  | .infinite negative => if negative then "-inf" else "inf"
  | .undefined => "NaN"

/-- As few digits as read back. -/
def shortestText (f : BinaryFormat) : BinaryValue → String :=
  textBy fun m e => (Decimal.shortest f m e).positional

/-- Digits up to a number of places after the point. -/
def fixedText (places : Nat) : BinaryValue → String :=
  textBy fun m e => (Decimal.nearestMultiple (-places) m e).positional

/-- One digit before the point, a number of places after it, and an exponent. -/
def scientificText (places : Nat) : BinaryValue → String :=
  textBy fun m e =>
    if m = 0 then (Decimal.mk 0 (-places)).positional ++ "e0"
    else (Decimal.ofDigitCount (places + 1) m e).scientific

end BinaryValue

/-- Fills a text with blanks on the left. -/
def alignRight (width : Nat) (text : String) : String :=
  String.ofList (List.replicate (width - text.length) ' ') ++ text

end AmbisonicReverb
