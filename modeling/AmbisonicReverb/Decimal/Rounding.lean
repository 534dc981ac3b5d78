import AmbisonicReverb.Decimal

/-!
# Decimals next to a binary number

A binary number `m * 2 ^ e` is rounded to a number of places or of digits, in exact arithmetic and
with halves going to the even neighbour. `shortest` finds the decimal with the fewest digits among
those from which the same binary number would be read.
-/

namespace AmbisonicReverb

/-- The integer nearest to `n / d`, the even one of two. -/
def roundHalfEven (n d : Nat) : Nat :=
  let q := n / d
  let r := n % d
  if d < 2 * r ∨ (2 * r = d ∧ q % 2 = 1) then q + 1 else q

/-- At the same distance from two integers the even one is taken. -/
theorem roundHalfEven_tie {n d : Nat} (h : 2 * (n % d) = d) : roundHalfEven n d % 2 = 0 := by
  simp only [roundHalfEven]
  split <;> omega

namespace Decimal

/-- How a decimal compares with `m * 2 ^ e`. -/
def compareBinary (d : Decimal) (m : Nat) (e : Int) : Ordering :=
  compare (d.significand * Nat.pow 10 d.exponent.toNat * Nat.pow 2 (-e).toNat)
    (m * Nat.pow 2 e.toNat * Nat.pow 10 (-d.exponent).toNat)

/-- Numerator and denominator of `m * 2 ^ e / 10 ^ g`. -/
def quotient (m : Nat) (e g : Int) : Nat × Nat :=
  (m * Nat.pow 2 e.toNat * Nat.pow 10 (-g).toNat, Nat.pow 2 (-e).toNat * Nat.pow 10 g.toNat)

/-! ## Places and digits -/

/-- The multiple of `10 ^ g` nearest to `m * 2 ^ e`. -/
def nearestMultiple (g : Int) (m : Nat) (e : Int) : Decimal :=
  let (n, d) := quotient m e g
  ⟨roundHalfEven n d, g⟩

/-- The exponent of the leading digit of `m * 2 ^ e`. -/
def leadingExponent (m : Nat) (e : Int) : Int :=
  let (n, d) := quotient m e 0
  if m = 0 then 0
  else if d ≤ n then (digitCount (n / d) : Int) - 1
  else -digitCount ((d - 1) / n)

/-- The decimal of `count` digits nearest to `m * 2 ^ e`. Where rounding carries into one more
digit, that one is a zero and is left out. -/
def ofDigitCount (count m : Nat) (e : Int) : Decimal :=
  let d := nearestMultiple (leadingExponent m e + 1 - count) m e
  if d.significand = Nat.pow 10 count then ⟨Nat.pow 10 (count - 1), d.exponent + 1⟩ else d

/-! ## The fewest digits -/

/-- Whether the binary number nearest to a decimal is `m * 2 ^ e`. The numbers that are nearest to
it reach halfway to its neighbours, and include the middle where `m` is even. Below a power of two
the neighbour is half as far. -/
def readsBack (f : BinaryFormat) (d : Decimal) (m : Nat) (e : Int) : Bool :=
  let isNarrow := m = Nat.pow 2 f.fractionBits ∧ f.lowestExponent < e
  let lower := d.compareBinary (if isNarrow then 4 * m - 1 else 4 * m - 2) (e - 2)
  let upper := d.compareBinary (4 * m + 2) (e - 2)
  (lower == .gt && upper == .lt) || (m % 2 == 0 && (lower == .eq || upper == .eq))

/-- Leaves out zeros at the end. -/
def trim (d : Decimal) : Decimal :=
  if d.significand = 0 ∨ d.significand % 10 ≠ 0 then d
  else trim ⟨d.significand / 10, d.exponent + 1⟩
termination_by d.significand
decreasing_by exact Nat.div_lt_self (by omega) (by omega)

/-- The nearer one of the two multiples of `10 ^ g` around `m * 2 ^ e` that read back, the upper one
of two at the same distance. -/
def candidate? (f : BinaryFormat) (m : Nat) (e g : Int) : Option Decimal :=
  let (n, d) := quotient m e g
  let lower : Decimal := ⟨n / d, g⟩
  let upper : Decimal := ⟨n / d + 1, g⟩
  let nearer := if 2 * (n % d) < d then [lower, upper] else [upper, lower]
  nearer.find? fun c => c.readsBack f m e

/-- The exact value of `m * 2 ^ e`. -/
def exact (m : Nat) : Int → Decimal
  | .ofNat e => ⟨m * Nat.pow 2 e, 0⟩
  | .negSucc e => ⟨m * Nat.pow 5 (e + 1), .negSucc e⟩

/-- The number of digits that are enough to read back in each binary format. -/
def enoughDigits : Nat := 17

/-- The decimal with the fewest digits that reads back as `m * 2 ^ e`. -/
def shortest (f : BinaryFormat) (m : Nat) (e : Int) : Decimal :=
  let leading := leadingExponent m e
  let found := (List.range enoughDigits).findSome? fun (n : Nat) => candidate? f m e (leading - n)
  (found.getD (exact m e)).trim

end Decimal

end AmbisonicReverb
