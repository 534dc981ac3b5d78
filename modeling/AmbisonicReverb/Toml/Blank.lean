import AmbisonicReverb.Text.Reader

/-!
# Blanks, line ends and comments

What a TOML document leaves between its values.
-/

namespace AmbisonicReverb.Toml

open Text

def isBlank (c : Char) : Bool := c == ' ' || c == '\t'

/-- Characters that may stand for themselves: all but control characters, of which the tab may. -/
def isPrintable (c : Char) : Bool := c == '\t' || (0x20 ≤ c.toNat && c.toNat ≠ 0x7f)

def blanks : Reader Unit := do
  let _ ← Reader.run isBlank

/-- A line feed, with or without a carriage return before it. -/
def newline : Reader Unit := Reader.char '\n' <|> (Reader.char '\r' *> Reader.char '\n')

def comment : Reader Unit := do
  Reader.char '#'
  let _ ← Reader.run isPrintable

/-- The end of a line, or of the text. -/
def lineEnd : Reader Unit := newline <|> Reader.atEnd

/-- What may follow a value on its line. -/
def trailer : Reader Unit := blanks *> (comment <|> pure ()) *> lineEnd

/-- Blanks, line ends, and comments up to the ends of their lines. -/
def gap : Reader Unit := do
  let _ ← Reader.many (Reader.run1 isBlank *> pure () <|> newline <|> comment *> newline)

end AmbisonicReverb.Toml
