import AmbisonicReverb.Decimal
import AmbisonicReverb.Toml.Blank

/-!
# Quoted texts

The four forms of a TOML string. Between quotation marks a backslash begins an escape, and between
apostrophes all characters stand for themselves. Three marks enclose a text of several lines; it
may hold one or two of its marks in a row, also right before the closing ones.
-/

namespace AmbisonicReverb.Toml

open Text

namespace Quoted

/-! ## Escapes -/

def isHexDigit (c : Char) : Bool := c.isDigit || ('a' ≤ c && c ≤ 'f') || ('A' ≤ c && c ≤ 'F')

/-- The character whose number has exactly `digits` hexadecimal digits. -/
def codePoint (digits : Nat) : Reader Char := do
  let n := Decimal.ofDigits 16 (← Reader.exactly digits isHexDigit)
  if n.isValidChar then return Char.ofNat n else failure

def escape : Reader Char := do
  Reader.char '\\'
  match ← Reader.one fun _ => true with
  | 'b' => return '\x08'
  | 't' => return '\t'
  | 'n' => return '\n'
  | 'f' => return '\x0c'
  | 'r' => return '\r'
  | '"' => return '"'
  | '\\' => return '\\'
  | 'u' => codePoint 4
  | 'U' => codePoint 8
  | _ => failure

/-- A backslash at the end of a line leaves out everything up to the next character that is not
blank. -/
def continuation : Reader (List Char) := do
  Reader.char '\\'
  blanks
  newline
  let _ ← Reader.many (Reader.run1 isBlank *> pure () <|> newline)
  return []

/-! ## Texts -/

def plain (isMark : Char → Bool) : Reader (List Char) :=
  Reader.run1 fun c => isPrintable c && !isMark c

/-- A text on one line, made of pieces between two marks. -/
def singleLine (mark : Char) (piece : Reader (List Char)) : Reader String := do
  Reader.char mark
  let pieces ← Reader.many piece
  Reader.char mark
  return String.ofList pieces.flatten

/-- Fewer than three marks, which do not close a text of several lines. -/
def fewMarks (mark : Char) : Reader (List Char) := do
  let marks ← Reader.run1 (· == mark)
  if marks.length < 3 then return marks else failure

/-- The closing marks of a text of several lines; those in excess of three belong to the text. -/
def closingMarks (mark : Char) : Reader (List Char) := do
  let marks ← Reader.run (· == mark)
  if 3 ≤ marks.length ∧ marks.length ≤ 5 then return marks.drop 3 else failure

/-- A text of several lines. A line end right after the opening marks is left out, and the others
are single line feeds. -/
def multiLine (mark : Char) (piece : Reader (List Char)) : Reader String := do
  let _ ← Reader.exactly 3 (· == mark)
  newline <|> pure ()
  let pieces ← Reader.many (piece <|> newline *> pure ['\n'] <|> fewMarks mark)
  let last ← closingMarks mark
  return String.ofList (pieces.flatten ++ last)

/-- The pieces between quotation marks. -/
def basicPiece : Reader (List Char) :=
  plain (fun c => c == '"' || c == '\\') <|> (fun c => [c]) <$> escape

/-- The pieces between apostrophes. -/
def literalPiece : Reader (List Char) := plain (· == '\'')

def onOneLine : Reader String := singleLine '"' basicPiece <|> singleLine '\'' literalPiece

def onManyLines : Reader String :=
  multiLine '"' (basicPiece <|> continuation) <|> multiLine '\'' literalPiece

end Quoted

/-- A quoted text of any form. -/
def quoted : Reader String := Quoted.onManyLines <|> Quoted.onOneLine

/-! ## Keys -/

def isBareKey (c : Char) : Bool := c.isAlphanum || c == '_' || c == '-'

def simpleKey : Reader String := Quoted.onOneLine <|> String.ofList <$> Reader.run1 isBareKey

/-- The number of parts from which on a dotted key is refused. -/
def keyLimit : Nat := 80

/-- A key, or several with dots between them: the path to the last one, and the last one. -/
def key : Reader (List String × String) := do
  let parts ← Reader.separated (blanks *> simpleKey <* blanks) (Reader.char '.')
  match parts.getLast? with
  | some last => if parts.length < keyLimit then return (parts.dropLast, last) else failure
  | none => failure

end AmbisonicReverb.Toml
