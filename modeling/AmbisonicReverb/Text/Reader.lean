/-!
# Readers

A reader takes a value from the front of a text and leaves the rest, or finds that the text does
not begin with such a value. Of two readers `p <|> q` the second one starts again where the first
one did.
-/

namespace AmbisonicReverb.Text

abbrev Reader := StateT (List Char) Option

namespace Reader

variable {α : Type}

/-- One character of a class. -/
def one (isMember : Char → Bool) : Reader Char
  | c :: rest => if isMember c then some (c, rest) else none
  | [] => none

def char (c : Char) : Reader Unit := do
  let _ ← one (· == c)

/-- The characters of a word, as they are. -/
def word (w : String) : Reader Unit := w.toList.forM char

def atEnd : Reader Unit
  | [] => some ((), [])
  | _ :: _ => none

/-- All characters of a class that come next. -/
def run (isMember : Char → Bool) : Reader (List Char) := fun text =>
  some (text.takeWhile isMember, text.dropWhile isMember)

/-- Characters of a class, one or more. -/
def run1 (isMember : Char → Bool) : Reader (List Char) := do
  let first ← one isMember
  return first :: (← run isMember)

/-- Exactly `n` characters of a class. -/
def exactly (n : Nat) (isMember : Char → Bool) : Reader (List Char) :=
  (List.replicate n isMember).mapM one

/-- Items in a row, no more than `bound` is long, after those of `before`, the last one first. -/
def upTo (item : Reader α) : (bound : List Char) → (before : List α) → Reader (List α)
  | [], before, text => some (before.reverse, text)
  | _ :: bound, before, text =>
    match item text with
    | none => some (before.reverse, text)
    | some (x, rest) => upTo item bound (x :: before) rest

/-- As many items as there are. An item takes a character at least, so that the text itself bounds
their number. -/
def many (item : Reader α) : Reader (List α) := fun text => upTo item text [] text

/-- One item or more, with something between any two. -/
def separated (item : Reader α) (between : Reader Unit) : Reader (List α) := do
  let first ← item
  return first :: (← many (between *> item))

/-- The value of a whole text. -/
def readAll? (r : Reader α) (text : String) : Option α :=
  ((r <* atEnd) text.toList).map (·.1)

end Reader

end AmbisonicReverb.Text
