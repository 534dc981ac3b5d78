import AmbisonicReverb.Toml.Entries
import AmbisonicReverb.Toml.Number

/-!
# Documents

A TOML document is a sequence of statements: headers, and keys with their values. `readDocument?`
gives the table that they define together.
-/

namespace AmbisonicReverb.Toml

open Text

/-! ## Values -/

def boolean : Reader Bool :=
  (Reader.word "true" *> pure true) <|> (Reader.word "false" *> pure false)

/-- Values without parts. A date is tried before a number, because it begins like one. -/
def scalar : Reader Value :=
  .text <$> quoted <|> .boolean <$> boolean <|> .moment <$> Moment.moment <|>
  .real <$> Number.real <|> .integer <$> Number.integer

/-- Items between brackets, over any number of lines. A comma may follow the last one. -/
def arrayOf (item : Reader Value) : Reader Value := do
  Reader.char '['
  let items ←
    (Reader.separated (gap *> item <* gap) (Reader.char ',') <* (Reader.char ',' <|> pure ())) <|>
    pure []
  gap
  Reader.char ']'
  return .array items

/-- A key, an equals sign and a value. -/
def keyValue (value : Reader Value) : Reader ((List String × String) × Value) := do
  let k ← key
  Reader.char '='
  blanks
  return (k, ← value)

/-- Keys and values between braces, on one line. -/
def tableOf (value : Reader Value) : Reader Value := do
  Reader.char '\x7b'
  let pairs ← Reader.separated (keyValue value <* blanks) (Reader.char ',') <|> pure []
  blanks
  Reader.char '\x7d'
  let define (entries : Entries) (pair : (List String × String) × Value) : Option Entries :=
    entries.add pair.1.1 pair.1.2 pair.2 .braces
  match pairs.foldlM define [] with
  | some entries => return .table .braces entries
  | none => failure

/-- A value with arrays and tables nested up to a depth. -/
def valueWithin : (depth : Nat) → Reader Value
  | 0 => scalar
  | depth + 1 => scalar <|> arrayOf (valueWithin depth) <|> tableOf (valueWithin depth)

/-- The depth up to which values are read. -/
def depthLimit : Nat := 79

/-! ## Statements -/

inductive Statement
  /-- A comment, or nothing. -/
  | blank
  | table (path : List String) (key : String)
  | element (path : List String) (key : String)
  | entry (path : List String) (key : String) (value : Value)

/-- A header between brackets. -/
def header (opening closing : String) : Reader (List String × String) :=
  Reader.word opening *> key <* Reader.word closing <* trailer

def statement : Reader Statement :=
  blanks *> (
    newline *> pure .blank <|>
    comment *> lineEnd *> pure .blank <|>
    (fun (path, k) => .element path k) <$> header "[[" "]]" <|>
    (fun (path, k) => .table path k) <$> header "[" "]" <|>
    (fun ((path, k), v) => .entry path k v) <$> keyValue (valueWithin depthLimit) <* trailer)

/-- The statements of a document, which may begin with a byte order mark. -/
def statements : Reader (List Statement) := do
  Reader.char '\ufeff' <|> pure ()
  let found ← Reader.many statement
  blanks
  return found

/-! ## Tables -/

/-- The tables of the statements so far, and the path of the last header. -/
structure Progress where
  entries : Entries
  path : List String

def Progress.extend (p : Progress) : Statement → Option Progress
  | .blank => some p
  | .table path key => do
    let entries ← p.entries.openTable path key
    return ⟨entries, path ++ [key]⟩
  | .element path key => do
    let entries ← p.entries.openElement path key
    return ⟨entries, path ++ [key]⟩
  | .entry path key value => do
    let entries ← Entries.changeAt .implied (fun here inner => inner.add path key value here)
      p.path .header p.entries
    return { p with entries }

/-- The table that a document stands for, if it is well-formed. -/
def readDocument? (text : String) : Option Entries := do
  let found ← statements.readAll? text
  let p ← found.foldlM Progress.extend ⟨[], []⟩
  return p.entries

end AmbisonicReverb.Toml
