import AmbisonicReverb.Toml.Moment

/-!
# Values

The values of a TOML document. A table carries how it came to be defined, which decides where in the
document more may be said about it.
-/

namespace AmbisonicReverb.Toml

/-- How a table is defined. -/
inductive Origin
  /-- By the header of a table inside it. -/
  | implied
  /-- By a dotted key. -/
  | dotted
  /-- By a header of its own, or as the whole document. -/
  | header
  /-- Between braces. -/
  | braces
deriving DecidableEq, Repr

inductive Value
  | text (s : String)
  | integer (n : Int)
  | real (x : Float)
  | boolean (b : Bool)
  | moment (m : Moment)
  | array (items : List Value)
  | table (origin : Origin) (entries : List (String × Value))
  /-- Tables under headers in double brackets: the earlier ones, latest first, and the last. -/
  | tables (earlier : List (List (String × Value))) (last : List (String × Value))

abbrev Entries := List (String × Value)

end AmbisonicReverb.Toml
