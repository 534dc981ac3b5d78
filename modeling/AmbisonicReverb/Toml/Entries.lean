import AmbisonicReverb.Toml.Value

/-!
# Entries

How the keys and headers of a document define its tables. No key is defined twice; a table between
braces is complete at its closing brace; a table with a header takes no more keys from outside, but
may get tables inside it; and of tables under headers in double brackets only the last one grows.
-/

namespace AmbisonicReverb.Toml

/-- Whether a definition that would give tables on its way the origin `way` passes through a table
with the origin `here`. -/
def Origin.isOpenTo (here way : Origin) : Bool :=
  match here with
  | .implied | .dotted => true
  | .header => way == .implied
  | .braces => false

namespace Entries

/-- Sets the value of a key, in its place if it has one. -/
def put (key : String) (value : Value) : Entries → Entries
  | [] => [(key, value)]
  | (k, v) :: rest => if k = key then (key, value) :: rest else (k, v) :: put key value rest

/-- Changes the table at the end of a path. Tables missing on the way are defined there. -/
def changeAt (way : Origin) (change : Origin → Entries → Option Entries) :
    (path : List String) → Origin → Entries → Option Entries
  | [], here, entries => change here entries
  | key :: path, _, entries => do
    let inner ← match entries.lookup key with
      | none => .table way <$> changeAt way change path way []
      | some (.table here inner) =>
        if here.isOpenTo way then .table here <$> changeAt way change path here inner else none
      | some (.tables earlier last) => .tables earlier <$> changeAt way change path .header last
      | some _ => none
    return entries.put key inner

/-- Adds a key. If it is the end of a dotted key, its table has to be one defined by dotted keys. -/
def add (path : List String) (key : String) (value : Value) (here : Origin) (entries : Entries) :
    Option Entries :=
  changeAt .dotted (fun origin inner =>
    if (inner.lookup key).isSome ∨ (path ≠ [] ∧ origin ≠ .dotted) then none
    else some (inner ++ [(key, value)])) path here entries

/-- Opens the table of a header. It may exist if nothing but headers of inner tables spoke of it. -/
def openTable (path : List String) (key : String) (entries : Entries) : Option Entries :=
  changeAt .implied (fun _ inner =>
    match inner.lookup key with
    | none => some (inner.put key (.table .header []))
    | some (.table .implied t) => some (inner.put key (.table .header t))
    | some _ => none) path .header entries

/-- Opens one more table under a header in double brackets. -/
def openElement (path : List String) (key : String) (entries : Entries) : Option Entries :=
  changeAt .implied (fun _ inner =>
    match inner.lookup key with
    | none => some (inner.put key (.tables [] []))
    | some (.tables earlier last) => some (inner.put key (.tables (last :: earlier) []))
    | some _ => none) path .header entries

end Entries

end AmbisonicReverb.Toml
