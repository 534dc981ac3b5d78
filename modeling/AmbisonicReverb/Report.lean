import AmbisonicReverb.Decimal.Notation
import AmbisonicReverb.Fit

/-!
# Reports

The tables in which measured decay times are shown: those of a measurement, and those before and
after a fit. Each line is given without its line end.
-/

namespace AmbisonicReverb

/-- What a measurement shows. -/
structure Measurement where
  parameters : Parameters Float32
  /-- The bands in the order of the request, each with its decay time. -/
  rows : List (Float32 × Float32)
  broadband : Float32

/-- What is known of one band of the target curve. -/
structure FittedBand where
  centre : Float32
  target : Float32
  before : Float32
  after : Float32

/-- What a fit shows. -/
structure Fitting where
  rows : List FittedBand
  report : Fit.Report Float32 Float

namespace Report

/-! ## Cells -/

def fixed (places : Nat) (x : Float32) : String := (binary32Value x).fixedText places

/-- A band is shown in whole hertz. -/
def hertz (x : Float32) : String := alignRight 8 (fixed 0 x)

/-- A decay time is shown with three places. A negative one could not be measured. -/
def seconds (t : Float32) : String := if t < 0 then "   n/a" else alignRight 6 (fixed 3 t)

def row (cells : List String) : String := String.intercalate "  " cells

/-- The heading of a table: the column of bands, and columns of decay times. -/
def heading (columns : List String) : String :=
  row (alignRight 8 "band Hz" :: columns.map (alignRight 6))

/-! ## Lines -/

/-- What the decay times of a reverb depend on. -/
def roomLine (p : Parameters Float32) : String :=
  let metres (x : Float32) : String := (binary32Value x).shortestText .binary32
  let size := metres p.room.x ++ " x " ++ metres p.room.y ++ " x " ++ metres p.room.z
  "room " ++ size ++ " m, absorption " ++ fixed 3 p.absorption ++ ", damping " ++
    fixed 3 p.damping ++ ", target T60 " ++ fixed 3 p.targetTime ++ " s"

/-- What a fit came to. -/
def resultLines (r : Fit.Report Float32 Float) : List String :=
  let error (e : Float) : String := (binary64Value e).scientificText 2
  let slope := match r.dampingError with
    | some e => ", " ++ error e ++ " (slope)"
    | none => ""
  ["absorption = " ++ fixed 4 r.absorption,
    "damping    = " ++ fixed 4 r.damping,
    "residual   = " ++ error r.absorptionError ++ " (longest band)" ++ slope,
    "rounds     = " ++ toString r.rounds ++ " (last search: " ++ r.status.name ++ ")"]

end Report

open Report

def Measurement.lines (m : Measurement) : List String :=
  [roomLine m.parameters, heading ["T60 s"]] ++
  m.rows.map (fun (centre, t) => row [hertz centre, seconds t]) ++
  [row [alignRight 8 "broad", seconds m.broadband]]

def Fitting.lines (f : Fitting) : List String :=
  [heading ["target", "before", "after"]] ++
  f.rows.map (fun b => row [hertz b.centre, seconds b.target, seconds b.before, seconds b.after]) ++
  "" :: resultLines f.report

end AmbisonicReverb
