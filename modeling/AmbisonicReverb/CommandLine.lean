import AmbisonicReverb.CommandLine.Arguments
import AmbisonicReverb.Config.Toml
import AmbisonicReverb.Decimal.Numeral
import AmbisonicReverb.Report

/-!
# The command line

Two tasks are offered for a configuration file: to measure the decay times of its reverb, and to fit
absorption and damping to its target curve. `run` is the whole program but for reading the file and
writing the answer: either a report or the reason why there is none.

How arguments and documents are parsed is left to `Parsers`. An argument parser may also answer by
itself, as many do when they are asked for help. That of `Parsers.standard` never does.
-/

namespace AmbisonicReverb.CommandLine

inductive Task
  /-- Measures in the given bands, or in the usual ones if none are given. -/
  | measure (bands : List Float32)
  /-- Fits to the target curve, with a number of rounds that replaces the configured one. -/
  | fit (rounds : Option Nat)

structure Request where
  sampleRate : Float32
  path : String
  task : Task

/-- Why there is no report. -/
inductive Failure
  | usage
  | unreadable (path : String)
  | config (e : ConfigError)
  | unmeasured
  | undefinedRange
deriving DecidableEq, Repr

namespace Failure

/-- Misuse ends with 2, and a fit that has no range to search in is aborted with 101. -/
def exitCode : Failure → UInt32
  | .usage => 2
  | .unreadable _ | .config _ | .unmeasured => 1
  | .undefinedRange => 101

def message : Failure → String
  | .usage =>
    "usage: measure CONFIG [-b BANDS] or fit CONFIG [-i ROUNDS], with [-s RATE] before or after"
  | .unreadable path => "could not read " ++ path
  | .config e => e.message
  | .unmeasured => "reverb busy, could not measure"
  | .undefinedRange => "the room and the target leave no range for the absorption"

end Failure

/-! ## Arguments -/

inductive OptionKey
  | sampleRate
  | bands
  | rounds
deriving DecidableEq, Repr

def OptionKey.names : OptionKey → OptionNames
  | .sampleRate => ⟨'s', "sample-rate"⟩
  | .bands => ⟨'b', "bands"⟩
  | .rounds => ⟨'i', "iterations"⟩

def defaultSampleRate : Float32 := 44100.0

/-- Numbers with commas between them. -/
def readBands? (value : String) : Option (List Float32) :=
  (value.splitOn ",").mapM Decimal.readFloat32?

/-- The arguments after the name of a task: a path that is not empty, and options. -/
def pathAndOptions (key : OptionKey) (arguments : List String) :
    Option (String × List (OptionKey × String)) := do
  let (path, options) ← singleOperand OptionKey.names [.sampleRate, key] arguments
  if path.isEmpty then none else return (path, options)

/-- The request in a list of arguments. The sample rate may be given before the name of the task,
or after it, which then counts. -/
def request? (arguments : List String) : Option Request := do
  let (general, rest) ← leadingOptions OptionKey.names [.sampleRate] arguments
  let generalRate ← atMostOne Decimal.readFloat32? (valuesOf .sampleRate general)
  let rate (options : List (OptionKey × String)) : Option Float32 := do
    let ownRate ← atMostOne Decimal.readFloat32? (valuesOf .sampleRate options)
    return (ownRate <|> generalRate).getD defaultSampleRate
  match rest with
  | "measure" :: rest =>
    let (path, options) ← pathAndOptions .bands rest
    let bands ← (valuesOf .bands options).mapM readBands?
    return ⟨← rate options, path, .measure bands.flatten⟩
  | "fit" :: rest =>
    let (path, options) ← pathAndOptions .rounds rest
    let rounds ← atMostOne Decimal.readCount? (valuesOf .rounds options)
    return ⟨← rate options, path, .fit rounds⟩
  | _ => none

/-! ## Parsers -/

/-- What becomes of a list of arguments. -/
inductive Parsed
  | request (r : Request)
  /-- The parser answers by itself. -/
  | answered (lines : List String)
  | misuse

/-- What the program leaves to parsers: the arguments, and the documents with configurations. -/
structure Parsers where
  arguments : List String → Parsed
  config? : String → Option (Config Float32)

def Parsers.standard : Parsers where
  arguments arguments :=
    match request? arguments with
    | some request => .request request
    | none => .misuse
  config? := Config.ofDocument?

/-! ## Tasks -/

/-- Octaves, measured where nothing else is asked for. -/
def usualBands : List Float32 := [125.0, 250.0, 500.0, 1000.0, 2000.0, 4000.0]

/-- The reverb of a configuration file at a sample rate. -/
def load (config? : String → Option (Config Float32)) (text : String) (sampleRate : Float32) :
    Except Failure (Reverb Float32 Float) :=
  Except.mapError Failure.config do
    let config ← Config.accept (config? text)
    let r ← Reverb.new config
    r.configure sampleRate maxBlockSize

/-- The bands to measure: those of the request, or of the configuration, or the usual ones. -/
def bandsFor (r : Reverb Float32 Float) (requested : List Float32) : List Float32 :=
  if ¬ requested.isEmpty then requested
  else if ¬ r.config.bands.isEmpty then r.config.bands.toList
  else usualBands

def measure (r : Reverb Float32 Float) (requested : List Float32) : Except Failure Measurement :=
  let bands := bandsFor r requested
  let (times, r) := r.bandTimes bands.toArray
  let (broadband, r) := r.broadbandTime
  match times, broadband with
  | some times, some broadband =>
    .ok ⟨r.parameters, bands.zip times.toList, broadband⟩
  | _, _ => .error .unmeasured

def Failure.ofFit : Fit.Error → Failure
  | .config e => .config e
  | .undefinedRange => .undefinedRange

def fit (r : Reverb Float32 Float) (rounds : Option Nat) : Except Failure Fitting := do
  let bands := r.config.bands.toList
  let targets := r.config.bandTimes.toList
  match r.bandTimes r.config.bands with
  | (none, _) => throw .unmeasured
  | (some before, r) =>
    let options := r.fitOptions
    let options := { options with rounds := rounds.getD options.rounds }
    let (report, _) ← Except.mapError Failure.ofFit (r.fit options)
    let times := targets.zip (before.toList.zip report.measured.toList)
    let rows := (bands.zip times).map fun (centre, target, before, after) =>
      FittedBand.mk centre target before after
    return ⟨rows, report⟩

/-- The lines of the report that a task asks for. -/
def Task.perform (r : Reverb Float32 Float) : Task → Except Failure (List String)
  | .measure bands => Measurement.lines <$> CommandLine.measure r bands
  | .fit rounds => Fitting.lines <$> CommandLine.fit r rounds

/-- Answers the arguments, given what the files hold that can be read. -/
def answer (parsers : Parsers) (read? : String → Option String) (arguments : List String) :
    Except Failure (List String) :=
  match parsers.arguments arguments with
  | .misuse => throw .usage
  | .answered lines => return lines
  | .request request => do
    let some text := read? request.path | throw (.unreadable request.path)
    request.task.perform (← load parsers.config? text request.sampleRate)

def run (read? : String → Option String) (arguments : List String) :
    Except Failure (List String) :=
  answer .standard read? arguments

/-- What is written to the standard output, beside what is logged: all lines of an answer, or
nothing. -/
def output : Except Failure (List String) → String
  | .ok lines => String.join (lines.map (· ++ "\n"))
  | .error _ => ""

def exitCode : Except Failure (List String) → UInt32
  | .ok _ => 0
  | .error failure => failure.exitCode

end AmbisonicReverb.CommandLine
