import AmbisonicReverb.Reverb
import AmbisonicReverb.Simplex

/-!
# Fitting a decay curve

Absorption and damping are fitted to a target curve of decay times by two searches, each in one
variable: the absorption for which the longest decay time is the longest of the target, and then the
damping for which the slope of the decay times over log-frequency, between the lowest and the
highest band, is that of the target. Each trial publishes parameters and measures again. A stage
repeats its simplex search from the last result and stops when the error is small or no longer
improves.

Absorption stays above the value whose Sabine time is four times the longest target time, so that
the decay of every trial can be measured.
-/

namespace AmbisonicReverb

namespace Fit

structure Options (β : Type) where
  /-- The number of searches in each stage. -/
  rounds : Nat
  /-- The limit for the variance of the errors of a simplex. -/
  tolerance : β
  /-- The size of the first simplex. -/
  step : β
  checkEvery : Nat
  /-- The number of trials in each search. -/
  budget : Nat

def Options.default {β : Type} [Scalar β] : Options β where
  rounds := 100
  tolerance := 1.0e-6
  step := 0.1
  checkEvery := 5
  budget := 40

structure Report (α β : Type) where
  absorption : α
  damping : α
  absorptionError : β
  /-- Absent when there is a single band, which has no slope. -/
  dampingError : Option β
  /-- The decay times measured with the fitted parameters. -/
  measured : Array α
  /-- The number of searches in both stages. -/
  rounds : Nat
  /-- How the last search ended. -/
  status : Simplex.Status

inductive Error
  | config (e : ConfigError)
  /-- The room and the target leave no range for the absorption. -/
  | undefinedRange
deriving DecidableEq

/-- What is fitted: something that takes revised parameters, and whose decay times are measured. -/
structure Subject (σ α : Type) where
  update : (Parameters α → Parameters α) → σ → σ
  measure : StateM σ (Option (Array α))

/-! ## Errors of a trial -/

section

variable {α : Type} [Elementary α]

/-- The longest of the times, ignoring NaN. -/
def longest (times : Array α) : α :=
  match times.toList with
  | [] => 0
  | t :: rest => rest.foldl Scalar.maxNum t

/-- The positions of the first lowest and of the first highest band. -/
def extremes (bands : Array α) : Nat × Nat :=
  match bands.toList with
  | [] => (0, 0)
  | b :: rest =>
    ((Simplex.leader (· < ·) b (b :: rest)).1, (Simplex.leader (fun x y => y < x) b (b :: rest)).1)

/-- The change of the times over the logarithm of the frequency, from band `lo` to band `hi`. -/
def slope (bands times : Array α) (lo hi : Nat) : α :=
  let span := Elementary.log (bands.getD hi 0 / bands.getD lo 0)
  if 0 < span then (times.getD hi 0 - times.getD lo 0) / span else 0

variable {β : Type} [Elementary β] [Widening α β]

/-- The error of what cannot be measured or compared. -/
def unmeasurable : β := 1.0e6

/-- The squared error, relative to the target unless that is nearly zero. -/
def squaredError (measured target : α) : β :=
  let difference : β := widen (measured - target)
  let error :=
    if 1.0e-6 < Scalar.abs target then
      let share := difference / widen target
      share * share
    else difference * difference
  if Scalar.isFinite error then error else unmeasurable

end

/-! ## Stages -/

/-- Where a stage stands. -/
structure Progress (κ ν : Type) where
  value : κ
  error : ν
  rounds : Nat
  status : Simplex.Status

section

variable {κ ν σ : Type} [Scalar κ] [Scalar ν]

/-- The error at which a stage is done. -/
def smallError : ν := 5.0e-5

/-- The relative improvement below which a stage ends. -/
def smallImprovement : ν := 1.0e-9

/-- Searches from the last value until the error is small or does not improve. -/
def searchRounds (error : κ → StateM σ ν) (settings : Simplex.Settings κ ν) (lower upper : κ) :
    (rounds : Nat) → Progress κ ν → StateM σ (Progress κ ν)
  | 0, p => pure p
  | rounds + 1, p => do
    if p.error < smallError then
      return p
    let found ← Simplex.minimise (fun x => error (x.getD 0 0)) settings #[p.value]
    let p := { p with rounds := p.rounds + 1, status := found.status }
    if found.status = .invalidInput then
      return p
    let candidate := Scalar.clamp lower upper (found.point.getD 0 0)
    let candidateError ← error candidate
    let improvement := if 0 < p.error then (p.error - candidateError) / p.error else 0
    let p :=
      if candidateError < p.error then { p with value := candidate, error := candidateError } else p
    if improvement < smallImprovement then
      return p
    searchRounds error settings lower upper rounds p

/-- One stage: the error at the starting value brought into range, at most `limit` rounds, and a
last trial that leaves the best value published. -/
def stage (error : κ → StateM σ ν) (settings : Simplex.Settings κ ν) (limit : Nat)
    (start lower upper : κ) (rounds : Nat) (status : Simplex.Status) : StateM σ (Progress κ ν) := do
  let value := Scalar.clamp lower upper start
  let first ← error value
  let p ← searchRounds error settings lower upper limit ⟨value, first, rounds, status⟩
  let _ ← error p.value
  return p

end

def Options.settings {β : Type} (o : Options β) : Simplex.Settings β β where
  tolerance := o.tolerance
  step := #[o.step]
  checkEvery := o.checkEvery
  budget := o.budget

/-! ## The fit -/

section

variable {α β : Type} [Elementary α] [Elementary β] [Widening α β]

/-- The least absorption of a trial. -/
def leastAbsorption (room : Room α) (longestTarget : α) : β :=
  let fullyAbsorbing := room.sabineTime 1
  let lower : β :=
    if 0 < longestTarget ∧ 0 < fullyAbsorbing then widen (fullyAbsorbing / (4.0 * longestTarget))
    else 0
  Scalar.clamp 1.0e-4 1 lower

/-- The largest damping of a trial. -/
def maxDamping : β := 0.999

/-- What a fit is after. -/
structure Goal (α β : Type) where
  bands : Array α
  /-- The positions of the lowest and of the highest band. -/
  lowest : Nat
  highest : Nat
  /-- The longest decay time. -/
  longest : α
  slope : α
  /-- The least absorption of a trial. -/
  least : β

def Goal.ofCurve (bands targets : Array α) (room : Room α) : Goal α β :=
  let longestTarget := Fit.longest targets
  let (lo, hi) := extremes bands
  { bands
    lowest := lo
    highest := hi
    longest := longestTarget
    slope := Fit.slope bands targets lo hi
    least := leastAbsorption room longestTarget }

variable {σ : Type} (subject : Subject σ α) (options : Options β) (goal : Goal α β)

/-- Publishes revised parameters whose decay time is taken from the room, and measures. -/
def trial (revise : Parameters α → Parameters α) : StateM σ (Option (Array α)) := do
  modify (subject.update fun p => { revise p with decayTime := 0 })
  subject.measure

/-- A trial of an absorption, and how far the longest decay time is from that of the target. -/
def absorptionError (absorption : β) : StateM σ β := do
  let absorption := narrow (Scalar.clamp goal.least 1 absorption)
  match ← trial subject fun p => { p with absorption } with
  | some times => return squaredError (longest times) goal.longest
  | none => return unmeasurable

/-- A trial of a damping, and how far the slope of the decay times is from that of the target. -/
def slopeError (damping : β) : StateM σ β := do
  let damping := narrow (Scalar.clamp 0 maxDamping damping)
  match ← trial subject fun p => { p with damping } with
  | some times => return squaredError (slope goal.bands times goal.lowest goal.highest) goal.slope
  | none => return unmeasurable

/-- The first stage searches the absorption. -/
def absorptionStage (start : Parameters α) : StateM σ (Progress β β) :=
  stage (absorptionError subject goal) options.settings options.rounds (widen start.absorption)
    goal.least 1 0 .converged

/-- The second stage searches the damping. A single band has no slope and leaves it out. -/
def dampingStage (start : Parameters α) (first : Progress β β) :
    StateM σ (Option (Progress β β)) :=
  if 2 ≤ goal.bands.size then
    some <$> stage (slopeError subject goal) options.settings options.rounds (widen start.damping)
      0 maxDamping first.rounds first.status
  else pure none

/-- The last trial is that of the fitted parameters. -/
def conclude (start : Parameters α) (first : Progress β β) (second : Option (Progress β β)) :
    StateM σ (Report α β) := do
  let absorption := narrow first.value
  let damping := narrow <| match second with
    | some p => p.value
    | none => widen start.damping
  let measured ← trial subject fun p => { p with absorption, damping }
  let last := second.getD first
  return {
    absorption
    damping
    absorptionError := first.error
    dampingError := second.map (·.error)
    measured := measured.getD (Array.replicate goal.bands.size Decay.unmeasured)
    rounds := last.rounds
    status := last.status }

/-- Both stages, one after the other. -/
def stages (start : Parameters α) : StateM σ (Report α β) := do
  let first ← absorptionStage subject options goal start
  let second ← dampingStage subject options goal start first
  conclude subject goal start first second

/-- Fits the parameters `start` to a target curve. -/
def run (bands targets : Array α) (start : Parameters α) :
    Except Error (StateM σ (Report α β)) :=
  let goal : Goal α β := .ofCurve bands targets start.room
  if Scalar.isNaN goal.least then .error .undefinedRange
  else .ok (stages subject options goal start)

end

end Fit

namespace Reverb

variable {α β : Type} [Elementary α] [Elementary β] [Widening α β]

/-- A reverb, measured in the given bands. -/
@[specialize] def subject (bands : Array α) : Fit.Subject (Reverb α β) α where
  update revise r := r.update revise
  measure r := r.bandTimes bands

/-- The usual options, with the number of rounds that the configuration gives. -/
def fitOptions (r : Reverb α β) : Fit.Options β :=
  { Fit.Options.default with rounds := r.config.fitRounds }

/-- Fits the reverb that a state holds to the target curve of its configuration. -/
@[specialize] def fitWithin {σ : Type} (subject : Fit.Subject σ α) (reverb : σ → Reverb α β)
    (options : Fit.Options β) (s : σ) : Except Fit.Error (Fit.Report α β) × σ :=
  let r := reverb s
  if ¬ r.isConfigured then (.error (.config .notConfigured), s)
  else if r.config.bands.isEmpty then (.error (.config .emptyTargetCurve), s)
  else
    match Fit.run subject options r.config.bands r.config.bandTimes r.parameters with
    | .error e => (.error e, s)
    | .ok fitting =>
      let (report, s) := fitting s
      (.ok report, s)

/-- Fits absorption and damping to the target curve of the configuration. The fitted parameters
stay published. -/
@[specialize] def fit (r : Reverb α β) (options : Fit.Options β) :
    Except Fit.Error (Fit.Report α β × Reverb α β) :=
  let (result, r) := fitWithin (subject r.config.bands) id options r
  result.map (·, r)

end Reverb

end AmbisonicReverb
