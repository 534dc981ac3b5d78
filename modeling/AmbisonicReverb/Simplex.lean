import AmbisonicReverb.Scalar

/-!
# Simplex search

A search for the minimum of a function of several variables without derivatives. A simplex of
`n + 1` points moves through the space by replacing its worst vertex:

* reflect it at the centroid of the others; when this is a new best, try to go twice as far;
* when it is no good, contract halfway to the centroid, from the better of the two sides;
* when this does not help either, shrink the whole simplex around its best vertex.

Now and then the variance of the vertex values is compared with a limit. After that each coordinate
of the best vertex is nudged both ways; a lower neighbour starts the search again around it, with a
small simplex. The search stops when its budget of evaluations is used up.

The objective may keep a state of its own, which is threaded through in the order of evaluation.
Coordinates and values may be of different types.
-/

namespace AmbisonicReverb.Simplex

inductive Status
  /-- The search ended before its budget. -/
  | converged
  /-- The settings make no sense. -/
  | invalidInput
  /-- The budget was used up first. -/
  | notConverged
deriving DecidableEq, Repr

def Status.code : Status → Nat
  | converged => 0
  | invalidInput => 1
  | notConverged => 2

def Status.name : Status → String
  | converged => "Converged"
  | invalidInput => "InvalidInput"
  | notConverged => "NotConverged"

structure Settings (κ ν : Type) where
  /-- The limit for the variance of the vertex values. -/
  tolerance : ν
  /-- The size of the first simplex along each coordinate. -/
  step : Array κ
  /-- The number of moves between two looks at the variance. -/
  checkEvery : Nat
  /-- The number of evaluations after which the search gives up. -/
  budget : Nat

/-- What a search found: the point, its value, and how the search went. -/
structure Minimum (κ ν : Type) where
  point : Array κ
  value : ν
  evaluations : Nat
  restarts : Nat
  status : Status

/-- A point and the value of the objective there. -/
structure Vertex (κ ν : Type) where
  point : Array κ
  value : ν

/-- A function to be minimised, with a state of its own. -/
abbrev Objective (σ κ ν : Type) : Type := Array κ → σ → ν × σ

/-- A computation that evaluates the objective, counts the evaluations, and keeps its state. -/
abbrev Search (σ : Type) : Type → Type := StateM (Nat × σ)

variable {σ κ ν : Type}

/-- The objective at a point. -/
def evaluate (f : Objective σ κ ν) (point : Array κ) : Search σ (Vertex κ ν) :=
  fun (count, s) => let (value, s) := f point s; (⟨point, value⟩, (count + 1, s))

/-- The number of evaluations so far. -/
def evaluations : Search σ Nat := fun (count, s) => (count, (count, s))

/-! ## Vertices -/

/-- The first position at which `better` prefers an entry to all entries before it and to the
first, and the entry itself. -/
def leader (better : ν → ν → Bool) (start : ν) (values : List ν) : Nat × ν :=
  (values.foldl (fun (i, best) v =>
    (i + 1, if better v best.2 then (i, v) else best)) (0, (0, start))).2

/-- Position and value of the first lowest vertex. -/
def lowest [Scalar ν] (vertices : Array (Vertex κ ν)) : Nat × ν :=
  match vertices.toList.map (·.value) with
  | [] => (0, 0)
  | v :: rest => leader (· < ·) v (v :: rest)

/-- Position of the first highest vertex. -/
def highest [Scalar ν] (vertices : Array (Vertex κ ν)) : Nat :=
  match vertices.toList.map (·.value) with
  | [] => 0
  | v :: rest => (leader (fun a b => b < a) v (v :: rest)).1

section

variable [Scalar κ]

/-- The point `base + t * (towards - from)`. -/
def travel (base : Array κ) (t : κ) (towards origin : Array κ) : Array κ :=
  Array.zipWith (fun b d => b + t * d) base (Array.zipWith (· - ·) towards origin)

/-- The mean of all vertices but one. -/
def centroid (vertices : Array (Vertex κ ν)) (without : Array κ) : Array κ :=
  without.mapIdx fun i w =>
    (vertices.foldl (fun sum v => sum + v.point.getD i 0) 0 - w) / Scalar.ofNat without.size

/-- The middle between a point and another. -/
def halfway (p q : Array κ) : Array κ := Array.zipWith (fun a b => 0.5 * (a + b)) p q

/-- The point with one coordinate moved. -/
def nudge (point : Array κ) (i : Nat) (d : κ) : Array κ := point.modify i (· + d)

end

/-- The sum of the squared deviations of the values from their mean. -/
def deviation [Scalar ν] (vertices : Array (Vertex κ ν)) : ν :=
  let mean := vertices.foldl (fun sum v => sum + v.value) 0 / Scalar.ofNat vertices.size
  vertices.foldl (fun sum v => sum + (v.value - mean) * (v.value - mean)) 0

/-! ## Moves -/

/-- A simplex on its way. -/
structure Figure (κ ν : Type) where
  vertices : Array (Vertex κ ν)
  /-- Position and value of the best vertex. -/
  best : Nat × ν
  /-- The moves left until the variance is looked at. -/
  countdown : Nat

section

variable [Scalar κ] [Scalar ν]

def Figure.point (s : Figure κ ν) (i : Nat) : Array κ :=
  match s.vertices[i]? with
  | some v => v.point
  | none => #[]

def Figure.value (s : Figure κ ν) (i : Nat) : ν :=
  match s.vertices[i]? with
  | some v => v.value
  | none => 0

/-- Replaces a vertex, and takes note when it is a new best. -/
def Figure.replace (s : Figure κ ν) (i : Nat) (v : Vertex κ ν) : Figure κ ν :=
  { s with
    vertices := s.vertices.setIfInBounds i v
    best := if v.value < s.best.2 then (i, v.value) else s.best }

/-- Evaluates a list of points one after the other. -/
def evaluateAll (f : Objective σ κ ν) (points : List (Array κ)) :
    Search σ (Array (Vertex κ ν)) := do
  return (← points.mapM (evaluate f)).toArray

/-- What a move came to: one vertex replaced, or all of them. -/
inductive Move (κ ν : Type)
  | replaced (s : Figure κ ν)
  | shrunk (s : Figure κ ν)

/-- One move of the simplex. -/
def Figure.move (f : Objective σ κ ν) (s : Figure κ ν) : Search σ (Move κ ν) := do
  let worst := highest s.vertices
  let worstPoint := s.point worst
  let centre := centroid s.vertices worstPoint
  let reflected ← evaluate f (travel centre 1 centre worstPoint)
  if reflected.value < s.best.2 then
    let expanded ← evaluate f (travel centre 2.0 reflected.point centre)
    let chosen := if reflected.value < expanded.value then reflected else expanded
    return .replaced (s.replace worst chosen)
  let beaten := s.vertices.countP fun v => reflected.value < v.value
  if 1 < beaten then
    return .replaced (s.replace worst reflected)
  else if beaten = 0 then
    let contracted ← evaluate f (travel centre 0.5 worstPoint centre)
    if s.value worst < contracted.value then
      let centre := s.point s.best.1
      let vertices ← evaluateAll f (s.vertices.toList.map fun v => halfway v.point centre)
      return .shrunk { s with vertices, best := lowest vertices }
    else
      return .replaced (s.replace worst contracted)
  else
    let contracted ← evaluate f (travel centre 0.5 reflected.point centre)
    let chosen := if contracted.value ≤ reflected.value then contracted else reflected
    return .replaced (s.replace worst chosen)

/-- Moves until the values agree or the budget is used up. Each move takes an evaluation, so `fuel`
of the budget's size is enough. -/
def descend (f : Objective σ κ ν) (settings : Settings κ ν) (limit : ν) :
    (fuel : Nat) → Figure κ ν → Search σ (Figure κ ν)
  | 0, s => pure s
  | fuel + 1, s => do
    if settings.budget ≤ (← evaluations) then
      return s
    match ← s.move f with
    | .shrunk s => descend f settings limit fuel s
    | .replaced s =>
      let s := { s with countdown := s.countdown - 1 }
      let count ← evaluations
      if 0 < s.countdown ∨ settings.budget < count then
        descend f settings limit fuel s
      else
        let s := { s with countdown := settings.checkEvery }
        if deviation s.vertices ≤ limit then
          return s
        else
          descend f settings limit fuel s

/-! ## The search -/

/-- The size of a nudge, and of the simplex of a restart, as a share of the step. -/
def nudgeShare : κ := 0.001

/-- Looks for a neighbour lower than `value`, along one coordinate after the other and both ways.
Returns the neighbour, or the point at the end of the way. -/
def lookAround (f : Objective σ κ ν) (value : ν) :
    (coordinates : List (Nat × κ)) → (point : Array κ) → Search σ (Bool × Array κ)
  | [], point => pure (false, point)
  | (i, d) :: rest, point => do
    let ahead ← evaluate f (nudge point i d)
    if ahead.value < value then
      return (true, ahead.point)
    let behind ← evaluate f (nudge ahead.point i (-(2.0 * d)))
    if behind.value < value then
      return (true, behind.point)
    lookAround f value rest (nudge behind.point i d)

/-- The vertices of a simplex at `start`: each coordinate moved by its step, and `start` itself,
which is evaluated first. -/
def corners (f : Objective σ κ ν) (start : Array κ) (steps : List (Nat × κ)) :
    Search σ (Array (Vertex κ ν)) := do
  let last ← evaluate f start
  let others ← evaluateAll f (steps.map fun (i, d) => nudge start i d)
  return others.push last

/-- Searches from `start` with steps scaled by `scale`, and again from any lower neighbour of the
end. Each search takes an evaluation at least, so `fuel` beyond the budget is enough. -/
def searchFrom (f : Objective σ κ ν) (settings : Settings κ ν) :
    (fuel : Nat) → (start : Array κ) → (scale : List (Nat × κ)) → (countdown restarts : Nat) →
    Search σ (Minimum κ ν)
  | 0, start, _, _, restarts => do
    return ⟨start, 0, ← evaluations, restarts, .notConverged⟩
  | fuel + 1, start, scale, countdown, restarts => do
    let vertices ← corners f start scale
    let limit := settings.tolerance * Scalar.ofNat start.size
    let s ← descend f settings limit settings.budget ⟨vertices, lowest vertices, countdown⟩
    let point := s.point s.best.1
    let value := s.value s.best.1
    let count ← evaluations
    if settings.budget < count then
      return ⟨point, value, count, restarts, .notConverged⟩
    let nudges := (List.range start.size).map fun i => (i, settings.step.getD i 0 * nudgeShare)
    let (lower, point) ← lookAround f value nudges point
    if lower then
      searchFrom f settings fuel point nudges s.countdown (restarts + 1)
    else
      return ⟨point, value, ← evaluations, restarts, .converged⟩

/-- The settings with which a search from a point of `dimension` coordinates can start. -/
def Settings.isSound (settings : Settings κ ν) (dimension : Nat) : Bool :=
  !(settings.tolerance ≤ 0 || dimension < 1 || settings.checkEvery < 1 ||
    settings.step.size < dimension)

/-- Minimises the objective from a starting point. -/
def minimise (f : Objective σ κ ν) (settings : Settings κ ν) (start : Array κ) (state : σ) :
    Minimum κ ν × σ :=
  if settings.isSound start.size then
    let steps := (List.range start.size).map fun i => (i, settings.step.getD i 0)
    let (found, _, state) :=
      searchFrom f settings (settings.budget + 1) start steps settings.checkEvery 0 (0, state)
    (found, state)
  else (⟨Array.replicate start.size 0, 0, 0, 0, .invalidInput⟩, state)

end

end AmbisonicReverb.Simplex
