import Mathlib
import AmbisonicReverb.Proofs.Operations

/-!
# Requests to a busy reverb

Some requests never wait. They are answered also while an update holds the engine, and before there
is an engine at all: sources are added to the input block, the published parameters are read, and
whatever needs the engine is refused.

**Theorem (`refuses_of_reachable`).** What is refused has no effect at all. Nothing of a reverb
changes but its input block, and what a refused fragment leaves of that is silence. When the update
ends, its parameters are published and its networks derived from them, as if nothing had been asked.

* `Request.serve` — a request, its answer and what is left of the reverb.
* `Reverb.refusal` — the answer to a request without an engine. The reverb is only read for what
  was published before.
* `Reverb.Refuses` — what holds of a series of refused requests, from a step lemma for each kind
  (`Request.serve_of_refused`) by induction on the series.
* `Reverb.Reachable.whileUpdating` — an update with requests in the middle is nothing new for a
  reverb, so that its engine is up to date afterwards like any other.
-/

namespace AmbisonicReverb

/-- What can be asked of a reverb at any time. -/
inductive Request (α : Type)
  | config
  | parameters
  | addPointSource (direction : Direction α) (chunk : Array α) (gains : Sample α)
  | addDiffuse (chunk : Block α)
  | process (output : Block α)
  /-- The caller gives the buffer that the response is written to. -/
  | impulseResponse (buffer : Array α)
  | bandTimes (centres : Array α)
  | broadbandTime

/-- The answer, with the buffers that the caller gets back. -/
inductive Answer (α : Type)
  | config (config : Config α) (method : GainMethod)
  | parameters (parameters : Parameters α)
  | gains (gains : Sample α)
  | added
  | output (output : Block α)
  | response (written : Bool) (buffer : Array α)
  | times (times : Option (Array α))
  | time (time : Option α)

variable {α β : Type} [Elementary α] [Elementary β] [Widening α β]

/-- The answer to a request, and the reverb afterwards. -/
def Request.serve (r : Reverb α β) : Request α → Answer α × Reverb α β
  | config => (.config r.config r.method, r)
  | parameters => (.parameters r.parameters, r)
  | addPointSource direction chunk gains =>
    let (gains, r) := r.addPointSource direction chunk gains
    (.gains gains, r)
  | addDiffuse chunk => (.added, r.addDiffuse chunk)
  | process output =>
    let (output, r) := r.process output
    (.output output, r)
  | impulseResponse buffer =>
    match r.impulseResponse buffer.size with
    | (some response, r) => (.response true response, r)
    | (none, r) => (.response false buffer, r)
  | bandTimes centres =>
    let (times, r) := r.bandTimes centres
    (.times times, r)
  | broadbandTime =>
    let (time, r) := r.broadbandTime
    (.time time, r)

namespace Reverb

/-- Serves one request after the other. -/
def serveAll (r : Reverb α β) : List (Request α) → List (Answer α) × Reverb α β
  | [] => ([], r)
  | q :: requests =>
    let (answer, r) := q.serve r
    let (answers, r) := r.serveAll requests
    (answer :: answers, r)

/-- The answer without an engine: buffers come back as they are, and nothing was measured. -/
def refusal (r : Reverb α β) : Request α → Answer α
  | .config => .config r.config r.method
  | .parameters => .parameters r.parameters
  | .addPointSource direction chunk gains => .gains (r.addPointSource direction chunk gains).1
  | .addDiffuse _ => .added
  | .process output => .output output
  | .impulseResponse buffer => .response false buffer
  | .bandTimes _ => .times none
  | .broadbandTime => .time none

/-- What becomes of a series of requests that are all refused. -/
structure Refuses (r : Reverb α β) (requests : List (Request α)) : Prop where
  answers : (r.serveAll requests).1 = requests.map r.refusal
  /-- Only the input block changes. -/
  state : (r.serveAll requests).2 = { r with input := (r.serveAll requests).2.input }
  /-- A refused fragment leaves silence in the input block. -/
  silent : ∀ earlier output, requests = earlier ++ [.process output] →
    (r.serveAll requests).2.input = .silent r.input.size
  /-- What was added before a refused fragment makes no difference after it. -/
  dropped : ∀ earlier output later, requests = earlier ++ .process output :: later →
    (r.serveAll requests).2 = ({ r with input := .silent r.input.size }.serveAll later).2

end Reverb

/-! ## One request -/

variable {r : Reverb α β}

omit [Elementary β] [Widening α β] in
theorem Block.size_mix (b c : Block α) : (b.mix c).size = b.size := Array.size_mapIdx

/-- A refused request changes the input block, and not its size. -/
theorem Request.serve_of_refused (h : r.engine? = none) (q : Request α) :
    ∃ input : Block α, q.serve r = (r.refusal q, { r with input }) ∧ input.size = r.input.size := by
  cases q with
  | config => exact ⟨r.input, rfl, rfl⟩
  | parameters => exact ⟨r.input, rfl, rfl⟩
  | addPointSource direction chunk gains =>
    exact ⟨(r.addPointSource direction chunk gains).2.input, rfl, Block.size_mix _ _⟩
  | addDiffuse chunk => exact ⟨r.input.mix chunk, rfl, Block.size_mix _ _⟩
  | process output =>
    refine ⟨r.input.clear, ?_, Array.size_replicate⟩
    simp only [serve, Reverb.process, h]
    rfl
  | impulseResponse buffer =>
    refine ⟨r.input, ?_, rfl⟩
    simp only [serve, Reverb.impulseResponse, h]
    rfl
  | bandTimes centres =>
    refine ⟨r.input, ?_, rfl⟩
    simp only [serve, Reverb.bandTimes, Reverb.measure, h]
    rfl
  | broadbandTime =>
    refine ⟨r.input, ?_, rfl⟩
    simp only [serve, Reverb.broadbandTime, Reverb.measure, h]
    rfl

/-- Serving a request changes a reverb in its own steps only. -/
theorem Request.steps_serve (r : Reverb α β) (q : Request α) :
    Relation.ReflTransGen Reverb.Step r (q.serve r).2 := by
  cases q with
  | config => exact .refl
  | parameters => exact .refl
  | addPointSource direction chunk gains => exact .single (.addPointSource r direction chunk gains)
  | addDiffuse chunk => exact .single (.addDiffuse r chunk)
  | process output => exact .single (.process r output)
  | impulseResponse buffer =>
    have hserve : ((impulseResponse buffer).serve r).2 = (r.impulseResponse buffer.size).2 := by
      simp only [serve]
      rcases r.impulseResponse buffer.size with ⟨_ | response, served⟩ <;> rfl
    rw [hserve]
    exact .single (.impulseResponse r buffer.size)
  | bandTimes centres =>
    exact .single (.measure r fun response sampleRate =>
      centres.map fun centre => Decay.bandTime response centre sampleRate)
  | broadbandTime => exact .single (.measure r Decay.time)

namespace Reverb

omit [Elementary β] [Widening α β] in
/-- The input block does not matter to a refusal. -/
theorem refusal_with_input (r : Reverb α β) (input : Block α) :
    { r with input }.refusal = r.refusal := by
  funext q
  cases q <;> rfl

/-! ## A series of requests -/

theorem steps_serveAll (r : Reverb α β) (requests : List (Request α)) :
    Relation.ReflTransGen Step r (r.serveAll requests).2 := by
  induction requests generalizing r with
  | nil => exact .refl
  | cons q requests ih => exact (q.steps_serve r).trans (ih _)

theorem serveAll_append (r : Reverb α β) (earlier later : List (Request α)) :
    r.serveAll (earlier ++ later) =
      ((r.serveAll earlier).1 ++ ((r.serveAll earlier).2.serveAll later).1,
        ((r.serveAll earlier).2.serveAll later).2) := by
  induction earlier generalizing r with
  | nil => rfl
  | cons q earlier ih => simp only [List.cons_append, serveAll, ih]

theorem serveAll_of_refused (h : r.engine? = none) (requests : List (Request α)) :
    ∃ input : Block α, r.serveAll requests = (requests.map r.refusal, { r with input }) ∧
      input.size = r.input.size := by
  induction requests generalizing r with
  | nil => exact ⟨r.input, rfl, rfl⟩
  | cons q requests ih =>
    obtain ⟨first, hfirst, hsize⟩ := q.serve_of_refused h
    have hheld : { r with input := first }.engine? = none := h
    obtain ⟨input, hrest, hsize'⟩ := ih hheld
    refine ⟨input, ?_, hsize'.trans hsize⟩
    simp only [serveAll, hfirst, hrest, refusal_with_input, List.map_cons]

/-- **What is refused has no effect.** -/
theorem refuses_of_refused (h : r.engine? = none) (requests : List (Request α)) :
    r.Refuses requests := by
  have hdropped : ∀ earlier output later, requests = earlier ++ .process output :: later →
      (r.serveAll requests).2 = ({ r with input := .silent r.input.size }.serveAll later).2 := by
    rintro earlier output later rfl
    obtain ⟨input, hearlier, hsize⟩ := serveAll_of_refused h earlier
    have hheld : { r with input }.engine? = none := h
    have hprocess : (Request.process output).serve { r with input } =
        (.output output, { r with input := .silent r.input.size }) := by
      simp only [Request.serve, Reverb.process, hheld, Block.clear, hsize]
    rw [serveAll_append, hearlier]
    simp only [serveAll, hprocess]
  obtain ⟨input, hserved, -⟩ := serveAll_of_refused h requests
  constructor
  case answers => rw [hserved]
  case state => rw [hserved]
  case dropped => exact hdropped
  case silent =>
    intro earlier output hrequests
    rw [hdropped earlier output [] hrequests]
    rfl

/-! ## During an update -/

/-- An update leads to a reachable state again, whatever is asked in the meantime. -/
theorem Reachable.whileUpdating {c : Config α} (h : Reachable c r) (requests : List (Request α))
    (revise : Parameters α → Parameters α) :
    Reachable c (r.whileUpdating (·.serveAll requests) revise).2 := by
  obtain ⟨start, hnew, hsteps⟩ := h
  exact ⟨start, hnew, hsteps.trans (steps_whileUpdating (steps_serveAll _ requests) revise)⟩

/-- **All or nothing.** Without an engine, or while an update holds it, a reverb in any state that
it can reach answers any series of requests by refusals, and changes nothing but its input block. In
the end the update publishes its parameters and derives the engine from them: the engine matches
these as one that is made anew, and the parameters that were published before. -/
theorem refuses_of_reachable {c : Config α} (h : Reachable c r) (requests : List (Request α))
    (revise : Parameters α → Parameters α) :
    (r.engine? = none → r.Refuses requests) ∧ { r with busy := true }.Refuses requests ∧
      r.whileUpdating (·.serveAll requests) revise =
        (requests.map r.refusal,
          { r with
            parameters := revise r.parameters
            engine := r.engine.map (·.derive (revise r.parameters))
            input := ({ r with busy := true }.serveAll requests).2.input }) ∧
      ∀ e, (r.whileUpdating (·.serveAll requests) revise).2.engine = some e →
        e.Matches c r.method (revise r.parameters) := by
  have hheld : { r with busy := true }.engine? = none := rfl
  have hrefuses := refuses_of_refused hheld requests
  have hrefusal : { r with busy := true }.refusal = r.refusal := by
    funext q
    cases q <;> rfl
  have hupdated : r.whileUpdating (·.serveAll requests) revise =
      (requests.map r.refusal,
        { r with
          parameters := revise r.parameters
          engine := r.engine.map (·.derive (revise r.parameters))
          input := ({ r with busy := true }.serveAll requests).2.input }) := by
    unfold whileUpdating
    simp only
    rw [hrefuses.answers, hrefuses.state, hrefusal]
    rfl
  refine ⟨fun hnone => refuses_of_refused hnone requests, hrefuses, hupdated, fun e he => ?_⟩
  have hcurrent := current_of_reachable (h.whileUpdating requests revise)
  have hengine := (hcurrent.engine e he).matches hcurrent.order_ne_zero
  rwa [hupdated] at hengine

/-- Requests that come while the wall of the small room is exchanged. -/
noncomputable def smallRequests : List (Request ℝ) :=
  [.addDiffuse ⟨#[.pressure 1]⟩, .process (.silent 4), .impulseResponse #[1, 1], .parameters,
    .addPointSource ⟨1, 0, 0⟩ #[1] 0, .broadbandTime]

theorem refuses_of_reachable_smallRequests : ∃ r : Reverb ℝ ℝ, Reachable smallRoom r ∧
    (r.engine? = none → r.Refuses smallRequests) ∧
      { r with busy := true }.Refuses smallRequests ∧
      r.whileUpdating (·.serveAll smallRequests) ({ · with damping := 1 }) =
        (smallRequests.map r.refusal,
          { r with
            parameters := { r.parameters with damping := 1 }
            engine := r.engine.map (·.derive { r.parameters with damping := 1 })
            input := ({ r with busy := true }.serveAll smallRequests).2.input }) ∧
      ∀ e, (r.whileUpdating (·.serveAll smallRequests) ({ · with damping := 1 })).2.engine =
          some e → e.Matches smallRoom r.method { r.parameters with damping := 1 } := by
  obtain ⟨e, -, hconfigure, -⟩ := configure_smallReverb
  have hreachable :
      Reachable smallRoom { smallReverb with engine := some e, input := .silent 16 } :=
    ⟨smallReverb, new_smallRoom, Relation.ReflTransGen.single (.configure hconfigure)⟩
  exact ⟨_, hreachable, refuses_of_reachable hreachable smallRequests ({ · with damping := 1 })⟩

end Reverb

end AmbisonicReverb
