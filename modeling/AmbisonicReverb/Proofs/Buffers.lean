import Mathlib
import AmbisonicReverb.Proofs.ResponseLength

/-!
# Buffers of measurements

A response is measured in two buffers: one takes the response, and in the other one it is confined
to bands. Both are made when a reverb is configured, as long as the capacity of its engine. For each
measurement they are taken out of the engine, and put back afterwards.

A `Bench` is a reverb with these buffers. Their slices are checked, and what reaches beyond the end
of one leads to an overrun.

**Theorem (`buffers_fixed`).** There is no overrun, whatever is asked of a bench. Its buffers are as
long as the capacity says until the reverb is configured again, and each measurement analyses as
much of the response as the published parameters ask for and the buffers take. What they can ask for
is bounded.

* `Analysis.Computes` — with a slice as long as the response, an analysis stays within it.
* `Bench.Sound.measure` — so a measurement in buffers is `Reverb.measure`.
* `Bench.Sound.perform` — and all operations are those on the reverb (`Operation.perform`).
* `Bench.exists_trials` — a fit is a sequence of updates and measurements. What holds of them holds
  within a fit.
-/

namespace AmbisonicReverb

variable {α β γ : Type}

/-! ## Slices -/

section

variable {buffer values : Array α} {n : ℕ}

/-- The first `n` entries of a buffer, if it has as many. -/
def slice? (buffer : Array α) (n : ℕ) : Option (Array α) :=
  if n ≤ buffer.size then some (buffer.extract 0 n) else none

/-- The buffer after its first entries were written. -/
def overwrite (buffer values : Array α) : Array α :=
  values ++ buffer.extract values.size buffer.size

theorem slice?_eq (h : n ≤ buffer.size) : slice? buffer n = some (buffer.extract 0 n) := if_pos h

theorem size_slice (h : n ≤ buffer.size) : (buffer.extract 0 n).size = n := by
  rw [Array.size_extract]
  omega

theorem size_overwrite (h : values.size ≤ buffer.size) :
    (overwrite buffer values).size = buffer.size := by
  rw [overwrite, Array.size_append, Array.size_extract]
  omega

theorem overwrite_eq (h : values.size = buffer.size) : overwrite buffer values = values := by
  unfold overwrite
  rw [h, Array.extract_eq_empty_of_le (by omega), Array.append_empty]

end

/-! ## Analyses -/

/-- What is computed from a response at a sample rate, with a slice of the second buffer at hand.
Without an answer, the analysis went beyond that slice. -/
abbrev Analysis (α γ : Type) : Type := Array α → α → StateT (Array α) Option γ

namespace Analysis

/-- In a slice as long as the response, the analysis computes a function of the response. -/
def Computes (analyse : Analysis α γ) (f : Array α → α → γ) : Prop :=
  ∀ (response : Array α) (sampleRate : α) (scratch : Array α), scratch.size = response.size →
    ∃ scratch', analyse response sampleRate scratch = some (f response sampleRate, scratch') ∧
      scratch'.size = response.size

variable [Elementary α] [Elementary β] [Widening α β]

/-- The time over all frequencies needs no second buffer. -/
def broadband : Analysis α α := fun response sampleRate scratch =>
  some (Decay.time response sampleRate, scratch)

/-- The response is copied to the slice and confined to the band there. -/
def band (response : Array α) (sampleRate centre : α) : StateT (Array α) Option α :=
    fun scratch => do
  let slot ← slice? scratch response.size
  let confined := Decay.bandLimited (overwrite slot response) centre sampleRate
  return (Decay.time confined sampleRate, overwrite scratch confined)

def bands (centres : Array α) : Analysis α (Array α) := fun response sampleRate =>
  centres.mapM (band response sampleRate)

theorem computes_broadband : Computes (broadband (α := α)) Decay.time :=
  fun _ _ scratch hscratch => ⟨scratch, rfl, hscratch⟩

theorem exists_band (sampleRate centre : α) {response scratch : Array α}
    (h : scratch.size = response.size) :
    ∃ scratch', band response sampleRate centre scratch =
        some (Decay.bandTime response centre sampleRate, scratch') ∧
      scratch'.size = response.size := by
  have hslot := size_slice h.ge
  have hsize := Decay.size_bandLimited response centre sampleRate
  refine ⟨overwrite scratch (Decay.bandLimited response centre sampleRate), ?_, ?_⟩
  · unfold band
    rw [slice?_eq h.ge]
    show some (Decay.time (Decay.bandLimited (overwrite _ response) centre sampleRate) sampleRate,
      overwrite scratch (Decay.bandLimited (overwrite _ response) centre sampleRate)) = _
    rw [overwrite_eq hslot.symm]
    rfl
  · rw [size_overwrite (by omega), h]

/-- **The bands are measured one after the other in the same slice.** -/
theorem computes_bands (centres : Array α) :
    (bands centres).Computes fun response sampleRate =>
      centres.map fun centre => Decay.bandTime response centre sampleRate := by
  intro response sampleRate scratch hscratch
  have hlist : ∀ (l : List α) (scratch : Array α), scratch.size = response.size →
      ∃ scratch', l.mapM (band response sampleRate) scratch =
          some (l.map fun centre => Decay.bandTime response centre sampleRate, scratch') ∧
        scratch'.size = response.size := by
    intro l
    induction l with
    | nil => exact fun scratch hscratch => ⟨scratch, rfl, hscratch⟩
    | cons centre l ih =>
      intro scratch hscratch
      obtain ⟨first, hfirst, hsize⟩ := exists_band sampleRate centre hscratch
      obtain ⟨last, hlast, hsize'⟩ := ih first hsize
      refine ⟨last, ?_, hsize'⟩
      rw [List.mapM_cons]
      simp [bind, StateT.bind, hfirst, hlast, pure, StateT.pure]
  obtain ⟨scratch', hlast, hsize⟩ := hlist centres.toList scratch hscratch
  refine ⟨scratch', ?_, hsize⟩
  have hmap : (centres.map fun centre => Decay.bandTime response centre sampleRate) =
      (centres.toList.map fun centre => Decay.bandTime response centre sampleRate).toArray := by
    rw [← Array.toList_map]
  unfold bands
  dsimp only
  rw [Array.mapM_eq_mapM_toList, hmap]
  simp [Functor.map, StateT.map, hlast]

end Analysis

/-! ## Buffers -/

/-- One buffer takes the response, and the other one is for the bands. -/
structure Buffers (α : Type) where
  response : Array α
  band : Array α

namespace Buffers

/-- No buffers, or buffers that are taken out. -/
def empty : Buffers α := ⟨#[], #[]⟩

/-- Two buffers of a length. -/
def allocate [Zero α] (n : ℕ) : Buffers α := ⟨Array.replicate n 0, Array.replicate n 0⟩

structure SameSize (b b' : Buffers α) : Prop where
  response : b.response.size = b'.response.size
  band : b.band.size = b'.band.size

theorem SameSize.refl (b : Buffers α) : b.SameSize b := ⟨rfl, rfl⟩

theorem SameSize.trans {b b' b'' : Buffers α} (h : b''.SameSize b') (h' : b'.SameSize b) :
    b''.SameSize b := ⟨h.response.trans h'.response, h.band.trans h'.band⟩

variable [Scalar α] [Scalar β]

/-- Measures `length` samples of the response of an engine, and analyses them. -/
def run (b : Buffers α) (e : Engine α β) (length : ℕ) (analyse : Analysis α γ) :
    Option (γ × Buffers α × Engine α β) := do
  let target ← slice? b.response length
  let (samples, e) := e.impulseResponse target.size
  let scratch ← slice? b.band length
  let (answer, scratch) ← analyse samples e.sampleRate scratch
  return (answer, ⟨overwrite b.response samples, overwrite b.band scratch⟩, e)

theorem run_eq {b : Buffers α} {length : ℕ} (h : length ≤ b.response.size)
    (h' : length ≤ b.band.size) (e : Engine α β) (analyse : Analysis α γ) :
    b.run e length analyse =
      (analyse (e.impulseResponse length).1 e.sampleRate (b.band.extract 0 length)).map
        fun (answer, scratch) =>
          (answer, ⟨overwrite b.response (e.impulseResponse length).1, overwrite b.band scratch⟩,
            (e.impulseResponse length).2) := by
  have hrate : (e.impulseResponse length).2.sampleRate = e.sampleRate :=
    Engine.sampleRate_eq_of_rest_eq (Engine.rest_impulseResponse e length)
  unfold run
  rw [slice?_eq h, slice?_eq h']
  simp only [Option.bind_eq_bind, Option.bind_some, size_slice h, hrate]
  cases analyse (e.impulseResponse length).1 e.sampleRate (b.band.extract 0 length) <;> rfl

end Buffers

/-! ## Capacities -/

namespace Engine

variable [Scalar α] [Scalar β]

theorem capacity_measured (e : Engine α β) (i : ℕ) : (e.measured i).capacity = e.capacity := by
  induction i with
  | zero => rfl
  | succ i ih => exact ih

theorem capacity_impulseResponse (e : Engine α β) (n : ℕ) :
    (e.impulseResponse n).2.capacity = e.capacity := by
  rw [impulseResponse_eq]
  exact capacity_measured e n

variable [Widening α β]

theorem capacity_step (e : Engine α β) (s : Sample α) : (e.step s).2.capacity = e.capacity := by
  have hlowCut (s : Sample α) : (e.applyLowCut s).2.capacity = e.capacity := by
    unfold applyLowCut
    cases e.lowCut <;> rfl
  exact hlowCut _

theorem capacity_runOver (e : Engine α β) (samples : Array (Sample α)) :
    (runOver step e samples).2.capacity = e.capacity := by
  unfold runOver
  let motive (_ : ℕ) (state : Array (Sample α) × Engine α β) : Prop :=
    state.2.capacity = e.capacity
  refine Array.foldl_induction motive rfl fun i state hstate => ?_
  exact (capacity_step _ _).trans hstate

end Engine

section

variable [Elementary α] [Elementary β] [Widening α β]

/-- The operation makes a new engine. -/
def Operation.Reconfigures (r : Reverb α β) : Operation α β → Prop
  | .configure sampleRate fragment => ∃ r', r.configure sampleRate fragment = .ok r'
  | _ => False

namespace Reverb

variable {r : Reverb α β}

omit [Elementary α] [Elementary β] [Widening α β] in
theorem capacity?_with {e : Engine α β} (h : r.engine? = some e) {e' : Engine α β}
    (he' : e'.capacity = e.capacity) {input : Block α} :
    { r with engine := some e', input }.capacity? = r.capacity? := by
  unfold capacity?
  rw [engine_of_engine? h]
  exact congrArg some he'

theorem capacity?_update (r : Reverb α β) (revise : Parameters α → Parameters α) :
    (r.update revise).capacity? = r.capacity? :=
  Option.map_map ..

omit [Widening α β] in
theorem capacity?_measure (r : Reverb α β) (analyse : Array α → α → γ) :
    (r.measure analyse).2.capacity? = r.capacity? := by
  cases he : r.engine? with
  | none =>
    unfold Reverb.measure
    rw [he]
  | some e =>
    rw [measure_eq he]
    exact capacity?_with he (e.capacity_impulseResponse _)

theorem capacity?_applyAll (r : Reverb α β) (queue : List (ControlMessage α)) :
    (r.applyAll queue).2.capacity? = r.capacity? := by
  rw [applyAll_eq]
  induction queue generalizing r with
  | nil => rfl
  | cons m queue ih => exact (ih (r.apply m)).trans (capacity?_update r m.revise)

/-- A step is an operation, or somebody begins or ends to hold the engine. -/
theorem operation_of_step {r' : Reverb α β} (h : Step r r') :
    (∃ operation : Operation α β, operation.perform r = r') ∨ ∃ busy, r' = { r with busy } := by
  cases h with
  | @configure _ _ sampleRate fragment h =>
    refine .inl ⟨.configure sampleRate fragment, ?_⟩
    simp only [Operation.perform, h]
  | update _ revise => exact .inl ⟨.update revise, rfl⟩
  | applyAll _ queue => exact .inl ⟨.applyAll queue, rfl⟩
  | addPointSource _ direction chunk gains =>
    exact .inl ⟨.addPointSource direction chunk gains, rfl⟩
  | addDiffuse _ chunk => exact .inl ⟨.addDiffuse chunk, rfl⟩
  | process _ output => exact .inl ⟨.process output, rfl⟩
  | impulseResponse _ n => exact .inl ⟨.impulseResponse n, rfl⟩
  | measure _ analyse =>
    -- what is left does not depend on the analysis
    refine .inl ⟨.broadbandTime, ?_⟩
    show (r.measure Decay.time).2 = (r.measure analyse).2
    unfold Reverb.measure
    cases r.engine? <;> rfl
  | hold _ busy => exact .inr ⟨busy, rfl⟩

/-- Only a new engine has another capacity. -/
theorem capacity?_perform {operation : Operation α β} (h : ¬ operation.Reconfigures r) :
    (operation.perform r).capacity? = r.capacity? := by
  cases operation with
  | configure sampleRate fragment =>
    simp only [Operation.perform]
    cases hr' : r.configure sampleRate fragment with
    | ok r' => exact absurd ⟨r', hr'⟩ h
    | error _ => rfl
  | rederive => exact capacity?_update r id
  | update revise => exact capacity?_update r revise
  | apply m => exact capacity?_update r m.revise
  | applyAll queue => exact capacity?_applyAll r queue
  | addPointSource => rfl
  | addDiffuse => rfl
  | process output =>
    simp only [Operation.perform, Reverb.process]
    cases he : r.engine? with
    | none => rfl
    | some e => exact capacity?_with he (e.capacity_runOver _)
  | impulseResponse n =>
    simp only [Operation.perform]
    cases he : r.engine? with
    | none =>
      unfold Reverb.impulseResponse
      rw [he]
    | some e =>
      rw [impulseResponse_eq he]
      exact capacity?_with he (e.capacity_impulseResponse n)
  | bandTimes centres => exact capacity?_measure r _
  | broadbandTime => exact capacity?_measure r _
  | fit options =>
    let I (s : Reverb α β) : Prop := s.capacity? = r.capacity?
    exact fitWithin_invariant (I := I) (fun s revise hs => (capacity?_update s revise).trans hs)
      (fun s hs => (capacity?_measure s _).trans hs) options rfl

end Reverb

end

/-! ## Benches -/

/-- A reverb with the buffers of its engine. -/
structure Bench (α β : Type) where
  reverb : Reverb α β
  buffers : Buffers α
  /-- Something was read or written beyond the end of a buffer. -/
  overrun : Bool

namespace Bench

/-- A reverb that is not configured has no buffers. -/
def ofReverb (r : Reverb α β) : Bench α β := ⟨r, .empty, false⟩

/-- The length of the longest response that can be measured is that of the first buffer. -/
def capacity? (b : Bench α β) : Option ℕ := b.reverb.engine.map fun _ => b.buffers.response.size

/-- There was no overrun, and the buffers are as long as the capacity of the engine. -/
structure Sound (b : Bench α β) : Prop where
  overrun_eq : b.overrun = false
  response_size : ∀ n ∈ b.reverb.capacity?, b.buffers.response.size = n
  band_size : ∀ n ∈ b.reverb.capacity?, b.buffers.band.size = n

/-- A sound bench for some reverb, with buffers as long as those of another bench. -/
structure Follows (b : Bench α β) (r : Reverb α β) (b' : Bench α β) : Prop where
  reverb_eq : b'.reverb = r
  sound : b'.Sound
  sameSize : b'.buffers.SameSize b.buffers

section

variable {b : Bench α β}

theorem Sound.capacity?_eq (h : b.Sound) : b.capacity? = b.reverb.capacity? := by
  cases he : b.reverb.engine with
  | none => simp [Bench.capacity?, Reverb.capacity?, he]
  | some e =>
    have hcapacity : b.reverb.capacity? = some e.capacity := congrArg (Option.map _) he
    rw [hcapacity, Bench.capacity?, he]
    exact congrArg some (h.response_size e.capacity hcapacity)

theorem Sound.follows_self (h : b.Sound) : b.Follows b.reverb b := ⟨rfl, h, .refl _⟩

theorem Sound.follows (h : b.Sound) {r : Reverb α β} {buffers : Buffers α}
    (hcapacity : r.capacity? = b.reverb.capacity?) (hsize : buffers.SameSize b.buffers) :
    b.Follows r { b with reverb := r, buffers } where
  reverb_eq := rfl
  sound :=
    { overrun_eq := h.overrun_eq
      response_size := fun n hn => hsize.response.trans (h.response_size n (hcapacity ▸ hn))
      band_size := fun n hn => hsize.band.trans (h.band_size n (hcapacity ▸ hn)) }
  sameSize := hsize

end

variable [Elementary α] [Elementary β] [Widening α β]

/-- A measurement in the buffers. -/
def measure (b : Bench α β) (analyse : Analysis α γ) : Option γ × Bench α β :=
  match b.reverb.engine? with
  | none => (none, b)
  | some e =>
    let length := min (b.reverb.parameters.responseLength e.sampleRate) b.buffers.response.size
    match b.buffers.run e length analyse with
    | none => (none, { b with buffers := .empty, overrun := true })
    | some (answer, buffers, e) =>
      (some answer, { b with reverb := { b.reverb with engine := some e }, buffers })

def bandTimes (b : Bench α β) (centres : Array α) : Option (Array α) × Bench α β :=
  b.measure (.bands centres)

def broadbandTime (b : Bench α β) : Option α × Bench α β := b.measure .broadband

/-- A bench, measured in the given bands. -/
def subject (bands : Array α) : Fit.Subject (Bench α β) α where
  update revise b := { b with reverb := b.reverb.update revise }
  measure b := b.bandTimes bands

def fit (b : Bench α β) (options : Fit.Options β) :
    Except Fit.Error (Fit.Report α β) × Bench α β :=
  Reverb.fitWithin (subject b.reverb.config.bands) reverb options b

/-- An operation on the reverb of a bench. The buffers are made anew if it is configured, and used
if it is measured. -/
def perform (b : Bench α β) : Operation α β → Bench α β
  | .configure sampleRate fragment =>
    match b.reverb.configure sampleRate fragment with
    | .ok r => { b with reverb := r, buffers := .allocate (r.capacity?.getD 0) }
    | .error _ => b
  | .bandTimes centres => (b.bandTimes centres).2
  | .broadbandTime => b.broadbandTime.2
  | .fit options => (b.fit options).2
  | operation => { b with reverb := operation.perform b.reverb }

def performAll (b : Bench α β) (operations : List (Operation α β)) : Bench α β :=
  operations.foldl perform b

variable {b : Bench α β}

/-! ### Measurements -/

/-- The slice of the second buffer that an analysis gets. -/
def scratch (b : Bench α β) (e : Engine α β) : Array α :=
  b.buffers.band.extract 0 (b.reverb.analysedLength e)

omit [Elementary β] [Widening α β] in
/-- Both buffers take what is analysed. -/
theorem Sound.analysedLength_le (h : b.Sound) {e : Engine α β} (he : b.reverb.engine? = some e) :
    b.buffers.response.size = e.capacity ∧
      b.reverb.analysedLength e ≤ b.buffers.response.size ∧
      b.reverb.analysedLength e ≤ b.buffers.band.size := by
  have hcapacity : b.reverb.capacity? = some e.capacity :=
    congrArg (Option.map _) (Reverb.engine_of_engine? he)
  have hresponse := h.response_size _ hcapacity
  have hlength : b.reverb.analysedLength e ≤ e.capacity := min_le_right _ _
  exact ⟨hresponse, hlength.trans hresponse.ge, hlength.trans (h.band_size _ hcapacity).ge⟩

omit [Elementary β] [Widening α β] in
theorem Sound.size_scratch (h : b.Sound) {e : Engine α β} (he : b.reverb.engine? = some e) :
    (b.scratch e).size = b.reverb.analysedLength e :=
  size_slice (h.analysedLength_le he).2.2

omit [Widening α β] in
/-- In buffers that are long enough, all depends on the analysis. -/
theorem Sound.measure_eq (h : b.Sound) {e : Engine α β} (he : b.reverb.engine? = some e)
    (analyse : Analysis α γ) :
    b.measure analyse =
      match analyse (e.impulseResponse (b.reverb.analysedLength e)).1 e.sampleRate
        (b.scratch e) with
      | none => (none, { b with buffers := .empty, overrun := true })
      | some (answer, scratch) => (some answer,
        { b with
          reverb :=
            { b.reverb with engine := some (e.impulseResponse (b.reverb.analysedLength e)).2 }
          buffers :=
            ⟨overwrite b.buffers.response (e.impulseResponse (b.reverb.analysedLength e)).1,
              overwrite b.buffers.band scratch⟩ }) := by
  obtain ⟨hcapacity, hresponse, hband⟩ := h.analysedLength_le he
  have hlength : min (b.reverb.parameters.responseLength e.sampleRate) b.buffers.response.size =
      b.reverb.analysedLength e := by
    rw [hcapacity]
    rfl
  unfold Bench.measure scratch
  rw [he]
  dsimp only
  rw [hlength, Buffers.run_eq hresponse hband]
  cases analyse (e.impulseResponse (b.reverb.analysedLength e)).1 e.sampleRate
    (b.buffers.band.extract 0 (b.reverb.analysedLength e)) <;> rfl

omit [Widening α β] in
/-- **A measurement in buffers** is the measurement, and stays within the buffers. -/
theorem Sound.measure (h : b.Sound) {analyse : Analysis α γ} {f : Array α → α → γ}
    (hf : analyse.Computes f) :
    (b.measure analyse).1 = (b.reverb.measure f).1 ∧
      b.Follows (b.reverb.measure f).2 (b.measure analyse).2 := by
  cases he : b.reverb.engine? with
  | none =>
    unfold Bench.measure Reverb.measure
    rw [he]
    exact ⟨rfl, h.follows_self⟩
  | some e =>
    obtain ⟨-, hresponse, hband⟩ := h.analysedLength_le he
    have hsamples := e.size_impulseResponse (b.reverb.analysedLength e)
    obtain ⟨scratch, hanswer, hsize⟩ :=
      hf _ e.sampleRate (b.scratch e) ((h.size_scratch he).trans hsamples.symm)
    have hkept := Reverb.capacity?_measure b.reverb f
    rw [Reverb.measure_eq he] at hkept ⊢
    rw [h.measure_eq he, hanswer]
    exact ⟨rfl, h.follows hkept ⟨size_overwrite (by omega), size_overwrite (by omega)⟩⟩

/-! ### Operations -/

/-- **A fit in buffers** is the fit. -/
theorem Sound.fit (h : b.Sound) (options : Fit.Options β) :
    (b.fit options).1 =
        (Reverb.fitWithin (Reverb.subject b.reverb.config.bands) id options b.reverb).1 ∧
      b.Follows (Operation.perform b.reverb (.fit options)) (b.fit options).2 := by
  have halike : (Reverb.subject b.reverb.config.bands).Alike b.Follows
      (subject b.reverb.config.bands) := by
    constructor
    · rintro revise _ b' ⟨rfl, hsound, hsize⟩
      have hupdate := hsound.follows (Reverb.capacity?_update b'.reverb revise) (.refl b'.buffers)
      exact ⟨rfl, hupdate.sound, hsize⟩
    · rintro _ b' ⟨rfl, hsound, hsize⟩
      obtain ⟨hanswer, hmeasured⟩ := hsound.measure (Analysis.computes_bands _)
      exact ⟨hanswer.symm, hmeasured.reverb_eq, hmeasured.sound, hmeasured.sameSize.trans hsize⟩
  have hreverb : ∀ r b', b.Follows r b' → id r = b'.reverb := fun _ _ hb' => hb'.reverb_eq.symm
  exact (Fit.lockstep_fitWithin halike hreverb options b.reverb b h.follows_self).imp_left Eq.symm

/-- What keeps the engine keeps the buffers. -/
theorem Sound.follows_perform (h : b.Sound) {operation : Operation α β}
    (hkept : ¬ operation.Reconfigures b.reverb) :
    b.Follows (operation.perform b.reverb) (b.perform operation) := by
  have hcapacity := Reverb.capacity?_perform hkept
  cases operation with
  | configure sampleRate fragment =>
    simp only [perform, Operation.perform]
    cases hr' : b.reverb.configure sampleRate fragment with
    | ok r' => exact absurd ⟨r', hr'⟩ hkept
    | error _ => exact h.follows_self
  | bandTimes centres => exact (h.measure (Analysis.computes_bands centres)).2
  | broadbandTime => exact (h.measure Analysis.computes_broadband).2
  | fit options => exact (h.fit options).2
  | _ => exact h.follows hcapacity (.refl _)

/-- **Operations on a bench** are those on its reverb, and there is no overrun. -/
theorem Sound.perform (h : b.Sound) (operation : Operation α β) :
    (b.perform operation).reverb = operation.perform b.reverb ∧ (b.perform operation).Sound := by
  by_cases hnew : operation.Reconfigures b.reverb
  · cases operation with
    | configure sampleRate fragment =>
      obtain ⟨r', hr'⟩ := hnew
      have hbench : b.perform (.configure sampleRate fragment) =
          { b with reverb := r', buffers := .allocate (r'.capacity?.getD 0) } := by
        simp only [Bench.perform, hr']
      have hreverb : Operation.perform b.reverb (.configure sampleRate fragment) = r' := by
        simp only [Operation.perform, hr']
      rw [hbench, hreverb]
      refine ⟨rfl, h.overrun_eq, fun n hn => ?_, fun n hn => ?_⟩
      · exact Array.size_replicate.trans (congrArg (Option.getD · 0) hn)
      · exact Array.size_replicate.trans (congrArg (Option.getD · 0) hn)
    | _ => exact hnew.elim
  · have hfollows := h.follows_perform hnew
    exact ⟨hfollows.reverb_eq, hfollows.sound⟩

/-- **A fit is a sequence of updates and measurements.** -/
theorem exists_trials (b : Bench α β) (options : Fit.Options β) :
    ∃ trials : List (Operation α β),
      (∀ o ∈ trials, (∃ revise, o = .update revise) ∨ o = .bandTimes b.reverb.config.bands) ∧
        b.perform (.fit options) = b.performAll trials := by
  let I (s : Bench α β) : Prop := ∃ trials : List (Operation α β),
    (∀ o ∈ trials, (∃ revise, o = .update revise) ∨ o = .bandTimes b.reverb.config.bands) ∧
      s = b.performAll trials
  have hnext : ∀ s o, I s → ((∃ revise, o = .update revise) ∨
      o = .bandTimes b.reverb.config.bands) → I (s.perform o) := by
    rintro _ o ⟨trials, htrials, rfl⟩ ho
    refine ⟨trials ++ [o], fun o' ho' => ?_, (List.foldl_concat ..).symm⟩
    rcases List.mem_append.mp ho' with ho' | ho'
    · exact htrials o' ho'
    · exact List.mem_singleton.mp ho' ▸ ho
  exact Reverb.fitWithin_invariant (I := I)
    (fun s revise hs => hnext s (.update revise) hs (.inl ⟨revise, rfl⟩))
    (fun s hs => hnext s (.bandTimes _) hs (.inr rfl)) options ⟨[], nofun, rfl⟩

/-! ### Reachable benches -/

/-- The benches of a reverb that was made for a configuration. -/
inductive Reached (c : Config α) : Bench α β → Prop
  | new {r : Reverb α β} (h : Reverb.new c = .ok r) : Reached c (.ofReverb r)
  | perform {b : Bench α β} (h : Reached c b) (operation : Operation α β) :
      Reached c (b.perform operation)
  | hold {b : Bench α β} (h : Reached c b) (busy : Bool) :
      Reached c { b with reverb := { b.reverb with busy } }

variable {c : Config α}

theorem sound_of_reached (h : Reached c b) : b.Sound := by
  induction h with
  | @new r h =>
    have hengine : r.engine = none := congrArg Reverb.engine (Reverb.eq_of_new h)
    have hcapacity : ∀ n, n ∉ r.capacity? := by
      rw [Reverb.capacity?, hengine]
      exact Option.not_mem_none
    exact ⟨rfl, fun n hn => absurd hn (hcapacity n), fun n hn => absurd hn (hcapacity n)⟩
  | perform _ operation ih => exact (ih.perform operation).2
  | @hold b _ busy ih => exact (ih.follows (r := { b.reverb with busy }) rfl (.refl _)).sound

/-- Whatever a reverb can reach, it can reach on a bench. -/
theorem exists_reached {r : Reverb α β} (h : Reverb.Reachable c r) :
    ∃ b, Reached c b ∧ b.reverb = r := by
  obtain ⟨start, hstart, hsteps⟩ := h
  induction hsteps with
  | refl => exact ⟨_, .new hstart, rfl⟩
  | tail _ hstep ih =>
    obtain ⟨b, hb, rfl⟩ := ih
    rcases Reverb.operation_of_step hstep with ⟨operation, rfl⟩ | ⟨busy, rfl⟩
    · exact ⟨_, hb.perform operation, ((sound_of_reached hb).perform operation).1⟩
    · exact ⟨_, hb.hold busy, rfl⟩

/-- What stays as it is until the reverb is configured again. -/
structure Fixed (b : Bench α β) : Prop where
  sound : b.Sound
  capacity?_eq : b.capacity? = b.reverb.capacity?
  /-- The operations are those on the reverb, also within the buffers. -/
  perform : ∀ operation, (b.perform operation).reverb = operation.perform b.reverb ∧
    (b.perform operation).Sound
  kept : ∀ operation : Operation α β, ¬ operation.Reconfigures b.reverb →
    (b.perform operation).capacity? = b.capacity? ∧
      (b.perform operation).buffers.SameSize b.buffers
  /-- The answers are those of the reverb. -/
  answers : (∀ centres, (b.bandTimes centres).1 = (b.reverb.bandTimes centres).1) ∧
    b.broadbandTime.1 = b.reverb.broadbandTime.1 ∧
    ∀ options, (b.fit options).1 =
      (Reverb.fitWithin (Reverb.subject b.reverb.config.bands) id options b.reverb).1
  /-- A fit measures like any other measurement, after updates. -/
  trials : ∀ options, ∃ trials : List (Operation α β),
    (∀ o ∈ trials, (∃ revise, o = .update revise) ∨ o = .bandTimes b.reverb.config.bands) ∧
      b.perform (.fit options) = b.performAll trials
  /-- An analysis gets as much of the response as the published parameters ask for and the buffers
  take, and a slice of the same length. -/
  analysed : ∀ e, b.reverb.engine? = some e → ∃ samples scratch : Array α,
    samples.size = min (b.reverb.parameters.responseLength e.sampleRate) e.capacity ∧
      scratch.size = samples.size ∧
      (∀ {γ : Type} (f : Array α → α → γ),
        (b.reverb.measure f).1 = some (f samples e.sampleRate)) ∧
      ∀ {γ : Type} (analyse : Analysis α γ),
        (b.measure analyse).1 = (analyse samples e.sampleRate scratch).map Prod.fst

/-- **The buffers are fixed when a reverb is configured.** -/
theorem Sound.fixed (h : b.Sound) : b.Fixed where
  sound := h
  capacity?_eq := h.capacity?_eq
  perform := h.perform
  kept operation hkept := by
    obtain ⟨hreverb, hsound, hsize⟩ := h.follows_perform hkept
    refine ⟨?_, hsize⟩
    rw [hsound.capacity?_eq, hreverb, Reverb.capacity?_perform hkept, h.capacity?_eq]
  answers :=
    ⟨fun centres => (h.measure (Analysis.computes_bands centres)).1,
      (h.measure Analysis.computes_broadband).1, fun options => (h.fit options).1⟩
  trials := exists_trials b
  analysed e he := by
    have hsamples := e.size_impulseResponse (b.reverb.analysedLength e)
    refine ⟨_, b.scratch e, hsamples, (h.size_scratch he).trans hsamples.symm,
      fun f => congrArg Prod.fst (Reverb.measure_eq he f), fun analyse => ?_⟩
    rw [h.measure_eq he]
    cases analyse _ e.sampleRate (b.scratch e) <;> rfl

end Bench

/-- **Measurement buffers are fixed at configuration.** Whatever was asked of a reverb before, its
buffers keep their length until it is configured again, and no measurement goes beyond them. At each
sample rate at which 20 seconds are a number of samples, a response is between 1 and 20 seconds
long, whatever the parameters and the decay time are, and a longer decay does not shorten it. -/
theorem buffers_fixed {c : Config Float32} {r : Reverb Float32 Float} (h : Reverb.Reachable c r) :
    (∃ b, Bench.Reached c b ∧ b.reverb = r) ∧
      (∀ b, Bench.Reached c b → b.reverb = r → b.Fixed) ∧
      ∀ (p : Parameters Float32) (rate : Float32),
        Scalar.isFinite rate ∧ 1 ≤ rate → Scalar.isFinite (20.0 * rate) → ∀ seconds,
          Elementary.roundToNat rate ≤ p.responseLengthFor rate seconds ∧
            p.responseLengthFor rate seconds ≤ Elementary.roundToNat (20.0 * rate) ∧
            ∀ seconds', seconds ≤ seconds' →
              p.responseLengthFor rate seconds ≤ p.responseLengthFor rate seconds' := by
  refine ⟨Bench.exists_reached h, fun b hb _ => (Bench.sound_of_reached hb).fixed,
    fun p rate hrate hlarge seconds => ?_⟩
  obtain ⟨hlow, hhigh⟩ := p.responseLengthFor_bounds hrate.1 hrate.2 hlarge seconds
  exact ⟨hlow, hhigh, fun _ hle => p.responseLengthFor_mono hrate.1 hrate.2 hlarge hle⟩

/-- A hall at 48 kHz with parameters that are no numbers, and a decay without end. -/
theorem buffers_fixed_smallHall : ∃ (r : Reverb Float32 Float) (e : Engine Float32 Float),
    (Reverb.Reachable Reverb.smallHall r ∧ r.engine? = some e) ∧
      (∃ b, (Bench.Reached Reverb.smallHall b ∧ b.reverb = r) ∧ b.Fixed) ∧
      ∀ (p : Parameters Float32) (seconds : Float32),
        48000 ≤ p.responseLengthFor 48000 seconds ∧
          p.responseLengthFor 48000 seconds ≤ 960000 := by
  have hcheck : Reverb.smallHall.check = .ok .shortest := by decide +kernel
  have hrate : Scalar.isFinite (48000 : Float32) ∧ (1 : Float32) ≤ 48000 := by decide +kernel
  have hlarge : Scalar.isFinite (20.0 * 48000 : Float32) := by decide +kernel
  have hcount : Elementary.roundToNat (48000 : Float32) = 48000 ∧
      Elementary.roundToNat (20.0 * 48000 : Float32) = 960000 := by decide +kernel
  obtain ⟨r, e, hreachable, he, -⟩ := Reverb.exists_reachable (β := Float) hcheck hrate 16
  have hreachable := hreachable.step (.update r Reverb.strayParameters)
  have hengine := Reverb.engine?_update he Reverb.strayParameters
  obtain ⟨⟨b, hb, hreverb⟩, hfixed, hlength⟩ := buffers_fixed hreachable
  refine ⟨_, _, ⟨hreachable, hengine⟩, ⟨b, ⟨hb, hreverb⟩, hfixed b hb hreverb⟩,
    fun p seconds => ?_⟩
  obtain ⟨hlow, hhigh, -⟩ := hlength p 48000 hrate hlarge seconds
  exact ⟨hcount.1.ge.trans hlow, hhigh.trans hcount.2.le⟩

end AmbisonicReverb
