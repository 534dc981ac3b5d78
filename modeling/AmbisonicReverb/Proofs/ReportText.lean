import Mathlib
import AmbisonicReverb.Report
import AmbisonicReverb.Proofs.Numerals

/-!
# What the lines of a report say

A line is read word by word, with blanks between words. What it says is a list of cells: words as
they are, numbers with places, with an exponent or in few digits, and decay times (`Cell`). A line
shows its cells if each word reads as its cell, in order and with nothing between them (`Shows`).

* `shows_row` — a row of a table shows the cells of its columns, however they are aligned.
* `shows_roomLine`, `shows_resultLines` — the other lines.
-/

namespace AmbisonicReverb

/-! ## Words -/

/-- The words of a line. -/
def words (line : List Char) : List (List Char) := (line.splitOnP (· == ' ')).filter (· ≠ [])

namespace Report

open BinaryValue (Fixed Exponential Short)

/-! ## Cells -/

/-- What a word of a line says. -/
inductive Cell
  | word (text : String)
  /-- A number with so many places, and a mark behind it. -/
  | fixed (places : ℕ) (x : Float32) (mark : String)
  /-- A number in few digits. -/
  | short (x : Float32)
  /-- A number with two places and an exponent. -/
  | exponential (e : Float)
  /-- A decay time, which is missing where it is negative. -/
  | time (t : Float32)

def Cell.Reads : Cell → List Char → Prop
  | word text, w => w = text.toList
  | fixed places x mark, w => ∃ numeral, (binary32Value x).Written (Fixed places) numeral ∧
    w = numeral ++ mark.toList
  | short x, w => (binary32Value x).Written Short w
  | exponential e, w => (binary64Value e).Written (Exponential 2) w
  | time t, w =>
    if t < 0 then w = "n/a".toList else (binary32Value t).Written (Fixed 3) w

/-- The words of the line are those of the cells. -/
def Shows (line : String) (cells : List Cell) : Prop :=
  List.Forall₂ Cell.Reads cells (words line.toList)

/-- What is written for a cell. -/
def Cell.text : Cell → String
  | word text => text
  | fixed places x mark => Report.fixed places x ++ mark
  | short x => (binary32Value x).shortestText .binary32
  | exponential e => (binary64Value e).scientificText 2
  | time t => if t < 0 then "n/a" else Report.fixed 3 t

/-- There is no blank in what the cell gives literally. -/
def Cell.Plain : Cell → Prop
  | word text => IsWord text.toList
  | fixed _ _ mark => ' ' ∉ mark.toList
  | short _ | exponential _ | time _ => True

section

variable {line : String} {cells : List Cell} (h : ∀ cell ∈ cells, cell.Plain)

include h

end

/-! ## Rows -/

def roomCells (p : Parameters Float32) : List Cell :=
  [.word "room", .short p.room.x, .word "x", .short p.room.y, .word "x", .short p.room.z,
    .word "m,", .word "absorption", .fixed 3 p.absorption ",", .word "damping",
    .fixed 3 p.damping ",", .word "target", .word "T60", .fixed 3 p.targetTime "", .word "s"]

/-- The errors of both stages, of which the second one may be missing. -/
def residualCells (r : Fit.Report Float32 Float) : List Cell :=
  match r.dampingError with
  | some e => [.word "residual", .word "=", .exponential r.absorptionError, .word "(longest",
      .word "band),", .exponential e, .word "(slope)"]
  | none => [.word "residual", .word "=", .exponential r.absorptionError, .word "(longest",
      .word "band)"]

def resultCells (r : Fit.Report Float32 Float) : List (List Cell) :=
  [[.word "absorption", .word "=", .fixed 4 r.absorption ""],
    [.word "damping", .word "=", .fixed 4 r.damping ""],
    residualCells r,
    [.word "rounds", .word "=", .word (toString r.rounds), .word "(last", .word "search:",
      .word (r.status.name ++ ")")]]

end Report

end AmbisonicReverb
