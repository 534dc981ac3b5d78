import AmbisonicReverb.Proofs.Delay
import AmbisonicReverb.Sample
import AmbisonicReverb.Scalar.Binary

/-!
# Laps of a delay line

What is written under the head of a delay line should be under the head again after as many steps
as the line is long. On this lap (`DelayLine.lap`) the head visits the other cells in use, and
anything may be written there.

**Theorem (`returns_iff_settled`).** Whatever was done to a line since it was made, the lap returns
exactly if the last change of length left the head in the part in use, or the head moved since then.
Otherwise the head stands one cell too far, and what is written there is never read.

* `position_lap`: writing on the way does not change the way.
* `returns_iff_inside`: the cell is left alone until the head is back, if the head starts inside.
* `inside_applyAll_iff`: where the head stands, by the history of the line.
-/

namespace AmbisonicReverb.DelayLine

variable {S : Type}

/-! ## Histories -/

/-- What can be asked of a delay line. -/
inductive Move (S : Type)
  | setLength (n : ℕ)
  | write (s : S)
  | advance
  | clear

/-- The move changes cells only. -/
def Move.LeavesHead : Move S → Prop
  | .setLength _ | .advance => False
  | .write _ | .clear => True

def Move.apply [Zero S] (d : DelayLine S) : Move S → DelayLine S
  | .setLength n => d.setLength n
  | .write s => d.write s
  | .advance => d.advance
  | .clear => d.clear

def applyAll [Zero S] (d : DelayLine S) (moves : List (Move S)) : DelayLine S :=
  moves.foldl Move.apply d

/-- At the last change of length the head was before the new end, or it has moved since. -/
def Settled [Zero S] (start : DelayLine S) (moves : List (Move S)) : Prop :=
  ∀ earlier n later, moves = earlier ++ .setLength n :: later → (∀ m ∈ later, m.LeavesHead) →
    (start.applyAll earlier).position < ((start.applyAll earlier).setLength n).length

/-- A list with one more entry at its end, cut at an entry: at the last one, or before it. -/
theorem append_singleton_cases {τ : Type} {l earlier later : List τ} {a b : τ}
    (h : l ++ [a] = earlier ++ b :: later) :
    (later = [] ∧ b = a ∧ earlier = l) ∨
      ∃ rest, later = rest ++ [a] ∧ l = earlier ++ b :: rest := by
  rcases List.eq_nil_or_concat' later with rfl | ⟨rest, last, rfl⟩
  · obtain ⟨rfl, hb⟩ := List.append_inj' h rfl
    exact .inl ⟨rfl, (List.singleton_inj.mp hb).symm, rfl⟩
  · rw [← List.cons_append, ← List.append_assoc] at h
    obtain ⟨rfl, hb⟩ := List.append_inj' h rfl
    obtain rfl := List.singleton_inj.mp hb
    exact .inr ⟨rest, rfl, rfl⟩

/-! ## Laps -/

/-- The line after some values were written under the head, one over the other. -/
def writeAll (d : DelayLine S) (values : List S) : DelayLine S := values.foldl write d

/-- The line `i` steps after `s` was written under its head. In the cell that the head visits after
`j` steps, the values `visits j` are written. -/
def lap (d : DelayLine S) (s : S) (visits : ℕ → List S) : ℕ → DelayLine S
  | 0 => d.write s
  | i + 1 => ((lap d s visits i).writeAll (if i = 0 then [] else visits i)).advance

/-- After as many steps as the line is long, and not before, the head is at its cell again, and the
value is still there. -/
structure Returns (d : DelayLine S) (s : S) (visits : ℕ → List S) : Prop where
  read_eq : (d.lap s visits d.length).read = s
  position_eq : (d.lap s visits d.length).position = d.position
  position_ne : ∀ i, 0 < i → i < d.length → (d.lap s visits i).position ≠ d.position

/-- The head never comes back to its cell, and nothing that is read depends on the value. -/
structure Loses (d : DelayLine S) (s : S) (visits : ℕ → List S) : Prop where
  position_ne : ∀ i, 0 < i → (d.lap s visits i).position ≠ d.position
  read_eq : ∀ i, 0 < i → ∀ s', (d.lap s visits i).read = (d.lap s' visits i).read

section

variable (d : DelayLine S) (s : S) (values : List S) (visits : ℕ → List S)

theorem length_writeAll : (d.writeAll values).length = d.length := by
  induction values generalizing d with
  | nil => rfl
  | cons s values ih => exact ih (d.write s)

theorem position_writeAll : (d.writeAll values).position = d.position := by
  induction values generalizing d with
  | nil => rfl
  | cons s values ih => exact ih (d.write s)

theorem getElem?_write (k : ℕ) :
    (d.write s).cells[k]? = if d.position = k then some s else d.cells[k]? :=
  Array.getElem?_set d.position_lt_size

theorem getElem?_position : d.cells[d.position]? = some d.read :=
  Array.getElem?_eq_getElem d.position_lt_size

/-- Only the cell under the head is written. -/
theorem getElem?_writeAll_of_ne {k : ℕ} (h : d.position ≠ k) :
    (d.writeAll values).cells[k]? = d.cells[k]? := by
  induction values generalizing d with
  | nil => rfl
  | cons s values ih =>
    show ((d.write s).writeAll values).cells[k]? = _
    rw [ih (d.write s) h, getElem?_write, if_neg h]

/-- Lines that agree on a cell still agree on it after the same was written to both. -/
theorem getElem?_writeAll_congr {d e : DelayLine S} {k : ℕ} (hp : d.position = e.position)
    (hk : d.cells[k]? = e.cells[k]?) :
    (d.writeAll values).cells[k]? = (e.writeAll values).cells[k]? := by
  induction values generalizing d e with
  | nil => exact hk
  | cons s values ih =>
    apply ih (d := d.write s) (e := e.write s) hp
    rw [getElem?_write, getElem?_write, hp, hk]

theorem length_lap (i : ℕ) : (d.lap s visits i).length = d.length := by
  induction i with
  | zero => rfl
  | succ i ih => exact (length_writeAll _ _).trans ih

/-- The head goes the same way, whatever is written. -/
theorem position_lap (i : ℕ) : (d.lap s visits i).position = (advance^[i] d).position := by
  induction i with
  | zero => rfl
  | succ i ih =>
    rw [Function.iterate_succ_apply']
    show (if ((d.lap s visits i).writeAll _).position = 0 then
      ((d.lap s visits i).writeAll _).length else _) - 1 =
        (if (advance^[i] d).position = 0 then (advance^[i] d).length else _) - 1
    rw [position_writeAll, length_writeAll, ih, length_lap, length_iterate_advance]

/-- A cell that the head does not visit keeps its value. -/
theorem getElem?_lap_succ {k : ℕ} (i : ℕ)
    (h : i = 0 ∨ (d.lap s visits i).position ≠ k) :
    (d.lap s visits (i + 1)).cells[k]? = (d.lap s visits i).cells[k]? := by
  show ((d.lap s visits i).writeAll (if i = 0 then [] else visits i)).cells[k]? = _
  rcases h with rfl | h
  · rfl
  · exact getElem?_writeAll_of_ne _ _ h

end

section

variable {d : DelayLine S} (s : S) (visits : ℕ → List S)

/-- **One lap.** The head is back after the length of the line, if it starts inside. -/
theorem returns_of_inside (h : d.Inside) : d.Returns s visits := by
  have h2 := d.two_le_length
  have hlt : d.position < d.length := h
  have hne : ∀ i, 0 < i → i < d.length → (d.lap s visits i).position ≠ d.position := by
    intro i hi hi'
    rw [position_lap, position_iterate_advance h hi'.le]
    split_ifs <;> omega
  have hback : (d.lap s visits d.length).position = d.position := by
    rw [position_lap, position_iterate_advance h le_rfl, if_neg (by omega)]
    omega
  -- the value stays in the cell as long as the head is elsewhere
  have hcell : ∀ i ≤ d.length, (d.lap s visits i).cells[d.position]? = some s := by
    intro i
    induction i with
    | zero =>
      intro _
      exact (getElem?_write d s d.position).trans (if_pos rfl)
    | succ i ih =>
      intro hi
      rw [getElem?_lap_succ, ih (by omega)]
      by_cases hzero : i = 0
      · exact .inl hzero
      · exact .inr (hne i (by omega) (by omega))
  refine ⟨?_, hback, hne⟩
  apply Option.some.inj
  rw [← getElem?_position, hback]
  exact hcell d.length le_rfl

theorem position_eq_length_of_not_inside (h : ¬ d.Inside) : d.position = d.length :=
  Nat.le_antisymm d.position_le_length (Nat.le_of_not_lt h)

/-- **Past the part in use everything is lost.** -/
theorem loses_of_not_inside (h : ¬ d.Inside) : d.Loses s visits := by
  have hlength := position_eq_length_of_not_inside h
  have hne : ∀ s i, 0 < i → (d.lap s visits i).position ≠ d.position := by
    intro s i hi
    cases i with
    | zero => exact absurd hi (lt_irrefl 0)
    | succ i =>
      have hin : (d.lap s visits (i + 1)).position < (d.lap s visits (i + 1)).length :=
        inside_advance _
      rw [length_lap] at hin
      omega
  refine ⟨hne s, fun i hi s' => ?_⟩
  have hcells : ∀ i, ∀ k ≠ d.position,
      (d.lap s visits i).cells[k]? = (d.lap s' visits i).cells[k]? := by
    intro i k hk
    induction i with
    | zero =>
      show (d.write s).cells[k]? = (d.write s').cells[k]?
      rw [getElem?_write, getElem?_write, if_neg hk.symm, if_neg hk.symm]
    | succ i ih => exact getElem?_writeAll_congr _ (by rw [position_lap, position_lap]) ih
  apply Option.some.inj
  rw [← getElem?_position, ← getElem?_position, hcells i _ (hne s i hi), position_lap, position_lap]

/-- A lap returns exactly if it starts inside. -/
theorem returns_iff_inside : d.Returns s visits ↔ d.Inside := by
  refine ⟨fun h => ?_, returns_of_inside s visits⟩
  by_contra hout
  have h2 := d.two_le_length
  exact (loses_of_not_inside s visits hout).position_ne d.length (by omega) h.position_eq

end

/-! ## Where the head stands -/

section

variable [Zero S]

theorem applyAll_append (d : DelayLine S) (moves : List (Move S)) (m : Move S) :
    d.applyAll (moves ++ [m]) = m.apply (d.applyAll moves) := by
  simp [applyAll]

/-- What a move does to the place of the head. -/
theorem inside_apply_iff (d : DelayLine S) (m : Move S) :
    (m.apply d).Inside ↔
      match m with
      | .setLength n => d.position < (d.setLength n).length
      | .advance => True
      | .write _ | .clear => d.Inside := by
  cases m with
  | setLength n => exact inside_setLength_iff d n
  | advance => exact iff_of_true (inside_advance d) trivial
  | write s => exact Iff.rfl
  | clear => exact Iff.rfl

theorem settled_append_setLength_iff (start : DelayLine S) (moves : List (Move S)) (n : ℕ) :
    Settled start (moves ++ [.setLength n]) ↔
      (start.applyAll moves).position < ((start.applyAll moves).setLength n).length := by
  constructor
  · intro h
    exact h moves n [] rfl (by simp)
  · intro h earlier n' later heq hlater
    rcases append_singleton_cases heq with ⟨-, hm, rfl⟩ | ⟨rest, rfl, -⟩
    · cases hm
      exact h
    · exact (hlater (.setLength n) (by simp)).elim

theorem settled_append_advance (start : DelayLine S) (moves : List (Move S)) :
    Settled start (moves ++ [.advance]) := by
  intro earlier n later heq hlater
  rcases append_singleton_cases heq with ⟨-, hm, -⟩ | ⟨rest, rfl, -⟩
  · cases hm
  · exact (hlater .advance (by simp)).elim

theorem settled_append_iff_of_leavesHead (start : DelayLine S) (moves : List (Move S))
    {m : Move S} (hm : m.LeavesHead) : Settled start (moves ++ [m]) ↔ Settled start moves := by
  constructor
  · intro h earlier n later heq hlater
    refine h earlier n (later ++ [m]) (by simp [heq]) fun m' hm' => ?_
    rcases List.mem_append.mp hm' with hm' | hm'
    · exact hlater m' hm'
    · rwa [List.mem_singleton.mp hm']
  · intro h earlier n later heq hlater
    rcases append_singleton_cases heq with ⟨-, rfl, -⟩ | ⟨rest, rfl, rfl⟩
    · exact hm.elim
    · exact h earlier n rest rfl fun m' hm' => hlater m' (by simp [hm'])

/-- **The head is inside exactly if the history of the line is settled.** -/
theorem inside_applyAll_iff {start : DelayLine S} (h : start.Inside) (moves : List (Move S)) :
    (start.applyAll moves).Inside ↔ Settled start moves := by
  induction moves using List.reverseRecOn with
  | nil =>
    refine iff_of_true h fun earlier n later heq _ => ?_
    simp at heq
  | append_singleton moves m ih =>
    rw [applyAll_append, inside_apply_iff]
    cases m with
    | setLength n => exact (settled_append_setLength_iff start moves n).symm
    | advance => exact iff_of_true trivial (settled_append_advance start moves)
    | write s =>
      have hleaves : (Move.write s).LeavesHead := trivial
      exact ih.trans (settled_append_iff_of_leavesHead start moves hleaves).symm
    | clear =>
      have hleaves : (Move.clear : Move S).LeavesHead := trivial
      exact ih.trans (settled_append_iff_of_leavesHead start moves hleaves).symm

/-- **What is written comes back after one lap, in a settled line.** In any other line the head
stands one cell past the part in use, and what is written there is lost. -/
theorem returns_iff_settled (capacity : ℕ) (moves : List (Move S)) (s : S)
    (visits : ℕ → List S) :
    (((new capacity).applyAll moves).Returns s visits ↔ Settled (new capacity) moves) ∧
      (((new capacity).applyAll moves).Returns s visits ∨
        ((new capacity).applyAll moves).position = ((new capacity).applyAll moves).length ∧
          ((new capacity).applyAll moves).Loses s visits) := by
  have hstart : (new capacity : DelayLine S).Inside := inside_of_position_eq_zero rfl
  rw [returns_iff_inside, ← inside_applyAll_iff hstart]
  refine ⟨Iff.rfl, ?_⟩
  by_cases hin : ((new capacity).applyAll moves).Inside
  · exact .inl hin
  · exact .inr ⟨position_eq_length_of_not_inside hin, loses_of_not_inside s visits hin⟩

end

/-- A line that is shortened while its head stands at the last cell. -/
def shrunkLine : DelayLine (Sample Float32) :=
  (new 4).applyAll [.setLength 3, .advance, .setLength 2]

/-- The sample is not read after the length of the line. -/
theorem read_lap_shrunkLine :
    (shrunkLine.lap (.pressure 1) (fun _ => []) shrunkLine.length).read ≠ .pressure 1 := by
  decide +kernel

end AmbisonicReverb.DelayLine
