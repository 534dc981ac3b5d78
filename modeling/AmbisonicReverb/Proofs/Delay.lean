import AmbisonicReverb.DelayLine
import Mathlib

/-!
# Delay lines as pure delays

A delay line is watched through `DelayLine.ahead`: the values that will come under the head, one
step after the other, if nothing is written. While the head is inside the part in use, a push
takes the first of these values away and appends the new one (`ahead_push`), so that a line delays
what is pushed into it by exactly its length (`read_pushes`).

The head is at the end of that part, one cell too far, only after the line became shorter. What is
pushed then never comes under the head again (`ahead_push_of_not_inside`); after the push the head
is inside (`inside_push`).
-/

namespace AmbisonicReverb.DelayLine

variable {S : Type}

/-- The head is in the part in use. -/
def Inside (d : DelayLine S) : Prop := d.position < d.length

instance (d : DelayLine S) : Decidable d.Inside := inferInstanceAs (Decidable (_ < _))

theorem inside_of_position_eq_zero {d : DelayLine S} (h : d.position = 0) : d.Inside := by
  have h2 := d.two_le_length
  unfold Inside
  omega

/-- The value under the head after `i` steps. -/
def ahead (d : DelayLine S) (i : Nat) : S := (advance^[i] d).read

theorem ahead_zero (d : DelayLine S) : d.ahead 0 = d.read := rfl

/-! ## The walk of the head -/

theorem inside_advance (d : DelayLine S) : d.advance.Inside := by
  have h2 := d.two_le_length
  have hp := d.position_le_length
  show (if d.position = 0 then d.length else d.position) - 1 < d.length
  split_ifs <;> omega

theorem inside_push (d : DelayLine S) (s : S) : (d.push s).Inside := inside_advance (d.write s)

theorem length_iterate_advance (d : DelayLine S) (i : Nat) : (advance^[i] d).length = d.length := by
  induction i generalizing d with
  | zero => rfl
  | succ i ih => exact ih d.advance

theorem cells_iterate_advance (d : DelayLine S) (i : Nat) : (advance^[i] d).cells = d.cells := by
  induction i generalizing d with
  | zero => rfl
  | succ i ih => exact ih d.advance

/-- Where the head goes depends on nothing but its position and the length. -/
theorem position_iterate_advance_congr {d e : DelayLine S} (hp : d.position = e.position)
    (hl : d.length = e.length) (i : Nat) : (advance^[i] d).position = (advance^[i] e).position := by
  induction i with
  | zero => exact hp
  | succ i ih =>
    rw [Function.iterate_succ_apply', Function.iterate_succ_apply']
    show (if (advance^[i] d).position = 0 then (advance^[i] d).length else _) - 1 =
      (if (advance^[i] e).position = 0 then (advance^[i] e).length else _) - 1
    rw [ih, length_iterate_advance, length_iterate_advance, hl]

/-- The head walks down to the first cell and goes on from the last cell in use. -/
theorem position_iterate_advance {d : DelayLine S} (h : d.Inside) {i : Nat} (hi : i ≤ d.length) :
    (advance^[i] d).position =
      if i ≤ d.position then d.position - i else d.position + d.length - i := by
  unfold Inside at h
  induction i with
  | zero => simp
  | succ i ih =>
    rw [Function.iterate_succ_apply']
    show (if (advance^[i] d).position = 0 then (advance^[i] d).length else _) - 1 = _
    rw [length_iterate_advance, ih (by omega)]
    split_ifs <;> omega

theorem inside_iterate_advance {d : DelayLine S} (h : d.Inside) (i : Nat) :
    (advance^[i] d).Inside := by
  cases i with
  | zero => exact h
  | succ i => rw [Function.iterate_succ_apply']; exact inside_advance _

theorem getElem?_iterate_advance (d : DelayLine S) (i : Nat) :
    d.cells[(advance^[i] d).position]? = some (d.ahead i) := by
  rw [← cells_iterate_advance d i]
  exact Array.getElem?_eq_getElem (advance^[i] d).position_lt_size

/-! ## Pushing -/

/-- The walk after a push is the walk of the line itself, with one cell replaced. -/
theorem ahead_push_eq (d : DelayLine S) (s : S) (i : Nat) :
    (d.push s).ahead i =
      if (advance^[i + 1] d).position = d.position then s else d.ahead (i + 1) := by
  have hget := getElem?_iterate_advance (d.write s) (i + 1)
  rw [position_iterate_advance_congr (d := d.write s) (e := d) rfl rfl (i + 1)] at hget
  have hset : (d.write s).cells = d.cells.set d.position s d.position_lt_size := rfl
  rw [hset, Array.getElem?_set] at hget
  show (d.write s).ahead (i + 1) = _
  split_ifs with hp
  · rw [if_pos hp.symm] at hget
    exact (Option.some.inj hget).symm
  · rw [if_neg (Ne.symm hp), getElem?_iterate_advance d (i + 1)] at hget
    exact (Option.some.inj hget).symm

/-- A push takes the first value away and appends the new one. -/
theorem ahead_push {d : DelayLine S} (h : d.Inside) (s : S) {i : Nat} (hi : i < d.length) :
    (d.push s).ahead i = if i + 1 = d.length then s else d.ahead (i + 1) := by
  have hback : (advance^[i + 1] d).position = d.position ↔ i + 1 = d.length := by
    rw [position_iterate_advance h hi]
    unfold Inside at h
    split_ifs <;> omega
  rw [ahead_push_eq]
  simp only [hback]

/-- What is pushed while the head is past the part in use is lost. -/
theorem ahead_push_of_not_inside {d : DelayLine S} (h : ¬ d.Inside) (s : S) (i : Nat) :
    (d.push s).ahead i = d.ahead (i + 1) := by
  have hne : (advance^[i + 1] d).position ≠ d.position := by
    have hin := inside_iterate_advance (inside_advance d) i
    have hlen : (advance^[i] d.advance).length = d.length := length_iterate_advance d.advance i
    unfold Inside at h hin
    rw [hlen] at hin
    show (advance^[i] d.advance).position ≠ d.position
    omega
  rw [ahead_push_eq, if_neg hne]

/-! ## Silence -/

section

variable [Zero S]

/-- All cells are silent, also those that are not in use. -/
def Silent (d : DelayLine S) : Prop := ∀ s ∈ d.cells, s = 0

theorem Silent.ahead {d : DelayLine S} (h : d.Silent) (i : Nat) : d.ahead i = 0 :=
  h (d.ahead i) (Array.mem_of_getElem? (getElem?_iterate_advance d i))

theorem Silent.read {d : DelayLine S} (h : d.Silent) : d.read = 0 := h.ahead 0

theorem silent_clear (d : DelayLine S) : d.clear.Silent := fun _ hs =>
  (Array.mem_replicate.mp hs).2

theorem Silent.setLength {d : DelayLine S} (h : d.Silent) (n : Nat) : (d.setLength n).Silent := h

end

/-! ## Setting the length -/

theorem position_setLength (d : DelayLine S) (n : Nat) :
    (d.setLength n).position = min d.position (d.setLength n).length := rfl

/-- A new length leaves the head inside exactly when it exceeds the head's position. -/
theorem inside_setLength_iff (d : DelayLine S) (n : Nat) :
    (d.setLength n).Inside ↔ d.position < (d.setLength n).length := by
  unfold Inside
  rw [position_setLength]
  omega

/-! ## Runs -/

/-- The line after the pushes of `s 0`, …, `s (n - 1)`. -/
def pushes (d : DelayLine S) (s : Nat → S) : Nat → DelayLine S
  | 0 => d
  | n + 1 => (pushes d s n).push (s n)

theorem length_pushes (d : DelayLine S) (s : Nat → S) (n : Nat) :
    (d.pushes s n).length = d.length := by
  induction n with
  | zero => rfl
  | succ n ih => exact ih

theorem inside_pushes {d : DelayLine S} (h : d.Inside) (s : Nat → S) (n : Nat) :
    (d.pushes s n).Inside := by
  cases n with
  | zero => exact h
  | succ n => exact inside_push _ _

/-- After `n` pushes the line shows what it showed before, from step `n` on, and then the pushed
values. -/
theorem ahead_pushes {d : DelayLine S} (h : d.Inside) (s : Nat → S) (n : Nat) {i : Nat}
    (hi : i < d.length) :
    (d.pushes s n).ahead i =
      if n + i < d.length then d.ahead (n + i) else s (n + i - d.length) := by
  induction n generalizing i with
  | zero => simp [pushes, hi]
  | succ n ih =>
    show ((d.pushes s n).push (s n)).ahead i = _
    rw [ahead_push (inside_pushes h s n) (s n) (by rwa [length_pushes]), length_pushes]
    split_ifs with hlast hshort hshort
    · omega
    · rw [show n + 1 + i - d.length = n by omega]
    · rw [ih (by omega), if_pos (by omega), show n + (i + 1) = n + 1 + i by omega]
    · rw [ih (by omega), if_neg (by omega), show n + (i + 1) = n + 1 + i by omega]

/-- A line delays by its length. -/
theorem read_pushes {d : DelayLine S} (h : d.Inside) (s : Nat → S) (n : Nat) :
    (d.pushes s n).read = if n < d.length then d.ahead n else s (n - d.length) := by
  have h2 := d.two_le_length
  have hread := ahead_pushes h s n (i := 0) (by omega)
  simpa [ahead_zero] using hread

theorem pushes_succ' (d : DelayLine S) (s : Nat → S) (n : Nat) :
    d.pushes s (n + 1) = (d.push (s 0)).pushes (fun i => s (i + 1)) n := by
  induction n with
  | zero => rfl
  | succ n ih => exact congrArg (·.push (s (n + 1))) ih

/-- A silent line with its head outside delays all but the first value, which it loses. -/
theorem read_pushes_of_not_inside [Zero S] {d : DelayLine S} (h : ¬ d.Inside) (hs : d.Silent)
    (s : Nat → S) (n : Nat) :
    (d.pushes s n).read = if n ≤ d.length then 0 else s (n - d.length) := by
  have h2 := d.two_le_length
  cases n with
  | zero => exact (hs.read).trans (if_pos (Nat.zero_le _)).symm
  | succ n =>
    have hlen : (d.push (s 0)).length = d.length := rfl
    rw [pushes_succ', read_pushes (inside_push d (s 0)), ahead_push_of_not_inside h, hs.ahead, hlen]
    split_ifs with hshort hshort' hshort'
    · rfl
    · omega
    · omega
    · rw [show n - d.length + 1 = n + 1 - d.length by omega]

end AmbisonicReverb.DelayLine
