/-!
# Delay lines

A delay line is a ring of cells of which the first `length` are in use. Its head stands at
`position` and walks downwards, so that a value written under the head is under the head again
after `length` steps. The length can be set between 2 and one less than the capacity; a shorter
length takes the head back to the end of the part in use.
-/

namespace AmbisonicReverb

structure DelayLine (S : Type) where
  cells : Array S
  length : Nat
  position : Nat
  two_le_length : 2 ≤ length
  length_lt_size : length < cells.size
  position_le_length : position ≤ length

namespace DelayLine

variable {S : Type}

theorem position_lt_size (d : DelayLine S) : d.position < d.cells.size :=
  Nat.lt_of_le_of_lt d.position_le_length d.length_lt_size

/-- A silent line of the given capacity, or of the least one, 3. -/
def new [Zero S] (capacity : Nat) : DelayLine S where
  cells := Array.replicate (max capacity 3) 0
  length := 2
  position := 0
  two_le_length := Nat.le_refl 2
  length_lt_size := by rw [Array.size_replicate]; omega
  position_le_length := Nat.zero_le 2

def capacity (d : DelayLine S) : Nat := d.cells.size

/-- Sets the length, brought into the range that the capacity allows. -/
def setLength (d : DelayLine S) (n : Nat) : DelayLine S :=
  have := d.two_le_length
  have := d.length_lt_size
  let length := min (max n 2) (d.cells.size - 1)
  { d with
    length
    position := min d.position length
    two_le_length := by omega
    length_lt_size := by omega
    position_le_length := Nat.min_le_right .. }

/-- The value under the head. -/
@[inline] def read (d : DelayLine S) : S :=
  have := d.position_lt_size
  d.cells[d.position]

/-- Replaces the value under the head. -/
@[inline] def write (d : DelayLine S) (s : S) : DelayLine S :=
  { d with
    cells := d.cells.set d.position s d.position_lt_size
    length_lt_size := by simpa using d.length_lt_size }

/-- Moves the head one cell on. -/
@[inline] def advance (d : DelayLine S) : DelayLine S :=
  { d with
    position := (if d.position = 0 then d.length else d.position) - 1
    position_le_length := by have := d.position_le_length; split <;> omega }

/-- Writes under the head and moves on. -/
@[inline] def push (d : DelayLine S) (s : S) : DelayLine S := (d.write s).advance

/-- Silences all cells; the head stays where it is. -/
def clear [Zero S] (d : DelayLine S) : DelayLine S :=
  { d with
    cells := Array.replicate d.cells.size 0
    length_lt_size := by simpa using d.length_lt_size }

/-! ## What the operations leave alone -/

section

variable (d : DelayLine S) (s : S) (n : Nat)

@[simp] theorem capacity_new [Zero S] : (new n : DelayLine S).capacity = max n 3 := by
  simp [new, capacity]

@[simp] theorem capacity_setLength : (d.setLength n).capacity = d.capacity := rfl

@[simp] theorem capacity_write : (d.write s).capacity = d.capacity := by simp [write, capacity]

@[simp] theorem capacity_advance : d.advance.capacity = d.capacity := rfl

@[simp] theorem capacity_clear [Zero S] : d.clear.capacity = d.capacity := by
  simp [clear, capacity]

@[simp] theorem length_write : (d.write s).length = d.length := rfl

@[simp] theorem length_advance : d.advance.length = d.length := rfl

@[simp] theorem length_clear [Zero S] : d.clear.length = d.length := rfl

@[simp] theorem position_write : (d.write s).position = d.position := rfl

@[simp] theorem read_write : (d.write s).read = s := by simp [read, write]

end

end DelayLine

end AmbisonicReverb
