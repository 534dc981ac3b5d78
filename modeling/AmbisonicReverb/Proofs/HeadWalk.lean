import Mathlib
import AmbisonicReverb.Proofs.Checked
import AmbisonicReverb.Proofs.Lap

/-!
# The walk of a head

A `Ring` holds the parts of a delay line as they are stored, and nothing is known of them. Its steps
are checked: an index out of range, a count below zero or a range upside down abort the program.

**Theorem (`ring_walks`).** From a new ring on no step aborts, whatever is asked of it, and the ring
goes the way of the delay line. Its size stays as it is, at least 3. The length is at least 2 and
less than the size, and the position is not beyond the length. After a step of the head it is below
the length, until the length changes again. As many steps as the line is long, from a position below
the length, lead to each cell in use once and to no other.

* `Move.perform?_ring` — each checked move comes to the end of the unchecked one.
* `visits?_eq` — between changes of the length the walk is that of the bare head, whatever is
  written.
* `perm_walk` — a whole round of it.
-/

namespace AmbisonicReverb.DelayLine

variable {S : Type}

/-! ## Rings -/

/-- The parts of a delay line. -/
structure Ring (S : Type) where
  cells : Array S
  length : ℕ
  position : ℕ

namespace Ring

def new [Zero S] (capacity : ℕ) : Ring S := ⟨Array.replicate (max capacity 3) 0, 2, 0⟩

def setLength? (r : Ring S) (n : ℕ) : Option (Ring S) := do
  let last ← difference? r.cells.size 1
  let length ← clamp? 2 last n
  return { r with length, position := min r.position length }

def read? (r : Ring S) : Option S := r.cells[r.position]?

def write? (r : Ring S) (s : S) : Option (Ring S) := do
  return { r with cells := ← replace? r.cells r.position s }

def advance? (r : Ring S) : Option (Ring S) := do
  return { r with position := ← difference? (if r.position = 0 then r.length else r.position) 1 }

def clear [Zero S] (r : Ring S) : Ring S :=
  { r with cells := Array.replicate r.cells.size 0 }

end Ring

def ring (d : DelayLine S) : Ring S := ⟨d.cells, d.length, d.position⟩

/-- What the parts of a delay line have in common, from the capacity that was asked for on. -/
structure Ring.Sound (capacity : ℕ) (r : Ring S) : Prop where
  size_eq : r.cells.size = max capacity 3
  two_le_length : 2 ≤ r.length
  length_le : r.length ≤ r.cells.size - 1
  position_le : r.position ≤ r.length
  readable : ∃ s, r.read? = some s

/-! ## Checked moves -/

section

variable [Zero S]

def Move.perform? (r : Ring S) : Move S → Option (Ring S)
  | .setLength n => r.setLength? n
  | .write s => r.write? s
  | .advance => r.advance?
  | .clear => some r.clear

/-- **No move aborts.** -/
theorem Move.perform?_ring (d : DelayLine S) (m : Move S) :
    m.perform? d.ring = some (m.apply d).ring := by
  have h2 := d.two_le_length
  have hlength := d.length_lt_size
  cases m with
  | setLength n =>
    have hsize : 1 ≤ d.ring.cells.size := show 1 ≤ d.cells.size by omega
    have hrange : 2 ≤ d.ring.cells.size - 1 := show 2 ≤ d.cells.size - 1 by omega
    have hclamp : max 2 (min n (d.cells.size - 1)) = (d.setLength n).length := by
      show _ = min (max n 2) (d.cells.size - 1)
      omega
    show d.ring.setLength? n = _
    unfold Ring.setLength?
    rw [difference?_eq hsize, Option.bind_eq_bind, Option.bind_some, clamp?_eq hrange]
    show some (⟨d.cells, max 2 (min n (d.cells.size - 1)),
      min d.position (max 2 (min n (d.cells.size - 1)))⟩ : Ring S) = _
    rw [hclamp]
    rfl
  | write s =>
    have hposition : d.ring.position < d.ring.cells.size := d.position_lt_size
    show d.ring.write? s = _
    unfold Ring.write?
    rw [replace?_eq hposition]
    rfl
  | advance =>
    have hstep : 1 ≤ if d.ring.position = 0 then d.ring.length else d.ring.position := by
      have hlength : d.ring.length = d.length := rfl
      split_ifs <;> omega
    show d.ring.advance? = _
    unfold Ring.advance?
    rw [difference?_eq hstep]
    rfl
  | clear => rfl

def Ring.performAll? (r : Ring S) (moves : List (Move S)) : Option (Ring S) :=
  moves.foldlM Move.perform? r

theorem performAll?_ring (d : DelayLine S) (moves : List (Move S)) :
    d.ring.performAll? moves = some (d.applyAll moves).ring := by
  induction moves generalizing d with
  | nil => rfl
  | cons m moves ih =>
    show (m.perform? d.ring >>= fun r => r.performAll? moves) = _
    rw [m.perform?_ring]
    exact ih (m.apply d)

theorem capacity_applyAll (d : DelayLine S) (moves : List (Move S)) :
    (d.applyAll moves).capacity = d.capacity := by
  induction moves using List.reverseRecOn with
  | nil => rfl
  | append_singleton moves m ih =>
    rw [applyAll_append, ← ih]
    cases m <;> simp [Move.apply]

theorem sound_ring (capacity : ℕ) (moves : List (Move S)) :
    ((new capacity).applyAll moves).ring.Sound capacity := by
  have hsize := capacity_applyAll (new capacity) moves
  rw [capacity_new] at hsize
  generalize (new capacity).applyAll moves = d at hsize
  exact ⟨hsize, d.two_le_length, Nat.le_sub_one_of_lt d.length_lt_size, d.position_le_length,
    ⟨d.read, d.getElem?_position⟩⟩

/-! ## The walk -/

/-- The move leaves the length alone. -/
def Move.KeepsLength : Move S → Prop
  | .setLength _ => False
  | .write _ | .advance | .clear => True

def Move.isAdvance : Move S → Bool
  | .advance => true
  | .setLength _ | .write _ | .clear => false

/-- The positions from which the head steps on. -/
def Ring.visits? (r : Ring S) : List (Move S) → Option (List ℕ)
  | [] => some []
  | m :: moves => do
    let rest ← (← m.perform? r).visits? moves
    return if m.isAdvance then r.position :: rest else rest

/-- The first `n` positions of a head that only steps on. -/
def walk (d : DelayLine S) (n : ℕ) : List ℕ := (List.range n).map fun i => (advance^[i] d).position

omit [Zero S] in
theorem walk_succ (d : DelayLine S) (n : ℕ) : d.walk (n + 1) = d.position :: d.advance.walk n := by
  unfold walk
  rw [List.range_succ_eq_map, List.map_cons, List.map_map]
  rfl

omit [Zero S] in
theorem walk_congr {d e : DelayLine S} (hp : d.position = e.position) (hl : d.length = e.length)
    (n : ℕ) : d.walk n = e.walk n :=
  List.map_congr_left fun i _ => position_iterate_advance_congr hp hl i

/-- To the head, a move that keeps the length is a step or nothing at all. -/
theorem Move.KeepsLength.apply_like {m : Move S} (h : m.KeepsLength) (d : DelayLine S) :
    (m.apply d).position = (if m.isAdvance then d.advance else d).position ∧
      (m.apply d).length = (if m.isAdvance then d.advance else d).length := by
  cases m with
  | setLength n => exact h.elim
  | write s => exact ⟨rfl, rfl⟩
  | advance => exact ⟨rfl, rfl⟩
  | clear => exact ⟨rfl, rfl⟩

/-- What is written on the way does not change the way. -/
theorem visits?_eq (d : DelayLine S) {moves : List (Move S)} (h : ∀ m ∈ moves, m.KeepsLength) :
    d.ring.visits? moves = some (d.walk (moves.countP Move.isAdvance)) := by
  induction moves generalizing d with
  | nil => rfl
  | cons m moves ih =>
    obtain ⟨hm, hrest⟩ := List.forall_mem_cons.mp h
    obtain ⟨hp, hl⟩ := hm.apply_like d
    unfold Ring.visits?
    rw [m.perform?_ring, Option.bind_eq_bind, Option.bind_some, ih _ hrest, walk_congr hp hl,
      List.countP_cons]
    cases m.isAdvance with
    | false => rfl
    | true => exact congrArg some (d.walk_succ _).symm

/-- Nor does it change where the way ends. -/
theorem position_applyAll (d : DelayLine S) {moves : List (Move S)}
    (h : ∀ m ∈ moves, m.KeepsLength) :
    (d.applyAll moves).position = (advance^[moves.countP Move.isAdvance] d).position := by
  induction moves generalizing d with
  | nil => rfl
  | cons m moves ih =>
    obtain ⟨hm, hrest⟩ := List.forall_mem_cons.mp h
    obtain ⟨hp, hl⟩ := hm.apply_like d
    show ((m.apply d).applyAll moves).position = _
    rw [ih _ hrest, position_iterate_advance_congr hp hl, List.countP_cons]
    cases m.isAdvance <;> rfl

omit [Zero S] in
/-- **One round.** From the part in use the head comes to each of its cells once. -/
theorem perm_walk {d : DelayLine S} (h : d.Inside) :
    (d.walk d.length).Perm (List.range d.length) := by
  have hlt : d.position < d.length := h
  have hposition : ∀ i < d.length, (advance^[i] d).position =
      if i ≤ d.position then d.position - i else d.position + d.length - i :=
    fun i hi => position_iterate_advance h hi.le
  have hnodup : (d.walk d.length).Nodup := by
    refine List.Nodup.map_on (fun i hi j hj hij => ?_) List.nodup_range
    rw [List.mem_range] at hi hj
    rw [hposition i hi, hposition j hj] at hij
    split_ifs at hij <;> omega
  refine (List.perm_ext_iff_of_nodup hnodup List.nodup_range).mpr fun c => ?_
  rw [walk, List.mem_map, List.mem_range]
  constructor
  · rintro ⟨i, hi, rfl⟩
    exact (length_iterate_advance d i) ▸ inside_iterate_advance h i
  · intro hc
    -- the cells above the head come after those below it
    refine ⟨if c ≤ d.position then d.position - c else d.position + d.length - c, ?_, ?_⟩
    · rw [List.mem_range]
      split_ifs <;> omega
    · rw [hposition _ (by split_ifs <;> omega)]
      split_ifs <;> omega

omit [Zero S] in
/-- After a round the head is where it was. -/
theorem position_round {d : DelayLine S} (h : d.Inside) :
    (advance^[d.length] d).position = d.position := by
  have hlt : d.position < d.length := h
  rw [position_iterate_advance h le_rfl, if_neg (by omega)]
  omega

/-- After a step the head is inside, as long as the length stays. -/
theorem inside_applyAll_advance (d : DelayLine S) (earlier later : List (Move S))
    (h : ∀ m ∈ later, m.KeepsLength) :
    (d.applyAll (earlier ++ .advance :: later)).Inside := by
  induction later using List.reverseRecOn with
  | nil =>
    rw [applyAll_append]
    exact inside_advance _
  | append_singleton later m ih =>
    have hlater := ih fun m' hm' => h m' (List.mem_append_left _ hm')
    have hm := h m (List.mem_append_right _ (List.mem_singleton_self m))
    rw [← List.cons_append, ← List.append_assoc, applyAll_append, inside_apply_iff]
    cases m with
    | setLength n => exact hm.elim
    | advance => trivial
    | write s => exact hlater
    | clear => exact hlater

/-- **The parts of a delay line fit together.** Whatever is asked of a new ring, no step aborts, and
the ring is that of the delay line. Its parts are sound. After a step the position is below the
length, until the length changes. From a position below the length, as many steps as the line is
long, with anything but a change of length between them, start from each cell in use once and from
no other, and end where they began. -/
theorem ring_walks (capacity : ℕ) (moves : List (Move S)) :
    ∃ r : Ring S, (Ring.new capacity).performAll? moves = some r ∧
      r = ((new capacity).applyAll moves).ring ∧ r.Sound capacity ∧
      (∀ earlier later, moves = earlier ++ .advance :: later → (∀ m ∈ later, m.KeepsLength) →
        r.position < r.length) ∧
      ∀ window : List (Move S), (∀ m ∈ window, m.KeepsLength) →
        window.countP Move.isAdvance = r.length → r.position < r.length →
          (∃ visits, r.visits? window = some visits ∧ visits.Perm (List.range r.length)) ∧
            ∃ r', r.performAll? window = some r' ∧ r'.position = r.position := by
  refine ⟨_, performAll?_ring (new capacity) moves, rfl, sound_ring capacity moves, ?_, ?_⟩
  · rintro earlier later rfl hlater
    exact inside_applyAll_advance _ earlier later hlater
  · intro window hwindow hcount hinside
    generalize (new capacity).applyAll moves = d at hcount hinside ⊢
    have hcount : window.countP Move.isAdvance = d.length := hcount
    have hinside : d.Inside := hinside
    refine ⟨⟨_, visits?_eq d hwindow, ?_⟩, _, performAll?_ring d window, ?_⟩
    · rw [hcount]
      exact perm_walk hinside
    · show (d.applyAll window).position = d.position
      rw [position_applyAll d hwindow, hcount, position_round hinside]

end

/-- A length that is too long, one that is shorter than the head has come, and a round of it. -/
def shrinkAndTurn : List (Move (Sample Float32)) × List (Move (Sample Float32)) :=
  ([.setLength 100, .advance, .setLength 3, .write (.pressure 1), .advance],
    [.advance, .clear, .advance, .write (.pressure 1), .advance])

theorem ring_walks_shrinkAndTurn :
    ∃ r : Ring (Sample Float32), (Ring.new 8).performAll? shrinkAndTurn.1 = some r ∧
      ((∀ m ∈ shrinkAndTurn.2, m.KeepsLength) ∧
        shrinkAndTurn.2.countP Move.isAdvance = r.length ∧ r.position < r.length) ∧
      r.Sound 8 ∧
      (∃ visits, r.visits? shrinkAndTurn.2 = some visits ∧ visits.Perm (List.range r.length)) ∧
        ∃ r', r.performAll? shrinkAndTurn.2 = some r' ∧ r'.position = r.position := by
  obtain ⟨r, hperform, hring, hsound, hinside, hwindow⟩ := ring_walks 8 shrinkAndTurn.1
  have hposition : r.position < r.length :=
    hinside [.setLength 100, .advance, .setLength 3, .write (.pressure 1)] [] rfl (by simp)
  have hkeeps : ∀ m ∈ shrinkAndTurn.2, m.KeepsLength := by
    simp [shrinkAndTurn, Move.KeepsLength]
  have hcount : shrinkAndTurn.2.countP Move.isAdvance = r.length := by
    rw [hring]
    rfl
  exact ⟨r, hperform, ⟨hkeeps, hcount, hposition⟩, hsound,
    hwindow shrinkAndTurn.2 hkeeps hcount hposition⟩

end AmbisonicReverb.DelayLine
