import Mathlib
import AmbisonicReverb.Circulant
import AmbisonicReverb.Proofs.Derive

/-!
# Matrices in place

A circulant matrix is designed in memory that is not cleared: the eigenvalues are written over the
last transform, the transform runs in place, and the generating row and the entries of the matrix
are written over the last ones. `Circulant.Designer` is that memory. The transform is any function
(`Designer.Run`) whose result does not depend on what was in its scratch memory, which has a fixed
size.

**Theorem (`Designer.rows_fill`).** Whatever the memory holds, the rows that are written are those
of `Circulant.matrix` for the row that the transform makes of the eigenvalues alone. With the
inverse transform of the library it is `Circulant.row` (`Designer.toArray_row_direct`).

Eigenvalues are written in pairs, `k` and `n - k`, for `k` up to half the order, and no pair touches
a cell of an earlier one (`getElem_enter`). Entries are written row by row (`entryAt_writeRows`).
-/

namespace AmbisonicReverb.Circulant

variable {α β : Type}

/-! ## Eigenvalues -/

section

variable [Elementary α] {order : ℕ}

/-- Writes eigenvalue `k` and its conjugate, eigenvalue `order - k`. Some are their own. -/
def enterAt (buffer : Vector (Phasor α) order) (k : ℕ) (hk : k < order) :
    Vector (Phasor α) order :=
  let buffer := buffer.set k (chirp order k)
  if h : 0 < k ∧ order - k ≠ k then buffer.set (order - k) (chirp order k).conj else buffer

/-- Writes the first `m` eigenvalues and their conjugates. -/
def enter (buffer : Vector (Phasor α) order) (m : ℕ) (hm : m ≤ order) : Vector (Phasor α) order :=
  m.fold (fun k hk buffer => enterAt buffer k (hk.trans_le hm)) buffer

/-- Makes eigenvalue `k` real. -/
def dropImaginary (buffer : Vector (Phasor α) order) (k : ℕ) (hk : k < order) :
    Vector (Phasor α) order :=
  buffer.set k ⟨buffer[k].re, 0⟩

/-- Writes all eigenvalues. -/
def enterSpectrum (h : 1 < order) (buffer : Vector (Phasor α) order) : Vector (Phasor α) order :=
  let buffer := enter buffer (order / 2 + 1) (by omega)
  let buffer := if order % 2 = 0 then dropImaginary buffer (order / 2) (by omega) else buffer
  dropImaginary buffer 0 (by omega)

variable (buffer : Vector (Phasor α) order) {i k m : ℕ}

theorem getElem_enterAt (hk : k < order) (hi : i < order) :
    (enterAt buffer k hk)[i] =
      if i = k then chirp order k
      else if 0 < k ∧ i = order - k then (chirp order k).conj
      else buffer[i] := by
  unfold enterAt
  by_cases hpair : 0 < k ∧ order - k ≠ k
  · rw [dif_pos hpair, Vector.getElem_set, Vector.getElem_set]
    split_ifs <;> first | rfl | omega
  · rw [dif_neg hpair, Vector.getElem_set]
    split_ifs <;> first | rfl | omega

/-- After `m` steps the first `m` cells are written, and the last ones but for eigenvalue 0. The
cells between them are as before. -/
theorem getElem_enter (hm : m ≤ order / 2 + 1) (hm' : m ≤ order) (hi : i < order) :
    (enter buffer m hm')[i] =
      if i < m then chirp order i
      else if order / 2 < i ∧ order - i < m then (chirp order (order - i)).conj
      else buffer[i] := by
  induction m with
  | zero => simp [enter]
  | succ m ih =>
    have hstep : enter buffer (m + 1) hm' = enterAt (enter buffer m (by omega)) m (by omega) :=
      Nat.fold_succ ..
    rw [hstep, getElem_enterAt, ih (by omega)]
    by_cases hlow : i = m
    · rw [if_pos hlow, if_pos (by omega), hlow]
    · rw [if_neg hlow]
      by_cases hhigh : 0 < m ∧ i = order - m
      · have hpair : order - i = m := by omega
        rw [if_pos hhigh, if_neg (by omega), if_pos (by omega), hpair]
      · rw [if_neg hhigh]
        split_ifs <;> first | rfl | omega

theorem getElem_dropImaginary (hk : k < order) (hi : i < order) :
    (dropImaginary buffer k hk)[i] = if i = k then ⟨buffer[i].re, 0⟩ else buffer[i] := by
  unfold dropImaginary
  rw [Vector.getElem_set]
  by_cases heq : i = k
  · subst heq
    simp
  · rw [if_neg heq, if_neg (Ne.symm heq)]

/-- Nothing is left of what was in the buffer. -/
theorem toArray_enterSpectrum (h : 1 < order) :
    (enterSpectrum h buffer).toArray = spectrum order := by
  have hall : ∀ i (hi : i < order), (enter buffer (order / 2 + 1) (by omega))[i] =
      if i ≤ order / 2 then chirp order i else (chirp order (order - i)).conj := by
    intro i hi
    rw [getElem_enter buffer le_rfl]
    split_ifs <;> first | rfl | omega
  refine Array.ext (by simp [spectrum]) fun i hi hi' => ?_
  have hi : i < order := by simpa using hi
  have hspectrum : (spectrum order : Array (Phasor α))[i] =
      if i = 0 ∨ 2 * i = order then ⟨(chirp order i).re, 0⟩
      else if i ≤ order / 2 then chirp order i else (chirp order (order - i)).conj := by
    simp [spectrum]
  rw [hspectrum]
  show (enterSpectrum h buffer)[i] = _
  unfold enterSpectrum
  by_cases heven : order % 2 = 0
  · simp only [heven, if_true, getElem_dropImaginary, hall]
    split_ifs <;> first | rfl | omega
  · simp only [heven, if_false, getElem_dropImaginary, hall]
    split_ifs <;> first | rfl | omega

end

/-! ## The generating row -/

/-- The memory of a designer. -/
structure Designer (α : Type) (order : ℕ) where
  spectrum : Vector (Phasor α) order
  scratch : Array (Phasor α)
  row : Vector α order

namespace Designer

/-- A transform in place, and what it leaves in its scratch memory. -/
abbrev Run (α : Type) (n : ℕ) : Type :=
  Vector (Phasor α) n → Array (Phasor α) → Vector (Phasor α) n × Array (Phasor α)

variable {order : ℕ}

/-- With scratch memory of this size, the result does not depend on what was in it. -/
structure Run.IgnoresScratch (run : Run α order) (size : ℕ) : Prop where
  size_scratch : ∀ buffer (scratch : Array (Phasor α)), scratch.size = size →
    (run buffer scratch).2.size = size
  congr : ∀ buffer (scratch scratch' : Array (Phasor α)), scratch.size = size →
    scratch'.size = size → (run buffer scratch).1 = (run buffer scratch').1

section

variable [Elementary α]

/-- Designs the generating row with any transform at all. A single path needs none. -/
def updateBy (run : Run α order) (g : Designer α order) : Designer α order :=
  if h : 1 < order then
    let (spectrum, scratch) := run (enterSpectrum h g.spectrum) g.scratch
    { spectrum
      scratch
      row := Vector.zipWith (fun _ p => p.re * (1 / Scalar.ofNat order)) g.row spectrum }
  else g

/-- The generating row that a transform makes of the eigenvalues, with clear scratch memory. -/
def Run.row (run : Run α order) (size : ℕ) : Vector α order :=
  if 1 < order then
    (run ⟨Circulant.spectrum order, by simp [Circulant.spectrum]⟩ (.replicate size ⟨0, 0⟩)).1.map
      fun p => p.re * (1 / Scalar.ofNat order)
  else .replicate order 1

variable {run : Run α order} {size : ℕ} (hrun : run.IgnoresScratch size) (g : Designer α order)
  (hscratch : g.scratch.size = size)

include hrun hscratch

theorem size_scratch_updateBy : (g.updateBy run).scratch.size = size := by
  unfold updateBy
  split_ifs
  · exact hrun.size_scratch _ _ hscratch
  · exact hscratch

/-- Nothing is left of the last transform. -/
theorem row_updateBy (h : 1 < order) : (g.updateBy run).row = run.row size := by
  have hspectrum : enterSpectrum h g.spectrum =
      ⟨Circulant.spectrum order, by simp [Circulant.spectrum]⟩ :=
    Vector.toArray_inj.mp (toArray_enterSpectrum g.spectrum h)
  unfold updateBy Run.row
  rw [dif_pos h, if_pos h, hspectrum]
  dsimp only
  rw [hrun.congr _ g.scratch (.replicate size ⟨0, 0⟩) hscratch Array.size_replicate]
  refine Vector.ext fun i hi => ?_
  simp

end

variable (β) [Elementary α] [Elementary β] [Widening α β]

/-- The inverse transform. Terms are added in the wide type. -/
def inverse (buffer : Array (Phasor α)) : Array (Phasor α) :=
  (Phasor.inverseDFT (buffer.map fun p => (⟨widen p.re, widen p.im⟩ : Phasor β))).map fun p =>
    ⟨narrow p.re, narrow p.im⟩

/-- The transform by its defining sums. Its input is left in the scratch memory, as far as that
goes. -/
def Run.direct (order : ℕ) : Run α order := fun buffer scratch =>
  (⟨inverse β buffer.toArray, by simp [inverse, Phasor.inverseDFT]⟩,
    scratch.mapIdx fun i p => buffer[i]?.getD p)

omit [Elementary α] in
theorem Run.ignoresScratch_direct (order size : ℕ) :
    (direct β order : Run α order).IgnoresScratch size where
  size_scratch _ _ hscratch := Array.size_mapIdx.trans hscratch
  congr _ _ _ _ _ := rfl

/-- With this transform the row is that of the library. -/
theorem toArray_row_direct (order size : ℕ) :
    ((Run.direct β order : Run α order).row size).toArray = Circulant.row (β := β) order := by
  unfold Run.row Circulant.row
  by_cases h : 1 < order
  · rw [if_pos h, if_neg (by omega), Vector.toArray_map]
    unfold Run.direct inverse
    rw [Array.map_map]
    rfl
  · rw [if_neg h, if_pos (by omega)]
    rfl

end Designer

/-! ## Entries -/

section

variable {order i j i' j' : ℕ}

theorem index_lt (hi : i < order) (hj : j < order) : order * i + j < order * order :=
  calc order * i + j
      < order * i + order := Nat.add_lt_add_left hj _
    _ = order * (i + 1) := (Nat.mul_succ order i).symm
    _ ≤ order * order := Nat.mul_le_mul_left order hi

theorem index_inj (hj : j < order) (hj' : j' < order) :
    order * i + j = order * i' + j' ↔ i = i' ∧ j = j' := by
  have hpos : 0 < order := by omega
  refine ⟨fun h => ?_, by rintro ⟨rfl, rfl⟩; rfl⟩
  have hdiv := congrArg (· / order) h
  have hmod := congrArg (· % order) h
  simp only [Nat.mul_add_div hpos, Nat.div_eq_of_lt hj, Nat.div_eq_of_lt hj', add_zero] at hdiv
  simp only [Nat.mul_add_mod, Nat.mod_eq_of_lt hj, Nat.mod_eq_of_lt hj'] at hmod
  exact ⟨hdiv, hmod⟩

/-- The entry in row `i` and column `j` of a matrix that is stored row by row. -/
def entryAt (entries : Vector α (order * order)) (i j : Fin order) : α :=
  have := index_lt i.isLt j.isLt
  entries[order * i.val + j.val]

/-- The entry in row `i` and column `j` of the matrix that the row `w` generates. -/
def Layout.pick (l : Layout) (w : Vector α order) (i j : Fin order) : α :=
  have := l.place_lt i.isLt j.val
  w[l.place order i.val j.val]

def rows (entries : Vector α (order * order)) : Array (Array α) :=
  Array.ofFn fun i => Array.ofFn (entryAt entries i)

/-- Writes the first `m` entries of row `i`. -/
def writeRow (l : Layout) (w : Vector α order) (i : Fin order)
    (entries : Vector α (order * order)) (m : ℕ) (hm : m ≤ order) : Vector α (order * order) :=
  m.fold (fun j hj entries =>
    entries.set (order * i.val + j) (l.pick w i ⟨j, hj.trans_le hm⟩)
      (index_lt i.isLt (hj.trans_le hm))) entries

/-- Writes the first `m` rows. -/
def writeRows (l : Layout) (w : Vector α order) (entries : Vector α (order * order)) (m : ℕ)
    (hm : m ≤ order) : Vector α (order * order) :=
  m.fold (fun i hi entries => writeRow l w ⟨i, hi.trans_le hm⟩ entries order le_rfl) entries

variable (l : Layout) (w : Vector α order) (entries : Vector α (order * order))

theorem entryAt_set (i j i' j' : Fin order) (x : α) :
    entryAt (entries.set (order * i.val + j.val) x (index_lt i.isLt j.isLt)) i' j' =
      if i = i' ∧ j = j' then x else entryAt entries i' j' := by
  unfold entryAt
  simp only [Vector.getElem_set, index_inj j.isLt j'.isLt, Fin.ext_iff]

theorem rows_replicate (order : ℕ) (x : α) :
    rows (.replicate (order * order) x) = Array.replicate order (Array.replicate order x) := by
  refine Array.ext (by simp [rows]) fun i _ _ => ?_
  refine Array.ext (by simp [rows]) fun j _ _ => ?_
  simp [rows, entryAt]

variable {m : ℕ}

/-- No other row is touched. -/
theorem entryAt_writeRow (hm : m ≤ order) (i i' j' : Fin order) :
    entryAt (writeRow l w i entries m hm) i' j' =
      if i = i' ∧ j'.val < m then l.pick w i' j' else entryAt entries i' j' := by
  induction m with
  | zero => simp [writeRow]
  | succ m ih =>
    have hstep : writeRow l w i entries (m + 1) hm =
        (writeRow l w i entries m (by omega)).set (order * i.val + m) (l.pick w i ⟨m, hm⟩)
          (index_lt i.isLt hm) := Nat.fold_succ ..
    rw [hstep, entryAt_set _ i ⟨m, hm⟩, ih (by omega)]
    by_cases hlast : i = i' ∧ (⟨m, hm⟩ : Fin order) = j'
    · obtain ⟨rfl, rfl⟩ := hlast
      simp
    · rw [if_neg hlast]
      simp only [Fin.ext_iff] at hlast ⊢
      split_ifs <;> first | rfl | omega

theorem entryAt_writeRows (hm : m ≤ order) (i j : Fin order) :
    entryAt (writeRows l w entries m hm) i j =
      if i.val < m then l.pick w i j else entryAt entries i j := by
  induction m with
  | zero => simp [writeRows]
  | succ m ih =>
    have hstep : writeRows l w entries (m + 1) hm =
        writeRow l w ⟨m, hm⟩ (writeRows l w entries m (by omega)) order le_rfl :=
      Nat.fold_succ ..
    rw [hstep, entryAt_writeRow, ih (by omega)]
    simp only [Fin.ext_iff]
    split_ifs <;> first | rfl | omega

theorem rows_writeRows : rows (writeRows l w entries order le_rfl) = matrix l w.toArray := by
  have hentry : entryAt (writeRows l w entries order le_rfl) = l.pick w := by
    funext i j
    rw [entryAt_writeRows, if_pos i.isLt]
  unfold rows
  rw [hentry]
  refine Array.ext (by simp [matrix]) fun i _ _ => ?_
  refine Array.ext (by simp [matrix]) fun j _ _ => ?_
  simp [matrix, Layout.pick]

/-- Nothing is stored but the rows. -/
theorem rows_injective : Function.Injective (rows : Vector α (order * order) → _) := by
  intro entries entries' h
  refine Vector.ext fun e he => ?_
  have hpos : 0 < order := Nat.pos_of_mul_pos_left (Nat.zero_lt_of_lt he)
  have hi : e / order < order := Nat.div_lt_of_lt_mul he
  have hj : e % order < order := Nat.mod_lt e hpos
  have hentry : ∀ entries : Vector α (order * order),
      (rows entries)[e / order]?.bind (·[e % order]?) = some entries[e] := by
    intro entries
    simp [rows, entryAt, hi, hj, Nat.div_add_mod]
  exact Option.some.inj ((hentry entries).symm.trans (h ▸ hentry entries'))

end

namespace Designer

variable [Elementary α] {order : ℕ}

/-- Before the first design. -/
def new (order scratchSize : ℕ) : Designer α order where
  spectrum := .replicate order ⟨0, 0⟩
  scratch := .replicate scratchSize ⟨0, 0⟩
  row := .replicate order 1

/-- Designs a matrix and stores it over another one. -/
def fill (run : Run α order) (g : Designer α order) (l : Layout)
    (entries : Vector α (order * order)) : Designer α order × Vector α (order * order) :=
  if h : order = 1 then (g, entries.set 0 1 (by simp [h]))
  else
    let g := g.updateBy run
    (g, writeRows l g.row entries order le_rfl)

variable {run : Run α order} {size : ℕ} (hrun : run.IgnoresScratch size) (g : Designer α order)
  (hscratch : g.scratch.size = size) (l : Layout) (entries : Vector α (order * order))

include hrun hscratch

theorem size_scratch_fill : (g.fill run l entries).1.scratch.size = size := by
  unfold fill
  split_ifs
  · exact hscratch
  · exact size_scratch_updateBy hrun g hscratch

/-- **Nothing is left of the matrix that was stored, nor of the transform that gave it.** -/
theorem rows_fill (h : 0 < order) :
    rows (g.fill run l entries).2 = matrix l (run.row size).toArray := by
  by_cases hone : order = 1
  · subst hone
    have hrow : (run.row size).toArray = #[1] := rfl
    have hentry : entryAt (g.fill run l entries).2 = fun _ _ => 1 := by
      funext i j
      have hsame : 0 = i ∧ 0 = j := ⟨Subsingleton.elim 0 i, Subsingleton.elim 0 j⟩
      exact (entryAt_set entries 0 0 i j 1).trans (if_pos hsame)
    unfold rows
    rw [hentry, hrow]
    cases l <;> simp [matrix] <;> rfl
  · unfold fill
    rw [dif_neg hone, rows_writeRows, row_updateBy hrun g hscratch (by omega)]

end Designer

end AmbisonicReverb.Circulant
