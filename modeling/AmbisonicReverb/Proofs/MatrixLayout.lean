import Mathlib
import AmbisonicReverb.Proofs.Checked
import AmbisonicReverb.Proofs.Designer
import AmbisonicReverb.Scalar.Binary

/-!
# The two layouts of a matrix

A matrix is written over the last one by two loops, row by row. Here the loops are run with every
step checked that could fail: the difference in the index of the fixed layout, the remainder, the
place in the generating row, and the place in the matrix (`write?`).

**Theorem (`write_layouts`).** No check fails, from order 2 on, and whatever row was designed. The
fixed layout is the transpose of the circulant matrix of the row: it commutes with the cyclic shift.
The legacy layout is symmetric, and has the rows of the fixed one in another order. In both layouts
each row and each column is a permutation of the generating row.

* `write?_eq` — the checked loops come to the end of the unchecked ones, `writeRows`.
* `Layout.square` — the matrix that a row generates, with indices modulo the order (`Fin n`).
-/

namespace AmbisonicReverb.Circulant

open scoped Matrix

variable {α : Type} {n : ℕ}

/-! ## Checked steps -/

/-- The place in the generating row of the entry in row `i` and column `j`. -/
def Layout.place? (n i j : ℕ) : Layout → Option ℕ
  | .fixed => do remainder? (← difference? (j + n) i) n
  | .legacy => remainder? (j + i) n

/-- Writes the entry in row `i` and column `j`. -/
def writeEntry? (l : Layout) (n : ℕ) (w entries : Array α) (i j : ℕ) : Option (Array α) := do
  let place ← l.place? n i j
  let x ← w[place]?
  replace? entries (n * i + j) x

/-- Writes all entries, row by row. -/
def write? (l : Layout) (n : ℕ) (w entries : Array α) : Option (Array α) :=
  (List.range n).foldlM (fun entries i =>
    (List.range n).foldlM (fun entries j => writeEntry? l n w entries i j) entries) entries

section

variable (l : Layout) (w : Vector α n) (entries : Vector α (n * n))

theorem place?_eq {i : ℕ} (hi : i < n) (j : ℕ) : l.place? n i j = some (l.place n i j) := by
  have hn : n ≠ 0 := by omega
  cases l with
  | fixed =>
    have hle : i ≤ j + n := by omega
    simp [Layout.place?, Layout.place, difference?_eq hle, remainder?_eq hn]
  | legacy => simp [Layout.place?, Layout.place, remainder?_eq hn, Nat.add_comm i j]

/-- One entry is written without a failure. -/
theorem writeEntry?_eq (i j : Fin n) :
    writeEntry? l n w.toArray entries.toArray i j =
      some (entries.set (n * i.val + j.val) (l.pick w i j) (index_lt i.isLt j.isLt)).toArray := by
  have hplace := l.place_lt i.isLt j.val
  have hindex : n * i.val + j.val < entries.toArray.size := by
    simpa using index_lt i.isLt j.isLt
  have hget : w.toArray[l.place n i j]? = some (l.pick w i j) := by
    simp [Layout.pick, hplace]
  unfold writeEntry?
  rw [place?_eq l i.isLt]
  show (w.toArray[l.place n i j]?.bind fun x => replace? entries.toArray (n * i + j) x) = _
  rw [hget, Option.bind_some, replace?_eq hindex]
  rfl

variable {m : ℕ}

theorem foldlM_writeEntry?_eq (hm : m ≤ n) (i : Fin n) :
    (List.range m).foldlM (fun entries j => writeEntry? l n w.toArray entries i j)
        entries.toArray =
      some (writeRow l w i entries m hm).toArray := by
  induction m with
  | zero => simp [writeRow]
  | succ m ih =>
    have hstep : writeRow l w i entries (m + 1) hm =
        (writeRow l w i entries m (by omega)).set (n * i.val + m) (l.pick w i ⟨m, hm⟩)
          (index_lt i.isLt hm) := Nat.fold_succ ..
    rw [List.range_succ, List.foldlM_append, ih (by omega), hstep]
    simpa using writeEntry?_eq l w (writeRow l w i entries m (by omega)) i ⟨m, hm⟩

theorem foldlM_rows_eq (hm : m ≤ n) :
    (List.range m).foldlM (fun entries i =>
        (List.range n).foldlM (fun entries j => writeEntry? l n w.toArray entries i j) entries)
        entries.toArray =
      some (writeRows l w entries m hm).toArray := by
  induction m with
  | zero => simp [writeRows]
  | succ m ih =>
    have hstep : writeRows l w entries (m + 1) hm =
        writeRow l w ⟨m, hm⟩ (writeRows l w entries m (by omega)) n le_rfl := Nat.fold_succ ..
    rw [List.range_succ, List.foldlM_append, ih (by omega), hstep]
    simpa using foldlM_writeEntry?_eq l w (writeRows l w entries m (by omega)) le_rfl ⟨m, hm⟩

/-- **No check fails.** -/
theorem write?_eq :
    write? l n w.toArray entries.toArray = some (writeRows l w entries n le_rfl).toArray :=
  foldlM_rows_eq l w entries le_rfl

end

/-! ## Designers -/

namespace Designer

variable [Elementary α]

/-- Designs a matrix and stores it over another one, with every step checked. -/
def fill? (run : Run α n) (g : Designer α n) (l : Layout) (entries : Array α) :
    Option (Designer α n × Array α) :=
  if n = 1 then (replace? entries 0 1).map (g, ·)
  else
    let g := g.updateBy run
    (write? l n g.row.toArray entries).map (g, ·)

/-- The designer writes what it writes without checks. -/
theorem fill?_eq_fill (run : Run α n) (g : Designer α n) (l : Layout)
    (entries : Vector α (n * n)) :
    g.fill? run l entries.toArray =
      some ((g.fill run l entries).1, (g.fill run l entries).2.toArray) := by
  unfold fill? fill
  by_cases hone : n = 1
  · subst hone
    simp [replace?]
  · rw [if_neg hone, dif_neg hone]
    show (write? l n (g.updateBy run).row.toArray entries.toArray).map (g.updateBy run, ·) = _
    rw [write?_eq]
    rfl

end Designer

/-! ## Matrices -/

/-- The stored matrix. -/
def stored (entries : Vector α (n * n)) : Matrix (Fin n) (Fin n) α := Matrix.of (entryAt entries)

/-- The matrix that a row generates. -/
def Layout.square (l : Layout) (w : Vector α n) : Matrix (Fin n) (Fin n) α := Matrix.of (l.pick w)

section

variable (l : Layout) (w : Vector α n)

theorem stored_writeRows (entries : Vector α (n * n)) :
    stored (writeRows l w entries n le_rfl) = l.square w := by
  ext i j
  exact (entryAt_writeRows l w entries le_rfl i j).trans (if_pos i.isLt)

theorem square_fixed_apply (i j : Fin n) : Layout.fixed.square w i j = w.get (j - i) := by
  have hplace : Layout.fixed.place n i j = (j - i : Fin n).val := by
    have hi := i.isLt
    rw [Fin.sub_def]
    show (j.val + n - i.val) % n = (n - i.val + j.val) % n
    congr 1
    omega
  exact congrArg w.get (Fin.ext hplace)

theorem square_legacy_apply (i j : Fin n) : Layout.legacy.square w i j = w.get (i + j) := rfl

/-- The fixed layout is a circulant matrix, transposed. -/
theorem square_fixed : Layout.fixed.square w = (Matrix.circulant w.get)ᵀ := by
  ext i j
  exact square_fixed_apply w i j

theorem isSymm_square_legacy : (Layout.legacy.square w).IsSymm := by
  ext i j
  exact congrArg w.get (add_comm j i)

variable [NeZero n]

/-- Each row is the generating row in another order. -/
theorem exists_row_perm (i : Fin n) : ∃ σ : Equiv.Perm (Fin n), l.square w i = w.get ∘ σ := by
  cases l with
  | fixed => exact ⟨Equiv.subRight i, funext (square_fixed_apply w i)⟩
  | legacy => exact ⟨Equiv.addLeft i, rfl⟩

/-- So is each column. -/
theorem exists_column_perm (j : Fin n) :
    ∃ σ : Equiv.Perm (Fin n), (l.square w)ᵀ j = w.get ∘ σ := by
  cases l with
  | fixed => exact ⟨Equiv.subLeft j, funext fun i => square_fixed_apply w i j⟩
  | legacy => exact ⟨Equiv.addRight j, rfl⟩

/-- A step in both directions leads to the same entry of the fixed layout. -/
theorem square_fixed_step (i j : Fin n) :
    Layout.fixed.square w (i + 1) j = Layout.fixed.square w i (j - 1) := by
  rw [square_fixed_apply, square_fixed_apply]
  congr 1
  abel

/-- The fixed layout commutes with the cyclic shift, in whatever numbers its entries are read. -/
theorem commute_square_fixed {R : Type} [Semiring R] (f : α → R) :
    Commute ((Layout.fixed.square w).map f)
      (Equiv.Perm.permMatrix R (Equiv.addRight (1 : Fin n))) := by
  show (Layout.fixed.square w).map f * _ = _ * (Layout.fixed.square w).map f
  ext i j
  rw [Equiv.Perm.permMatrix, PEquiv.mul_toMatrix_toPEquiv, PEquiv.toMatrix_toPEquiv_mul]
  show f (Layout.fixed.square w i (j + -1)) = f (Layout.fixed.square w (i + 1) j)
  rw [square_fixed_step, sub_eq_add_neg]

/-- The rows of the legacy layout are those of the fixed one, counted backwards. -/
theorem square_legacy_row (i : Fin n) : Layout.legacy.square w i = Layout.fixed.square w (-i) := by
  funext j
  rw [square_legacy_apply, square_fixed_apply, sub_neg_eq_add, add_comm]

end

/-! ## Both layouts -/

/-- What the two matrices that a row generates have in common, and how they differ. Indices are
taken modulo the order. -/
structure Layouts (w : Vector α n) (fixed legacy : Matrix (Fin n) (Fin n) α) : Prop where
  fixed_apply : ∀ i j, fixed i j = w.get (j - i)
  fixed_eq : fixed = (Matrix.circulant w.get)ᵀ
  legacy_apply : ∀ i j, legacy i j = w.get (i + j)
  row_perm : ∀ m ∈ [fixed, legacy], ∀ i, ∃ σ : Equiv.Perm (Fin n), m i = w.get ∘ σ
  column_perm : ∀ m ∈ [fixed, legacy], ∀ j, ∃ σ : Equiv.Perm (Fin n), mᵀ j = w.get ∘ σ
  /-- In any numbers as which the entries are read. -/
  commute_shift : ∀ (R : Type) [Semiring R] (f : α → R),
    Commute (fixed.map f) (Equiv.Perm.permMatrix R (finRotate n))
  symm : legacy.IsSymm
  legacy_row : ∀ i, legacy i = fixed (-i)

theorem layouts_square (hn : 2 ≤ n) (w : Vector α n) :
    Layouts w (Layout.fixed.square w) (Layout.legacy.square w) := by
  have : NeZero n := ⟨by omega⟩
  have hshift : finRotate n = Equiv.addRight 1 := by
    ext i
    rw [finRotate_apply]
    rfl
  have hboth : ∀ m ∈ [Layout.fixed.square w, Layout.legacy.square w], ∃ l : Layout,
      m = l.square w := by
    intro m hm
    rcases List.mem_pair.mp hm with rfl | rfl
    · exact ⟨.fixed, rfl⟩
    · exact ⟨.legacy, rfl⟩
  refine {
    fixed_apply := square_fixed_apply w
    fixed_eq := square_fixed w
    legacy_apply := square_legacy_apply w
    row_perm := fun m hm i => ?_
    column_perm := fun m hm j => ?_
    commute_shift := fun R _ f => ?_
    symm := isSymm_square_legacy w
    legacy_row := square_legacy_row w }
  · obtain ⟨l, rfl⟩ := hboth m hm
    exact exists_row_perm l w i
  · obtain ⟨l, rfl⟩ := hboth m hm
    exact exists_column_perm l w j
  · rw [hshift]
    exact commute_square_fixed w f

/-- **The layouts of a matrix.** From order 2 on, a designer with any transform comes to some
generating row, and writes the matrix of that row over the last one without a failure. So do the
loops for any row, whatever it is, and what they write is the matrix of the library. -/
theorem write_layouts [Elementary α] (hn : 2 ≤ n) (w : Vector α n) :
    ∃ matrixOf : Layout → Matrix (Fin n) (Fin n) α,
      Layouts w (matrixOf .fixed) (matrixOf .legacy) ∧
      ∀ (l : Layout) (entries : Vector α (n * n)), ∃ written : Vector α (n * n),
        write? l n w.toArray entries.toArray = some written.toArray ∧
          stored written = matrixOf l ∧ rows written = matrix l w.toArray ∧
          ∀ (run : Designer.Run α n) (g : Designer α n), (g.updateBy run).row = w →
            g.fill? run l entries.toArray = some (g.updateBy run, written.toArray) := by
  refine ⟨fun l => l.square w, layouts_square hn w, fun l entries => ?_⟩
  refine ⟨writeRows l w entries n le_rfl, write?_eq l w entries, stored_writeRows l w entries,
    rows_writeRows l w entries, ?_⟩
  rintro run g rfl
  have hone : n ≠ 1 := by omega
  unfold Designer.fill?
  rw [if_neg hone]
  show (write? l n (g.updateBy run).row.toArray entries.toArray).map (g.updateBy run, ·) = _
  rw [write?_eq]
  rfl

/-- A row of three different entries. -/
def smallRow : Vector Float32 3 := #v[0.5, 0.25, 0.125]

theorem write_layouts_smallRow :
    2 ≤ 3 ∧ ∃ matrixOf : Layout → Matrix (Fin 3) (Fin 3) Float32,
      Layouts smallRow (matrixOf .fixed) (matrixOf .legacy) ∧
      ∀ (l : Layout) (entries : Vector Float32 (3 * 3)), ∃ written : Vector Float32 (3 * 3),
        write? l 3 smallRow.toArray entries.toArray = some written.toArray ∧
          stored written = matrixOf l ∧ rows written = matrix l smallRow.toArray ∧
          ∀ (run : Designer.Run Float32 3) (g : Designer Float32 3),
            (g.updateBy run).row = smallRow →
              g.fill? run l entries.toArray = some (g.updateBy run, written.toArray) :=
  ⟨by decide, write_layouts (by decide) smallRow⟩

end AmbisonicReverb.Circulant
