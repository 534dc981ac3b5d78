import Mathlib
import AmbisonicReverb.Proofs.Restarts

/-!
# What a search reports

A search reports a point and a value. The value is that of a vertex of its last simplex, and each
vertex was evaluated (`Settles.logged`). The point need not be that of the vertex: a look around
moves each coordinate ahead, behind and back again, and sums are rounded.

**Theorem (`minimise_reports`).** In any arithmetic and for any objective, the reported value was
the result of an evaluation. A search that gives up reports the point of this evaluation, and a
search that says that it has converged reports the point with each coordinate there and back again.
So the reported point is the evaluated one exactly if the search gives up or each coordinate comes
back.

In binary64 numbers 1.5 does not come back from a step of 0.001, and the objective may have another
value at the reported point (`not_evaluated_easySearch`).
-/

namespace AmbisonicReverb.Simplex

variable {σ κ ν : Type} {f : Objective σ κ ν} {t u : ℕ × (List (Vertex κ ν) × σ)}

/-! ## Vertices in the log -/

/-- All vertices were evaluated. -/
def Logged (log : List (Vertex κ ν)) (vertices : Array (Vertex κ ν)) : Prop :=
  ∀ v ∈ vertices, v ∈ log

theorem Logged.mono {log log' : List (Vertex κ ν)} {vertices : Array (Vertex κ ν)}
    (h : Logged log vertices) (hsub : log ⊆ log') : Logged log' vertices :=
  fun v hv => hsub (h v hv)

theorem Ends.logged {x : Array κ} {Q : Vertex κ ν → ℕ × (List (Vertex κ ν) × σ) → Prop}
    (h : ∀ v t', v.point = x → t.2.1 ⊆ t'.2.1 → v ∈ t'.2.1 → Q v t') :
    Ends (evaluate (logging f) x) t Q :=
  h ⟨x, (f x t.2.2).1⟩ _ rfl (List.subset_append_left _ _) (List.mem_append_right _ (by simp))

theorem Ends.mapM_logged (xs : List (Array κ)) (t : ℕ × (List (Vertex κ ν) × σ)) :
    Ends (xs.mapM (evaluate (logging f))) t fun vs t' =>
      t.2.1 ⊆ t'.2.1 ∧ ∀ v ∈ vs, v ∈ t'.2.1 := by
  induction xs generalizing t with
  | nil => exact ⟨List.Subset.refl _, fun v hv => absurd hv List.not_mem_nil⟩
  | cons x xs ih =>
    rw [List.mapM_cons]
    refine Ends.bind (Ends.logged fun v t₁ _ hgrows hv => ?_)
    refine Ends.bind ((ih t₁).mono fun vs t₂ h => ?_)
    exact Ends.pure ⟨List.Subset.trans hgrows h.1, List.forall_mem_cons.mpr ⟨h.1 hv, h.2⟩⟩

theorem Ends.allLogged (xs : List (Array κ)) :
    Ends (evaluateAll (logging f) xs) t fun vs t' => t.2.1 ⊆ t'.2.1 ∧ Logged t'.2.1 vs := by
  unfold evaluateAll
  refine Ends.bind ((Ends.mapM_logged xs t).mono fun vs t' h => Ends.pure ⟨h.1, fun v hv => ?_⟩)
  exact h.2 v (List.mem_toArray.mp hv)

section

variable [Scalar ν] {s r : Figure κ ν}

theorem Figure.logged_replace {log : List (Vertex κ ν)} (hs : Logged log s.vertices) {i : ℕ}
    {w : Vertex κ ν} (hw : w ∈ log) : Logged log (s.replace i w).vertices := by
  intro v hv
  rcases Array.mem_or_eq_of_mem_setIfInBounds hv with hv | rfl
  · exact hs v hv
  · exact hw

variable [Scalar κ] {settings : Settings κ ν} {limit : ν} {start : Array κ}
  {scale : List (ℕ × κ)} {countdown restarts n : ℕ}

/-- A move replaces a vertex by one that it evaluates, or evaluates all vertices again. -/
theorem Figure.logged_move (hs : Logged t.2.1 s.vertices) :
    Ends (s.move (logging f)) t fun m t' => Logged t'.2.1 m.figure.vertices := by
  unfold Figure.move
  refine Ends.bind (Ends.logged fun reflected t₁ _ h₁ hreflected => ?_)
  refine Ends.ite (fun _ => ?_) (fun _ => Ends.ite (fun _ => ?_)
    (fun _ => Ends.ite (fun _ => ?_) (fun _ => ?_)))
  · refine Ends.bind (Ends.logged fun expanded t₂ _ h₂ hexpanded => Ends.pure ?_)
    refine Figure.logged_replace (hs.mono (List.Subset.trans h₁ h₂)) ?_
    split_ifs
    · exact h₂ hreflected
    · exact hexpanded
  · exact Ends.pure (Figure.logged_replace (hs.mono h₁) hreflected)
  · refine Ends.bind (Ends.logged fun contracted t₂ _ h₂ hcontracted => ?_)
    refine Ends.ite (fun _ => ?_) (fun _ => ?_)
    · exact Ends.bind ((Ends.allLogged _).mono fun vertices t₃ h₃ => Ends.pure h₃.2)
    · exact Ends.pure (Figure.logged_replace (hs.mono (List.Subset.trans h₁ h₂)) hcontracted)
  · refine Ends.bind (Ends.logged fun contracted t₂ _ h₂ hcontracted => Ends.pure ?_)
    refine Figure.logged_replace (hs.mono (List.Subset.trans h₁ h₂)) ?_
    split_ifs
    · exact hcontracted
    · exact h₂ hreflected

theorem Descends.logged (h : Descends (logging f) settings limit s t r u)
    (hs : Logged t.2.1 s.vertices) : Logged u.2.1 r.vertices := by
  induction h with
  | spent => exact hs
  | shrunk _ hmove _ ih => exact ih ((Figure.logged_move hs).of_eq hmove)
  | moved _ hmove _ _ _ ih => exact ih ((Figure.logged_move hs).of_eq hmove)
  | apart _ hmove _ _ _ _ ih => exact ih ((Figure.logged_move hs).of_eq hmove)
  | agreed _ hmove => exact (Figure.logged_move hs).of_eq hmove

omit [Scalar ν] in
theorem corners_logged (start : Array κ) (steps : List (ℕ × κ)) :
    Ends (corners (logging f) start steps) t fun vertices t' => Logged t'.2.1 vertices := by
  unfold corners
  refine Ends.bind (Ends.logged fun last t₁ _ _ hlast => ?_)
  refine Ends.bind ((Ends.allLogged _).mono fun others t₂ h₂ => Ends.pure fun v hv => ?_)
  rcases Array.mem_push.mp hv with hv | rfl
  · exact h₂.2 v hv
  · exact h₂.1 hlast

/-- At the end of a search all vertices were evaluated. -/
theorem Settles.logged (h : Settles (logging f) settings start scale countdown t s u) :
    Logged u.2.1 s.vertices := by
  obtain ⟨vertices, t', hcorners, hdescends⟩ := h
  exact hdescends.logged ((corners_logged start scale).of_eq hcorners)

/-! ## There and back again -/

/-- A coordinate after a step ahead, two steps behind, and a step ahead. -/
def thereAndBack (a d : κ) : κ := a + d + -(2.0 * d) + d

/-- The point after a look around that found nothing. -/
def Settings.restored (settings : Settings κ ν) (x : Array κ) : Array κ :=
  x.mapIdx fun i a => thereAndBack a (settings.step.getD i 0 * nudgeShare)

omit [Scalar ν] in
theorem nudge_thereAndBack (x : Array κ) (i : ℕ) (d : κ) :
    nudge (nudge (nudge x i d) i (-(2.0 * d))) i d = x.modify i (thereAndBack · d) := by
  refine Array.ext (by simp [nudge]) fun j hj _ => ?_
  simp only [nudge, Array.getElem_modify]
  split_ifs <;> rfl

omit [Scalar κ] [Scalar ν] in
/-- Entries modified one after the other. -/
theorem foldl_modify_range (g : ℕ → κ → κ) (x : Array κ) (k : ℕ) :
    (List.range k).foldl (fun y i => y.modify i (g i)) x =
      x.mapIdx fun i a => if i < k then g i a else a := by
  induction k with
  | zero => exact Array.ext (by simp) fun i _ _ => by simp
  | succ k ih =>
    rw [List.range_succ, List.foldl_append, ih]
    refine Array.ext (by simp) fun i hi _ => ?_
    simp only [List.foldl_cons, List.foldl_nil, Array.getElem_modify, Array.getElem_mapIdx]
    rcases lt_trichotomy i k with h | rfl | h
    · rw [if_neg h.ne', if_pos h, if_pos (by omega)]
    · simp
    · rw [if_neg h.ne, if_neg (by omega), if_neg (by omega)]

omit [Scalar ν] in
theorem Settings.foldl_nudges (settings : Settings κ ν) (x : Array κ) :
    (settings.nudges x.size).foldl (fun y step => y.modify step.1 (thereAndBack · step.2)) x =
      settings.restored x := by
  unfold Settings.nudges Settings.restored
  rw [List.foldl_map, foldl_modify_range]
  refine Array.ext (by simp) fun i hi _ => ?_
  rw [Array.size_mapIdx] at hi
  simp [hi]

omit [Scalar ν] in
/-- The point comes back if each coordinate does. -/
theorem Settings.restored_eq_iff (settings : Settings κ ν) (x : Array κ) :
    settings.restored x = x ↔
      ∀ i (hi : i < x.size), thereAndBack x[i] (settings.step.getD i 0 * nudgeShare) = x[i] := by
  constructor
  · intro hback i hi
    have hentry : (settings.restored x)[i]? = x[i]? := congrArg (fun y : Array κ => y[i]?) hback
    simpa [Settings.restored, hi] using hentry
  · intro hback
    unfold Settings.restored
    exact Array.ext (by simp) fun i _ hi => by rw [Array.getElem_mapIdx, hback i hi]

/-- A look around keeps what was evaluated. One that finds nothing ends with the coordinates there
and back again. -/
theorem lookAround_restores (value : ν) (steps : List (ℕ × κ)) (x : Array κ)
    (t : ℕ × (List (Vertex κ ν) × σ)) :
    Ends (lookAround (logging f) value steps x) t fun r t' => t.2.1 ⊆ t'.2.1 ∧
      (r.1 = false →
        r.2 = steps.foldl (fun y step => y.modify step.1 (thereAndBack · step.2)) x) := by
  induction steps generalizing x t with
  | nil => exact Ends.pure ⟨List.Subset.refl _, fun _ => rfl⟩
  | cons step rest ih =>
    obtain ⟨i, d⟩ := step
    unfold lookAround
    refine Ends.bind (Ends.logged fun ahead t₁ hahead h₁ _ => ?_)
    refine Ends.ite (fun _ => Ends.pure ⟨h₁, Bool.noConfusion⟩) (fun _ => ?_)
    refine Ends.bind (Ends.logged fun behind t₂ hbehind h₂ _ => ?_)
    have hgrows := List.Subset.trans h₁ h₂
    refine Ends.ite (fun _ => Ends.pure ⟨hgrows, Bool.noConfusion⟩) (fun _ => ?_)
    rw [hbehind, hahead, nudge_thereAndBack]
    exact (ih _ t₂).mono fun r t' h => ⟨List.Subset.trans hgrows h.1, h.2⟩

/-! ## What is reported -/

/-- The minimum is reported for a vertex: its value, and its point, which went there and back again
before the search said that it has converged. -/
structure Minimum.Reports (settings : Settings κ ν) (v : Vertex κ ν) (m : Minimum κ ν) : Prop where
  value_eq : m.value = v.value
  status_cases : m.status = .notConverged ∧ m.point = v.point ∨
    m.status = .converged ∧ m.point = settings.restored v.point

omit [Scalar ν] in
/-- The reported point is the one of the vertex if the search gave up or the coordinates come
back. -/
theorem Minimum.Reports.point_eq_iff {v : Vertex κ ν} {m : Minimum κ ν}
    (h : m.Reports settings v) :
    m.point = v.point ↔ m.status = .notConverged ∨ ∀ i (hi : i < v.point.size),
      thereAndBack v.point[i] (settings.step.getD i 0 * nudgeShare) = v.point[i] := by
  rcases h.status_cases with ⟨hstatus, hpoint⟩ | ⟨hstatus, hpoint⟩
  · exact iff_of_true hpoint (.inl hstatus)
  · rw [hpoint, hstatus, Settings.restored_eq_iff]
    exact (or_iff_right Status.noConfusion).symm

omit [Scalar κ] in
/-- The best vertex of a simplex, by its position. -/
theorem Figure.Shaped.exists_best (hs : s.Shaped n) :
    ∃ v ∈ s.vertices, v.point = s.point s.best.1 ∧ v.value = s.value s.best.1 := by
  have hlt := hs.best_lt
  have hget : s.vertices[s.best.1]? = some s.vertices[s.best.1] := Array.getElem?_eq_getElem hlt
  exact ⟨_, Array.getElem_mem hlt, (Figure.point_eq hget).symm, (Figure.value_eq hget).symm⟩

theorem Searches.reports {m : Minimum κ ν}
    (h : Searches (logging f) settings start scale countdown restarts t m u)
    (hstart : start.size = n) (hscale : scale.length = n) :
    ∃ v ∈ u.2.1, v.point.size = n ∧ m.Reports settings v := by
  induction h with
  | spent hsettles _ =>
    obtain ⟨hshape, -⟩ := hsettles.spends hstart hscale
    obtain ⟨v, hv, hpoint, hvalue⟩ := hshape.exists_best
    exact ⟨v, hsettles.logged v hv, hshape.size_point v hv, hvalue.symm, .inl ⟨rfl, hpoint.symm⟩⟩
  | done hsettles _ hlook =>
    obtain ⟨hshape, -⟩ := hsettles.spends hstart hscale
    obtain ⟨v, hv, hpoint, hvalue⟩ := hshape.exists_best
    obtain ⟨hgrows, hrestored⟩ := (lookAround_restores _ _ _ _).of_eq hlook
    have hrestored := hrestored rfl
    have hsize : v.point.size = n := hshape.size_point v hv
    rw [← hpoint, hstart, ← hsize, Settings.foldl_nudges] at hrestored
    exact ⟨v, hgrows (hsettles.logged v hv), hsize, hvalue.symm, .inr ⟨rfl, hrestored⟩⟩
  | @again _ _ _ _ _ _ _ t' _ _ _ hsettles _ hlook _ ih =>
    obtain ⟨hshape, -⟩ := hsettles.spends hstart hscale
    obtain ⟨hpoint, -⟩ := (settings.look_spends _ hshape hstart t').of_eq hlook
    exact ih hpoint (by rw [length_nudges, hstart])

/-- **What is reported** is the value of a vertex that was evaluated, and the point of this vertex
exactly if the search gave up or the coordinates come back from their nudges. -/
theorem minimise_reports (f : Objective σ κ ν) (h : settings.Accepts start.size) (state : σ) :
    ∃ v ∈ (minimise (logging f) settings start ([], state)).2.1,
      v.point.size = start.size ∧
      (minimise f settings start state).1.Reports settings v ∧
      ((minimise f settings start state).1.point = v.point ↔
        (minimise f settings start state).1.status = .notConverged ∨
          ∀ i (hi : i < v.point.size),
            thereAndBack v.point[i] (settings.step.getD i 0 * nudgeShare) = v.point[i]) := by
  obtain ⟨v, hv, hsize, hreports⟩ := (searches_minimise (logging f) h ([], state)).reports rfl
    (settings.length_steps start.size)
  rw [(minimise_logging f settings start state).1] at hreports
  exact ⟨v, hv, hsize, hreports, hreports.point_eq_iff⟩

end

theorem minimise_reports_easySearch :
    easySearch.Accepts (#[1.5] : Array Float).size ∧
      (minimise (distanceFrom 1.5) easySearch #[1.5] ()).1.status = .converged ∧
      ∃ v ∈ (minimise (logging (distanceFrom 1.5)) easySearch #[1.5] ([], ())).2.1,
        v.point.size = 1 ∧
        (minimise (distanceFrom 1.5) easySearch #[1.5] ()).1.Reports easySearch v ∧
        ((minimise (distanceFrom 1.5) easySearch #[1.5] ()).1.point = v.point ↔
          (minimise (distanceFrom 1.5) easySearch #[1.5] ()).1.status = .notConverged ∨
            ∀ i (hi : i < v.point.size),
              thereAndBack v.point[i] (easySearch.step.getD i 0 * nudgeShare) = v.point[i]) :=
  ⟨accepts_easySearch, by decide +kernel, minimise_reports (distanceFrom 1.5) accepts_easySearch ()⟩

/-- The search returns the value 0 of its start 1.5, and a point next to it that was never evaluated
and has another value. -/
theorem not_evaluated_easySearch :
    easySearch.Accepts (#[1.5] : Array Float).size ∧
      (minimise (distanceFrom 1.5) easySearch #[1.5] ()).1.status = .converged ∧
      (∀ v ∈ (minimise (logging (distanceFrom 1.5)) easySearch #[1.5] ([], ())).2.1,
        v.point ≠ (minimise (distanceFrom 1.5) easySearch #[1.5] ()).1.point) ∧
      (distanceFrom 1.5 (minimise (distanceFrom 1.5) easySearch #[1.5] ()).1.point ()).1 ≠
        (minimise (distanceFrom 1.5) easySearch #[1.5] ()).1.value :=
  ⟨accepts_easySearch, by decide +kernel, by decide +kernel, by decide +kernel⟩

end AmbisonicReverb.Simplex
