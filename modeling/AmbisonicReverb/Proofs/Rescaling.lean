import Mathlib
import AmbisonicReverb.Proofs.Neighbours

/-!
# Searches in other coordinates

A change of coordinates multiplies each coordinate by a factor of its own, which is not zero, and
moves it by an offset (`Rescaling`). An objective may be read in the new coordinates, and a constant
be added to its values.

**Theorem (`minimise_rescaled`).** With exact arithmetic, a search in the new coordinates goes
through the images of the points of the search in the old ones, and ends with the image of its
minimum. It takes as many evaluations and restarts, and comes to the same status.

Each point of a search is an affine combination of points, or a point with a multiple of the step
added to one coordinate, and these have their images as their counterparts: `travel_apply`,
`halfway_apply`, `centroid_vertices`, `nudge_apply`. Values are compared with each other and with
their mean (`lowest_vertices`, `highest_vertices`, `deviation_vertices`). What is left is to follow
the two searches through each branch (`Carries`).
-/

namespace AmbisonicReverb

/-- Started in the image of a state, a program comes to the images of what another one comes to. -/
def Carries {σ σ' τ τ' : Type} (φ : τ → τ') (ψ : σ → σ') (m : StateM σ τ) (m' : StateM σ' τ')
    (s : σ) : Prop := m' (ψ s) = (φ (m s).1, ψ (m s).2)

namespace Carries

variable {σ σ' τ τ' υ υ' : Type} {φ : τ → τ'} {χ : υ → υ'} {ψ : σ → σ'} {s : σ}

theorem pure {a : τ} {a' : τ'} (h : a' = φ a) :
    Carries φ ψ (Pure.pure a) (Pure.pure a') s := by
  rw [h]
  rfl

theorem bind {m : StateM σ τ} {m' : StateM σ' τ'} {f : τ → StateM σ υ} {f' : τ' → StateM σ' υ'}
    (hm : Carries φ ψ m m' s) (hf : Ends m s fun a s' => Carries χ ψ (f a) (f' (φ a)) s') :
    Carries χ ψ (m >>= f) (m' >>= f') s := by
  unfold Carries at hm
  show f' (m' (ψ s)).1 (m' (ψ s)).2 = _
  rw [hm]
  exact hf

theorem ite {p p' : Prop} [Decidable p] [Decidable p'] {m₁ m₂ : StateM σ τ}
    {m₁' m₂' : StateM σ' τ'} (hiff : p' ↔ p) (h₁ : p → Carries φ ψ m₁ m₁' s)
    (h₂ : ¬ p → Carries φ ψ m₂ m₂' s) :
    Carries φ ψ (if p then m₁ else m₂) (if p' then m₁' else m₂') s := by
  by_cases hp : p
  · rw [if_pos hp, if_pos (hiff.mpr hp)]
    exact h₁ hp
  · rw [if_neg hp, if_neg (mt hiff.mp hp)]
    exact h₂ hp

end Carries

namespace Simplex

/-- A change of coordinates: each is multiplied by a factor, and moved by an offset. -/
structure Rescaling where
  factor : ℕ → ℝ
  offset : ℕ → ℝ
  factor_ne_zero : ∀ i, factor i ≠ 0

namespace Rescaling

/-! ## Images -/

variable {σ : Type} (T : Rescaling) (c : ℝ)

/-- A point in the new coordinates. -/
noncomputable def apply (x : Array ℝ) : Array ℝ :=
  x.mapIdx fun i a => T.factor i * a + T.offset i

/-- A point in the old coordinates. -/
noncomputable def undo (x : Array ℝ) : Array ℝ :=
  x.mapIdx fun i a => (a - T.offset i) / T.factor i

/-- An objective read in the new coordinates, with a constant added. -/
noncomputable def objective (f : Objective σ ℝ ℝ) : Objective σ ℝ ℝ :=
  fun x s => let (value, s) := f (T.undo x) s; (value + c, s)

/-- A step along a coordinate. Steps are scaled only. -/
noncomputable def step (step : ℕ × ℝ) : ℕ × ℝ := (step.1, T.factor step.1 * step.2)

noncomputable def settings (settings : Settings ℝ ℝ) : Settings ℝ ℝ :=
  { settings with step := settings.step.mapIdx fun i d => T.factor i * d }

noncomputable def vertex (v : Vertex ℝ ℝ) : Vertex ℝ ℝ := ⟨T.apply v.point, v.value + c⟩

noncomputable def figure (s : Figure ℝ ℝ) : Figure ℝ ℝ :=
  ⟨s.vertices.map (T.vertex c), (s.best.1, s.best.2 + c), s.countdown⟩

noncomputable def move : Move ℝ ℝ → Move ℝ ℝ
  | .replaced s => .replaced (T.figure c s)
  | .shrunk s => .shrunk (T.figure c s)

/-- Other coordinates and another zero change the point and the value only. -/
noncomputable def minimum (m : Minimum ℝ ℝ) : Minimum ℝ ℝ :=
  { m with point := T.apply m.point, value := m.value + c }

/-- The state of a logged objective. -/
noncomputable def logged (s : List (Vertex ℝ ℝ) × σ) : List (Vertex ℝ ℝ) × σ :=
  (s.1.map (T.vertex c), s.2)

/-- The state of a search. -/
noncomputable def state (t : ℕ × (List (Vertex ℝ ℝ) × σ)) : ℕ × (List (Vertex ℝ ℝ) × σ) :=
  (t.1, T.logged c t.2)

/-! ## Points -/

@[simp] theorem size_apply (x : Array ℝ) : (T.apply x).size = x.size := by
  simp [apply]

theorem undo_apply (x : Array ℝ) : T.undo (T.apply x) = x := by
  refine Array.ext (by simp [undo]) fun i _ _ => ?_
  simp only [undo, apply, Array.getElem_mapIdx]
  rw [add_sub_cancel_right, mul_div_cancel_left₀ _ (T.factor_ne_zero i)]

theorem travel_apply (base : Array ℝ) (d : ℝ) (towards origin : Array ℝ) :
    travel (T.apply base) d (T.apply towards) (T.apply origin) =
      T.apply (travel base d towards origin) := by
  refine Array.ext (by simp [travel]) fun i _ _ => ?_
  simp only [travel, apply, Array.getElem_zipWith, Array.getElem_mapIdx]
  ring

theorem halfway_apply (p q : Array ℝ) :
    halfway (T.apply p) (T.apply q) = T.apply (halfway p q) := by
  refine Array.ext (by simp [halfway]) fun i _ _ => ?_
  simp only [halfway, apply, Array.getElem_zipWith, Array.getElem_mapIdx]
  ring_nf

theorem nudge_apply (x : Array ℝ) (i : ℕ) (d : ℝ) :
    nudge (T.apply x) i (T.factor i * d) = T.apply (nudge x i d) := by
  refine Array.ext (by simp [nudge]) fun j _ _ => ?_
  simp only [nudge, apply, Array.getElem_modify, Array.getElem_mapIdx]
  split_ifs with hij
  · subst hij
    ring
  · rfl

/-! ## Values -/

/-- A sum over the images of vertices, of terms that are changed alike. -/
theorem sum_vertices (vertices : Array (Vertex ℝ ℝ)) (term term' : Vertex ℝ ℝ → ℝ) {a b : ℝ}
    (h : ∀ v ∈ vertices, term' (T.vertex c v) = a * term v + b) :
    (vertices.map (T.vertex c)).foldl (fun sum v => sum + term' v) 0 =
      a * vertices.foldl (fun sum v => sum + term v) 0 + vertices.size * b := by
  have hterm : ∀ v ∈ vertices.toList, term' (T.vertex c v) = a * term v + b :=
    fun v hv => h v (Array.mem_toList_iff.mp hv)
  rw [Array.foldl_map, ← Array.foldl_toList, ← Array.foldl_toList, ← Array.length_toList]
  generalize vertices.toList = vs at hterm
  induction vs using List.reverseRecOn with
  | nil => simp
  | append_singleton vs v ih =>
    rw [List.foldl_append, List.foldl_append, List.length_append]
    simp only [List.foldl_cons, List.foldl_nil, List.length_singleton]
    rw [ih fun w hw => hterm w (List.mem_append_left _ hw), hterm v (by simp)]
    push_cast
    ring

theorem centroid_vertices {n : ℕ} {vertices : Array (Vertex ℝ ℝ)} {without : Array ℝ}
    (hsize : vertices.size = n + 1) (hpoint : ∀ v ∈ vertices, v.point.size = n)
    (hwithout : without.size = n) :
    centroid (vertices.map (T.vertex c)) (T.apply without) =
      T.apply (centroid vertices without) := by
  refine Array.ext (by simp [centroid]) fun i hi _ => ?_
  have hi : i < n := by simpa [centroid, hwithout] using hi
  have hn : (n : ℝ) ≠ 0 := by
    rw [Nat.cast_ne_zero]
    omega
  have hentry : ∀ v ∈ vertices, (T.vertex c v).point.getD i 0 =
      T.factor i * v.point.getD i 0 + T.offset i := by
    intro v hv
    simp [vertex, apply, hpoint v hv, hi]
  have hsum := T.sum_vertices c vertices (fun v => v.point.getD i 0) (fun v => v.point.getD i 0)
    hentry
  simp only [centroid, apply, Array.getElem_mapIdx, Array.size_mapIdx, hwithout, hsum, hsize,
    Scalar.ofNat_eq]
  push_cast
  field_simp
  ring

/-- The sum of squares is about the mean, wherever that is. -/
theorem deviation_vertices {vertices : Array (Vertex ℝ ℝ)} (hpos : 0 < vertices.size) :
    deviation (vertices.map (T.vertex c)) = deviation vertices := by
  have hn : (vertices.size : ℝ) ≠ 0 := Nat.cast_ne_zero.mpr hpos.ne'
  have hvalue : ∀ v ∈ vertices, (T.vertex c v).value = 1 * v.value + c := by simp [vertex]
  have hsum := T.sum_vertices c vertices (fun v => v.value) (fun v => v.value) hvalue
  have hmean : (vertices.map (T.vertex c)).foldl (fun sum v => sum + v.value) 0 /
      Scalar.ofNat (vertices.map (T.vertex c)).size =
        vertices.foldl (fun sum v => sum + v.value) 0 / Scalar.ofNat vertices.size + c := by
    rw [hsum, Array.size_map, Scalar.ofNat_eq]
    field_simp
  unfold deviation
  simp only [hmean]
  rw [Array.foldl_map]
  simp only [vertex, add_sub_add_right_eq_sub]

/-- The first best of a list has its place, wherever zero is. -/
theorem leader_add (better : ℝ → ℝ → Bool)
    (hbetter : ∀ a b, better (a + c) (b + c) = better a b) (first : ℝ) (values : List ℝ) :
    leader better (first + c) (values.map (· + c)) =
      ((leader better first values).1, (leader better first values).2 + c) := by
  unfold leader
  rw [List.foldl_map]
  refine congrArg Prod.snd (@List.foldl_hom _ _ _
    (fun x : ℕ × ℕ × ℝ => (x.1, (x.2.1, x.2.2 + c)))
    (fun x v => (x.1 + 1, if better v x.2.2 then (x.1, v) else x.2))
    (fun x v => (x.1 + 1, if better (v + c) x.2.2 then (x.1, v + c) else x.2))
    values (0, (0, first)) fun x v => ?_)
  simp only [hbetter]
  split_ifs <;> rfl

theorem values_vertices (vertices : Array (Vertex ℝ ℝ)) :
    (vertices.map (T.vertex c)).toList.map (·.value) =
      (vertices.toList.map (·.value)).map (· + c) := by
  simp [vertex]

theorem lowest_vertices {vertices : Array (Vertex ℝ ℝ)} (hpos : 0 < vertices.size) :
    lowest (vertices.map (T.vertex c)) = ((lowest vertices).1, (lowest vertices).2 + c) := by
  obtain ⟨first, rest, hvalues⟩ := exists_values hpos
  unfold lowest
  rw [values_vertices, hvalues]
  exact leader_add c (fun a b => a < b) (by simp) first (first :: rest)

theorem highest_vertices (vertices : Array (Vertex ℝ ℝ)) :
    highest (vertices.map (T.vertex c)) = highest vertices := by
  unfold highest
  rw [values_vertices]
  cases vertices.toList.map (·.value) with
  | nil => rfl
  | cons first rest =>
    show (leader (fun a b => b < a) (first + c) ((first :: rest).map (· + c))).1 =
      (leader (fun a b => b < a) first (first :: rest)).1
    rw [leader_add c _ (by simp)]

/-! ## Simplexes -/

variable {n : ℕ} {s : Figure ℝ ℝ}

theorem figure_point (i : ℕ) : (T.figure c s).point i = T.apply (s.point i) := by
  simp only [figure, Figure.point, Array.getElem?_map]
  cases s.vertices[i]? with
  | none => rfl
  | some v => rfl

theorem figure_value {i : ℕ} (hi : i < s.vertices.size) :
    (T.figure c s).value i = s.value i + c := by
  simp [figure, Figure.value, vertex, hi]

theorem figure_replace (i : ℕ) (v : Vertex ℝ ℝ) :
    (T.figure c s).replace i (T.vertex c v) = T.figure c (s.replace i v) := by
  by_cases h : v.value < s.best.2
  · simp only [Figure.replace, figure, vertex, Array.map_setIfInBounds, add_lt_add_iff_right,
      if_pos h]
  · simp only [Figure.replace, figure, vertex, Array.map_setIfInBounds, add_lt_add_iff_right,
      if_neg h]

/-- A new simplex. -/
theorem figure_lowest {vertices : Array (Vertex ℝ ℝ)} (hpos : 0 < vertices.size) (countdown : ℕ) :
    ⟨vertices.map (T.vertex c), lowest (vertices.map (T.vertex c)), countdown⟩ =
      T.figure c ⟨vertices, lowest vertices, countdown⟩ := by
  rw [lowest_vertices T c hpos]
  rfl

theorem replaced (i : ℕ) (v : Vertex ℝ ℝ) :
    .replaced ((T.figure c s).replace i (T.vertex c v)) =
      T.move c (.replaced (s.replace i v)) := congrArg Move.replaced (T.figure_replace c i v)

/-- A move that replaces a vertex by one of two. -/
theorem replaced_ite {p p' : Prop} [Decidable p] [Decidable p'] (h : p' ↔ p) (i : ℕ)
    (v w : Vertex ℝ ℝ) :
    .replaced ((T.figure c s).replace i (if p' then T.vertex c v else T.vertex c w)) =
      T.move c (.replaced (s.replace i (if p then v else w))) := by
  have hchosen : (if p' then T.vertex c v else T.vertex c w) =
      T.vertex c (if p then v else w) := by
    rw [apply_ite (T.vertex c)]
    exact if_congr h rfl rfl
  rw [hchosen, replaced]

/-! ## Runs -/

variable {f : Objective σ ℝ ℝ} {t : ℕ × (List (Vertex ℝ ℝ) × σ)} {settings : Settings ℝ ℝ}
  {limit : ℝ}

theorem carries_evaluations :
    Carries id (T.state c) evaluations evaluations t := rfl

theorem carries_evaluate (x : Array ℝ) :
    Carries (T.vertex c) (T.state c) (evaluate (logging f) x)
      (evaluate (logging (T.objective c f)) (T.apply x)) t := by
  simp [Carries, evaluate, logging, objective, undo_apply, state, logged, vertex]

theorem carries_travel (base : Array ℝ) (d : ℝ) (towards origin : Array ℝ) :
    Carries (T.vertex c) (T.state c) (evaluate (logging f) (travel base d towards origin))
      (evaluate (logging (T.objective c f))
        (travel (T.apply base) d (T.apply towards) (T.apply origin))) t := by
  rw [travel_apply]
  exact T.carries_evaluate c _

theorem carries_nudge (x : Array ℝ) (i : ℕ) (d : ℝ) :
    Carries (T.vertex c) (T.state c) (evaluate (logging f) (nudge x i d))
      (evaluate (logging (T.objective c f)) (nudge (T.apply x) i (T.factor i * d))) t := by
  rw [nudge_apply]
  exact T.carries_evaluate c _

theorem carries_evaluateAll (xs : List (Array ℝ)) :
    Carries (Array.map (T.vertex c)) (T.state c) (evaluateAll (logging f) xs)
      (evaluateAll (logging (T.objective c f)) (xs.map T.apply)) t := by
  have hmap : ∀ t, Carries (List.map (T.vertex c)) (T.state c) (xs.mapM (evaluate (logging f)))
      ((xs.map T.apply).mapM (evaluate (logging (T.objective c f)))) t := by
    induction xs with
    | nil => exact fun t => .pure rfl
    | cons x xs ih =>
      intro t
      rw [List.map_cons, List.mapM_cons, List.mapM_cons]
      refine .bind (T.carries_evaluate c x) (Ends.of_forall fun v t₁ => ?_)
      exact .bind (ih t₁) (Ends.of_forall fun vs t₂ => .pure rfl)
  unfold evaluateAll
  exact .bind (hmap t) (Ends.of_forall fun vs t₁ => .pure List.map_toArray.symm)

/-- A move of a simplex, and the same move of its image. -/
theorem carries_move (hs : s.Shaped n) :
    Carries (T.move c) (T.state c) (s.move (logging f))
      ((T.figure c s).move (logging (T.objective c f))) t := by
  have hpos : 0 < s.vertices.size := Nat.zero_lt_of_lt hs.best_lt
  have hworst : highest (T.figure c s).vertices = highest s.vertices :=
    T.highest_vertices c s.vertices
  have hcentre : centroid (T.figure c s).vertices (T.apply (s.point (highest s.vertices))) =
      T.apply (centroid s.vertices (s.point (highest s.vertices))) :=
    T.centroid_vertices c hs.size_vertices hs.size_point (hs.size_at (highest_lt hpos))
  have hbeaten : ∀ v : Vertex ℝ ℝ,
      (T.figure c s).vertices.countP (fun w => (T.vertex c v).value < w.value) =
        s.vertices.countP fun w => v.value < w.value := by
    intro v
    simp [figure, vertex, Array.countP_map, Function.comp_def]
  have hshrunk : ∀ p : Array ℝ,
      (T.figure c s).vertices.toList.map (fun v => halfway v.point (T.apply p)) =
        (s.vertices.toList.map fun v => halfway v.point p).map T.apply := by
    intro p
    simp [figure, vertex, halfway_apply]
  unfold Figure.move
  simp only [hworst, figure_point, hcentre]
  refine .bind (T.carries_travel c _ _ _ _) (Ends.of_forall fun reflected t₁ => ?_)
  refine .ite (add_lt_add_iff_right c) (fun _ => ?_) (fun _ => ?_)
  · refine .bind (T.carries_travel c _ _ _ _) (Ends.of_forall fun expanded t₂ => ?_)
    exact .pure (T.replaced_ite c (add_lt_add_iff_right c) _ _ _)
  rw [hbeaten]
  refine .ite Iff.rfl (fun _ => .pure (T.replaced c _ _))
    (fun _ => .ite Iff.rfl (fun _ => ?_) (fun _ => ?_))
  · refine .bind (T.carries_travel c _ _ _ _) (Ends.of_forall fun contracted t₂ => ?_)
    rw [T.figure_value c (highest_lt hpos)]
    refine .ite (add_lt_add_iff_right c) (fun _ => ?_) (fun _ => .pure (T.replaced c _ _))
    rw [hshrunk]
    refine .bind (T.carries_evaluateAll c _) ((Ends.callAll _).mono fun vertices t₃ h => ?_)
    have hlength := congrArg List.length h.1
    simp only [List.length_map, Array.length_toList] at hlength
    rw [T.lowest_vertices c (hlength ▸ hpos)]
    exact .pure rfl
  · refine .bind (T.carries_travel c _ _ _ _) (Ends.of_forall fun contracted t₂ => ?_)
    exact .pure (T.replaced_ite c (add_le_add_iff_right c) _ _ _)

/-- Moves of a simplex, and of its image. -/
theorem carries_descend (hs : s.Shaped n) (fuel : ℕ) :
    Carries (T.figure c) (T.state c) (descend (logging f) settings limit fuel s)
      (descend (logging (T.objective c f)) (T.settings settings) limit fuel (T.figure c s)) t := by
  induction fuel generalizing s t with
  | zero => exact .pure rfl
  | succ fuel ih =>
    unfold descend
    refine .bind (T.carries_evaluations c) (Ends.evaluations ?_)
    refine .ite Iff.rfl (fun _ => .pure rfl) (fun _ => ?_)
    refine .bind (T.carries_move c hs) ((hs.move _ t).mono fun m t₁ h => ?_)
    obtain ⟨hshape, -⟩ := h
    cases m with
    | shrunk s' => exact ih hshape
    | replaced s' =>
      have hshape : s'.Shaped n := hshape
      have hpos : 0 < s'.vertices.size := Nat.zero_lt_of_lt hshape.best_lt
      refine .bind (T.carries_evaluations c) (Ends.evaluations ?_)
      refine .ite Iff.rfl (fun _ => ih (hshape.rewind _)) (fun _ => ?_)
      refine .ite ?_ (fun _ => .pure rfl) (fun _ => ih (hshape.rewind _))
      exact iff_of_eq (congrArg (· ≤ limit) (T.deviation_vertices c hpos))

theorem carries_lookAround (value : ℝ) (steps : List (ℕ × ℝ)) (x : Array ℝ) :
    Carries (fun r => (r.1, T.apply r.2)) (T.state c) (lookAround (logging f) value steps x)
      (lookAround (logging (T.objective c f)) (value + c) (steps.map T.step) (T.apply x)) t := by
  induction steps generalizing x t with
  | nil => exact .pure rfl
  | cons step rest ih =>
    obtain ⟨i, d⟩ := step
    rw [List.map_cons, step]
    unfold lookAround
    refine .bind (T.carries_nudge c x i d) (Ends.of_forall fun ahead t₁ => ?_)
    refine .ite (add_lt_add_iff_right c) (fun _ => .pure rfl) (fun _ => ?_)
    have hback : -(2.0 * (T.factor i * d)) = T.factor i * -(2.0 * d) := by
      rw [mul_neg, mul_left_comm]
    rw [hback]
    refine .bind (T.carries_nudge c ahead.point i _) (Ends.of_forall fun behind t₂ => ?_)
    refine .ite (add_lt_add_iff_right c) (fun _ => .pure rfl) (fun _ => ?_)
    have hpoint : nudge (T.vertex c behind).point i (T.factor i * d) =
        T.apply (nudge behind.point i d) := T.nudge_apply behind.point i d
    rw [hpoint]
    exact ih _

theorem carries_corners (start : Array ℝ) (steps : List (ℕ × ℝ)) :
    Carries (Array.map (T.vertex c)) (T.state c) (corners (logging f) start steps)
      (corners (logging (T.objective c f)) (T.apply start) (steps.map T.step)) t := by
  have hcorners : (steps.map T.step).map (fun step => nudge (T.apply start) step.1 step.2) =
      (steps.map fun step => nudge start step.1 step.2).map T.apply := by
    simp [step, nudge_apply]
  unfold corners
  refine .bind (T.carries_evaluate c start) (Ends.of_forall fun last t₁ => ?_)
  rw [hcorners]
  refine .bind (T.carries_evaluateAll c _) (Ends.of_forall fun others t₂ => .pure ?_)
  exact (Array.map_push).symm

theorem step_settings (i : ℕ) :
    (T.settings settings).step.getD i 0 = T.factor i * settings.step.getD i 0 := by
  simp only [Rescaling.settings, Array.getD_eq_getD_getElem?, Array.getElem?_mapIdx]
  cases settings.step[i]? with
  | none => exact (mul_zero _).symm
  | some d => rfl

theorem steps_settings (n : ℕ) :
    (T.settings settings).steps n = (settings.steps n).map T.step := by
  simp only [Settings.steps, List.map_map, Function.comp_def, step, step_settings]

theorem nudges_settings (n : ℕ) :
    (T.settings settings).nudges n = (settings.nudges n).map T.step := by
  simp only [Settings.nudges, List.map_map, Function.comp_def, step, step_settings, mul_assoc]

variable {start : Array ℝ} {scale : List (ℕ × ℝ)} {countdown restarts : ℕ}

/-- A whole search, and the search in the new coordinates. As in `searches_searchFrom`, `fuel`
reaches beyond the budget. -/
theorem carries_searchFrom {fuel : ℕ} (hpos : 0 < fuel) (hfuel : settings.budget < t.1 + fuel)
    (hstart : start.size = n) (hscale : scale.length = n) (hcheck : 0 < settings.checkEvery)
    (hcountdown : 0 < countdown) :
    Carries (T.minimum c) (T.state c)
      (searchFrom (logging f) settings fuel start scale countdown restarts)
      (searchFrom (logging (T.objective c f)) (T.settings settings) fuel (T.apply start)
        (scale.map T.step) countdown restarts) t := by
  induction fuel generalizing start scale countdown restarts t with
  | zero => exact absurd hpos (Nat.lt_irrefl 0)
  | succ fuel ih =>
    unfold searchFrom
    refine .bind (T.carries_corners c start scale)
      ((corners_spends _ hstart hscale countdown t).with_eq.mono fun vertices t₁ h₁ => ?_)
    obtain ⟨hcorners, hshape₁, hcount₁⟩ := h₁
    have hvertices : 0 < vertices.size := Nat.zero_lt_of_lt hshape₁.best_lt
    rw [T.figure_lowest c hvertices, size_apply]
    refine .bind (T.carries_descend c hshape₁ settings.budget)
      ((descends_descend (Nat.le_add_left _ _) hshape₁ hcheck (Or.inl hcountdown)).mono
        fun s t₂ hdescends => ?_)
    have hsettles : Settles (logging f) settings start scale countdown t s t₂ :=
      ⟨vertices, t₁, hcorners, hdescends⟩
    obtain ⟨hshape, hcount₂, -⟩ := hsettles.spends hstart hscale
    have hpoint : (T.figure c s).point (T.figure c s).best.1 = T.apply (s.point s.best.1) :=
      T.figure_point c s.best.1
    have hvalue : (T.figure c s).value (T.figure c s).best.1 = s.value s.best.1 + c :=
      T.figure_value c hshape.best_lt
    rw [hpoint, hvalue]
    refine .bind (T.carries_evaluations c) (Ends.evaluations ?_)
    refine .ite Iff.rfl (fun _ => .pure rfl) (fun hwithin => ?_)
    have hwithin : t₂.1 ≤ settings.budget := not_lt.mp hwithin
    have hnudges : ((List.range start.size).map fun i =>
        (i, (T.settings settings).step.getD i 0 * nudgeShare)) =
          (settings.nudges start.size).map T.step := T.nudges_settings start.size
    rw [hnudges]
    refine .bind (T.carries_lookAround c _ _ _)
      ((settings.look_spends _ hshape hstart t₂).with_eq.mono fun found t₃ h₃ => ?_)
    obtain ⟨lower, point⟩ := found
    obtain ⟨-, hsize, hcount₃, -⟩ := h₃
    refine .ite Iff.rfl (fun _ => ?_) (fun _ => ?_)
    · have hwound := (hsettles.wound hstart hscale hcheck hcountdown).resolve_right (by omega)
      exact ih (by omega) (by omega) hsize (by simp [hstart]) hwound
    · exact .bind (T.carries_evaluations c) (Ends.evaluations (.pure rfl))

theorem accepts_settings {n : ℕ} (h : settings.Accepts n) : (T.settings settings).Accepts n where
  tolerance := h.tolerance
  dimension := h.dimension
  checkEvery := h.checkEvery
  step := by
    simp only [Rescaling.settings, Array.size_mapIdx]
    exact h.step

theorem carries_minimise (h : settings.Accepts start.size) (s : List (Vertex ℝ ℝ) × σ) :
    Carries (T.minimum c) (T.logged c) (minimise (logging f) settings start)
      (minimise (logging (T.objective c f)) (T.settings settings) (T.apply start)) s := by
  have haccepts := T.accepts_settings h
  rw [← T.size_apply start] at haccepts
  have hsearch : searchFrom (logging (T.objective c f)) (T.settings settings)
      (settings.budget + 1) (T.apply start) ((settings.steps start.size).map T.step)
      settings.checkEvery 0 (T.state c (0, s)) = _ :=
    T.carries_searchFrom c (Nat.succ_pos settings.budget) (by simp) rfl
      (settings.length_steps start.size) h.checkEvery h.checkEvery
  unfold Carries
  rw [minimise_eq _ (Settings.isSound_iff.mpr h),
    minimise_eq _ (Settings.isSound_iff.mpr haccepts), size_apply, steps_settings]
  exact congrArg (fun r => (r.1, r.2.2)) hsearch

end Rescaling

/-- **Equivariance.** A search in other coordinates, of an objective to which a constant was added,
evaluates the images of the points of the search in the old coordinates, in the same order, and
finds the image of its minimum. The state of the objective goes the same way. -/
theorem minimise_rescaled {σ : Type} (T : Rescaling) (c : ℝ) (f : Objective σ ℝ ℝ)
    {settings : Settings ℝ ℝ} {start : Array ℝ} (h : settings.Accepts start.size) (state : σ) :
    minimise (T.objective c f) (T.settings settings) (T.apply start) state =
        (T.minimum c (minimise f settings start state).1, (minimise f settings start state).2) ∧
      (minimise (logging (T.objective c f)) (T.settings settings) (T.apply start) ([], state)).2.1 =
        (minimise (logging f) settings start ([], state)).2.1.map (T.vertex c) := by
  have hlogged : minimise (logging (T.objective c f)) (T.settings settings) (T.apply start)
      ([], state) =
        (T.minimum c (minimise (logging f) settings start ([], state)).1,
          T.logged c (minimise (logging f) settings start ([], state)).2) :=
    T.carries_minimise c h ([], state)
  obtain ⟨hsame, hstate, -⟩ := minimise_logging f settings start state
  obtain ⟨hsame', hstate', -⟩ :=
    minimise_logging (T.objective c f) (T.settings settings) (T.apply start) state
  rw [hlogged] at hsame' hstate'
  refine ⟨Prod.ext ?_ ?_, congrArg (fun r => r.2.1) hlogged⟩
  · rw [← hsame', ← hsame]
  · rw [← hstate', ← hstate]
    rfl

/-- The change of coordinates of the example, which turns the line around. -/
noncomputable def mirrored : Rescaling where
  factor _ := -1
  offset _ := 1
  factor_ne_zero _ := by norm_num

/-- The objective of the example. -/
noncomputable def parabola : Objective Unit ℝ ℝ := fun x s => (square x, s)

theorem minimise_rescaled_mirrored :
    lineSearch.Accepts (#[0.001] : Array ℝ).size ∧
      minimise (mirrored.objective 3 parabola) (mirrored.settings lineSearch)
          (mirrored.apply #[0.001]) () =
        (mirrored.minimum 3 (minimise parabola lineSearch #[0.001] ()).1,
          (minimise parabola lineSearch #[0.001] ()).2) ∧
      (minimise (logging (mirrored.objective 3 parabola)) (mirrored.settings lineSearch)
          (mirrored.apply #[0.001]) ([], ())).2.1 =
        (minimise (logging parabola) lineSearch #[0.001] ([], ())).2.1.map (mirrored.vertex 3) :=
  ⟨accepts_lineSearch, minimise_rescaled mirrored 3 parabola accepts_lineSearch ()⟩

end Simplex

end AmbisonicReverb
