import Mathlib
import AmbisonicReverb.Scalar.Binary
import AmbisonicReverb.Proofs.Lockstep

/-!
# The simplex search ends within its budget

`Descends` and `Searches` are the two loops of the search as they are, without a bound on the number
of rounds: a derivation is a run that ends. A move counts down from a positive number only, so that
a run whose countdown would fall below zero has no derivation.

For every objective the search is such a run (`searches_searchFrom`), and what it spends follows by
induction over runs (`Descends.spends`, `Searches.spends`). Nothing is known about the values, which
may compare as they like. What makes the loops end is that each move takes an evaluation; what keeps
the countdown positive is that it is wound up again whenever it reaches zero with the budget not yet
exceeded.
-/

namespace AmbisonicReverb.Simplex

variable {σ κ ν : Type}

/-! ## Positions -/

theorem foldl_leader_lt (better : ν → ν → Bool) (values : List ν) (i : Nat) (best : Nat × ν) :
    (values.foldl (fun x v => (x.1 + 1, if better v x.2.2 then (x.1, v) else x.2))
        (i, best)).2.1 < i + values.length ∨
      (values.foldl (fun x v => (x.1 + 1, if better v x.2.2 then (x.1, v) else x.2))
        (i, best)).2 = best := by
  induction values generalizing i best with
  | nil => exact Or.inr rfl
  | cons v rest ih =>
    simp only [List.foldl_cons, List.length_cons]
    rcases ih (i + 1) (if better v best.2 then (i, v) else best) with h | h
    · left
      omega
    · rw [h]
      by_cases hv : better v best.2
      · left
        rw [if_pos hv]
        show i < _
        omega
      · right
        rw [if_neg hv]

/-- The leader has a position in the list, however values compare. -/
theorem leader_lt (better : ν → ν → Bool) (start v : ν) (rest : List ν) :
    (leader better start (v :: rest)).1 < (v :: rest).length := by
  rcases foldl_leader_lt better (v :: rest) 0 (0, start) with h | h
  · rw [Nat.zero_add] at h
    exact h
  · have hzero : (leader better start (v :: rest)).1 = 0 := congrArg Prod.fst h
    rw [hzero]
    exact Nat.succ_pos _

section

variable [Scalar ν] {vertices : Array (Vertex κ ν)}

theorem lowest_lt (h : 0 < vertices.size) : (lowest vertices).1 < vertices.size := by
  have hlength : (vertices.toList.map (·.value)).length = vertices.size := by simp
  unfold lowest
  split
  · exact h
  · rename_i v rest hvalues
    rw [hvalues] at hlength
    rw [← hlength]
    exact leader_lt _ _ _ _

theorem highest_lt (h : 0 < vertices.size) : highest vertices < vertices.size := by
  have hlength : (vertices.toList.map (·.value)).length = vertices.size := by simp
  unfold highest
  split
  · exact h
  · rename_i v rest hvalues
    rw [hvalues] at hlength
    rw [← hlength]
    exact leader_lt _ _ _ _

end

/-! ## Shapes -/

section

variable [Scalar κ]

theorem size_travel (base : Array κ) (t : κ) (towards origin : Array κ) :
    (travel base t towards origin).size = min base.size (min towards.size origin.size) := by
  simp [travel]

theorem size_centroid (vertices : Array (Vertex κ ν)) (without : Array κ) :
    (centroid vertices without).size = without.size := by
  simp [centroid]

theorem size_halfway (p q : Array κ) : (halfway p q).size = min p.size q.size := by
  simp [halfway]

theorem size_nudge (point : Array κ) (i : Nat) (d : κ) : (nudge point i d).size = point.size := by
  simp [nudge]

end

/-- A simplex in `n` dimensions: `n + 1` vertices, and the best one among them. -/
structure Figure.Shaped (n : Nat) (s : Figure κ ν) : Prop where
  size_vertices : s.vertices.size = n + 1
  size_point : ∀ v ∈ s.vertices, v.point.size = n
  best_lt : s.best.1 < s.vertices.size

namespace Figure

variable {n : Nat} {s : Figure κ ν}

theorem Shaped.rewind (hs : s.Shaped n) (countdown : Nat) :
    Figure.Shaped n { s with countdown } :=
  ⟨hs.size_vertices, hs.size_point, hs.best_lt⟩

theorem Shaped.size_at (hs : s.Shaped n) {i : Nat} (hi : i < s.vertices.size) :
    (s.point i).size = n := by
  unfold Figure.point
  rw [Array.getElem?_eq_getElem hi]
  exact hs.size_point _ (Array.getElem_mem hi)

variable [Scalar ν]

theorem Shaped.replace (hs : s.Shaped n) {i : Nat} (hi : i < s.vertices.size) {w : Vertex κ ν}
    (hw : w.point.size = n) : (s.replace i w).Shaped n := by
  have hsize : (s.replace i w).vertices.size = s.vertices.size := Array.size_setIfInBounds
  refine ⟨hsize.trans hs.size_vertices, fun v hv => ?_, ?_⟩
  · rcases Array.mem_or_eq_of_mem_setIfInBounds hv with hv | rfl
    · exact hs.size_point v hv
    · exact hw
  · rw [hsize]
    show (if w.value < s.best.2 then (i, w.value) else s.best).1 < _
    split_ifs
    · exact hi
    · exact hs.best_lt

/-- A new simplex, of vertices at given points. -/
theorem shaped_lowest {vertices : Array (Vertex κ ν)} (hsize : vertices.size = n + 1)
    (hpoint : ∀ x ∈ vertices.toList.map (·.point), x.size = n) (countdown : Nat) :
    Shaped n ⟨vertices, lowest vertices, countdown⟩ where
  size_vertices := hsize
  size_point v hv := hpoint v.point (List.mem_map_of_mem (Array.mem_toList_iff.mpr hv))
  best_lt := lowest_lt (by omega)

variable [Scalar κ]

/-- **What a move takes:** one evaluation at least, and all vertices again at most. -/
theorem Shaped.move (f : Objective σ κ ν) (hs : s.Shaped n) (t : Nat × σ) :
    Ends (s.move f) t fun m t' =>
      m.figure.Shaped n ∧ m.figure.countdown = s.countdown ∧
        t.1 < t'.1 ∧ t'.1 ≤ t.1 + (n + 3) := by
  have hpos : 0 < s.vertices.size := by
    rw [hs.size_vertices]
    exact Nat.succ_pos n
  have hworst := highest_lt hpos
  have hpoint := hs.size_at hworst
  have hcentre : (centroid s.vertices (s.point (highest s.vertices))).size = n := by
    rw [size_centroid, hpoint]
  -- every move starts from the centroid, along points of the same dimension
  have htravel : ∀ (d : κ) (p q : Array κ), p.size = n → q.size = n →
      (travel (centroid s.vertices (s.point (highest s.vertices))) d p q).size = n := by
    intro d p q hp hq
    rw [size_travel, hcentre, hp, hq, min_self, min_self]
  have hreplace : ∀ {w : Vertex κ ν}, w.point.size = n →
      (s.replace (highest s.vertices) w).Shaped n := fun hw => hs.replace hworst hw
  have hspent : ∀ k, 1 ≤ k → k ≤ n + 3 → t.1 < t.1 + k ∧ t.1 + k ≤ t.1 + (n + 3) := by
    intro k hlow hhigh
    omega
  unfold Figure.move
  refine Ends.bind (Ends.call fun r s₁ hr => ?_)
  have hrsize : r.point.size = n := by rw [hr, htravel _ _ _ hcentre hpoint]
  refine Ends.ite (fun _ => ?_) (fun _ => Ends.ite (fun _ => ?_)
    (fun _ => Ends.ite (fun _ => ?_) (fun _ => ?_)))
  · refine Ends.bind (Ends.call fun e s₂ he => Ends.pure ⟨hreplace ?_, rfl, ?_⟩)
    · split_ifs
      · exact hrsize
      · rw [he, htravel _ _ _ hrsize hcentre]
    · exact hspent 2 (by omega) (by omega)
  · exact Ends.pure ⟨hreplace hrsize, rfl, hspent 1 (by omega) (by omega)⟩
  · refine Ends.bind (Ends.call fun c s₂ hc => Ends.ite (fun _ => ?_) (fun _ => ?_))
    · refine Ends.bind ((Ends.callAll _).mono fun vertices t' h => Ends.pure ?_)
      obtain ⟨hpoints, hcount⟩ := h
      have hlength := congrArg List.length hpoints
      rw [List.length_map, List.length_map, Array.length_toList, Array.length_toList,
        hs.size_vertices] at hlength
      rw [List.length_map, Array.length_toList, hs.size_vertices] at hcount
      have hcount : t'.1 = t.1 + (n + 3) := by
        rw [hcount]
        show t.1 + 1 + 1 + (n + 1) = t.1 + (n + 3)
        omega
      refine ⟨shaped_lowest hlength ?_ s.countdown, rfl, ?_⟩
      · rw [hpoints]
        intro x hx
        obtain ⟨v, hv, rfl⟩ := List.mem_map.mp hx
        rw [size_halfway, hs.size_point v (Array.mem_toList_iff.mp hv), hs.size_at hs.best_lt,
          min_self]
      · rw [hcount]
        exact hspent (n + 3) (by omega) (by omega)
    · refine Ends.pure ⟨hreplace ?_, rfl, hspent 2 (by omega) (by omega)⟩
      rw [hc, htravel _ _ _ hpoint hcentre]
  · refine Ends.bind (Ends.call fun c s₂ hc => Ends.pure ⟨hreplace ?_, rfl, ?_⟩)
    · split_ifs
      · rw [hc, htravel _ _ _ hrsize hcentre]
      · exact hrsize
    · exact hspent 2 (by omega) (by omega)

end Figure

/-! ## Runs -/

section

variable [Scalar κ] [Scalar ν]

/-- The nudges around the end of a search, and the steps of the simplex of a restart. -/
def Settings.nudges (settings : Settings κ ν) (n : Nat) : List (Nat × κ) :=
  (List.range n).map fun i => (i, settings.step.getD i 0 * nudgeShare)

/-- Moves until the values agree or the budget is used up, however many that are. From the simplex
`s`, with the count and the state `t` of the objective, the run comes to the simplex `r` and to
`u`. -/
inductive Descends (f : Objective σ κ ν) (settings : Settings κ ν) (limit : ν) :
    (s : Figure κ ν) → (t : Nat × σ) → (r : Figure κ ν) → (u : Nat × σ) → Prop
  /-- The budget is used up. -/
  | spent {s : Figure κ ν} {t : Nat × σ} (hspent : settings.budget ≤ t.1) :
      Descends f settings limit s t s t
  /-- A move shrinks the simplex, which does not count down. -/
  | shrunk {s s' r : Figure κ ν} {t t' u : Nat × σ} (hleft : t.1 < settings.budget)
      (hmove : s.move f t = (.shrunk s', t')) (hrest : Descends f settings limit s' t' r u) :
      Descends f settings limit s t r u
  /-- A move counts down, and it is not yet time to look at the variance. -/
  | moved {s s' r : Figure κ ν} {t t' u : Nat × σ} {countdown : Nat}
      (hleft : t.1 < settings.budget) (hmove : s.move f t = (.replaced s', t'))
      (hcountdown : s'.countdown = countdown + 1)
      (hearly : 0 < countdown ∨ settings.budget < t'.1)
      (hrest : Descends f settings limit { s' with countdown } t' r u) :
      Descends f settings limit s t r u
  /-- A move counts down to zero, and the values do not agree. -/
  | apart {s s' r : Figure κ ν} {t t' u : Nat × σ} (hleft : t.1 < settings.budget)
      (hmove : s.move f t = (.replaced s', t')) (hcountdown : s'.countdown = 0 + 1)
      (hwithin : t'.1 ≤ settings.budget) (hapart : ¬ deviation s'.vertices ≤ limit)
      (hrest : Descends f settings limit { s' with countdown := settings.checkEvery } t' r u) :
      Descends f settings limit s t r u
  /-- A move counts down to zero, and the values agree. -/
  | agreed {s s' : Figure κ ν} {t t' : Nat × σ} (hleft : t.1 < settings.budget)
      (hmove : s.move f t = (.replaced s', t')) (hcountdown : s'.countdown = 0 + 1)
      (hwithin : t'.1 ≤ settings.budget) (hagree : deviation s'.vertices ≤ limit) :
      Descends f settings limit s t { s' with countdown := settings.checkEvery } t'

/-- A search from `start`, without a look around: a new simplex, and its moves. -/
def Settles (f : Objective σ κ ν) (settings : Settings κ ν) (start : Array κ)
    (scale : List (Nat × κ)) (countdown : Nat) (t : Nat × σ) (s : Figure κ ν) (u : Nat × σ) :
    Prop :=
  ∃ vertices t', corners f start scale t = (vertices, t') ∧
    Descends f settings (settings.tolerance * Scalar.ofNat start.size)
      ⟨vertices, lowest vertices, countdown⟩ t' s u

/-- A look around the end of a search, for a lower neighbour. -/
def Settings.look (settings : Settings κ ν) (f : Objective σ κ ν) (n : Nat) (s : Figure κ ν) :
    Search σ (Bool × Array κ) :=
  lookAround f (s.value s.best.1) (settings.nudges n) (s.point s.best.1)

/-- Searches from `start`, and again from any lower neighbour of the end, however often that is.
From the count and the state `t` of the objective, the run comes to the minimum `m` with `u`. -/
inductive Searches (f : Objective σ κ ν) (settings : Settings κ ν) :
    (start : Array κ) → (scale : List (Nat × κ)) → (countdown restarts : Nat) → (t : Nat × σ) →
      (m : Minimum κ ν) → (u : Nat × σ) → Prop
  /-- The budget is exceeded. -/
  | spent {start : Array κ} {scale : List (Nat × κ)} {countdown restarts : Nat}
      {s : Figure κ ν} {t u : Nat × σ} (hsettles : Settles f settings start scale countdown t s u)
      (hspent : settings.budget < u.1) :
      Searches f settings start scale countdown restarts t
        ⟨s.point s.best.1, s.value s.best.1, u.1, restarts, .notConverged⟩ u
  /-- No neighbour is lower. -/
  | done {start point : Array κ} {scale : List (Nat × κ)} {countdown restarts : Nat}
      {s : Figure κ ν} {t t' u : Nat × σ}
      (hsettles : Settles f settings start scale countdown t s t')
      (hwithin : t'.1 ≤ settings.budget)
      (hlook : settings.look f start.size s t' = ((false, point), u)) :
      Searches f settings start scale countdown restarts t
        ⟨point, s.value s.best.1, u.1, restarts, .converged⟩ u
  /-- A lower neighbour is where the search starts again. -/
  | again {start point : Array κ} {scale : List (Nat × κ)} {countdown restarts : Nat}
      {s : Figure κ ν} {t t' t'' u : Nat × σ} {m : Minimum κ ν}
      (hsettles : Settles f settings start scale countdown t s t')
      (hwithin : t'.1 ≤ settings.budget)
      (hlook : settings.look f start.size s t' = ((true, point), t''))
      (hrest : Searches f settings point (settings.nudges start.size) s.countdown (restarts + 1)
        t'' m u) :
      Searches f settings start scale countdown restarts t m u

variable {f : Objective σ κ ν} {settings : Settings κ ν} {limit : ν} {s r : Figure κ ν}
  {t u : Nat × σ} {n : Nat}

/-! ## Descents -/

/-- A bounded descent is a whole one if its bound reaches as far as the budget. -/
theorem descends_descend {fuel : Nat} (hfuel : settings.budget ≤ t.1 + fuel) (hs : s.Shaped n)
    (hcheck : 0 < settings.checkEvery) (hwound : 0 < s.countdown ∨ settings.budget < t.1) :
    Ends (descend f settings limit fuel s) t (Descends f settings limit s t) := by
  induction fuel generalizing s t with
  | zero => exact Ends.pure (.spent hfuel)
  | succ fuel ih =>
    unfold descend
    refine Ends.bind (Ends.evaluations (Ends.ite (fun h => Ends.pure (.spent h)) fun hleft => ?_))
    have hleft : t.1 < settings.budget := not_le.mp hleft
    refine Ends.bind ((hs.move f t).with_eq.mono fun m t' h => ?_)
    obtain ⟨hmove, hshape, hcountdown, hcount, -⟩ := h
    cases m with
    | shrunk s' =>
      have hcountdown : s'.countdown = s.countdown := hcountdown
      exact (ih (by omega) hshape (by omega)).mono fun r u h => .shrunk hleft hmove h
    | replaced s' =>
      have hcountdown : s'.countdown = s.countdown := hcountdown
      have hpos : 0 < s.countdown := hwound.resolve_right (by omega)
      have hshape : s'.Shaped n := hshape
      have hsucc : s'.countdown = s'.countdown - 1 + 1 := by omega
      refine Ends.bind (Ends.evaluations (Ends.ite (fun hearly => ?_) fun hdue => ?_))
      · exact (ih (by omega) (hshape.rewind _) hearly).mono fun r u h =>
          .moved hleft hmove hsucc hearly h
      · have hdue : ¬ (0 < s'.countdown - 1 ∨ settings.budget < t'.1) := hdue
        have hone : s'.countdown = 0 + 1 := by omega
        have hwithin : t'.1 ≤ settings.budget := by omega
        refine Ends.ite (fun hagree => ?_) (fun hapart => ?_)
        · have hrun : Descends f settings limit s t
              { s' with countdown := settings.checkEvery } t' :=
            .agreed hleft hmove hone hwithin hagree
          exact Ends.pure hrun
        · exact (ih (by omega) (hshape.rewind _) (Or.inl hcheck)).mono fun r u h =>
            .apart hleft hmove hone hwithin hapart h

/-- The budget is exceeded by what one move takes, at most. -/
theorem Descends.spends (h : Descends f settings limit s t r u) (hs : s.Shaped n) :
    r.Shaped n ∧ t.1 ≤ u.1 ∧ u.1 ≤ max t.1 (settings.budget + (n + 2)) := by
  induction h with
  | spent => exact ⟨hs, le_refl _, le_max_left _ _⟩
  | shrunk hleft hmove _ ih =>
    obtain ⟨hshape, -, hlow, hhigh⟩ := (hs.move f _).of_eq hmove
    obtain ⟨hr, htu, hu⟩ := ih hshape
    exact ⟨hr, by omega, by omega⟩
  | moved hleft hmove _ _ _ ih =>
    obtain ⟨hshape, -, hlow, hhigh⟩ := (hs.move f _).of_eq hmove
    obtain ⟨hr, htu, hu⟩ := ih (hshape.rewind _)
    exact ⟨hr, by omega, by omega⟩
  | apart hleft hmove _ _ _ _ ih =>
    obtain ⟨hshape, -, hlow, hhigh⟩ := (hs.move f _).of_eq hmove
    obtain ⟨hr, htu, hu⟩ := ih (hshape.rewind _)
    exact ⟨hr, by omega, by omega⟩
  | agreed hleft hmove =>
    obtain ⟨hshape, -, hlow, hhigh⟩ := (hs.move f _).of_eq hmove
    exact ⟨hshape.rewind _, by omega, by omega⟩

/-- A descent has one outcome. The guards of any two steps exclude each other. -/
theorem Descends.unique (h : Descends f settings limit s t r u) {r' : Figure κ ν} {u' : Nat × σ}
    (h' : Descends f settings limit s t r' u') : r = r' ∧ u = u' := by
  induction h generalizing r' u' with
  | spent hspent => cases h' <;> grind
  | shrunk hleft hmove _ ih => cases h' <;> grind
  | moved hleft hmove hcountdown hearly _ ih => cases h' <;> grind
  | apart hleft hmove hcountdown hwithin hapart _ ih => cases h' <;> grind
  | agreed hleft hmove hcountdown hwithin hagree => cases h' <;> grind

/-- At the end of a descent the countdown is positive, unless the budget is exceeded. -/
theorem Descends.wound (h : Descends f settings limit s t r u) (hcheck : 0 < settings.checkEvery)
    (hwound : 0 < s.countdown ∨ settings.budget < t.1) (hs : s.Shaped n) :
    0 < r.countdown ∨ settings.budget < u.1 := by
  induction h with
  | spent => exact hwound
  | @shrunk s s' _ t _ _ hleft hmove _ ih =>
    obtain ⟨hshape, hcountdown, -⟩ := (hs.move f t).of_eq hmove
    have hcountdown : s'.countdown = s.countdown := hcountdown
    exact ih (Or.inl (by omega)) hshape
  | moved _ hmove _ hearly _ ih =>
    obtain ⟨hshape, -⟩ := (hs.move f _).of_eq hmove
    exact ih hearly (hshape.rewind _)
  | apart _ hmove _ _ _ _ ih =>
    obtain ⟨hshape, -⟩ := (hs.move f _).of_eq hmove
    exact ih (Or.inl hcheck) (hshape.rewind _)
  | agreed => exact Or.inl hcheck

/-! ## Whole searches -/

theorem corners_spends (f : Objective σ κ ν) {start : Array κ} (hstart : start.size = n)
    {steps : List (Nat × κ)} (hsteps : steps.length = n) (countdown : Nat) (t : Nat × σ) :
    Ends (corners f start steps) t fun vertices t' =>
      Figure.Shaped n ⟨vertices, lowest vertices, countdown⟩ ∧ t'.1 = t.1 + (n + 1) := by
  unfold corners
  refine Ends.bind (Ends.call fun last s₁ hlast => ?_)
  refine Ends.bind ((Ends.callAll _).mono fun others t' h => Ends.pure ?_)
  obtain ⟨hpoints, hcount⟩ := h
  have hlength := congrArg List.length hpoints
  rw [List.length_map, List.length_map, Array.length_toList, hsteps] at hlength
  rw [List.length_map, hsteps] at hcount
  refine ⟨Figure.shaped_lowest ?_ ?_ countdown, ?_⟩
  · rw [Array.size_push, hlength]
  · intro x hx
    rw [Array.toList_push, List.map_append, hpoints] at hx
    rcases List.mem_append.mp hx with hx | hx
    · obtain ⟨step, -, rfl⟩ := List.mem_map.mp hx
      rw [size_nudge, hstart]
    · have hx : x = last.point := List.mem_singleton.mp hx
      rw [hx, hlast, hstart]
  · rw [hcount]
    show t.1 + 1 + n = t.1 + (n + 1)
    omega

theorem lookAround_spends (f : Objective σ κ ν) (value : ν) (coordinates : List (Nat × κ))
    (point : Array κ) (t : Nat × σ) :
    Ends (lookAround f value coordinates point) t fun r t' =>
      r.2.size = point.size ∧ t.1 ≤ t'.1 ∧ t'.1 ≤ t.1 + 2 * coordinates.length := by
  induction coordinates generalizing point t with
  | nil => exact Ends.pure ⟨rfl, le_refl _, le_refl _⟩
  | cons step rest ih =>
    obtain ⟨i, d⟩ := step
    unfold lookAround
    refine Ends.bind (Ends.call fun ahead s₁ hahead => Ends.ite (fun _ => ?_) (fun _ => ?_))
    · refine Ends.pure ⟨?_, Nat.le_add_right _ _, ?_⟩
      · show ahead.point.size = _
        rw [hahead, size_nudge]
      · show t.1 + 1 ≤ _
        rw [List.length_cons]
        omega
    refine Ends.bind (Ends.call fun behind s₂ hbehind => Ends.ite (fun _ => ?_) (fun _ => ?_))
    · refine Ends.pure ⟨?_, Nat.le_add_right t.1 2, ?_⟩
      · show behind.point.size = _
        rw [hbehind, size_nudge, hahead, size_nudge]
      · show t.1 + 1 + 1 ≤ _
        rw [List.length_cons]
        omega
    · refine (ih _ _).mono fun r t' h => ?_
      obtain ⟨hsize, hlow, hhigh⟩ := h
      have hlow : t.1 + 1 + 1 ≤ t'.1 := hlow
      have hhigh : t'.1 ≤ t.1 + 1 + 1 + 2 * rest.length := hhigh
      refine ⟨?_, by omega, ?_⟩
      · rw [hsize, size_nudge, hbehind, size_nudge, hahead, size_nudge]
      · rw [List.length_cons]
        omega

omit [Scalar ν] in
theorem length_nudges (settings : Settings κ ν) (n : Nat) : (settings.nudges n).length = n := by
  simp [Settings.nudges]

omit [Scalar ν] in
theorem Settings.length_steps (settings : Settings κ ν) (n : Nat) :
    (settings.steps n).length = n := by
  simp [Settings.steps]

variable {start : Array κ} {scale : List (Nat × κ)} {countdown restarts : Nat}

theorem Settings.look_spends (settings : Settings κ ν) (f : Objective σ κ ν) (hs : s.Shaped n)
    (hstart : start.size = n) (t : Nat × σ) :
    Ends (settings.look f start.size s) t fun r t' =>
      r.2.size = n ∧ t.1 ≤ t'.1 ∧ t'.1 ≤ t.1 + 2 * n := by
  refine (lookAround_spends f _ (settings.nudges start.size) _ t).mono fun r t' h => ?_
  rw [hs.size_at hs.best_lt, length_nudges, hstart] at h
  exact h

/-- A search takes a simplex, and exceeds the budget by that or by one move at most. -/
theorem Settles.spends (h : Settles f settings start scale countdown t s u)
    (hstart : start.size = n) (hscale : scale.length = n) :
    s.Shaped n ∧ t.1 + (n + 1) ≤ u.1 ∧ u.1 ≤ max (t.1 + (n + 1)) (settings.budget + (n + 2)) := by
  obtain ⟨vertices, t', hcorners, hdescends⟩ := h
  obtain ⟨hshape, hcount⟩ := (corners_spends f hstart hscale countdown t).of_eq hcorners
  rw [← hcount]
  exact hdescends.spends hshape

theorem Settles.wound (h : Settles f settings start scale countdown t s u)
    (hstart : start.size = n) (hscale : scale.length = n) (hcheck : 0 < settings.checkEvery)
    (hcountdown : 0 < countdown) : 0 < s.countdown ∨ settings.budget < u.1 := by
  obtain ⟨vertices, t', hcorners, hdescends⟩ := h
  obtain ⟨hshape, -⟩ := (corners_spends f hstart hscale countdown t).of_eq hcorners
  exact hdescends.wound hcheck (Or.inl hcountdown) hshape

theorem Settles.unique (h : Settles f settings start scale countdown t s u) {s' : Figure κ ν}
    {u' : Nat × σ} (h' : Settles f settings start scale countdown t s' u') : s = s' ∧ u = u' := by
  obtain ⟨vertices, t₁, hcorners, hdescends⟩ := h
  obtain ⟨vertices', t₂, hcorners', hdescends'⟩ := h'
  obtain ⟨rfl, rfl⟩ := Prod.mk.inj (hcorners.symm.trans hcorners')
  exact hdescends.unique hdescends'

/-- A search has one outcome. -/
theorem Searches.unique {m m' : Minimum κ ν} {u' : Nat × σ}
    (h : Searches f settings start scale countdown restarts t m u)
    (h' : Searches f settings start scale countdown restarts t m' u') : m = m' ∧ u = u' := by
  induction h generalizing m' u' with
  | spent hsettles hspent => cases h' <;> grind [Settles.unique]
  | done hsettles hwithin hlook => cases h' <;> grind [Settles.unique]
  | again hsettles hwithin hlook _ ih => cases h' <;> grind [Settles.unique]

/-- The evaluations of a whole search in `n` dimensions, and what they say about its status. -/
structure Minimum.WithinBudget (settings : Settings κ ν) (n : Nat) (m : Minimum κ ν) : Prop where
  le_evaluations : n + 1 ≤ m.evaluations
  evaluations_le : m.evaluations ≤ settings.budget + 3 * n + 1
  cases_status :
    m.status = .notConverged ∧ settings.budget < m.evaluations ∨
      m.status = .converged ∧ m.evaluations ≤ settings.budget + 2 * n

/-- **What a run of the search takes.** -/
theorem Searches.spends {m : Minimum κ ν}
    (h : Searches f settings start scale countdown restarts t m u) (hstart : start.size = n)
    (hscale : scale.length = n) (hn : 1 ≤ n) (hlate : t.1 ≤ settings.budget + 2 * n) :
    m.WithinBudget settings n := by
  induction h with
  | @spent _ _ _ _ _ _ u hsettles hspent =>
    obtain ⟨-, hlow, hhigh⟩ := hsettles.spends hstart hscale
    have hleast : n + 1 ≤ u.1 := by omega
    have hmost : u.1 ≤ settings.budget + 3 * n + 1 := by omega
    exact ⟨hleast, hmost, Or.inl ⟨rfl, hspent⟩⟩
  | @done _ _ _ _ _ _ _ _ u hsettles hwithin hlook =>
    obtain ⟨hshape, hlow, -⟩ := hsettles.spends hstart hscale
    obtain ⟨-, hlow', hhigh'⟩ := (settings.look_spends f hshape hstart _).of_eq hlook
    have hleast : n + 1 ≤ u.1 := by omega
    have hmost : u.1 ≤ settings.budget + 2 * n := by omega
    have hmost' : u.1 ≤ settings.budget + 3 * n + 1 := by omega
    exact ⟨hleast, hmost', Or.inr ⟨rfl, hmost⟩⟩
  | again hsettles hwithin hlook _ ih =>
    obtain ⟨hshape, hlow, -⟩ := hsettles.spends hstart hscale
    obtain ⟨hpoint, hlow', hhigh'⟩ := (settings.look_spends f hshape hstart _).of_eq hlook
    exact ih hpoint (by rw [length_nudges, hstart]) (by omega)

/-- A bounded search is a whole one if its bound reaches beyond the budget. -/
theorem searches_searchFrom {fuel : Nat} (hpos : 0 < fuel) (hfuel : settings.budget < t.1 + fuel)
    (hstart : start.size = n) (hscale : scale.length = n) (hcheck : 0 < settings.checkEvery)
    (hcountdown : 0 < countdown) :
    Ends (searchFrom f settings fuel start scale countdown restarts) t
      (Searches f settings start scale countdown restarts t) := by
  induction fuel generalizing start scale countdown restarts t with
  | zero => exact absurd hpos (Nat.lt_irrefl 0)
  | succ fuel ih =>
    unfold searchFrom
    refine Ends.bind ((corners_spends f hstart hscale countdown t).with_eq.mono
      fun vertices t₁ h₁ => ?_)
    obtain ⟨hcorners, hshape₁, hcount₁⟩ := h₁
    refine Ends.bind ((descends_descend (Nat.le_add_left _ _) hshape₁ hcheck
      (Or.inl hcountdown)).mono fun s t₂ hdescends => ?_)
    have hsettles : Settles f settings start scale countdown t s t₂ :=
      ⟨vertices, t₁, hcorners, hdescends⟩
    obtain ⟨hshape, hcount₂, -⟩ := hsettles.spends hstart hscale
    refine Ends.bind (Ends.evaluations (Ends.ite (fun hspent => ?_) fun hwithin => ?_))
    · exact Ends.pure (.spent hsettles hspent)
    have hwithin : t₂.1 ≤ settings.budget := not_lt.mp hwithin
    refine Ends.bind ((settings.look_spends f hshape hstart t₂).with_eq.mono fun found t₃ h₃ => ?_)
    obtain ⟨lower, point⟩ := found
    obtain ⟨hlook, hpoint, hcount₃, -⟩ := h₃
    refine Ends.ite (fun htrue => ?_) (fun hfalse => ?_)
    · have hwound := (hsettles.wound hstart hscale hcheck hcountdown).resolve_right (by omega)
      obtain rfl : lower = true := htrue
      refine (ih (by omega) (by omega) hpoint ?_ hwound).mono fun m u hrest =>
        .again hsettles hwithin hlook hrest
      simp [hstart]
    · obtain rfl : lower = false := Bool.eq_false_iff.mpr hfalse
      exact Ends.bind (Ends.evaluations (Ends.pure (.done hsettles hwithin hlook)))

/-! ## The minimisation -/

/-- Settings with which a search in `n` dimensions starts. -/
structure Settings.Accepts (settings : Settings κ ν) (n : Nat) : Prop where
  tolerance : ¬ settings.tolerance ≤ 0
  dimension : 1 ≤ n
  checkEvery : 1 ≤ settings.checkEvery
  step : n ≤ settings.step.size

omit [Scalar κ] in
theorem Settings.isSound_iff : settings.isSound n = true ↔ settings.Accepts n := by
  constructor
  · intro h
    simp only [isSound, Bool.not_eq_true', Bool.or_eq_false_iff, decide_eq_false_iff_not] at h
    obtain ⟨⟨⟨htolerance, hn⟩, hcheck⟩, hstep⟩ := h
    exact ⟨htolerance, not_lt.mp hn, not_lt.mp hcheck, not_lt.mp hstep⟩
  · rintro ⟨htolerance, hn, hcheck, hstep⟩
    simp only [isSound, Bool.not_eq_true', Bool.or_eq_false_iff, decide_eq_false_iff_not]
    exact ⟨⟨⟨htolerance, not_lt.mpr hn⟩, not_lt.mpr hcheck⟩, not_lt.mpr hstep⟩

/-- An objective that counts its calls. -/
def counting (f : Objective σ κ ν) : Objective (Nat × σ) κ ν :=
  fun x (calls, s) => let (value, s) := f x s; (value, (calls + 1, s))

/-- Counting the calls changes nothing else, and gives the evaluations that are reported. -/
theorem minimise_counting (f : Objective σ κ ν) (settings : Settings κ ν) (start : Array κ)
    (s : σ) :
    minimise (counting f) settings start (0, s) =
      ((minimise f settings start s).1,
        ((minimise f settings start s).1.evaluations, (minimise f settings start s).2)) := by
  have halike : Objective.Alike (fun n (s : σ) (s' : Nat × σ) => s' = (n, s)) f (counting f) := by
    rintro x n s _ rfl
    exact ⟨rfl, rfl⟩
  obtain ⟨hsame, hcalls⟩ := lockstep_minimise halike settings start (s := s) rfl
  exact Prod.ext hsame.symm hcalls

/-- With settings that make sense the search is a run that ends. -/
theorem searches_minimise (f : Objective σ κ ν) {start : Array κ}
    (h : settings.Accepts start.size) (state : σ) :
    Searches f settings start (settings.steps start.size) settings.checkEvery 0 (0, state)
      (minimise f settings start state).1
      ((minimise f settings start state).1.evaluations, (minimise f settings start state).2) := by
  have hruns : Ends (searchFrom f settings (settings.budget + 1) start
      (settings.steps start.size) settings.checkEvery 0) (0, state) _ :=
    searches_searchFrom (Nat.succ_pos settings.budget) (by simp) rfl (settings.length_steps _)
      h.checkEvery h.checkEvery
  rw [minimise_eq f (Settings.isSound_iff.mpr h)]
  rcases hfound : searchFrom f settings (settings.budget + 1) start
    (settings.steps start.size) settings.checkEvery 0 (0, state) with ⟨m, u⟩
  have hrun := hruns.of_eq hfound
  have hcount := (evaluations_searchFrom f settings _ _ _ _ _ _).of_eq hfound
  show Searches f settings start _ _ 0 (0, state) m (m.evaluations, u.2)
  rw [hcount]
  exact hrun

theorem withinBudget_minimise (f : Objective σ κ ν) {start : Array κ}
    (h : settings.Accepts start.size) (state : σ) :
    (minimise f settings start state).1.WithinBudget settings start.size :=
  (searches_minimise f h state).spends rfl (settings.length_steps _) h.dimension (Nat.zero_le _)

/-- With other settings nothing is called. -/
theorem minimise_rejected (f : Objective σ κ ν) {start : Array κ}
    (h : ¬ settings.Accepts start.size) (state : σ) :
    minimise f settings start state =
      (⟨Array.replicate start.size 0, 0, 0, 0, .invalidInput⟩, state) := by
  have hsound : ¬ settings.isSound start.size = true := mt Settings.isSound_iff.mp h
  unfold minimise
  rw [if_neg hsound]

/-- **The search ends within its budget.** Whatever the objective, and however its values compare:
with settings that make sense the search is a run that ends and that never counts down from zero, it
reports the calls of the objective, and these are as many as the budget and a few more. With other
settings it calls nothing. -/
theorem minimise_withinBudget (f : Objective σ κ ν) (settings : Settings κ ν) (start : Array κ)
    (state : σ) :
    minimise (counting f) settings start (0, state) =
        ((minimise f settings start state).1,
          ((minimise f settings start state).1.evaluations, (minimise f settings start state).2)) ∧
      (settings.Accepts start.size →
        Searches f settings start (settings.steps start.size) settings.checkEvery 0 (0, state)
            (minimise f settings start state).1
            ((minimise f settings start state).1.evaluations,
              (minimise f settings start state).2) ∧
          (minimise f settings start state).1.WithinBudget settings start.size) ∧
      (¬ settings.Accepts start.size →
        minimise f settings start state =
          (⟨Array.replicate start.size 0, 0, 0, 0, .invalidInput⟩, state)) :=
  ⟨minimise_counting f settings start state,
    fun haccepts => ⟨searches_minimise f haccepts state, withinBudget_minimise f haccepts state⟩,
    fun hrejects => minimise_rejected f hrejects state⟩

end

/-- The objective of the example, whose values do not even compare with themselves. -/
def undefinedObjective : Objective Unit Float Float := fun _ s => (0.0 / 0.0, s)

/-- The settings of the example, with a budget of twenty. -/
def shortBudget : Settings Float Float where
  tolerance := 1.0e-6
  step := #[0.1]
  checkEvery := 5
  budget := 20

theorem accepts_shortBudget : shortBudget.Accepts 1 :=
  ⟨by decide +kernel, le_refl 1, by decide, le_refl 1⟩

theorem minimise_withinBudget_undefined :
    shortBudget.Accepts (#[1.0] : Array Float).size ∧
      (minimise undefinedObjective shortBudget #[1.0] ()).1.WithinBudget shortBudget 1 :=
  ⟨accepts_shortBudget,
    ((minimise_withinBudget undefinedObjective shortBudget #[1.0] ()).2.1 accepts_shortBudget).2⟩

end AmbisonicReverb.Simplex
