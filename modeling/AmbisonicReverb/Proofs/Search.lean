import Mathlib
import AmbisonicReverb.Proofs.Exact
import AmbisonicReverb.Proofs.Outcome

/-!
# The simplex search keeps the best value

A pure objective is watched by `recording`, which notes every point at which it is evaluated. With
exact coordinates, the minimum that a search returns is the least of all the values that the
objective took during the whole run (`minimise_best`), whatever the objective and however the
search ends.

The invariant is `Figure.Sound`: no value so far is below the one that the simplex remembers as its
best, and the vertex at the remembered position has that value. The moves keep it for these reasons.

* A vertex replaced is the worst one. It is at the remembered position only if all vertices agree,
  and then what replaces it is not above them.
* A shrink evaluates the best vertex again, since the middle of a point and itself is that point.
* A look around ends where it began, unless it finds something lower (`lookAround_spec`).

Values need no arithmetic laws. They have to be totally ordered (`Ordered`), where different values
may be equally high, such as zeros of both signs.
-/

namespace AmbisonicReverb.Simplex

variable {ν : Type} {g : Array ℝ → ν}

/-! ## Evaluations -/

/-- The pure objective `g`, which notes the points at which it is evaluated. -/
def recording (g : Array ℝ → ν) : Objective (List (Array ℝ)) ℝ ν := fun x log => (g x, log ++ [x])

/-- The state of a recorded search: the number of evaluations, and the points. -/
abbrev Trace : Type := Nat × List (Array ℝ)

/-- The trace goes on from another one. -/
structure Trace.Extends (t' t : Trace) : Prop where
  count_le : t.1 ≤ t'.1
  mem_of_mem : ∀ x ∈ t.2, x ∈ t'.2

theorem Trace.Extends.refl (t : Trace) : t.Extends t := ⟨le_refl _, fun _ hx => hx⟩

theorem Trace.Extends.trans {t t' t'' : Trace} (h' : t''.Extends t') (h : t'.Extends t) :
    t''.Extends t :=
  ⟨h.count_le.trans h'.count_le, fun x hx => h'.mem_of_mem x (h.mem_of_mem x hx)⟩

theorem Trace.extends_append (t : Trace) (n : Nat) (xs : List (Array ℝ)) :
    Trace.Extends (t.1 + n, t.2 ++ xs) t :=
  ⟨Nat.le_add_right _ _, fun _ hx => List.mem_append_left _ hx⟩

/-- Of the vertex that an evaluation gives, only its value is kept in mind. -/
theorem Ends.evaluate {x : Array ℝ} {t : Trace} {Q : Vertex ℝ ν → Trace → Prop}
    (h : ∀ v : Vertex ℝ ν, v.point = x → v.value = g v.point → Q v (t.1 + 1, t.2 ++ [v.point])) :
    Ends (evaluate (recording g) x) t Q := h ⟨x, g x⟩ rfl rfl

theorem mapM_evaluate_recording (xs : List (Array ℝ)) (t : Trace) :
    xs.mapM (evaluate (recording g)) t =
      (xs.map fun x => ⟨x, g x⟩, (t.1 + xs.length, t.2 ++ xs)) := by
  induction xs generalizing t with
  | nil => simp [List.mapM_nil, pure, StateT.pure]
  | cons x xs ih =>
    have hstep : (x :: xs).mapM (evaluate (recording g)) t =
        (let (vs, t) := xs.mapM (evaluate (recording g)) (t.1 + 1, t.2 ++ [x])
         (⟨x, g x⟩ :: vs, t)) := by
      rw [List.mapM_cons]
      rfl
    rw [hstep, ih]
    simp [Nat.add_comm, Nat.add_left_comm]

theorem evaluateAll_recording (xs : List (Array ℝ)) (t : Trace) :
    evaluateAll (recording g) xs t =
      ((xs.map fun x => ⟨x, g x⟩).toArray, (t.1 + xs.length, t.2 ++ xs)) := by
  unfold evaluateAll
  show (let (vs, t) := xs.mapM (evaluate (recording g)) t; (vs.toArray, t)) = _
  rw [mapM_evaluate_recording]

theorem Ends.evaluateAll {xs : List (Array ℝ)} {t : Trace} {Q : Array (Vertex ℝ ν) → Trace → Prop}
    (h : Q (xs.map fun x => ⟨x, g x⟩).toArray (t.1 + xs.length, t.2 ++ xs)) :
    Ends (evaluateAll (recording g) xs) t Q := by
  unfold Ends
  rw [evaluateAll_recording]
  exact h

/-! ## The first best of a list -/

section

variable {better : ν → ν → Bool} {p : ν → Prop} (hirrefl : ∀ a, p a → ¬ better a a)
  (htrans : ∀ a b c, p a → p b → p c → better a b → better b c → better a c)

include hirrefl htrans

/-- The fold of `leader`, when `front` is done and its best is `b`. -/
theorem foldl_leader {front rest : List ν} (hp : ∀ a ∈ front ++ rest, p a) {j : Nat} {b : ν}
    (hb : front[j]? = some b) (hbest : ∀ a ∈ front, ¬ better a b) :
    ∃ k v, rest.foldl (fun (i, best) v =>
        (i + 1, if better v best.2 then (i, v) else best)) (front.length, (j, b)) =
          (front.length + rest.length, (k, v)) ∧
      (front ++ rest)[k]? = some v ∧ ∀ a ∈ front ++ rest, ¬ better a v := by
  induction rest generalizing front j b with
  | nil =>
    rw [List.append_nil]
    exact ⟨j, b, rfl, hb, hbest⟩
  | cons v rest ih =>
    have hassoc : front ++ v :: rest = front ++ [v] ++ rest := by simp
    have hlength : front.length + (v :: rest).length =
        (front ++ [v]).length + rest.length := by simp; omega
    have hlast : front.length + 1 = (front ++ [v]).length := by simp
    have hpb : p b := hp b (List.mem_append_left _ (List.mem_of_getElem? hb))
    have hpv : p v := hp v (by simp)
    simp only [List.foldl_cons]
    rw [hlength, hlast, hassoc]
    rw [hassoc] at hp
    by_cases hv : better v b
    · simp only [hv, if_true]
      refine ih hp (by simp) fun a ha => ?_
      rcases List.mem_append.mp ha with ha | ha
      · intro hav
        have hpa : p a := hp a (by simp [ha])
        exact hbest a ha (htrans a v b hpa hpv hpb hav hv)
      · rw [List.mem_singleton.mp ha]
        exact hirrefl v hpv
    · simp only [hv]
      have hold : (front ++ [v])[j]? = some b := by
        rw [List.getElem?_append_left (List.getElem?_eq_some_iff.mp hb).1]
        exact hb
      refine ih hp hold fun a ha => ?_
      rcases List.mem_append.mp ha with ha | ha
      · exact hbest a ha
      · rw [List.mem_singleton.mp ha]
        exact hv

/-- The leader is in the list, and no entry is better. -/
theorem leader_spec {first : ν} {rest : List ν} (hp : ∀ a ∈ first :: rest, p a) :
    ∃ k v, leader better first (first :: rest) = (k, v) ∧ (first :: rest)[k]? = some v ∧
      ∀ a ∈ first :: rest, ¬ better a v := by
  have hself : ¬ better first first := hirrefl first (hp first (by simp))
  have hfront : [first][0]? = some first := rfl
  obtain ⟨k, v, hfold, hget, hbest⟩ := foldl_leader hirrefl htrans hp hfront
    fun a ha => List.mem_singleton.mp ha ▸ hself
  refine ⟨k, v, ?_, hget, hbest⟩
  unfold leader
  rw [List.foldl_cons]
  simp only [hself]
  exact congrArg Prod.snd hfold

end

/-- The vertices carry the values of the objective. -/
def Valued (g : Array ℝ → ν) (vertices : Array (Vertex ℝ ν)) : Prop :=
  ∀ v ∈ vertices, v.value = g v.point

theorem Valued.mem_range {vertices : Array (Vertex ℝ ν)} (hv : Valued g vertices) :
    ∀ a ∈ vertices.toList.map (·.value), a ∈ Set.range g := by
  intro a ha
  obtain ⟨v, hmem, rfl⟩ := List.mem_map.mp ha
  exact ⟨v.point, (hv v (Array.mem_toList_iff.mp hmem)).symm⟩

/-- What `leader` finds among the values of vertices. -/
theorem leader_vertices (better : ν → ν → Bool) (hirrefl : ∀ a ∈ Set.range g, ¬ better a a)
    (htrans : ∀ a b c, a ∈ Set.range g → b ∈ Set.range g → c ∈ Set.range g →
      better a b → better b c → better a c)
    {vertices : Array (Vertex ℝ ν)} (hv : Valued g vertices) {first : ν} {rest : List ν}
    (hvalues : vertices.toList.map (·.value) = first :: rest) :
    ∃ v, vertices[(leader better first (first :: rest)).1]? = some v ∧
      (leader better first (first :: rest)).2 = v.value ∧
      ∀ w ∈ vertices, ¬ better w.value v.value := by
  obtain ⟨k, b, hleader, hget, hbest⟩ := leader_spec hirrefl htrans
    (fun a ha => hv.mem_range a (hvalues ▸ ha))
  rw [← hvalues, List.getElem?_map, Array.getElem?_toList] at hget
  obtain ⟨v, hvk, hvb⟩ := Option.map_eq_some_iff.mp hget
  rw [hleader]
  refine ⟨v, hvk, hvb.symm, fun w hw => ?_⟩
  rw [hvb]
  refine hbest w.value ?_
  rw [← hvalues]
  exact List.mem_map_of_mem (Array.mem_toList_iff.mpr hw)

theorem exists_values {vertices : Array (Vertex ℝ ν)} (hpos : 0 < vertices.size) :
    ∃ first rest, vertices.toList.map (·.value) = first :: rest := by
  cases hvalues : vertices.toList.map (·.value) with
  | nil =>
    have hsize : vertices.size = 0 := by simpa using hvalues
    omega
  | cons first rest => exact ⟨first, rest, rfl⟩

variable [Scalar ν]

/-! ## Ordered values -/

/-- The values of the objective are totally ordered. -/
structure Ordered (g : Array ℝ → ν) : Prop where
  asymm : ∀ x y, g x < g y → ¬ g y < g x
  not_lt_trans : ∀ x y z, ¬ g x < g y → ¬ g y < g z → ¬ g x < g z
  le_iff : ∀ x y, g x ≤ g y ↔ ¬ g y < g x

namespace Ordered

theorem irrefl (hg : Ordered g) (x : Array ℝ) : ¬ g x < g x := fun h => hg.asymm x x h h

theorem lt_trans (hg : Ordered g) {x y z : Array ℝ} (hxy : g x < g y) (hyz : g y < g z) :
    g x < g z := by
  by_contra hxz
  exact hg.not_lt_trans x z y hxz (hg.asymm y z hyz) hxy

end Ordered

theorem lowest_spec (hg : Ordered g) {vertices : Array (Vertex ℝ ν)} (hv : Valued g vertices)
    (hpos : 0 < vertices.size) :
    ∃ v, vertices[(lowest vertices).1]? = some v ∧ (lowest vertices).2 = v.value ∧
      ∀ w ∈ vertices, ¬ w.value < v.value := by
  obtain ⟨first, rest, hvalues⟩ := exists_values hpos
  unfold lowest
  rw [hvalues]
  have hleader := leader_vertices (fun a b => a < b) ?_ ?_ hv hvalues
  · simpa only [decide_eq_true_eq] using hleader
  · rintro _ ⟨x, rfl⟩
    simpa using hg.irrefl x
  · rintro _ _ _ ⟨x, rfl⟩ ⟨y, rfl⟩ ⟨z, rfl⟩ hxy hyz
    simp only [decide_eq_true_eq] at hxy hyz ⊢
    exact hg.lt_trans hxy hyz

theorem highest_spec (hg : Ordered g) {vertices : Array (Vertex ℝ ν)} (hv : Valued g vertices)
    (hpos : 0 < vertices.size) :
    ∃ v, vertices[highest vertices]? = some v ∧ ∀ w ∈ vertices, ¬ v.value < w.value := by
  obtain ⟨first, rest, hvalues⟩ := exists_values hpos
  unfold highest
  rw [hvalues]
  have hleader := leader_vertices (fun a b => b < a) ?_ ?_ hv hvalues
  · obtain ⟨v, hget, -, hbest⟩ := hleader
    exact ⟨v, hget, by simpa only [decide_eq_true_eq] using hbest⟩
  · rintro _ ⟨x, rfl⟩
    simpa using hg.irrefl x
  · rintro _ _ _ ⟨x, rfl⟩ ⟨y, rfl⟩ ⟨z, rfl⟩ hxy hyz
    simp only [decide_eq_true_eq] at hxy hyz ⊢
    exact hg.lt_trans hyz hxy

/-! ## The invariant -/

/-- The simplex remembers the least value so far, and where it is. -/
structure Figure.Sound (g : Array ℝ → ν) (log : List (Array ℝ)) (s : Figure ℝ ν) : Prop where
  valued : Valued g s.vertices
  logged : ∀ v ∈ s.vertices, v.point ∈ log
  best : ∃ v, s.vertices[s.best.1]? = some v ∧ ¬ s.best.2 < v.value
  attained : ∃ x ∈ log, s.best.2 = g x
  least : ∀ x ∈ log, ¬ g x < s.best.2

namespace Figure

variable {log log' : List (Array ℝ)} {s : Figure ℝ ν}

theorem Sound.size_pos (hs : s.Sound g log) : 0 < s.vertices.size := by
  obtain ⟨v, hv, -⟩ := hs.best
  exact Nat.zero_lt_of_lt (Array.getElem?_eq_some_iff.mp hv).1

/-- The countdown is no part of the invariant. -/
theorem Sound.rewind (hs : s.Sound g log) (countdown : ℕ) :
    Figure.Sound g log { s with countdown } :=
  ⟨hs.valued, hs.logged, hs.best, hs.attained, hs.least⟩

/-- A vertex may be replaced by one that is not above the best, and any other vertex by any. -/
theorem Sound.replace (hg : Ordered g) (hs : s.Sound g log) (hsub : ∀ x ∈ log, x ∈ log')
    {i : Nat} (hi : i < s.vertices.size) {w : Vertex ℝ ν} (hw : w.value = g w.point)
    (hlog : w.point ∈ log') (hplace : i = s.best.1 → ¬ s.best.2 < w.value)
    (hnew : ∀ x ∈ log', x ∈ log ∨ ¬ g x < s.best.2 ∨ ¬ g x < w.value) :
    (s.replace i w).Sound g log' := by
  obtain ⟨b, hb, hbest⟩ := hs.attained
  obtain ⟨v, hv, hvb⟩ := hs.best
  have hmem : ∀ u ∈ s.vertices.setIfInBounds i w, u ∈ s.vertices ∨ u = w := by
    intro u hu
    obtain ⟨k, hk⟩ := Array.mem_iff_getElem?.mp hu
    rw [Array.getElem?_setIfInBounds] at hk
    split_ifs at hk
    · exact Or.inr (Option.some.inj hk).symm
    · exact Or.inl (Array.mem_of_getElem? hk)
  have hvalued : Valued g (s.vertices.setIfInBounds i w) := by
    intro u hu
    rcases hmem u hu with hu | rfl
    · exact hs.valued u hu
    · exact hw
  have hlogged : ∀ u ∈ s.vertices.setIfInBounds i w, u.point ∈ log' := by
    intro u hu
    rcases hmem u hu with hu | rfl
    · exact hsub _ (hs.logged u hu)
    · exact hlog
  by_cases hlower : w.value < s.best.2
  · have hbelow : ∀ x, ¬ g x < s.best.2 → ¬ g x < w.value := by
      rw [hw, hbest] at hlower ⊢
      exact fun x hx => hg.not_lt_trans x b w.point hx (hg.asymm w.point b hlower)
    have hreplace : s.replace i w =
        ⟨s.vertices.setIfInBounds i w, (i, w.value), s.countdown⟩ := by
      unfold Figure.replace
      rw [if_pos hlower]
    rw [hreplace]
    refine ⟨hvalued, hlogged, ⟨w, ?_, ?_⟩, ⟨w.point, hlog, hw⟩, fun x hx => ?_⟩
    · simp [hi]
    · rw [hw]
      exact hg.irrefl w.point
    · rcases hnew x hx with hx | hx | hx
      · exact hbelow x (hs.least x hx)
      · exact hbelow x hx
      · exact hx
  · have hreplace : s.replace i w = ⟨s.vertices.setIfInBounds i w, s.best, s.countdown⟩ := by
      unfold Figure.replace
      rw [if_neg hlower]
    rw [hreplace]
    refine ⟨hvalued, hlogged, ?_, ⟨b, hsub b hb, hbest⟩, fun x hx => ?_⟩
    · by_cases hsame : i = s.best.1
      · refine ⟨w, ?_, hplace hsame⟩
        subst hsame
        simp [hi]
      · refine ⟨v, ?_, hvb⟩
        rw [Array.getElem?_setIfInBounds_ne hsame]
        exact hv
    · rcases hnew x hx with hx | hx | hx
      · exact hs.least x hx
      · exact hx
      · rw [hw, hbest] at *
        exact hg.not_lt_trans x w.point b hx hlower

/-- The highest vertex may be replaced by any that is not above all vertices, provided that nothing
new is lower than it and lower than the best. -/
theorem Sound.replace_highest (hg : Ordered g) (hs : s.Sound g log) {xs : List (Array ℝ)}
    {w : Vertex ℝ ν} (hw : w.value = g w.point) (hmem : w.point ∈ xs)
    (hbelow : ∃ u ∈ s.vertices, ¬ u.value < w.value)
    (hnew : ∀ x ∈ xs, ¬ g x < s.best.2 ∨ ¬ g x < w.value) :
    (s.replace (highest s.vertices) w).Sound g (log ++ xs) := by
  obtain ⟨b, hb, hbest⟩ := hs.attained
  obtain ⟨worst, hworst, hhighest⟩ := highest_spec hg hs.valued hs.size_pos
  have hi : highest s.vertices < s.vertices.size := (Array.getElem?_eq_some_iff.mp hworst).1
  refine hs.replace hg (fun x hx => List.mem_append_left xs hx) hi hw
    (List.mem_append_right log hmem) (fun hsame => ?_) fun x hx => ?_
  · -- the highest vertex is the best one only if all are equally high
    obtain ⟨v, hv, hvb⟩ := hs.best
    obtain ⟨u, hu, huw⟩ := hbelow
    rw [hsame, hv] at hworst
    obtain rfl : v = worst := Option.some.inj hworst
    have hvu := hhighest u hu
    rw [hs.valued v (Array.mem_of_getElem? hv)] at hvb hvu
    rw [hs.valued u hu] at hvu huw
    rw [hbest] at hvb ⊢
    rw [hw] at huw ⊢
    exact hg.not_lt_trans b u.point w.point (hg.not_lt_trans b v.point u.point hvb hvu) huw
  · rcases List.mem_append.mp hx with hx | hx
    · exact Or.inl hx
    · exact Or.inr (hnew x hx)

/-- It may be replaced by the lower of two new vertices, when the first is not above all. -/
theorem Sound.replace_lower (hg : Ordered g) (hs : s.Sound g log) {r e w : Vertex ℝ ν}
    (hr : r.value = g r.point) (he : e.value = g e.point)
    (hw : w = r ∧ ¬ g e.point < g r.point ∨ w = e ∧ ¬ g r.point < g e.point)
    (hbelow : ∃ u ∈ s.vertices, ¬ u.value < r.value) :
    (s.replace (highest s.vertices) w).Sound g (log ++ [r.point] ++ [e.point]) := by
  rw [List.append_assoc]
  rcases hw with ⟨rfl, hlow⟩ | ⟨rfl, hlow⟩
  · refine hs.replace_highest hg hr (by simp) hbelow fun x hx => Or.inr ?_
    rw [hr]
    rcases List.mem_pair.mp hx with rfl | rfl
    · exact hg.irrefl _
    · exact hlow
  · obtain ⟨u, hu, hur⟩ := hbelow
    refine hs.replace_highest hg he (by simp) ⟨u, hu, ?_⟩ fun x hx => Or.inr ?_
    · rw [hs.valued u hu, hr] at hur
      rw [hs.valued u hu, he]
      exact hg.not_lt_trans _ _ _ hur hlow
    · rw [he]
      rcases List.mem_pair.mp hx with rfl | rfl
      · exact hlow
      · exact hg.irrefl _

theorem halfway_self (x : Array ℝ) : halfway x x = x := by
  refine Array.ext (by simp [halfway]) fun i hi _ => ?_
  simp only [halfway, Array.getElem_zipWith]
  norm_num
  ring

/-- A new simplex is sound when no value so far is below all its vertices. -/
theorem sound_lowest (hg : Ordered g) {vertices : Array (Vertex ℝ ν)}
    (hvalued : Valued g vertices) (hpos : 0 < vertices.size)
    (hlogged : ∀ v ∈ vertices, v.point ∈ log)
    (hleast : ∀ x ∈ log, ∃ u ∈ vertices, ¬ g x < u.value) (countdown : Nat) :
    Sound g log ⟨vertices, lowest vertices, countdown⟩ := by
  obtain ⟨low, hget, hlow, hbest⟩ := lowest_spec hg hvalued hpos
  have hmem : low ∈ vertices := Array.mem_of_getElem? hget
  have hvalue : low.value = g low.point := hvalued low hmem
  refine ⟨hvalued, hlogged, ⟨low, hget, ?_⟩, ⟨low.point, hlogged low hmem, hlow.trans hvalue⟩,
    fun x hx => ?_⟩
  · rw [hlow, hvalue]
    exact hg.irrefl low.point
  · obtain ⟨u, hu, hxu⟩ := hleast x hx
    have hul := hbest u hu
    rw [hvalued u hu] at hxu hul
    rw [hlow, hvalue]
    rw [hvalue] at hul
    exact hg.not_lt_trans x u.point low.point hxu hul

/-- A shrink evaluates the best vertex again, so that nothing lower is forgotten. -/
theorem Sound.shrink (hg : Ordered g) (hs : s.Sound g log) {xs : List (Array ℝ)}
    (hxs : xs = s.vertices.toList.map fun v => halfway v.point (s.point s.best.1))
    (hlog : ∀ x ∈ xs, x ∈ log') (hnew : ∀ x ∈ log', x ∈ log ∨ x ∈ xs ∨ ¬ g x < s.best.2) :
    Sound g log' { s with
      vertices := (xs.map fun x => ⟨x, g x⟩).toArray
      best := lowest (xs.map fun x => (⟨x, g x⟩ : Vertex ℝ ν)).toArray } := by
  have hmem : ∀ u : Vertex ℝ ν, u ∈ (xs.map fun x => (⟨x, g x⟩ : Vertex ℝ ν)).toArray ↔
      u.point ∈ xs ∧ u.value = g u.point := by
    rintro ⟨x, a⟩
    simp [eq_comm]
  obtain ⟨v, hv, hvb⟩ := hs.best
  obtain ⟨b, hb, hbv⟩ := hs.attained
  have hvmem : v ∈ s.vertices := Array.mem_of_getElem? hv
  have hagain : v.point ∈ xs := by
    have hpoint : s.point s.best.1 = v.point := Figure.point_eq hv
    rw [hxs, List.mem_map]
    exact ⟨v, Array.mem_toList_iff.mpr hvmem, by rw [hpoint, halfway_self]⟩
  have hbelow : ∀ x, ¬ g x < s.best.2 → ¬ g x < g v.point := by
    intro x hx
    rw [hs.valued v hvmem, hbv] at hvb
    rw [hbv] at hx
    exact hg.not_lt_trans x b v.point hx hvb
  refine sound_lowest hg (fun u hu => ((hmem u).mp hu).2) ?_
    (fun u hu => hlog u.point ((hmem u).mp hu).1) (fun x hx => ?_) s.countdown
  · simpa [hxs] using hs.size_pos
  · rcases hnew x hx with hx | hx | hx
    · exact ⟨⟨v.point, g v.point⟩, (hmem _).mpr ⟨hagain, rfl⟩, hbelow x (hs.least x hx)⟩
    · exact ⟨⟨x, g x⟩, (hmem _).mpr ⟨hx, rfl⟩, hg.irrefl x⟩
    · exact ⟨⟨v.point, g v.point⟩, (hmem _).mpr ⟨hagain, rfl⟩, hbelow x hx⟩

end Figure

/-- **A move keeps the invariant.** -/
theorem Figure.Sound.move (hg : Ordered g) {s : Figure ℝ ν} {t : Trace} (hs : s.Sound g t.2) :
    Ends (s.move (recording g)) t fun m (t' : Trace) => t'.Extends t ∧ m.figure.Sound g t'.2 := by
  obtain ⟨b, hb, hbest⟩ := hs.attained
  obtain ⟨worst, hworst, -⟩ := highest_spec hg hs.valued hs.size_pos
  have hworstmem : worst ∈ s.vertices := Array.mem_of_getElem? hworst
  have hworstleast := hs.least worst.point (hs.logged worst hworstmem)
  rw [hbest] at hworstleast
  unfold Figure.move
  refine Ends.bind (Ends.evaluate fun r _ hr => ?_)
  have hext := Trace.extends_append t 1 [r.point]
  refine Ends.ite (fun hlower => ?_) (fun hnotlower => ?_)
  · -- the reflected vertex is a new best, and the lower of it and the expanded one replaces
    refine Ends.bind (Ends.evaluate fun e _ he => ?_)
    refine Ends.pure ⟨(Trace.extends_append _ 1 [e.point]).trans hext, ?_⟩
    refine hs.replace_lower hg hr he ?_ ⟨worst, hworstmem, ?_⟩
    · rw [hr, he]
      by_cases hre : g r.point < g e.point
      · rw [if_pos hre]
        exact Or.inl ⟨rfl, hg.asymm _ _ hre⟩
      · rw [if_neg hre]
        exact Or.inr ⟨rfl, hre⟩
    · rw [hr, hbest] at hlower
      rw [hs.valued worst hworstmem, hr]
      exact fun h => hworstleast (hg.lt_trans h hlower)
  · have hrleast : ¬ g r.point < s.best.2 := hr ▸ hnotlower
    have hbeats : 0 < s.vertices.countP (fun v => r.value < v.value) →
        ∃ u ∈ s.vertices, ¬ u.value < r.value := by
      intro hpos
      obtain ⟨u, hu, hru⟩ := Array.countP_pos_iff.mp hpos
      refine ⟨u, hu, ?_⟩
      rw [decide_eq_true_eq, hr, hs.valued u hu] at hru
      rw [hr, hs.valued u hu]
      exact hg.asymm _ _ hru
    refine Ends.ite (fun hbeaten => ?_) (fun hnotbeaten => ?_)
    · refine Ends.pure ⟨hext, hs.replace_highest hg hr (by simp) (hbeats (by omega)) fun x hx => ?_⟩
      rw [List.mem_singleton.mp hx, hr]
      exact Or.inr (hg.irrefl _)
    · refine Ends.ite (fun hnone => ?_) (fun hsome => ?_)
      · -- contracted on the side of the highest vertex
        refine Ends.bind (Ends.evaluate fun c _ hc => ?_)
        have hext' := (Trace.extends_append (t.1 + 1, t.2 ++ [r.point]) 1 [c.point]).trans hext
        have hvalue : s.value (highest s.vertices) = worst.value := Figure.value_eq hworst
        refine Ends.ite (fun hhigher => ?_) (fun hnothigher => ?_)
        · have hcleast : ¬ g c.point < s.best.2 := by
            rw [hvalue, hs.valued worst hworstmem, hc] at hhigher
            rw [hbest]
            exact fun h => hworstleast (hg.lt_trans hhigher h)
          refine Ends.bind (Ends.evaluateAll ?_)
          refine Ends.pure ⟨(Trace.extends_append _ _ _).trans hext', ?_⟩
          refine hs.shrink hg rfl (fun x hx => List.mem_append_right _ hx) fun x hx => ?_
          simp only [List.mem_append, List.mem_singleton] at hx
          rcases hx with ((hx | rfl) | rfl) | hx
          · exact Or.inl hx
          · exact Or.inr (Or.inr hrleast)
          · exact Or.inr (Or.inr hcleast)
          · exact Or.inr (Or.inl hx)
        · refine Ends.pure ⟨hext', ?_⟩
          show Sound g (t.2 ++ [r.point] ++ [c.point]) (s.replace (highest s.vertices) c)
          rw [List.append_assoc]
          rw [hvalue] at hnothigher
          refine hs.replace_highest hg hc (by simp) ⟨worst, hworstmem, hnothigher⟩ fun x hx => ?_
          rcases List.mem_pair.mp hx with rfl | rfl
          · exact Or.inl hrleast
          · exact Or.inr (hc ▸ hg.irrefl _)
      · -- contracted on the side of the reflected vertex, and the lower of the two replaces
        refine Ends.bind (Ends.evaluate fun c _ hc => ?_)
        refine Ends.pure ⟨(Trace.extends_append _ 1 [c.point]).trans hext, ?_⟩
        refine hs.replace_lower hg hr hc ?_ (hbeats (Nat.pos_of_ne_zero hsome))
        have hle := hg.le_iff c.point r.point
        rw [hr, hc]
        by_cases hcr : g c.point ≤ g r.point
        · rw [if_pos hcr]
          exact Or.inr ⟨rfl, hle.mp hcr⟩
        · rw [if_neg hcr]
          exact Or.inl ⟨rfl, hg.asymm _ _ (not_not.mp (mt hle.mpr hcr))⟩

/-! ## The search -/

theorem Figure.Sound.descend (hg : Ordered g) (settings : Settings ℝ ν) (limit : ν) {fuel : Nat}
    {s : Figure ℝ ν} {t : Trace} (hs : s.Sound g t.2) :
    Ends (descend (recording g) settings limit fuel s) t fun s' (t' : Trace) =>
      t'.Extends t ∧ s'.Sound g t'.2 := by
  induction fuel generalizing s t with
  | zero => exact ⟨Trace.Extends.refl t, hs⟩
  | succ fuel ih =>
    unfold Simplex.descend
    refine Ends.bind (Ends.evaluations ?_)
    refine Ends.ite (fun _ => Ends.pure ⟨Trace.Extends.refl t, hs⟩) (fun _ => ?_)
    refine Ends.bind ((hs.move hg).mono fun m t' hm => ?_)
    obtain ⟨hext, hsound⟩ := hm
    cases m with
    | shrunk s' => exact (ih hsound).mono fun _ _ h => ⟨h.1.trans hext, h.2⟩
    | replaced s' =>
      have hsound : s'.Sound g t'.2 := hsound
      refine Ends.bind (Ends.evaluations ?_)
      refine Ends.ite (fun _ => ?_) (fun _ => ?_)
      · exact (ih (hsound.rewind _)).mono fun _ _ h => ⟨h.1.trans hext, h.2⟩
      · refine Ends.ite (fun _ => Ends.pure ⟨hext, hsound.rewind _⟩) (fun _ => ?_)
        exact (ih (hsound.rewind _)).mono fun _ _ h => ⟨h.1.trans hext, h.2⟩

/-- What a sound simplex remembers is the least value so far. -/
theorem Figure.Sound.least_best (hg : Ordered g) {s : Figure ℝ ν} {log : List (Array ℝ)}
    (hs : s.Sound g log) :
    s.value s.best.1 = g (s.point s.best.1) ∧ s.point s.best.1 ∈ log ∧
      ∀ x ∈ log, ¬ g x < g (s.point s.best.1) := by
  obtain ⟨v, hv, hvb⟩ := hs.best
  obtain ⟨b, hb, hbest⟩ := hs.attained
  have hvmem : v ∈ s.vertices := Array.mem_of_getElem? hv
  have hpoint : s.point s.best.1 = v.point := Figure.point_eq hv
  have hvalue : s.value s.best.1 = v.value := Figure.value_eq hv
  rw [hpoint, hvalue]
  refine ⟨hs.valued v hvmem, hs.logged v hvmem, fun x hx => ?_⟩
  have hleast := hs.least x hx
  rw [hbest] at hleast hvb
  rw [hs.valued v hvmem] at hvb
  exact hg.not_lt_trans x b v.point hleast hvb

/-- The vertices of a new simplex are a sound start when nothing so far is below its first one. -/
theorem corners_sound (hg : Ordered g) {start : Array ℝ} (steps : List (Nat × ℝ)) {t : Trace}
    (hstart : ∀ x ∈ t.2, ¬ g x < g start) (countdown : Nat) :
    Ends (corners (recording g) start steps) t fun vertices (t' : Trace) =>
      t'.Extends t ∧ t.1 < t'.1 ∧
        Figure.Sound g t'.2 ⟨vertices, lowest vertices, countdown⟩ := by
  unfold corners
  refine Ends.bind (Ends.evaluate fun last hlast hvalue => ?_)
  have hext := Trace.extends_append t 1 [last.point]
  refine Ends.bind (Ends.evaluateAll (Ends.pure ?_))
  refine ⟨(Trace.extends_append _ _ _).trans hext, ?_, ?_⟩
  · show t.1 < t.1 + 1 + _
    omega
  · have hmem : ∀ (xs : List (Array ℝ)) (u : Vertex ℝ ν),
        u ∈ (xs.map fun x => (⟨x, g x⟩ : Vertex ℝ ν)).toArray.push last →
          (u.point ∈ xs ∨ u = last) ∧ u.value = g u.point := by
      intro xs u hu
      rcases Array.mem_push.mp hu with hu | rfl
      · obtain ⟨x, hx, rfl⟩ := List.mem_map.mp (List.mem_toArray.mp hu)
        exact ⟨Or.inl hx, rfl⟩
      · exact ⟨Or.inr rfl, hvalue⟩
    refine Figure.sound_lowest hg (fun u hu => (hmem _ u hu).2) (by simp) (fun u hu => ?_)
      (fun x hx => ?_) countdown
    · rcases (hmem _ u hu).1 with hu | rfl
      · exact List.mem_append_right _ hu
      · simp
    · simp only [List.mem_append, List.mem_singleton] at hx
      rcases hx with (hx | rfl) | hx
      · refine ⟨last, by simp, ?_⟩
        rw [hvalue, hlast]
        exact hstart x hx
      · refine ⟨last, by simp, ?_⟩
        rw [hvalue]
        exact hg.irrefl _
      · refine ⟨⟨x, g x⟩, Array.mem_push.mpr (Or.inl ?_), hg.irrefl x⟩
        exact List.mem_toArray.mpr (List.mem_map_of_mem hx)

theorem nudge_back (x : Array ℝ) (i : Nat) (d : ℝ) :
    nudge (nudge (nudge x i d) i (-(2.0 * d))) i d = x := by
  have hback : ∀ a : ℝ, a + d + -(2.0 * d) + d = a := by
    intro a
    norm_num
    ring
  refine Array.ext (by simp [nudge]) fun j hj _ => ?_
  simp only [nudge, Array.getElem_modify]
  split_ifs
  · exact hback _
  · rfl

/-- A look around finds something lower than all before, or ends where it began. -/
theorem lookAround_spec (hg : Ordered g) (base : Array ℝ) {coordinates : List (Nat × ℝ)}
    {point : Array ℝ} {t : Trace} (hleast : ∀ x ∈ t.2, ¬ g x < g base) :
    Ends (lookAround (recording g) (g base) coordinates point) t fun r (t' : Trace) =>
      t'.Extends t ∧
        (r.1 = true → ∀ x ∈ t'.2, ¬ g x < g r.2) ∧
        (r.1 = false → r.2 = point ∧ ∀ x ∈ t'.2, ¬ g x < g base) := by
  induction coordinates generalizing point t with
  | nil =>
    unfold lookAround
    refine Ends.pure ⟨Trace.Extends.refl t, fun h => ?_, fun _ => ⟨rfl, hleast⟩⟩
    exact absurd h Bool.false_ne_true
  | cons step rest ih =>
    obtain ⟨i, d⟩ := step
    -- a point lower than `base` is not above anything so far
    have hfound : ∀ (t' : Trace) (v : Vertex ℝ ν), (∀ x ∈ t'.2, ¬ g x < g base) →
        g v.point < g base → ∀ x ∈ t'.2 ++ [v.point], ¬ g x < g v.point := by
      intro t' v ht' hv x hx
      rcases List.mem_append.mp hx with hx | hx
      · exact hg.not_lt_trans x base v.point (ht' x hx) (hg.asymm _ _ hv)
      · rw [List.mem_singleton.mp hx]
        exact hg.irrefl _
    have hkept : ∀ (t' : Trace) (v : Vertex ℝ ν), (∀ x ∈ t'.2, ¬ g x < g base) →
        ¬ g v.point < g base → ∀ x ∈ t'.2 ++ [v.point], ¬ g x < g base := by
      intro t' v ht' hv x hx
      rcases List.mem_append.mp hx with hx | hx
      · exact ht' x hx
      · rw [List.mem_singleton.mp hx]
        exact hv
    unfold lookAround
    refine Ends.bind (Ends.evaluate fun a ha hav => ?_)
    have hext := Trace.extends_append t 1 [a.point]
    refine Ends.ite (fun hlow => ?_) (fun hnotlow => ?_)
    · rw [hav] at hlow
      exact Ends.pure ⟨hext, fun _ => hfound t a hleast hlow, fun h => nomatch h⟩
    · rw [hav] at hnotlow
      have hleast' := hkept t a hleast hnotlow
      refine Ends.bind (Ends.evaluate fun b hb hbv => ?_)
      have hext' := (Trace.extends_append (t.1 + 1, t.2 ++ [a.point]) 1 [b.point]).trans hext
      refine Ends.ite (fun hlow => ?_) (fun hnotlow => ?_)
      · rw [hbv] at hlow
        exact Ends.pure ⟨hext', fun _ => hfound _ b hleast' hlow, fun h => nomatch h⟩
      · rw [hbv] at hnotlow
        have hpoint : nudge b.point i d = point := by rw [hb, ha, nudge_back]
        rw [hpoint]
        refine (ih (hkept _ b hleast' hnotlow)).mono fun r t' h => ?_
        exact ⟨h.1.trans hext', h.2⟩

/-- The minimum is attained, and is the least of all values. -/
structure Minimum.Best (g : Array ℝ → ν) (log : List (Array ℝ)) (m : Minimum ℝ ν) : Prop where
  value_eq : m.value = g m.point
  point_mem : m.point ∈ log
  value_le : ∀ x ∈ log, m.value ≤ g x

theorem searchFrom_best (hg : Ordered g) (settings : Settings ℝ ν) {fuel : Nat} (hpos : 0 < fuel)
    {start : Array ℝ} (scale : List (Nat × ℝ)) (countdown restarts : Nat) {t : Trace}
    (hfuel : settings.budget < t.1 + fuel) (hstart : ∀ x ∈ t.2, ¬ g x < g start) :
    Ends (searchFrom (recording g) settings fuel start scale countdown restarts) t
      fun m t' => m.Best g t'.2 := by
  induction fuel generalizing start scale countdown restarts t with
  | zero => omega
  | succ fuel ih =>
    unfold searchFrom
    refine Ends.bind ((corners_sound hg scale hstart countdown).mono fun vertices t₁ h₁ => ?_)
    obtain ⟨hext₁, hcount, hsound₁⟩ := h₁
    refine Ends.bind ((hsound₁.descend hg settings _).mono fun s t₂ h₂ => ?_)
    obtain ⟨hext₂, hsound⟩ := h₂
    obtain ⟨hvalue, hmem, hleast⟩ := hsound.least_best hg
    have hbest : ∀ (t' : Trace) (status : Status) (restarts : Nat), t'.Extends t₂ →
        (∀ x ∈ t'.2, ¬ g x < g (s.point s.best.1)) →
        Minimum.Best g t'.2
          ⟨s.point s.best.1, s.value s.best.1, t'.1, restarts, status⟩ := by
      intro t' status restarts hext hleast
      refine ⟨hvalue, hext.mem_of_mem _ hmem, fun x hx => ?_⟩
      show s.value s.best.1 ≤ g x
      rw [hvalue]
      exact (hg.le_iff _ _).mpr (hleast x hx)
    refine Ends.bind (Ends.evaluations ?_)
    refine Ends.ite (fun _ => Ends.pure (hbest t₂ _ _ (Trace.Extends.refl t₂) hleast))
      (fun hbudget => ?_)
    simp only [hvalue]
    refine Ends.bind ((lookAround_spec hg _ hleast).mono fun r t₃ h₃ => ?_)
    obtain ⟨lower, point⟩ := r
    obtain ⟨hext₃, hlower, hsame⟩ := h₃
    refine Ends.ite (fun htrue => ?_) (fun hfalse => ?_)
    · have h₂ := hext₂.count_le
      have h₃ := hext₃.count_le
      exact ih (by omega) _ _ _ (by omega) (hlower htrue)
    · obtain ⟨hpoint, hleast₃⟩ := hsame (Bool.eq_false_iff.mpr hfalse)
      refine Ends.bind (Ends.evaluations (Ends.pure ?_))
      have hdone := hbest t₃ .converged restarts hext₃ hleast₃
      rw [hvalue] at hdone
      simp only at hpoint
      rw [hpoint]
      exact hdone

/-- **The best of the run.** With settings that make sense, the minimum that the search returns is
the least of all values that the objective took. -/
theorem minimise_best (hg : Ordered g) {settings : Settings ℝ ν} {start : Array ℝ}
    (htolerance : ¬ settings.tolerance ≤ 0) (hstart : 0 < start.size)
    (hcheck : 0 < settings.checkEvery) (hstep : start.size ≤ settings.step.size) :
    (minimise (recording g) settings start []).1.Best g
      (minimise (recording g) settings start []).2 := by
  have hempty : ¬ start.size < 1 := by omega
  have hnever : ¬ settings.checkEvery < 1 := by omega
  have hshort : ¬ settings.step.size < start.size := by omega
  have hsound : settings.isSound start.size = true := by
    unfold Settings.isSound
    rw [decide_eq_false htolerance, decide_eq_false hempty, decide_eq_false hnever,
      decide_eq_false hshort]
    rfl
  have hnothing : ∀ x ∈ ((0, []) : Trace).2, ¬ g x < g start := fun _ hx => nomatch hx
  unfold minimise
  rw [if_pos hsound]
  exact searchFrom_best hg settings (Nat.succ_pos _) _ settings.checkEvery 0 (by simp) hnothing

/-- Real values are totally ordered. -/
theorem ordered_real (g : Array ℝ → ℝ) : Ordered g where
  asymm _ _ := lt_asymm
  not_lt_trans _ _ _ hxy hyz := not_lt.mpr ((not_lt.mp hyz).trans (not_lt.mp hxy))
  le_iff _ _ := not_lt.symm

/-- The search of the example, along one coordinate with a budget of twenty. -/
noncomputable def shortSearch : Settings ℝ ℝ where
  tolerance := 1
  step := #[1]
  checkEvery := 5
  budget := 20

theorem minimise_best_square :
    (¬ shortSearch.tolerance ≤ 0 ∧ 0 < (#[1] : Array ℝ).size ∧ 0 < shortSearch.checkEvery ∧
        (#[1] : Array ℝ).size ≤ shortSearch.step.size) ∧
      (minimise (recording fun x => x.getD 0 0 * x.getD 0 0) shortSearch #[1] []).1.Best
        (fun x => x.getD 0 0 * x.getD 0 0)
        (minimise (recording fun x => x.getD 0 0 * x.getD 0 0) shortSearch #[1] []).2 := by
  have htolerance : ¬ shortSearch.tolerance ≤ 0 := by norm_num [shortSearch]
  exact ⟨⟨htolerance, by decide, by decide, by decide⟩,
    minimise_best (ordered_real _) htolerance (by decide) (by decide) (by decide)⟩

end AmbisonicReverb.Simplex
