import Mathlib
import AmbisonicReverb.Proofs.Budget

/-!
# The simplexes of a search

A search builds a simplex, moves it, and looks around its best vertex; from a lower neighbour it
starts again, with a new simplex. `Legs` is the run of a search with this history: one `Leg` for
each simplex, with the point that it was built around and what it came to.

**Theorem (`minimise_agrees`).** If the search says that it has converged, then the values of each
simplex agreed when its moves ended, except that the moves of the last one may have ended with
exactly the budget used up.

The exception is real (`not_agrees_spentSearch`). Moves end when the budget is used up, but only a
budget that is exceeded counts as no convergence, so that with exactly the budget used up nobody has
looked at the values.
-/

namespace AmbisonicReverb.Simplex

variable {σ κ ν : Type}

/-- One simplex of a search: the point that it was built around, what its moves came to, and the
number of evaluations until then. -/
structure Leg (κ ν : Type) where
  start : Array κ
  figure : Figure κ ν
  evaluations : ℕ

variable [Scalar κ] [Scalar ν]

/-- The values at the vertices passed the test of their variance. -/
def Leg.Agrees (settings : Settings κ ν) (leg : Leg κ ν) : Prop :=
  deviation leg.figure.vertices ≤ settings.tolerance * Scalar.ofNat leg.start.size

/-! ## Histories -/

/-- A search as in `Searches`, with its simplexes in order. -/
inductive Legs (f : Objective σ κ ν) (settings : Settings κ ν) :
    (start : Array κ) → (scale : List (ℕ × κ)) → (countdown restarts : ℕ) → (t : ℕ × σ) →
      (legs : List (Leg κ ν)) → (m : Minimum κ ν) → (u : ℕ × σ) → Prop
  /-- The budget is exceeded. -/
  | spent {start : Array κ} {scale : List (ℕ × κ)} {countdown restarts : ℕ} {s : Figure κ ν}
      {t u : ℕ × σ} (hsettles : Settles f settings start scale countdown t s u)
      (hspent : settings.budget < u.1) :
      Legs f settings start scale countdown restarts t [⟨start, s, u.1⟩]
        ⟨s.point s.best.1, s.value s.best.1, u.1, restarts, .notConverged⟩ u
  /-- No neighbour is lower. -/
  | done {start point : Array κ} {scale : List (ℕ × κ)} {countdown restarts : ℕ}
      {s : Figure κ ν} {t t' u : ℕ × σ}
      (hsettles : Settles f settings start scale countdown t s t')
      (hwithin : t'.1 ≤ settings.budget)
      (hlook : settings.look f start.size s t' = ((false, point), u)) :
      Legs f settings start scale countdown restarts t [⟨start, s, t'.1⟩]
        ⟨point, s.value s.best.1, u.1, restarts, .converged⟩ u
  /-- A lower neighbour is where the next simplex is built. -/
  | again {start point : Array κ} {scale : List (ℕ × κ)} {countdown restarts : ℕ}
      {s : Figure κ ν} {t t' t'' u : ℕ × σ} {legs : List (Leg κ ν)} {m : Minimum κ ν}
      (hsettles : Settles f settings start scale countdown t s t')
      (hwithin : t'.1 ≤ settings.budget)
      (hlook : settings.look f start.size s t' = ((true, point), t''))
      (hrest : Legs f settings point (settings.nudges start.size) s.countdown (restarts + 1)
        t'' legs m u) :
      Legs f settings start scale countdown restarts t (⟨start, s, t'.1⟩ :: legs) m u

/-- The simplexes that the search for a minimum goes through. -/
def LegsOf (f : Objective σ κ ν) (settings : Settings κ ν) (start : Array κ) (state : σ)
    (legs : List (Leg κ ν)) : Prop :=
  Legs f settings start (settings.steps start.size) settings.checkEvery 0 (0, state) legs
    (minimise f settings start state).1
    ((minimise f settings start state).1.evaluations, (minimise f settings start state).2)

variable {f : Objective σ κ ν} {settings : Settings κ ν} {limit : ν} {start : Array κ}
  {scale : List (ℕ × κ)} {countdown restarts n : ℕ} {s r : Figure κ ν} {t u : ℕ × σ}
  {legs : List (Leg κ ν)} {m : Minimum κ ν}

theorem Searches.exists_legs (h : Searches f settings start scale countdown restarts t m u) :
    ∃ legs, Legs f settings start scale countdown restarts t legs m u := by
  induction h with
  | spent hsettles hspent => exact ⟨_, .spent hsettles hspent⟩
  | done hsettles hwithin hlook => exact ⟨_, .done hsettles hwithin hlook⟩
  | again hsettles hwithin hlook _ ih =>
    obtain ⟨legs, hlegs⟩ := ih
    exact ⟨_, .again hsettles hwithin hlook hlegs⟩

/-- With settings that make sense, a search has a history. -/
theorem exists_legsOf (f : Objective σ κ ν) (h : settings.Accepts start.size) (state : σ) :
    ∃ legs, LegsOf f settings start state legs :=
  (searches_minimise f h state).exists_legs

/-- The first simplex is built where the search starts. -/
theorem Legs.exists_cons (h : Legs f settings start scale countdown restarts t legs m u) :
    ∃ s t' rest, legs = ⟨start, s, t'.1⟩ :: rest ∧
      Settles f settings start scale countdown t s t' := by
  cases h with
  | spent hsettles => exact ⟨_, _, [], rfl, hsettles⟩
  | done hsettles => exact ⟨_, _, [], rfl, hsettles⟩
  | again hsettles => exact ⟨_, _, _, rfl, hsettles⟩

/-- Each simplex but the first is a restart, and counted as one. -/
theorem Legs.restarts_add_one (h : Legs f settings start scale countdown restarts t legs m u) :
    m.restarts + 1 = restarts + legs.length := by
  induction h with
  | spent => rfl
  | done => rfl
  | again _ _ _ _ ih =>
    rw [ih, List.length_cons]
    omega

/-! ## How moves end -/

/-- Moves end with values that agree, or with the budget used up. -/
theorem Descends.agrees_or_spent (h : Descends f settings limit s t r u) :
    deviation r.vertices ≤ limit ∨ settings.budget ≤ u.1 := by
  induction h with
  | spent hspent => exact .inr hspent
  | shrunk _ _ _ ih => exact ih
  | moved _ _ _ _ _ ih => exact ih
  | apart _ _ _ _ _ _ ih => exact ih
  | agreed _ _ _ _ hagree => exact .inl hagree

/-- Without a budget there are no moves. -/
theorem Descends.eq_of_spent (h : Descends f settings limit s t r u)
    (hspent : settings.budget ≤ t.1) : r = s ∧ u = t := by
  cases h with
  | spent => exact ⟨rfl, rfl⟩
  | shrunk hleft => omega
  | moved hleft => omega
  | apart hleft => omega
  | agreed hleft => omega

theorem Settles.agrees_or_spent (h : Settles f settings start scale countdown t s u) :
    Leg.Agrees settings ⟨start, s, u.1⟩ ∨ settings.budget ≤ u.1 := by
  obtain ⟨vertices, t', -, hdescends⟩ := h
  exact hdescends.agrees_or_spent

/-! ## What the status says -/

/-- What the status of a minimum says about the simplexes before the last one, and the last one. -/
structure Minimum.Concludes (settings : Settings κ ν) (legs : List (Leg κ ν)) (last : Leg κ ν)
    (m : Minimum κ ν) : Prop where
  converged_iff : m.status = .converged ↔ last.evaluations ≤ settings.budget
  notConverged_iff : m.status = .notConverged ↔ settings.budget < last.evaluations
  agrees : m.status = .converged → ∀ leg ∈ legs, leg.Agrees settings
  last_agrees : m.status = .converged →
    last.Agrees settings ∨ last.evaluations = settings.budget

theorem Legs.concludes (h : Legs f settings start scale countdown restarts t legs m u)
    (hstart : start.size = n) (hscale : scale.length = n) :
    ∃ earlier last, legs = earlier ++ [last] ∧ t.1 < last.evaluations ∧
      m.Concludes settings earlier last := by
  induction h with
  | @spent _ _ _ _ _ t u hsettles hspent =>
    obtain ⟨-, hlow, -⟩ := hsettles.spends hstart hscale
    have hlate : t.1 < u.1 := by omega
    refine ⟨[], _, rfl, hlate, ?_⟩
    exact {
      converged_iff := iff_of_false Status.noConfusion (not_le.mpr hspent)
      notConverged_iff := iff_of_true rfl hspent
      agrees := Status.noConfusion
      last_agrees := Status.noConfusion }
  | @done _ _ _ _ _ _ t t' _ hsettles hwithin _ =>
    obtain ⟨-, hlow, -⟩ := hsettles.spends hstart hscale
    have hlate : t.1 < t'.1 := by omega
    refine ⟨[], _, rfl, hlate, ?_⟩
    exact {
      converged_iff := iff_of_true rfl hwithin
      notConverged_iff := iff_of_false Status.noConfusion (not_lt.mpr hwithin)
      agrees := fun _ leg hleg => absurd hleg List.not_mem_nil
      last_agrees := fun _ => hsettles.agrees_or_spent.imp_right (hwithin.antisymm ·) }
  | @again start _ _ _ _ s t t' t'' _ _ _ hsettles hwithin hlook _ ih =>
    obtain ⟨hshape, hlow, -⟩ := hsettles.spends hstart hscale
    obtain ⟨hpoint, hlow', -⟩ := (settings.look_spends f hshape hstart t').of_eq hlook
    obtain ⟨earlier, last, rfl, hlate, hlast⟩ := ih hpoint (by rw [length_nudges, hstart])
    refine ⟨⟨start, s, t'.1⟩ :: earlier, last, rfl, by omega,
      { hlast with agrees := fun hconverged => ?_ }⟩
    rw [List.forall_mem_cons]
    refine ⟨hsettles.agrees_or_spent.resolve_right fun hspent => ?_, hlast.agrees hconverged⟩
    -- more evaluations came after a simplex that was left
    have hwithin' := hlast.converged_iff.mp hconverged
    have hspent : settings.budget ≤ t'.1 := hspent
    omega

/-- **Convergence.** If the search says that it has converged, then the values of all its simplexes
agreed when their moves ended, unless the moves of the last one ended with exactly the budget used
up. It says so if the budget is not exceeded by then. -/
theorem minimise_agrees (f : Objective σ κ ν) (h : settings.Accepts start.size) (state : σ) :
    ∃ legs last, LegsOf f settings start state (legs ++ [last]) ∧
      (minimise f settings start state).1.Concludes settings legs last := by
  obtain ⟨all, hall⟩ := exists_legsOf f h state
  obtain ⟨legs, last, rfl, -, hlast⟩ := hall.concludes rfl (settings.length_steps start.size)
  exact ⟨legs, last, hall, hlast⟩

/-! ## A search that nobody looked at -/

/-- The distance from a point of the line. -/
def distanceFrom (x : Float) : Objective Unit Float Float :=
  fun p s => (Scalar.abs (p.getD 0 0 - x), s)

/-- The settings of the example, with a generous limit of the variance. -/
def easySearch : Settings Float Float where
  tolerance := 1.0
  step := #[1.0]
  checkEvery := 1
  budget := 100

/-- The settings of the example, with a budget for the first simplex only. -/
def spentSearch : Settings Float Float where
  tolerance := 1.0e-6
  step := #[1.0]
  checkEvery := 5
  budget := 2

theorem accepts_easySearch : easySearch.Accepts 1 :=
  ⟨by decide +kernel, le_refl 1, le_refl 1, le_refl 1⟩

theorem accepts_spentSearch : spentSearch.Accepts 1 :=
  ⟨by decide +kernel, le_refl 1, by decide, le_refl 1⟩

theorem minimise_agrees_easySearch :
    easySearch.Accepts (#[1.5] : Array Float).size ∧
      (minimise (distanceFrom 1.5) easySearch #[1.5] ()).1.status = .converged ∧
      ∃ legs last, LegsOf (distanceFrom 1.5) easySearch #[1.5] () (legs ++ [last]) ∧
        (minimise (distanceFrom 1.5) easySearch #[1.5] ()).1.Concludes easySearch legs last :=
  ⟨accepts_easySearch, by decide +kernel, minimise_agrees (distanceFrom 1.5) accepts_easySearch ()⟩

/-- The only simplex uses up the budget, its values 0 and 1 are apart, and the search says that it
has converged. -/
theorem not_agrees_spentSearch :
    ∃ last, LegsOf (distanceFrom 0) spentSearch #[0] () [last] ∧
      (minimise (distanceFrom 0) spentSearch #[0] ()).1.status = .converged ∧
      ¬ last.Agrees spentSearch := by
  have hconverged : (minimise (distanceFrom 0) spentSearch #[0] ()).1.status = .converged := by
    decide +kernel
  have honce : (minimise (distanceFrom 0) spentSearch #[0] ()).1.restarts = 0 := by decide +kernel
  have hhistory : ∃ legs, LegsOf (distanceFrom 0) spentSearch #[0] () legs :=
    exists_legsOf (distanceFrom 0) accepts_spentSearch ()
  obtain ⟨legs, hlegs⟩ := hhistory
  have hlength := hlegs.restarts_add_one
  obtain ⟨s, u, rest, rfl, vertices, t, hcorners, hdescends⟩ := hlegs.exists_cons
  obtain rfl : rest = [] := by
    rw [honce, List.length_cons] at hlength
    exact List.length_eq_zero_iff.mp (by omega)
  refine ⟨_, hlegs, hconverged, ?_⟩
  -- the two evaluations of the first simplex are the whole budget, so that there are no moves
  have hvertices : vertices = (corners (distanceFrom 0) #[0] (spentSearch.steps 1) (0, ())).1 :=
    (congrArg Prod.fst hcorners).symm
  have hspent : t = (corners (distanceFrom 0) #[0] (spentSearch.steps 1) (0, ())).2 :=
    (congrArg Prod.snd hcorners).symm
  obtain ⟨rfl, -⟩ := hdescends.eq_of_spent (by rw [hspent]; decide +kernel)
  show ¬ deviation vertices ≤ spentSearch.tolerance * Scalar.ofNat 1
  rw [hvertices]
  decide +kernel

end AmbisonicReverb.Simplex
