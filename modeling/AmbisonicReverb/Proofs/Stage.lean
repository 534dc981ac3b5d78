import Mathlib
import AmbisonicReverb.Fit
import AmbisonicReverb.Proofs.BinaryOrder
import AmbisonicReverb.Proofs.Budget

/-!
# A stage keeps the best value

The error of a trial is here a pure function of the value brought into range, and all the values
tried are noted in order (`noting`). The invariant of a stage is `Progress.Best`: it stands at a
value in range that has been tried, and no value tried so far has a smaller error.

A round does three things that could lose the best value: a search, whose last trial is usually not
its best, a second trial of the value that the search found, and the choice between that value and
the last one. The search returns the best of its own trials (`minimise_noting`), so the second trial
is of a value already noted, and the choice is between the best of the old and the best of the new
trials (`Best.keep`, `Best.replace`).

Values are real numbers. Errors need no arithmetic laws; they have to be totally ordered, as finite
binary numbers are.
-/

namespace AmbisonicReverb

namespace Fit

variable {ν : Type} {e : ℝ → ν} {lower upper : ℝ}

/-- The error of a trial of some value, which notes the value that is tried. -/
noncomputable def noting (e : ℝ → ν) (lower upper : ℝ) (x : ℝ) : StateM (List ℝ) ν :=
  fun log => (e (Scalar.clamp lower upper x), log ++ [Scalar.clamp lower upper x])

theorem ends_noting {x : ℝ} {log : List ℝ} {Q : ν → List ℝ → Prop}
    (h : Q (e (Scalar.clamp lower upper x)) (log ++ [Scalar.clamp lower upper x])) :
    Ends (noting e lower upper x) log Q := h

variable [Scalar ν]

/-! ## Errors -/

/-- The errors are totally ordered. -/
def Comparable (e : ℝ → ν) : Prop := Simplex.Ordered fun x : Array ℝ => e (x.getD 0 0)

namespace Comparable

variable (he : Comparable e) {x y z : ℝ}

include he

theorem le_iff : e x ≤ e y ↔ ¬ e y < e x := Simplex.Ordered.le_iff he #[x] #[y]

theorem le_refl (x : ℝ) : e x ≤ e x := he.le_iff.mpr (Simplex.Ordered.irrefl he #[x])

theorem le_of_lt (h : e x < e y) : e x ≤ e y :=
  he.le_iff.mpr (Simplex.Ordered.asymm he #[x] #[y] h)

theorem le_trans (hxy : e x ≤ e y) (hyz : e y ≤ e z) : e x ≤ e z := by
  rw [he.le_iff] at hxy hyz ⊢
  exact Simplex.Ordered.not_lt_trans he #[z] #[y] #[x] hyz hxy

end Comparable

/-! ## One search -/

/-- The value that is tried when a search in one variable is at some point. -/
noncomputable def tried (lower upper : ℝ) (point : Array ℝ) : ℝ :=
  Scalar.clamp lower upper (point.getD 0 0)

theorem Comparable.ordered_tried (he : Comparable e) (lower upper : ℝ) :
    Simplex.Ordered fun point => e (tried lower upper point) where
  asymm _ _ := Simplex.Ordered.asymm he #[_] #[_]
  not_lt_trans _ _ _ := Simplex.Ordered.not_lt_trans he #[_] #[_] #[_]
  le_iff _ _ := he.le_iff

omit [Scalar ν] in
/-- A search that notes the values it tries is in lockstep with one that notes its points. -/
theorem alike_noting (e : ℝ → ν) (lower upper : ℝ) (log : List ℝ) :
    Simplex.Objective.Alike (fun _ points log' => log' = log ++ points.map (tried lower upper))
      (Simplex.recording fun point => e (tried lower upper point))
      (fun point => noting e lower upper (point.getD 0 0)) := by
  rintro x n points _ rfl
  refine ⟨rfl, ?_⟩
  show log ++ points.map (tried lower upper) ++ [tried lower upper x] =
    log ++ (points ++ [x]).map (tried lower upper)
  rw [List.map_append, List.map_singleton, List.append_assoc]

/-- With settings that make sense, a search ends with the best of its own points. -/
theorem best_recording {g : Array ℝ → ν} (hg : Simplex.Ordered g)
    {settings : Simplex.Settings ℝ ν} (start : Array ℝ) (hsettings : settings.Accepts start.size) :
    Ends (Simplex.minimise (Simplex.recording g) settings start) [] fun found points =>
      found.Best g points ∧ found.status ≠ .invalidInput := by
  refine ⟨?_, ?_⟩
  · have hstart : ∀ x ∈ ((0, []) : Simplex.Trace).2, ¬ g x < g start := fun _ hx => nomatch hx
    rw [Simplex.minimise_eq _ (Simplex.Settings.isSound_iff.mpr hsettings)]
    exact Simplex.searchFrom_best hg settings (Nat.succ_pos settings.budget) _ _ 0 (by simp) hstart
  · rcases (Simplex.withinBudget_minimise (Simplex.recording g) hsettings []).cases_status with
      ⟨hstatus, -⟩ | ⟨hstatus, -⟩
    · rw [hstatus]
      decide
    · rw [hstatus]
      decide

/-- A search notes its trials, among them the value that it finds, and no trial has a smaller
error. -/
theorem minimise_noting (he : Comparable e) {settings : Simplex.Settings ℝ ν}
    (hsettings : settings.Accepts 1) (start : ℝ) (log : List ℝ) :
    Ends (Simplex.minimise (fun point => noting e lower upper (point.getD 0 0)) settings #[start])
      log fun found log' => found.status ≠ .invalidInput ∧
        ∃ trials, log' = log ++ trials ∧ tried lower upper found.point ∈ trials ∧
          ∀ x ∈ trials, e (tried lower upper found.point) ≤ e x := by
  have hnothing : log = log ++ ([] : List (Array ℝ)).map (tried lower upper) :=
    (List.append_nil log).symm
  obtain ⟨hbest, hstatus⟩ := best_recording (he.ordered_tried lower upper) #[start] hsettings
  obtain ⟨hsame, hlog⟩ :=
    Simplex.lockstep_minimise (alike_noting e lower upper log) settings #[start] hnothing
  unfold Ends
  rw [← hsame]
  refine ⟨hstatus, _, hlog, List.mem_map_of_mem hbest.point_mem, fun x hx => ?_⟩
  obtain ⟨point, hpoint, rfl⟩ := List.mem_map.mp hx
  have hle := hbest.value_le point hpoint
  rw [hbest.value_eq] at hle
  exact hle

/-! ## Rounds -/

/-- A stage stands at the best value so far. -/
structure Progress.Best (e : ℝ → ν) (lower upper : ℝ) (log : List ℝ) (p : Progress ℝ ν) :
    Prop where
  value_mem : p.value ∈ Set.Icc lower upper
  mem_log : p.value ∈ log
  error_eq : p.error = e p.value
  error_le : ∀ x ∈ log, p.error ≤ e x

namespace Progress.Best

variable {log : List ℝ} {p : Progress ℝ ν}

/-- How the rounds are counted does not matter. -/
theorem counted (h : p.Best e lower upper log) (rounds : ℕ) (status : Simplex.Status) :
    Best e lower upper log { p with rounds, status } :=
  ⟨h.value_mem, h.mem_log, h.error_eq, h.error_le⟩

/-- More trials, none of which is better. -/
theorem keep (h : p.Best e lower upper log) {trials : List ℝ}
    (htrials : ∀ x ∈ trials, p.error ≤ e x) : p.Best e lower upper (log ++ trials) := by
  refine ⟨h.value_mem, List.mem_append_left trials h.mem_log, h.error_eq, fun x hx => ?_⟩
  rcases List.mem_append.mp hx with hx | hx
  · exact h.error_le x hx
  · exact htrials x hx

/-- More trials, the best of which is better than all before. -/
theorem replace (he : Comparable e) (h : p.Best e lower upper log) {trials : List ℝ} {c : ℝ}
    (hrange : c ∈ Set.Icc lower upper) (hmem : c ∈ trials) (hlt : e c < p.error)
    (htrials : ∀ x ∈ trials, e c ≤ e x) :
    Best e lower upper (log ++ trials) { p with value := c, error := e c } := by
  refine ⟨hrange, List.mem_append_right log hmem, rfl, fun x hx => ?_⟩
  show e c ≤ e x
  rcases List.mem_append.mp hx with hx | hx
  · have hle := h.error_le x hx
    rw [h.error_eq] at hlt hle
    exact he.le_trans (he.le_of_lt hlt) hle
  · exact htrials x hx

end Progress.Best

/-- **What a round preserves, any number of rounds preserves.** -/
theorem searchRounds_best (he : Comparable e) {settings : Simplex.Settings ℝ ν}
    (hsettings : settings.Accepts 1) (hrange : lower ≤ upper) (rounds : ℕ) {p : Progress ℝ ν}
    {log : List ℝ} (hp : p.Best e lower upper log) :
    Ends (searchRounds (noting e lower upper) settings lower upper rounds p) log
      fun q log' => (∃ trials, log' = log ++ trials) ∧ q.Best e lower upper log' := by
  induction rounds generalizing p log with
  | zero => exact Ends.pure ⟨⟨[], (List.append_nil log).symm⟩, hp⟩
  | succ rounds ih =>
    unfold searchRounds
    refine Ends.ite (fun _ => Ends.pure ⟨⟨[], (List.append_nil log).symm⟩, hp⟩) (fun _ => ?_)
    refine Ends.bind ((minimise_noting he hsettings p.value log).mono fun found log₁ hfound => ?_)
    obtain ⟨hstatus, trials, rfl, hmem, htrials⟩ := hfound
    refine Ends.ite (fun hinvalid => absurd hinvalid hstatus) (fun _ => ?_)
    have hcandidate : tried lower upper found.point ∈ Set.Icc lower upper :=
      Scalar.clamp_mem hrange _
    refine Ends.bind (ends_noting ?_)
    -- the search has tried its result, which is tried again
    rw [← tried, Scalar.clamp_of_mem hcandidate, List.append_assoc]
    generalize tried lower upper found.point = c at hcandidate hmem htrials
    have htrials' : ∀ x ∈ trials ++ [c], e c ≤ e x := by
      intro x hx
      rcases List.mem_append.mp hx with hx | hx
      · exact htrials x hx
      · rw [List.mem_singleton.mp hx]
        exact he.le_refl c
    have hnext : Progress.Best e lower upper (log ++ (trials ++ [c]))
        (if e c < p.error then
          { p with value := c, error := e c, rounds := p.rounds + 1, status := found.status }
        else { p with rounds := p.rounds + 1, status := found.status }) := by
      by_cases hlt : e c < p.error
      · rw [if_pos hlt]
        have hmem' : c ∈ trials ++ [c] := List.mem_append_left [c] hmem
        exact (hp.replace he hcandidate hmem' hlt htrials').counted _ _
      · rw [if_neg hlt]
        rw [hp.error_eq] at hlt
        refine (hp.keep fun x hx => ?_).counted _ _
        rw [hp.error_eq]
        exact he.le_trans (he.le_iff.mpr hlt) (htrials' x hx)
    refine Ends.ite (fun _ => Ends.pure ⟨⟨_, rfl⟩, hnext⟩) (fun _ => ?_)
    refine (ih hnext).mono fun q log' h => ?_
    obtain ⟨⟨more, rfl⟩, hq⟩ := h
    exact ⟨⟨_, List.append_assoc _ _ _⟩, hq⟩

/-! ## The stage -/

/-- **A stage keeps the best value.** It ends at a value in range whose error is the one it reports,
and no trial of the stage has a smaller error: not the first, at the starting value brought into
range, nor any trial of its searches, nor the trials between and after them. -/
theorem stage_best (he : Comparable e) {settings : Simplex.Settings ℝ ν}
    (hsettings : settings.Accepts 1) (hrange : lower ≤ upper) (limit : ℕ) (start : ℝ) (rounds : ℕ)
    (status : Simplex.Status) :
    Ends (stage (noting e lower upper) settings limit start lower upper rounds status) []
      fun p log =>
        (∃ trials, log = Scalar.clamp lower upper start :: trials) ∧ p.Best e lower upper log ∧
          p.error ≤ e (Scalar.clamp lower upper start) := by
  have hstart := Scalar.clamp_mem hrange start
  unfold stage
  refine Ends.bind (ends_noting ?_)
  rw [Scalar.clamp_of_mem hstart]
  generalize Scalar.clamp lower upper start = c at *
  have hfirst : Progress.Best e lower upper [c] ⟨c, e c, rounds, status⟩ := by
    refine ⟨hstart, List.mem_singleton_self c, rfl, fun x hx => ?_⟩
    rw [List.mem_singleton.mp hx]
    exact he.le_refl c
  refine Ends.bind ((searchRounds_best he hsettings hrange limit hfirst).mono fun p log hp => ?_)
  obtain ⟨⟨trials, rfl⟩, hbest⟩ := hp
  refine Ends.bind (ends_noting (Ends.pure ?_))
  rw [Scalar.clamp_of_mem hbest.value_mem]
  have hlast : p.Best e lower upper ([c] ++ trials ++ [p.value]) := by
    refine hbest.keep fun x hx => ?_
    rw [List.mem_singleton.mp hx, hbest.error_eq]
    exact he.le_refl _
  exact ⟨⟨trials ++ [p.value], rfl⟩, hlast, hbest.error_le c (List.mem_cons_self)⟩

/-- Finite errors are comparable. -/
theorem comparable_of_isFinite {e : ℝ → Float} (h : ∀ x, (e x).isFinite = true) : Comparable e :=
  Simplex.ordered_of_isFinite fun x => h (x.getD 0 0)

/-- The error of the example, which is small at the upper end of the range. -/
noncomputable def stepError (x : ℝ) : Float := if x < 1 then 1.0 else 0.25

theorem comparable_stepError : Comparable stepError := by
  refine comparable_of_isFinite fun x => ?_
  unfold stepError
  split_ifs
  · decide +kernel
  · decide +kernel

/-- The searches of the example, each with a budget of forty. -/
noncomputable def stepSearch : Simplex.Settings ℝ Float where
  tolerance := 1.0e-6
  step := #[0.1]
  checkEvery := 5
  budget := 40

theorem accepts_stepSearch : stepSearch.Accepts 1 :=
  ⟨by decide +kernel, le_refl 1, by decide, le_refl 1⟩

theorem stage_best_stepError :
    (Comparable stepError ∧ stepSearch.Accepts 1 ∧ (0 : ℝ) ≤ 1) ∧
      Ends (stage (noting stepError 0 1) stepSearch 100 (1 / 4) 0 1 0 .converged) []
        fun p log =>
          (∃ trials, log = Scalar.clamp 0 1 (1 / 4) :: trials) ∧ p.Best stepError 0 1 log ∧
            p.error ≤ stepError (Scalar.clamp 0 1 (1 / 4)) :=
  ⟨⟨comparable_stepError, accepts_stepSearch, zero_le_one⟩,
    stage_best comparable_stepError accepts_stepSearch zero_le_one 100 (1 / 4) 0 .converged⟩

end Fit

end AmbisonicReverb
