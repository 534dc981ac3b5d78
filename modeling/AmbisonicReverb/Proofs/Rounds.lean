import Mathlib
import AmbisonicReverb.Proofs.BandOrder
import AmbisonicReverb.Proofs.Budget

/-!
# A fit ends

A fit is three loops inside each other: rounds of searches, the restarts of a search, and its moves.
`Fits` is the run of a whole fit as it is, without a bound on anything but the number of rounds: a
derivation is a run that ends, and it lists its searches in order.

**Theorem (`fitWithin_ends`).** Whatever is fitted and however it is measured, a fit that is not
refused is such a run. It searches once for each round at most, in one stage or in two, and measures
once for each trial. What it reports are the number of its searches and the status of the last one.

Nothing is known about the errors of the trials, which may be anything and compare as they like. The
bound on the measurements comes from the budget of a search alone, which is exceeded by four
evaluations at most (`Simplex.minimise_after`).

* `Rounds`, `Staged`, `Fits` — the runs of the rounds, of a stage and of the whole fit.
* `Rounds.counts` — what the searches of a run leave in its progress, by induction on the run.
* `After` — how many trials lead from one state to another, whatever a trial does to the state.
* `Subject.counting` — a subject that counts its measurements, and is fitted like the plain one.
-/

namespace AmbisonicReverb

/-- `n` trials lead from `s` to `u`, each of them as `R` says. -/
inductive After {σ : Type} (R : σ → σ → Prop) : (n : ℕ) → (s u : σ) → Prop
  | refl (s : σ) : After R 0 s s
  | tail {n : ℕ} {s t u : σ} (hbefore : After R n s t) (hlast : R t u) : After R (n + 1) s u

namespace After

variable {σ : Type} {R : σ → σ → Prop} {m n : ℕ} {s t u : σ}

theorem single (h : R s u) : After R 1 s u := .tail (.refl s) h

theorem trans (h : After R m s t) (h' : After R n t u) : After R (m + n) s u := by
  induction h' with
  | refl => exact h
  | tail _ hlast ih => exact .tail (ih h) hlast

/-- Trials that count up by one are counted. -/
theorem count_eq (count : σ → ℕ) (h : After (fun s u => count u = count s + 1) n s u) :
    count u = count s + n := by
  induction h with
  | refl => rfl
  | tail _ hlast ih =>
    rw [hlast, ih]
    rfl

end After

/-! ## Searches -/

namespace Simplex

variable {σ κ ν : Type} [Scalar κ] [Scalar ν]

/-- A minimisation, however long it takes. Settings that make no sense are rejected. -/
inductive Minimises (f : Objective σ κ ν) (settings : Settings κ ν) (start : Array κ) (s : σ) :
    Minimum κ ν → σ → Prop
  | rejected (hsettings : ¬ settings.Accepts start.size) :
      Minimises f settings start s ⟨Array.replicate start.size 0, 0, 0, 0, .invalidInput⟩ s
  | searched {m : Minimum κ ν} {u : ℕ × σ} (hsettings : settings.Accepts start.size)
      (hsearches : Searches f settings start (settings.steps start.size) settings.checkEvery 0
        (0, s) m u) :
      Minimises f settings start s m u.2

variable {f : Objective σ κ ν}

theorem minimises_minimise (f : Objective σ κ ν) (settings : Settings κ ν) (start : Array κ)
    (s : σ) : Ends (minimise f settings start) s (Minimises f settings start s) := by
  unfold Ends
  by_cases hsettings : settings.Accepts start.size
  · exact .searched hsettings (searches_minimise f hsettings s)
  · rw [minimise_rejected f hsettings]
    exact .rejected hsettings

/-- **What a search in one variable takes:** a call of the objective for each evaluation. -/
theorem minimise_after {R : σ → σ → Prop} (hR : ∀ x s, R s (f x s).2)
    (settings : Settings κ ν) (start : κ) (s : σ) :
    Ends (minimise f settings #[start]) s fun _ u =>
      ∃ n, After R n s u ∧ n ≤ settings.budget + 4 := by
  have halike : Objective.Alike (fun n s₁ s₂ => s₁ = s₂ ∧ After R n s s₁) f f := by
    rintro x n s₁ _ ⟨rfl, hn⟩
    exact ⟨rfl, rfl, hn.tail (hR x s₁)⟩
  have hstart : s = s ∧ After R 0 s s := ⟨rfl, .refl s⟩
  obtain ⟨-, -, hafter⟩ := lockstep_minimise halike settings #[start] hstart
  refine ⟨_, hafter, ?_⟩
  by_cases hsettings : settings.Accepts 1
  · exact (withinBudget_minimise f hsettings s).evaluations_le
  · rw [minimise_rejected f hsettings]
    exact Nat.zero_le _

end Simplex

namespace Fit

/-! ## Rounds -/

section

variable {κ ν σ : Type} [Scalar κ] [Scalar ν]

/-- After a search. -/
def Progress.searched (p : Progress κ ν) (found : Simplex.Minimum κ ν) : Progress κ ν :=
  { p with rounds := p.rounds + 1, status := found.status }

/-- After the trial of a candidate, which is kept if it is better. -/
def Progress.offered (p : Progress κ ν) (candidate : κ) (error : ν) : Progress κ ν :=
  if error < p.error then { p with value := candidate, error } else p

/-- The relative improvement that a candidate brings. -/
def Progress.improvement (p : Progress κ ν) (error : ν) : ν :=
  if 0 < p.error then (p.error - error) / p.error else 0

/-- The candidate of a search. -/
def candidate (lower upper : κ) (found : Simplex.Minimum κ ν) : κ :=
  Scalar.clamp lower upper (found.point.getD 0 0)

/-- The rounds of a stage, each with its search, from the progress `p` and the state `s` to the
progress and the state in which the stage stops searching. -/
inductive Rounds (error : κ → StateM σ ν) (settings : Simplex.Settings κ ν) (lower upper : κ) :
    (limit : ℕ) → (p : Progress κ ν) → (s : σ) → (searches : List (Simplex.Minimum κ ν)) →
      (q : Progress κ ν) → (u : σ) → Prop
  /-- There are no rounds left. -/
  | spent {p : Progress κ ν} {s : σ} : Rounds error settings lower upper 0 p s [] p s
  /-- The error is small. -/
  | small {limit : ℕ} {p : Progress κ ν} {s : σ} (hsmall : p.error < smallError) :
      Rounds error settings lower upper (limit + 1) p s [] p s
  /-- The search is rejected. -/
  | rejected {limit : ℕ} {p : Progress κ ν} {s u : σ} {found : Simplex.Minimum κ ν}
      (hlarge : ¬ p.error < smallError)
      (hsearch : Simplex.Minimises (fun x => error (x.getD 0 0)) settings #[p.value] s found u)
      (hstatus : found.status = .invalidInput) :
      Rounds error settings lower upper (limit + 1) p s [found] (p.searched found) u
  /-- The candidate does not improve much. -/
  | stalled {limit : ℕ} {p : Progress κ ν} {s t u : σ} {found : Simplex.Minimum κ ν} {e : ν}
      (hlarge : ¬ p.error < smallError)
      (hsearch : Simplex.Minimises (fun x => error (x.getD 0 0)) settings #[p.value] s found t)
      (hstatus : found.status ≠ .invalidInput)
      (htrial : error (candidate lower upper found) t = (e, u))
      (hstalled : p.improvement e < smallImprovement) :
      Rounds error settings lower upper (limit + 1) p s [found]
        ((p.searched found).offered (candidate lower upper found) e) u
  /-- The candidate improves, and another round follows. -/
  | improved {limit : ℕ} {p q : Progress κ ν} {s t t' u : σ} {found : Simplex.Minimum κ ν} {e : ν}
      {searches : List (Simplex.Minimum κ ν)} (hlarge : ¬ p.error < smallError)
      (hsearch : Simplex.Minimises (fun x => error (x.getD 0 0)) settings #[p.value] s found t)
      (hstatus : found.status ≠ .invalidInput)
      (htrial : error (candidate lower upper found) t = (e, t'))
      (himproved : ¬ p.improvement e < smallImprovement)
      (hrest : Rounds error settings lower upper limit
        ((p.searched found).offered (candidate lower upper found) e) t' searches q u) :
      Rounds error settings lower upper (limit + 1) p s (found :: searches) q u

/-- The status of the last search, if there was one. -/
def lastStatus (status : Simplex.Status) (searches : List (Simplex.Minimum κ ν)) :
    Simplex.Status :=
  (searches.getLast?.map (·.status)).getD status

variable {error : κ → StateM σ ν} {settings : Simplex.Settings κ ν} {lower upper : κ} {limit : ℕ}
  {p q : Progress κ ν} {s u : σ} {searches : List (Simplex.Minimum κ ν)}

omit [Scalar κ] [Scalar ν] in
theorem lastStatus_cons (status : Simplex.Status) (found : Simplex.Minimum κ ν) :
    lastStatus status (found :: searches) = lastStatus found.status searches := by
  cases searches <;> rfl

omit [Scalar κ] in
theorem Progress.rounds_offered (p : Progress κ ν) (candidate : κ) (e : ν) :
    (p.offered candidate e).rounds = p.rounds := by
  unfold offered
  split_ifs <;> rfl

omit [Scalar κ] in
theorem Progress.status_offered (p : Progress κ ν) (candidate : κ) (e : ν) :
    (p.offered candidate e).status = p.status := by
  unfold offered
  split_ifs <;> rfl

/-- **The searches of a run:** one for each round at most. The progress counts them, and has the
status of the last one. -/
theorem Rounds.counts (h : Rounds error settings lower upper limit p s searches q u) :
    searches.length ≤ limit ∧ q.rounds = p.rounds + searches.length ∧
      q.status = lastStatus p.status searches := by
  induction h with
  | spent => exact ⟨le_refl _, rfl, rfl⟩
  | small => exact ⟨Nat.zero_le _, rfl, rfl⟩
  | rejected => exact ⟨Nat.le_add_left 1 _, rfl, rfl⟩
  | stalled => exact ⟨Nat.le_add_left 1 _, Progress.rounds_offered .., Progress.status_offered ..⟩
  | improved _ _ _ _ _ _ ih =>
    obtain ⟨hlength, hrounds, hstatus⟩ := ih
    rw [Progress.rounds_offered] at hrounds
    rw [Progress.status_offered] at hstatus
    refine ⟨Nat.succ_le_succ hlength, ?_, ?_⟩
    · rw [hrounds, List.length_cons]
      show _ + 1 + _ = _
      omega
    · rw [hstatus, lastStatus_cons]
      rfl

/-- Bounded rounds are a run, and each of them takes a search and a trial at most. -/
theorem rounds_searchRounds {R : σ → σ → Prop} (hR : ∀ x s, R s (error x s).2)
    (settings : Simplex.Settings κ ν) (lower upper : κ) (limit : ℕ) (p : Progress κ ν) (s : σ) :
    Ends (searchRounds error settings lower upper limit p) s fun q u =>
      ∃ searches n, Rounds error settings lower upper limit p s searches q u ∧
        After R n s u ∧ n ≤ searches.length * (settings.budget + 5) := by
  induction limit generalizing p s with
  | zero => exact Ends.pure ⟨[], 0, .spent, .refl s, Nat.zero_le _⟩
  | succ limit ih =>
    have hsearch : Ends (Simplex.minimise (fun x => error (x.getD 0 0)) settings #[p.value]) s
        fun found t =>
          Simplex.Minimises (fun x => error (x.getD 0 0)) settings #[p.value] s found t ∧
            ∃ n, After R n s t ∧ n ≤ settings.budget + 4 :=
      ⟨Simplex.minimises_minimise _ settings #[p.value] s,
        Simplex.minimise_after (fun x => hR (x.getD 0 0)) settings p.value s⟩
    have htrial : ∀ x t, Ends (error x) t fun e u => error x t = (e, u) ∧ R t u :=
      fun x t => ⟨rfl, hR x t⟩
    unfold searchRounds
    refine Ends.ite (fun hsmall => Ends.pure ⟨[], 0, .small hsmall, .refl s, Nat.zero_le _⟩)
      (fun hlarge => Ends.bind (hsearch.mono fun found t h => ?_))
    obtain ⟨hfound, n, hn, hnle⟩ := h
    refine Ends.ite
      (fun hstatus => Ends.pure ⟨[found], n, .rejected hlarge hfound hstatus, hn, ?_⟩)
      (fun hstatus => Ends.bind ((htrial _ t).mono fun e t' h' => ?_))
    · rw [List.length_singleton]
      omega
    obtain ⟨he, hone⟩ := h'
    refine Ends.ite (fun hstalled => Ends.pure
      ⟨[found], n + 1, .stalled hlarge hfound hstatus he hstalled, hn.tail hone, ?_⟩)
      (fun himproved => ?_)
    · rw [List.length_singleton]
      omega
    refine (ih _ t').mono fun q u hrest => ?_
    obtain ⟨searches, n', hruns, hn', hnle'⟩ := hrest
    refine ⟨found :: searches, n + 1 + n', .improved hlarge hfound hstatus he himproved hruns,
      (hn.tail hone).trans hn', ?_⟩
    rw [List.length_cons, Nat.succ_mul]
    omega

/-! ## Stages -/

/-- A stage: a first trial, rounds from there, and a last trial. -/
inductive Staged (error : κ → StateM σ ν) (settings : Simplex.Settings κ ν) (limit : ℕ)
    (start lower upper : κ) (rounds : ℕ) (status : Simplex.Status) (s : σ) :
    (searches : List (Simplex.Minimum κ ν)) → Progress κ ν → σ → Prop
  | intro {first last : ν} {s₁ s₂ u : σ} {searches : List (Simplex.Minimum κ ν)}
      {p : Progress κ ν} (hfirst : error (Scalar.clamp lower upper start) s = (first, s₁))
      (hrounds : Rounds error settings lower upper limit
        ⟨Scalar.clamp lower upper start, first, rounds, status⟩ s₁ searches p s₂)
      (hlast : error p.value s₂ = (last, u)) :
      Staged error settings limit start lower upper rounds status s searches p u

variable {start : κ} {rounds : ℕ} {status : Simplex.Status}

theorem Staged.counts
    (h : Staged error settings limit start lower upper rounds status s searches p u) :
    searches.length ≤ limit ∧ p.rounds = rounds + searches.length ∧
      p.status = lastStatus status searches := by
  obtain ⟨-, hrounds, -⟩ := h
  exact hrounds.counts

theorem staged_stage {R : σ → σ → Prop} (hR : ∀ x s, R s (error x s).2)
    (settings : Simplex.Settings κ ν) (limit : ℕ) (start lower upper : κ) (rounds : ℕ)
    (status : Simplex.Status) (s : σ) :
    Ends (stage error settings limit start lower upper rounds status) s fun p u =>
      ∃ searches n, Staged error settings limit start lower upper rounds status s searches p u ∧
        After R n s u ∧ n ≤ 2 + limit * (settings.budget + 5) := by
  have htrial : ∀ x t, Ends (error x) t fun e u => error x t = (e, u) ∧ R t u :=
    fun x t => ⟨rfl, hR x t⟩
  unfold stage
  refine Ends.bind ((htrial _ s).mono fun first s₁ hfirst => ?_)
  refine Ends.bind ((rounds_searchRounds hR settings lower upper limit _ s₁).mono
    fun p s₂ hrounds => ?_)
  refine Ends.bind ((htrial _ s₂).mono fun last u hlast => Ends.pure ?_)
  obtain ⟨searches, n, hruns, hn, hnle⟩ := hrounds
  refine ⟨searches, 1 + n + 1, .intro hfirst.1 hruns hlast.1,
    ((After.single hfirst.2).trans hn).tail hlast.2, ?_⟩
  have hlength : searches.length * (settings.budget + 5) ≤ limit * (settings.budget + 5) :=
    Nat.mul_le_mul_right _ hruns.counts.1
  omega

end

/-! ## Whole fits -/

section

variable {α β σ : Type} [Elementary α] [Elementary β] [Widening α β]

/-- The run of a whole fit, from the state `s` to a report and a state, with its searches. -/
inductive Fits (subject : Subject σ α) (options : Options β) (goal : Goal α β)
    (start : Parameters α) (s : σ) :
    (searches : List (Simplex.Minimum β β)) → Report α β → σ → Prop
  /-- A single band has one stage. -/
  | single {first : Progress β β} {s₁ u : σ} {searches : List (Simplex.Minimum β β)}
      {report : Report α β} (hbands : goal.bands.size < 2)
      (hfirst : Staged (absorptionError subject goal) options.settings options.rounds
        (widen start.absorption) goal.least 1 0 .converged s searches first s₁)
      (hlast : conclude subject goal start first none s₁ = (report, u)) :
      Fits subject options goal start s searches report u
  /-- The second stage counts on from the first. -/
  | double {first second : Progress β β} {s₁ s₂ u : σ}
      {searches searches' : List (Simplex.Minimum β β)} {report : Report α β}
      (hbands : 2 ≤ goal.bands.size)
      (hfirst : Staged (absorptionError subject goal) options.settings options.rounds
        (widen start.absorption) goal.least 1 0 .converged s searches first s₁)
      (hsecond : Staged (slopeError subject goal) options.settings options.rounds
        (widen start.damping) 0 maxDamping first.rounds first.status s₁ searches' second s₂)
      (hlast : conclude subject goal start first (some second) s₂ = (report, u)) :
      Fits subject options goal start s (searches ++ searches') report u

variable {subject : Subject σ α} {options : Options β} {goal : Goal α β} {start : Parameters α}
  {s u : σ} {searches : List (Simplex.Minimum β β)} {report : Report α β}

omit [Elementary β] in
/-- The report counts as the last stage does. -/
theorem conclude_counts (first : Progress β β) (second : Option (Progress β β)) (s : σ) :
    Ends (conclude subject goal start first second) s fun report _ =>
      report.rounds = (second.getD first).rounds ∧ report.status = (second.getD first).status :=
  ⟨rfl, rfl⟩

theorem lastStatus_append {κ ν : Type} (status : Simplex.Status)
    (searches searches' : List (Simplex.Minimum κ ν)) :
    lastStatus status (searches ++ searches') =
      lastStatus (lastStatus status searches) searches' := by
  induction searches generalizing status with
  | nil => rfl
  | cons found searches ih => rw [List.cons_append, lastStatus_cons, lastStatus_cons, ih]

/-- **The searches of a fit**, and what is reported of them. -/
theorem Fits.counts (h : Fits subject options goal start s searches report u) :
    searches.length ≤ 2 * options.rounds ∧
      (goal.bands.size < 2 → searches.length ≤ options.rounds) ∧
      report.rounds = searches.length ∧ report.status = lastStatus .converged searches := by
  cases h with
  | single hbands hfirst hlast =>
    obtain ⟨hlength, hrounds, hstatus⟩ := hfirst.counts
    obtain ⟨hreport, hreport'⟩ := (conclude_counts _ none _).of_eq hlast
    refine ⟨by omega, fun _ => hlength, ?_, ?_⟩
    · rw [hreport]
      exact hrounds.trans (Nat.zero_add _)
    · rw [hreport']
      exact hstatus
  | @double _ second _ _ _ searches searches' _ hbands hfirst hsecond hlast =>
    obtain ⟨hlength, hrounds, hstatus⟩ := hfirst.counts
    obtain ⟨hlength', hrounds', hstatus'⟩ := hsecond.counts
    obtain ⟨hreport, hreport'⟩ := (conclude_counts _ (some second) _).of_eq hlast
    rw [List.length_append]
    refine ⟨by omega, fun hfew => absurd hbands (not_le.mpr hfew), ?_, ?_⟩
    · rw [hreport]
      show second.rounds = _
      omega
    · rw [hreport', lastStatus_append, ← hstatus]
      exact hstatus'

/-- **A fit is a run that ends.** Each trial publishes and measures once. -/
theorem fits_stages (subject : Subject σ α) {R : σ → σ → Prop}
    (hR : ∀ revise s, R s (trial subject revise s).2) (options : Options β) (goal : Goal α β)
    (start : Parameters α) (s : σ) :
    Ends (stages subject options goal start) s fun report u =>
      ∃ searches n, Fits subject options goal start s searches report u ∧ After R n s u ∧
        n ≤ 2 * (2 + options.rounds * (options.budget + 5)) + 1 := by
  have htrial : ∀ revise s, Ends (trial subject revise) s fun _ u => R s u := hR
  have habsorption : ∀ x s, Ends (absorptionError subject goal x) s fun _ u => R s u := by
    intro x s
    refine Ends.bind ((htrial _ s).mono fun answer u h => ?_)
    cases answer <;> exact Ends.pure h
  have hslope : ∀ x s, Ends (slopeError subject goal x) s fun _ u => R s u := by
    intro x s
    refine Ends.bind ((htrial _ s).mono fun answer u h => ?_)
    cases answer <;> exact Ends.pure h
  have hconclude : ∀ (first : Progress β β) (second : Option (Progress β β)) (s : σ),
      Ends (conclude subject goal start first second) s fun report u =>
        conclude subject goal start first second s = (report, u) ∧ R s u :=
    fun first second s => ⟨rfl, hR _ s⟩
  unfold stages absorptionStage dampingStage
  refine Ends.bind ((staged_stage habsorption options.settings options.rounds
    (widen start.absorption) goal.least 1 0 .converged s).mono fun first s₁ hfirst => ?_)
  obtain ⟨searches, n, hfirst, hn, hnle⟩ := hfirst
  have hbudget : options.settings.budget = options.budget := rfl
  rw [hbudget] at hnle
  refine Ends.bind (Ends.ite (fun hmany => Ends.map ?_) (fun hfew => Ends.pure ?_))
  · refine (staged_stage hslope options.settings options.rounds (widen start.damping) 0 maxDamping
      first.rounds first.status s₁).mono fun second s₂ hsecond => ?_
    obtain ⟨searches', n', hsecond, hn', hnle'⟩ := hsecond
    rw [hbudget] at hnle'
    refine (hconclude first (some second) s₂).mono fun report u hlast => ?_
    exact ⟨searches ++ searches', n + n' + 1, .double hmany hfirst hsecond hlast.1,
      (hn.trans hn').tail hlast.2, by omega⟩
  · refine (hconclude first none s₁).mono fun report u hlast => ?_
    exact ⟨searches, n + 1, .single (not_le.mp hfew) hfirst hlast.1, hn.tail hlast.2, by omega⟩

/-! ## Counting -/

/-- A subject that counts its measurements. -/
def Subject.counting (subject : Subject σ α) : Subject (ℕ × σ) α where
  update revise t := (t.1, subject.update revise t.2)
  measure t := ((subject.measure t.2).1, (t.1 + 1, (subject.measure t.2).2))

omit [Elementary α] in
/-- Counting changes nothing else. -/
theorem Subject.alike_counting (subject : Subject σ α) :
    subject.Alike (fun s t => t.2 = s) subject.counting := by
  refine ⟨?_, ?_⟩
  · rintro revise _ t rfl
    rfl
  · rintro _ t rfl
    exact ⟨rfl, rfl⟩

/-- **A fit ends.** Whatever is fitted and however it is measured, a fit that is not refused is a
run that ends. It counts as many measurements as its searches can take within their budgets, the
first and the last trial of each stage, and the last trial of all. There is a search for each round
of a stage at most, the report says how many there were, and how the last one ended. -/
theorem fitWithin_ends (subject : Subject σ α) {reverb : σ → Reverb α β} (options : Options β)
    {s : σ} (h : Fittable (reverb s)) :
    ∃ report u searches measurements,
      Reverb.fitWithin subject reverb options s = (.ok report, u) ∧
      Reverb.fitWithin subject.counting (fun t => reverb t.2) options (0, s) =
        (.ok report, (measurements, u)) ∧
      measurements ≤ 2 * (2 + options.rounds * (options.budget + 5)) + 1 ∧
      Fits subject options (goalOf (reverb s)) (reverb s).parameters s searches report u ∧
      searches.length ≤ 2 * options.rounds ∧
      ((reverb s).config.bands.size = 1 → searches.length ≤ options.rounds) ∧
      report.rounds = searches.length ∧ report.status = lastStatus .converged searches := by
  obtain ⟨searches, -, hfits, -⟩ := fits_stages subject (R := fun _ _ => True)
    (fun _ _ => trivial) options (goalOf (reverb s)) (reverb s).parameters s
  obtain ⟨-, n, -, hafter, hn⟩ := fits_stages subject.counting
    (R := fun t u => u.1 = t.1 + 1) (fun _ _ => rfl) options (goalOf (reverb s))
    (reverb s).parameters (0, s)
  obtain ⟨hlength, hsingle, hrounds, hstatus⟩ := hfits.counts
  have hsame : ∀ (s : σ) (t : ℕ × σ), t.2 = s → reverb s = reverb t.2 := by
    rintro _ t rfl
    rfl
  obtain ⟨hresult, hstate⟩ :=
    lockstep_fitWithin subject.alike_counting hsame options s (0, s) rfl
  have hcount : (Reverb.fitWithin subject.counting (fun t => reverb t.2) options (0, s)).2.1 =
      0 + n := by
    rw [fitWithin_ok subject.counting options h]
    exact hafter.count_eq Prod.fst
  rw [fitWithin_ok subject options h] at hresult hstate
  refine ⟨_, _, searches, n, fitWithin_ok subject options h, ?_, hn, hfits, hlength, ?_, hrounds,
    hstatus⟩
  · rw [Nat.zero_add] at hcount
    exact Prod.ext hresult.symm (Prod.ext hcount hstate)
  · intro hone
    refine hsingle ?_
    show (reverb s).config.bands.size < 2
    omega

/-- The fit of a hall that measures itself. -/
theorem fitWithin_ends_curvedHall : ∃ r : Reverb Float32 Float, Fittable r ∧
    ∃ report u searches measurements,
      Reverb.fitWithin (Reverb.subject r.config.bands) id .default r = (.ok report, u) ∧
      Reverb.fitWithin (Reverb.subject r.config.bands).counting (fun t => id t.2) .default (0, r) =
        (.ok report, (measurements, u)) ∧
      measurements ≤ 2 * (2 + 100 * (40 + 5)) + 1 ∧
      Fits (Reverb.subject r.config.bands) .default (goalOf r) r.parameters r searches report u ∧
      searches.length ≤ 2 * 100 ∧ (r.config.bands.size = 1 → searches.length ≤ 100) ∧
      report.rounds = searches.length ∧ report.status = lastStatus .converged searches := by
  have hcheck : curvedHall.check = .ok .shortest := by decide +kernel
  have hrate : Scalar.isFinite (48000 : Float32) ∧ (1 : Float32) ≤ 48000 := by decide +kernel
  obtain ⟨start, hnew⟩ := Reverb.exists_new (β := Float) hcheck
  obtain ⟨r, hconfigure⟩ := Reverb.exists_configure hnew hrate 16
  have hfittable : Fittable r := by
    have hrange : Scalar.isNaN (Goal.ofCurve curvedHall.bands curvedHall.bandTimes
        curvedHall.room : Goal Float32 Float).least = false := by decide +kernel
    unfold Reverb.new at hnew
    rw [hcheck] at hnew
    obtain rfl := Except.ok.inj hnew
    obtain ⟨-, e, -, rfl⟩ := Reverb.configure_eq_ok_iff.mp hconfigure
    exact ⟨rfl, rfl, hrange⟩
  exact ⟨r, hfittable, fitWithin_ends (Reverb.subject r.config.bands) .default hfittable⟩

end

end Fit

end AmbisonicReverb
