import Mathlib
import AmbisonicReverb.Proofs.Outcome

/-!
# Programs in lockstep

Two programs that thread different states are in lockstep when they give the same result from
related states, and related states at the end (`Lockstep`). A search sees nothing of its objective
but the values, so that searches of two objectives are in lockstep if their calls are
(`Objective.Alike`, `lockstep_minimise`): they go through the same points to the same result.

The relation of two objectives may depend on the number of evaluations so far. It relates an
objective to one that counts or logs its calls (`minimise_logging`), or says what every call of one
objective preserves (`minimise_invariant`).
-/

namespace AmbisonicReverb

/-- From related states, two programs come to the same result and to related states. -/
def Lockstep {σ σ' τ : Type} (R : σ → σ' → Prop) (m : StateM σ τ) (m' : StateM σ' τ) : Prop :=
  ∀ s s', R s s' → (m s).1 = (m' s').1 ∧ R (m s).2 (m' s').2

namespace Lockstep

variable {σ σ' τ υ : Type} {R : σ → σ' → Prop}

theorem pure (a : τ) : Lockstep R (Pure.pure a) (Pure.pure a) := fun _ _ h => ⟨rfl, h⟩

theorem bind {m : StateM σ τ} {m' : StateM σ' τ} {f : τ → StateM σ υ} {f' : τ → StateM σ' υ}
    (hm : Lockstep R m m') (hf : ∀ a, Lockstep R (f a) (f' a)) :
    Lockstep R (m >>= f) (m' >>= f') := by
  intro s s' h
  obtain ⟨hresult, hstate⟩ := hm s s' h
  show (f (m s).1 (m s).2).1 = (f' (m' s').1 (m' s').2).1 ∧
    R (f (m s).1 (m s).2).2 (f' (m' s').1 (m' s').2).2
  rw [← hresult]
  exact hf (m s).1 (m s).2 (m' s').2 hstate

theorem map {m : StateM σ τ} {m' : StateM σ' τ} (f : τ → υ) (hm : Lockstep R m m') :
    Lockstep R (f <$> m) (f <$> m') := by
  intro s s' h
  obtain ⟨hresult, hstate⟩ := hm s s' h
  exact ⟨congrArg f hresult, hstate⟩

theorem ite {c : Prop} [Decidable c] {m₁ m₂ : StateM σ τ} {m₁' m₂' : StateM σ' τ}
    (h₁ : Lockstep R m₁ m₁') (h₂ : Lockstep R m₂ m₂') :
    Lockstep R (if c then m₁ else m₂) (if c then m₁' else m₂') := by
  by_cases hc : c
  · rw [if_pos hc, if_pos hc]
    exact h₁
  · rw [if_neg hc, if_neg hc]
    exact h₂

end Lockstep

namespace Simplex

variable {σ σ' κ ν : Type}

/-- Called at the same point in related states, two objectives have the same value and remain
related. -/
def Objective.Alike (R : Nat → σ → σ' → Prop) (f : Objective σ κ ν) (f' : Objective σ' κ ν) :
    Prop :=
  ∀ x n s s', R n s s' → (f x s).1 = (f' x s').1 ∧ R (n + 1) (f x s).2 (f' x s').2

/-- States are related at the same number of evaluations. -/
def Counted (R : Nat → σ → σ' → Prop) (t : Nat × σ) (t' : Nat × σ') : Prop :=
  t.1 = t'.1 ∧ R t.1 t.2 t'.2

variable {R : Nat → σ → σ' → Prop}

theorem lockstep_evaluations : Lockstep (Counted R) evaluations evaluations := fun _ _ h => ⟨h.1, h⟩

variable {f : Objective σ κ ν} {f' : Objective σ' κ ν} (hf : Objective.Alike R f f')

include hf

theorem lockstep_evaluate (x : Array κ) : Lockstep (Counted R) (evaluate f x) (evaluate f' x) := by
  rintro ⟨n, s⟩ ⟨_, s'⟩ ⟨rfl, h⟩
  obtain ⟨hvalue, hnext⟩ := hf x n s s' h
  refine ⟨?_, rfl, hnext⟩
  show Vertex.mk x (f x s).1 = Vertex.mk x (f' x s').1
  rw [hvalue]

theorem lockstep_evaluateAll (xs : List (Array κ)) :
    Lockstep (Counted R) (evaluateAll f xs) (evaluateAll f' xs) := by
  have hmap : Lockstep (Counted R) (xs.mapM (evaluate f)) (xs.mapM (evaluate f')) := by
    induction xs with
    | nil => exact .pure []
    | cons x xs ih =>
      rw [List.mapM_cons, List.mapM_cons]
      exact .bind (lockstep_evaluate hf x) fun v => .bind ih fun vs => .pure (v :: vs)
  exact .bind hmap fun vs => .pure vs.toArray

variable [Scalar κ] [Scalar ν]

theorem lockstep_move (s : Figure κ ν) : Lockstep (Counted R) (s.move f) (s.move f') := by
  unfold Figure.move
  refine .bind (lockstep_evaluate hf _) fun reflected => .ite ?_ ?_
  · exact .bind (lockstep_evaluate hf _) fun expanded => .pure _
  · refine .ite (.pure _) (.ite ?_ ?_)
    · refine .bind (lockstep_evaluate hf _) fun contracted => .ite ?_ (.pure _)
      exact .bind (lockstep_evaluateAll hf _) fun vertices => .pure _
    · exact .bind (lockstep_evaluate hf _) fun contracted => .pure _

theorem lockstep_descend (settings : Settings κ ν) (limit : ν) (fuel : Nat) (s : Figure κ ν) :
    Lockstep (Counted R) (descend f settings limit fuel s) (descend f' settings limit fuel s) := by
  induction fuel generalizing s with
  | zero => exact .pure s
  | succ fuel ih =>
    unfold descend
    refine .bind lockstep_evaluations fun count => .ite (.pure s) ?_
    refine .bind (lockstep_move hf s) fun move => ?_
    cases move with
    | shrunk s' => exact ih s'
    | replaced s' =>
      exact .bind lockstep_evaluations fun count => .ite (ih _) (.ite (.pure _) (ih _))

theorem lockstep_lookAround (value : ν) (coordinates : List (Nat × κ))
    (point : Array κ) :
    Lockstep (Counted R) (lookAround f value coordinates point)
      (lookAround f' value coordinates point) := by
  induction coordinates generalizing point with
  | nil => exact .pure _
  | cons step rest ih =>
    obtain ⟨i, d⟩ := step
    unfold lookAround
    refine .bind (lockstep_evaluate hf _) fun ahead => .ite (.pure _) ?_
    exact .bind (lockstep_evaluate hf _) fun behind => .ite (.pure _) (ih _)

omit [Scalar ν] in
theorem lockstep_corners (start : Array κ) (steps : List (Nat × κ)) :
    Lockstep (Counted R) (corners f start steps) (corners f' start steps) :=
  .bind (lockstep_evaluate hf start) fun _ =>
    .bind (lockstep_evaluateAll hf _) fun _ => .pure _

theorem lockstep_searchFrom (settings : Settings κ ν) (fuel : Nat) (start : Array κ)
    (scale : List (Nat × κ)) (countdown restarts : Nat) :
    Lockstep (Counted R) (searchFrom f settings fuel start scale countdown restarts)
      (searchFrom f' settings fuel start scale countdown restarts) := by
  induction fuel generalizing start scale countdown restarts with
  | zero => exact .bind lockstep_evaluations fun _ => .pure _
  | succ fuel ih =>
    unfold searchFrom
    refine .bind (lockstep_corners hf start scale) fun vertices => ?_
    refine .bind (lockstep_descend hf settings _ _ _) fun s => ?_
    refine .bind lockstep_evaluations fun count => .ite (.pure _) ?_
    refine .bind (lockstep_lookAround hf _ _ _) fun found => ?_
    obtain ⟨lower, point⟩ := found
    exact .ite (ih _ _ _ _) (.bind lockstep_evaluations fun _ => .pure _)

/-- **Lockstep.** A search does not tell apart objectives that are alike. -/
theorem lockstep_minimise (settings : Settings κ ν) (start : Array κ) {s : σ} {s' : σ'}
    (h : R 0 s s') :
    (minimise f settings start s).1 = (minimise f' settings start s').1 ∧
      R (minimise f settings start s).1.evaluations (minimise f settings start s).2
        (minimise f' settings start s').2 := by
  by_cases hsound : settings.isSound start.size = true
  · have hsearch := lockstep_searchFrom hf settings (settings.budget + 1) start
      (settings.steps start.size) settings.checkEvery 0
    obtain ⟨hresult, -, hstate⟩ := hsearch (0, s) (0, s') ⟨rfl, h⟩
    rw [minimise_eq f hsound, minimise_eq f' hsound]
    refine ⟨hresult, ?_⟩
    have hcount := evaluations_searchFrom f settings (settings.budget + 1) start
      (settings.steps start.size) settings.checkEvery 0 (0, s)
    unfold Ends at hcount
    rw [← hcount] at hstate
    exact hstate
  · unfold minimise
    rw [if_neg hsound, if_neg hsound]
    exact ⟨rfl, h⟩

omit hf in
/-- The same without counting: programs in lockstep are searched in lockstep. -/
theorem lockstep_search {R : σ → σ' → Prop} {f : Array κ → StateM σ ν} {f' : Array κ → StateM σ' ν}
    (hf : ∀ x, Lockstep R (f x) (f' x)) (settings : Settings κ ν) (start : Array κ) :
    Lockstep R (minimise f settings start) (minimise f' settings start) :=
  fun _ _ h => lockstep_minimise (R := fun _ => R) (fun x _ => hf x) settings start h

omit hf in
/-- What every call of the objective preserves, a search preserves. -/
theorem minimise_invariant {f : Objective σ κ ν} {I : σ → Prop} (hI : ∀ x s, I s → I (f x s).2)
    (settings : Settings κ ν) (start : Array κ) {s : σ} (hs : I s) :
    I (minimise f settings start s).2 := by
  have hlockstep : ∀ x, Lockstep (fun s s' => s = s' ∧ I s) (f x) (f x) := by
    rintro x s _ ⟨rfl, hs⟩
    exact ⟨rfl, rfl, hI x s hs⟩
  exact (lockstep_search hlockstep settings start s s ⟨rfl, hs⟩).2.2

omit hf in
/-- The objective, with a log of the points at which it is evaluated and of its values there. -/
def logging (f : Objective σ κ ν) : Objective (List (Vertex κ ν) × σ) κ ν :=
  fun x (log, s) => let (value, s) := f x s; (value, (log ++ [⟨x, value⟩], s))

omit hf in
/-- The log changes nothing else. -/
theorem minimise_logging (f : Objective σ κ ν) (settings : Settings κ ν) (start : Array κ)
    (s : σ) :
    (minimise (logging f) settings start ([], s)).1 = (minimise f settings start s).1 ∧
      (minimise (logging f) settings start ([], s)).2.2 = (minimise f settings start s).2 ∧
      (minimise (logging f) settings start ([], s)).2.1.length =
        (minimise f settings start s).1.evaluations := by
  have halike : Objective.Alike
      (fun n (s : σ) (s' : List (Vertex κ ν) × σ) => s'.2 = s ∧ s'.1.length = n) f (logging f) := by
    rintro x n s ⟨log, _⟩ ⟨rfl, hlength⟩
    exact ⟨rfl, rfl, by rw [← hlength]; exact List.length_append⟩
  have hnothing : (([], s) : List (Vertex κ ν) × σ).2 = s ∧
      (([], s) : List (Vertex κ ν) × σ).1.length = 0 := ⟨rfl, rfl⟩
  obtain ⟨hsame, hstate, hlength⟩ := lockstep_minimise halike settings start hnothing
  exact ⟨hsame.symm, hstate, hlength⟩

end Simplex

end AmbisonicReverb
