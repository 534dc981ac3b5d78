import Mathlib
import AmbisonicReverb.Simplex

/-!
# What a stateful program ends with

`Ends m t Q` says what a program that threads a state ends with, and has one rule for each construct
that such programs are written with. A search is such a program: it counts its evaluations and
threads the state of its objective. Objectives are arbitrary here: of a vertex that was evaluated
only its point is known.
-/

namespace AmbisonicReverb

/-- Started in `s`, a program ends with a result and a state that satisfy `Q`. -/
def Ends {σ τ : Type} (m : StateM σ τ) (s : σ) (Q : τ → σ → Prop) : Prop := Q (m s).1 (m s).2

namespace Ends

variable {σ τ υ : Type} {s : σ}

theorem pure {a : τ} {Q : τ → σ → Prop} (h : Q a s) : Ends (Pure.pure a) s Q := h

theorem bind {m : StateM σ τ} {f : τ → StateM σ υ} {Q : υ → σ → Prop}
    (h : Ends m s fun a s' => Ends (f a) s' Q) : Ends (m >>= f) s Q := h

theorem map {m : StateM σ τ} {f : τ → υ} {Q : υ → σ → Prop}
    (h : Ends m s fun a s' => Q (f a) s') : Ends (f <$> m) s Q := h

theorem mono {m : StateM σ τ} {Q R : τ → σ → Prop} (h : Ends m s Q)
    (himp : ∀ a s', Q a s' → R a s') : Ends m s R := himp _ _ h

theorem of_forall {m : StateM σ τ} {Q : τ → σ → Prop} (h : ∀ a s', Q a s') : Ends m s Q := h _ _

theorem ite {c : Prop} [Decidable c] {m m' : StateM σ τ} {Q : τ → σ → Prop}
    (h : c → Ends m s Q) (h' : ¬ c → Ends m' s Q) : Ends (if c then m else m') s Q := by
  by_cases hc : c
  · rw [if_pos hc]
    exact h hc
  · rw [if_neg hc]
    exact h' hc

/-- Beside what else it does, a program has the result that it has. -/
theorem with_eq {m : StateM σ τ} {Q : τ → σ → Prop} (h : Ends m s Q) :
    Ends m s fun a s' => m s = (a, s') ∧ Q a s' := ⟨rfl, h⟩

theorem of_eq {m : StateM σ τ} {Q : τ → σ → Prop} (h : Ends m s Q) {a : τ} {s' : σ}
    (heq : m s = (a, s')) : Q a s' := by
  unfold Ends at h
  rw [heq] at h
  exact h

end Ends

namespace Simplex

variable {σ κ ν : Type} {t : Nat × σ} {f : Objective σ κ ν}

theorem Ends.evaluations {Q : Nat → Nat × σ → Prop} (h : Q t.1 t) :
    Ends Simplex.evaluations t Q := h

theorem Ends.call {x : Array κ} {Q : Vertex κ ν → Nat × σ → Prop}
    (h : ∀ (v : Vertex κ ν) (s : σ), v.point = x → Q v (t.1 + 1, s)) : Ends (evaluate f x) t Q :=
  h ⟨x, (f x t.2).1⟩ (f x t.2).2 rfl

theorem Ends.mapM_call (xs : List (Array κ)) (t : Nat × σ) :
    Ends (xs.mapM (evaluate f)) t fun vs t' =>
      vs.map (·.point) = xs ∧ t'.1 = t.1 + xs.length := by
  induction xs generalizing t with
  | nil => exact ⟨rfl, rfl⟩
  | cons x xs ih =>
    rw [List.mapM_cons]
    refine Ends.bind (Ends.call fun v s hv => Ends.bind ((ih (t.1 + 1, s)).mono fun vs t' h => ?_))
    refine Ends.pure ⟨?_, ?_⟩
    · rw [List.map_cons, hv, h.1]
    · rw [h.2, List.length_cons]
      omega

theorem Ends.callAll (xs : List (Array κ)) :
    Ends (evaluateAll f xs) t fun vs t' =>
      vs.toList.map (·.point) = xs ∧ t'.1 = t.1 + xs.length := by
  unfold evaluateAll
  exact Ends.bind ((Ends.mapM_call xs t).mono fun vs t' h => Ends.pure h)

/-- A vertex of a simplex, by its position. -/
theorem Figure.point_eq {s : Figure κ ν} {i : Nat} {v : Vertex κ ν} (h : s.vertices[i]? = some v) :
    s.point i = v.point := by
  unfold Figure.point
  rw [h]

theorem Figure.value_eq [Scalar ν] {s : Figure κ ν} {i : Nat} {v : Vertex κ ν}
    (h : s.vertices[i]? = some v) : s.value i = v.value := by
  unfold Figure.value
  rw [h]

/-- The simplex after a move. -/
def Move.figure : Move κ ν → Figure κ ν
  | .replaced s => s
  | .shrunk s => s

variable [Scalar κ] [Scalar ν]

/-- The steps of the first simplex, along each of `n` coordinates. -/
def Settings.steps (settings : Settings κ ν) (n : Nat) : List (Nat × κ) :=
  (List.range n).map fun i => (i, settings.step.getD i 0)

/-- With sound settings the whole work is done by `searchFrom`. -/
theorem minimise_eq (f : Objective σ κ ν) {settings : Settings κ ν} {start : Array κ}
    (h : settings.isSound start.size = true) (s : σ) :
    minimise f settings start s =
      let (found, t) := searchFrom f settings (settings.budget + 1) start
        (settings.steps start.size) settings.checkEvery 0 (0, s)
      (found, t.2) := by
  unfold minimise
  rw [if_pos h]
  rfl

/-- The evaluations that a search reports are those that it counted. -/
theorem evaluations_searchFrom (f : Objective σ κ ν) (settings : Settings κ ν) (fuel : Nat)
    (start : Array κ) (scale : List (Nat × κ)) (countdown restarts : Nat) (t : Nat × σ) :
    Ends (searchFrom f settings fuel start scale countdown restarts) t fun m t' =>
      m.evaluations = t'.1 := by
  induction fuel generalizing start scale countdown restarts t with
  | zero => exact Ends.bind (Ends.evaluations (Ends.pure rfl))
  | succ fuel ih =>
    unfold searchFrom
    refine Ends.bind (Ends.of_forall fun vertices t₁ => ?_)
    refine Ends.bind (Ends.of_forall fun s t₂ => Ends.bind (Ends.evaluations ?_))
    refine Ends.ite (fun _ => Ends.pure rfl) (fun _ => ?_)
    refine Ends.bind (Ends.of_forall fun found t₃ => ?_)
    refine Ends.ite (fun _ => ih _ _ _ _ _) (fun _ => ?_)
    exact Ends.bind (Ends.evaluations (Ends.pure rfl))

end Simplex

end AmbisonicReverb
