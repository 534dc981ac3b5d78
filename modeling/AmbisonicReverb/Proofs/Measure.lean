import AmbisonicReverb.Proofs.Alike
import AmbisonicReverb.Proofs.Sums

/-!
# Measuring an engine

An impulse response starts from a reset, which silences an engine but leaves the heads of its delay
lines where they are. Engines that were derived to be the same (`Engine.rest`) are therefore alike
when the impulse comes, and their responses are equal if neither loses the impulse
(`response_eq_of_keeps`).
-/

namespace AmbisonicReverb.Engine

variable {α β : Type} [Scalar α]

/-! ## Engines at rest -/

section

variable [Scalar β]

/-- The engine without its signals, and without room for a response. -/
def rest (e : Engine α β) : Engine α β :=
  { e with
    forward := e.forward.map Network.rest
    feedback := e.feedback.rest
    lowCut := e.lowCut.map fun f => ⟨f.w.reset, f.x.reset, f.y.reset, f.z.reset⟩
    capacity := 0 }

theorem sampleRate_eq_of_rest_eq {e e' : Engine α β} (h : e'.rest = e.rest) :
    e'.sampleRate = e.sampleRate := by
  show e'.rest.sampleRate = e.rest.sampleRate
  rw [h]

theorem rest_reset (e : Engine α β) : e.reset.rest = e.rest := by
  have hforward : (e.forward.map Network.reset).map Network.rest = e.forward.map Network.rest := by
    rw [List.map_map]
    exact congrArg (List.map · e.forward) (funext Network.rest_reset)
  have hlowCut : e.reset.rest.lowCut = e.rest.lowCut := by
    show (e.lowCut.map _).map _ = e.lowCut.map _
    rw [Option.map_map]
    rfl
  unfold rest at hlowCut ⊢
  simp only at hlowCut
  rw [hlowCut]
  unfold reset
  simp only
  rw [hforward, Network.rest_reset]

omit [Scalar β] in
theorem rest_runForward (l : List (Network α)) (sources : Array (Sample α)) :
    (runForward l sources).2.map Network.rest = l.map Network.rest := by
  induction l generalizing sources with
  | nil => rfl
  | cons n l ih =>
    have hhead : (n.process sources).take.2.rest = n.rest := Network.rest_process n sources
    simp only [runForward, List.map_cons]
    rw [ih]
    exact congrArg (· :: l.map Network.rest) hhead

theorem rest_tick (e : Engine α β) (s : Sample α) : (e.tick s).2.rest = e.rest := by
  have hintake : (e.intake s).2.rest = e.feedback.rest := by
    unfold intake
    split_ifs <;> rfl
  have hfeedback : (e.processed s).take.2.rest = e.feedback.rest :=
    (Network.rest_process _ _).trans hintake
  rw [tick_eq]
  unfold rest
  simp only
  rw [rest_runForward, hfeedback]

variable [Widening α β]

theorem rest_applyLowCut (e : Engine α β) (s : Sample α) : (e.applyLowCut s).2.rest = e.rest := by
  unfold applyLowCut
  cases hlowCut : e.lowCut with
  | none => rfl
  | some f =>
    unfold rest
    rw [hlowCut]
    rfl

theorem rest_step (e : Engine α β) (s : Sample α) : (e.step s).2.rest = e.rest :=
  (rest_tick _ _).trans (rest_applyLowCut e _)

/-- Sound leaves nothing in an engine but signals. -/
theorem rest_runOver (e : Engine α β) (samples : Array (Sample α)) :
    (runOver step e samples).2.rest = e.rest := by
  unfold runOver
  let motive (_ : Nat) (state : Array (Sample α) × Engine α β) : Prop := state.2.rest = e.rest
  refine Array.foldl_induction motive rfl fun i state hstate => ?_
  exact (rest_step _ _).trans hstate

end

/-! ## The course of a measurement -/

/-- The input of a measurement. -/
def impulse (i : Nat) : Sample α := if i = 0 then .pressure 1 else 0

/-- The engine when sample `i` of its response is due. -/
def measured [Scalar β] (e : Engine α β) : Nat → Engine α β
  | 0 => e.reset
  | i + 1 => ((measured e i).tick (impulse i)).2

section

variable [Scalar β]

/-- Adds sample `i` to a response. -/
def extend (i : Nat) (state : Array α × Engine α β) : Array α × Engine α β :=
  (state.1.push (state.2.tick (impulse i)).1.w, (state.2.tick (impulse i)).2)

theorem impulseResponse_eq (e : Engine α β) (n : Nat) :
    e.impulseResponse n =
      (Array.ofFn fun i : Fin n => ((e.measured i).tick (impulse i)).1.w,
        (e.measured n).reset) := by
  have hfold : ∀ m : Nat, m.fold (fun i _ state => extend i state) (#[], e.reset) =
      (Array.ofFn fun i : Fin m => ((e.measured i).tick (impulse i)).1.w, e.measured m) := by
    intro m
    induction m with
    | zero => rfl
    | succ m ih =>
      rw [Nat.fold_succ, ih, Array.ofFn_succ]
      rfl
  unfold impulseResponse
  show ((n.fold (fun i _ state => extend i state) (Array.mkEmpty n, e.reset)).1,
    (n.fold (fun i _ state => extend i state) (Array.mkEmpty n, e.reset)).2.reset) = _
  rw [Array.mkEmpty_eq, hfold]

theorem size_impulseResponse (e : Engine α β) (n : Nat) : (e.impulseResponse n).1.size = n := by
  rw [impulseResponse_eq]
  exact Array.size_ofFn

theorem rest_measured (e : Engine α β) (i : Nat) : (e.measured i).rest = e.rest := by
  induction i with
  | zero => exact rest_reset e
  | succ i ih => exact (rest_tick _ _).trans ih

theorem rest_impulseResponse (e : Engine α β) (n : Nat) :
    (e.impulseResponse n).2.rest = e.rest := by
  rw [impulseResponse_eq]
  exact (rest_reset _).trans (rest_measured e n)

theorem silent_reset (e : Engine α β) : e.reset.Silent := by
  refine ⟨fun n hn => ?_, Network.silent_reset _⟩
  obtain ⟨m, -, rfl⟩ := List.mem_map.mp hn
  exact Network.silent_reset m

/-- Engines that differ in their signals only are alike after a reset. -/
theorem alike_reset {e f : Engine α β} (h : e.rest = f.rest) : e.reset.Alike f.reset := by
  have hprefilter : e.rest.usesPrefilter = f.rest.usesPrefilter := by rw [h]
  have hforward : e.rest.forward = f.rest.forward := by rw [h]
  have hfeedback : e.rest.feedback = f.rest.feedback := by rw [h]
  refine ⟨hprefilter, ?_, Network.alike_reset hfeedback⟩
  show List.Forall₂ Network.Alike (e.forward.map Network.reset) (f.forward.map Network.reset)
  rw [List.forall₂_map_left_iff, List.forall₂_map_right_iff]
  have hpairs : List.Forall₂ (fun m n : Network α => m.rest = n.rest) e.forward f.forward := by
    have heq : List.Forall₂ Eq (e.forward.map Network.rest) (f.forward.map Network.rest) :=
      List.forall₂_eq_eq_eq ▸ hforward
    rwa [List.forall₂_map_left_iff, List.forall₂_map_right_iff] at heq
  exact hpairs.imp fun _ _ => Network.alike_reset

/-- A reset leaves the heads where they are. -/
theorem inside_reset {e : Engine α β} (h : e.Inside) : e.reset.Inside := by
  have hnetwork : ∀ n : Network α, n.Inside → n.reset.Inside := by
    intro n hn p hp
    obtain ⟨q, hq, rfl⟩ := Array.mem_map.mp hp
    exact hn q hq
  refine ⟨fun n hn => ?_, hnetwork _ h.feedback⟩
  obtain ⟨m, hm, rfl⟩ := List.mem_map.mp hn
  exact hnetwork m (h.forward m hm)

/-- From the first sample on, all heads are inside. -/
theorem inside_measured (e : Engine α β) {i : Nat} (hi : 0 < i) : (e.measured i).Inside := by
  obtain ⟨i, rfl⟩ := Nat.exists_eq_succ_of_ne_zero hi.ne'
  exact inside_tick _ _

theorem inside_impulseResponse (e : Engine α β) {n : Nat} (hn : 0 < n) :
    (e.impulseResponse n).2.Inside := by
  rw [impulseResponse_eq]
  exact inside_reset (inside_measured e hn)

variable {e f : Engine α β}

/-- After the impulse, two engines made alike are alike exactly if nothing of it is lost. -/
theorem alike_measured_one_iff (h : e.rest = f.rest) (hf : f.Inside) :
    (e.measured 1).Alike (f.measured 1) ↔ e.reset.Keeps (impulse 0) :=
  (alike_reset h).tick_iff_keeps (silent_reset e) (silent_reset f) (inside_reset hf) _

theorem alike_measured (h : e.rest = f.rest) (hf : f.Inside)
    (hkeeps : e.reset.Keeps (impulse 0)) (i : Nat) : (e.measured i).Alike (f.measured i) := by
  induction i with
  | zero => exact alike_reset h
  | succ i ih =>
    rcases Nat.eq_zero_or_pos i with rfl | hi
    · exact (alike_measured_one_iff h hf).mpr hkeeps
    · exact ih.tick (inside_measured e hi) (inside_measured f hi) _

/-- **Engines made alike measure alike.** An engine with all heads inside, and another one that
does not lose the impulse, have the same response. -/
theorem response_eq_of_keeps (h : e.rest = f.rest) (hf : f.Inside)
    (hkeeps : e.reset.Keeps (impulse 0)) (n : Nat) :
    (e.impulseResponse n).1 = (f.impulseResponse n).1 := by
  rw [impulseResponse_eq, impulseResponse_eq]
  refine congrArg Array.ofFn (funext fun i => ?_)
  rw [(alike_measured h hf hkeeps i).tick_fst_eq]

end

end AmbisonicReverb.Engine
