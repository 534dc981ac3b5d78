import Mathlib
import AmbisonicReverb.Proofs.Audible
import AmbisonicReverb.Proofs.Echo
import AmbisonicReverb.Proofs.Mute

/-!
# The onset of a response

Nothing is heard of an impulse before it had the time to come through. A forward stage is read
after it is written, and holds a sound back for one sample less than its shortest delay; the
feedback network is read first and holds it back for its shortest delay.

**Theorem (`impulseResponse_before_onset`).** Every response of a reachable reverb is exactly zero
before the sum of these delays.

What a network makes of silence need not be an exact zero, and what is proved from the inside to the
outside is only that it is mute (`Hush`). The output of the engine makes it zero again.

* `Path.arrivals_mute` — a silent line that is fed mute values up to some step shows mute values
  until its latency later. With the head outside it loses a value, which makes it no faster.
* `Network.outputs_mute` — so do the outputs of a network, although they are fed back.
* `Engine.chainOut_mute` — the latencies of the stages add up, by induction along the chain.
* `Engine.paths_feedback_measured` — a measurement is a run of each network.
-/

namespace AmbisonicReverb

/-! ## Lines -/

/-- A silent line shows silence, or what was pushed into it no less than its length ago. -/
theorem DelayLine.Silent.read_pushes {S : Type} [Zero S] {d : DelayLine S} (h : d.Silent)
    (s : ℕ → S) (n : ℕ) :
    (d.pushes s n).read = 0 ∨ ∃ k, k + d.length ≤ n ∧ (d.pushes s n).read = s k := by
  by_cases hin : d.Inside
  · rw [DelayLine.read_pushes hin]
    split_ifs with hn
    · exact .inl (h.ahead n)
    · exact .inr ⟨n - d.length, by omega, rfl⟩
  · rw [DelayLine.read_pushes_of_not_inside hin h]
    split_ifs with hn
    · exact .inl rfl
    · exact .inr ⟨n - d.length, by omega, rfl⟩

section

variable {α : Type} [Scalar α] {H : Hush α}

/-! ## Paths -/

theorem Hush.channels_zero : H.Channels 0 := ⟨H.zero, H.zero, H.zero, H.zero⟩

theorem Hush.channels_read {d : DelayLine (Sample α)} (h : d.Silent) {f : ℕ → Sample α} {due n : ℕ}
    (hf : ∀ t < due, H.Channels (f t)) (hn : n < due + d.length) :
    H.Channels (d.pushes f n).read := by
  rcases h.read_pushes f n with hread | ⟨k, hk, hread⟩
  · rw [hread]
    exact channels_zero
  · rw [hread]
    exact hf k (by omega)

/-- A path holds back what is fed to it for its latency. -/
theorem Path.arrivals_mute {p : Path α} (h : p.line.Silent) (m : Mode) {f : ℕ → Sample α} {due : ℕ}
    (hf : ∀ t < due, H.Channels (f t)) {t : ℕ} (ht : t < due + p.latency m) :
    H.Channels (p.arrivals m f t) := by
  have htwo := p.line.two_le_length
  cases m with
  | feedback =>
    show H.Channels (p.run .feedback f t).line.read
    rw [run_line]
    exact Hush.channels_read h hf ht
  | forward =>
    show H.Channels ((p.run .forward f t).line.push (f t)).read
    rw [run_line]
    have hlatency : t < due + (p.line.length - 1) := ht
    have hnext : t + 1 < due + p.line.length := by omega
    exact Hush.channels_read h hf hnext

/-- A filter without a signal makes mute values of mute ones. -/
theorem Reflection.response_mute {f : Reflection α} (hf : f.reset = f) {v : ℕ → Sample α} {t : ℕ}
    (hv : ∀ s ≤ t, H.Channels (v s)) : H.Channels (f.response v t) := by
  have hafter : ∀ s ≤ t, H.link.Reflections fun _ => f.after v s := by
    intro s hs
    induction s with
    | zero =>
      rw [← hf]
      exact Link.reflections_reset f
    | succ s ih =>
      have hvalue : H.link.Joins fun _ => v s := hv s (by omega)
      exact ((ih (by omega)).filter hvalue).2
  have hvalue : H.link.Joins fun _ => v t := hv t le_rfl
  exact ((hafter t le_rfl).filter hvalue).1

/-! ## Networks -/

namespace Network

/-- The smallest of the delays. -/
def leastDelay (n : Network α) : ℕ := n.delays.toList.min?.getD 0

omit [Scalar α] in
theorem leastDelay_le {n : Network α} {p : Path α} (hp : p ∈ n.paths) :
    n.leastDelay ≤ p.line.length := by
  have hmem : p.line.length ∈ n.delays.toList := by
    rw [Array.mem_toList_iff]
    exact Array.mem_map_of_mem hp
  unfold leastDelay
  cases hmin : n.delays.toList.min? with
  | none => exact Nat.zero_le _
  | some least => exact (List.le_min?_iff hmin).mp le_rfl _ hmem

omit [Scalar α] in
theorem two_le_leastDelay {n : Network α} (h : n.order ≠ 0) : 2 ≤ n.leastDelay := by
  unfold leastDelay
  cases hmin : n.delays.toList.min? with
  | none =>
    have hempty : n.delays.toList = [] := List.min?_eq_none_iff.mp hmin
    simp only [delays, Array.toList_map, List.map_eq_nil_iff, Array.toList_eq_nil_iff] at hempty
    exact absurd (congrArg Array.size hempty) h
  | some least =>
    have hmem : least ∈ n.delays := Array.mem_toList_iff.mp (List.min?_mem hmin)
    obtain ⟨p, -, rfl⟩ := Array.mem_map.mp hmem
    exact p.line.two_le_length

omit [Scalar α] in
/-- In both modes a sound takes almost as long as the smallest delay. -/
theorem leastDelay_le_latency {n : Network α} {p : Path α} (hp : p ∈ n.paths) :
    n.leastDelay - 1 ≤ p.latency n.mode := by
  have hle := leastDelay_le hp
  unfold Path.latency
  cases n.mode <;> dsimp only <;> omega

/-- The input filters have no part in what the paths put out. -/
theorem outputs_take_process (n : Network α) (sources : Array (Sample α)) :
    (n.take.2.process sources).outputs = (n.process sources).outputs :=
  congrArg (Array.map Path.output) (paths_process_take n sources)

variable {n : Network α} {src : ℕ → Array (Sample α)} {due : ℕ}

/-- What is fed to the paths comes out after the smallest latency. -/
theorem outputs_mute_of_feeds (hfeeds : ∀ t < due, ∀ k, H.Channels (n.reset.feeds src k t)) {t : ℕ}
    (ht : ∀ p ∈ n.paths, t < due + p.latency n.mode) :
    ∀ s ∈ (n.reset.run src (t + 1)).outputs, H.Channels s := by
  intro s hs
  obtain ⟨k, hk⟩ := Array.mem_iff_getElem?.mp hs
  rw [getElem?_outputs_run] at hk
  obtain ⟨q, hq, rfl⟩ := Option.map_eq_some_iff.mp hk
  obtain ⟨p, hp, rfl⟩ := Array.mem_map.mp (Array.mem_of_getElem? hq)
  have hlatency : t < due + p.latency n.mode := ht p hp
  have harrivals : ∀ i ≤ t,
      H.Channels (p.reset.arrivals n.reset.mode (n.reset.feeds src k) i) := by
    intro i hi
    refine Path.arrivals_mute (DelayLine.silent_clear p.line) n.mode (fun j hj => hfeeds j hj k) ?_
    exact lt_of_le_of_lt hi hlatency
  exact Hush.rotate (Reflection.response_mute rfl harrivals) _

/-- A network feeds itself nothing but mute values, as long as its sources are mute. -/
theorem feeds_mute (hsrc : ∀ t < due, ∀ s ∈ src t, H.Channels s) {t : ℕ} (ht : t < due) (k : ℕ) :
    H.Channels (n.reset.feeds src k t) := by
  -- A value that is fed back was fed at an earlier step, since no path has latency 0 then.
  induction t using Nat.strong_induction_on generalizing k with
  | _ t ih =>
    have hsources : H.link.Arrays fun _ => src t := Hush.arrays_link_iff.mpr (hsrc t ht)
    unfold feeds fed
    rw [run_mode, run_matrix]
    cases hm : n.reset.mode with
    | feedback =>
      have hmode : n.mode = .feedback := hm
      have houtputs : ∀ s ∈ (n.reset.run src (t + 1)).outputs, H.Channels s := by
        have hfeeds : ∀ i < t, ∀ k, H.Channels (n.reset.feeds src k i) :=
          fun i hi k => ih i hi (by omega) k
        refine outputs_mute_of_feeds hfeeds fun p hp => ?_
        have htwo := p.line.two_le_length
        rw [hmode]
        show t < t + p.line.length
        omega
      have htap : (n.reset.run src t).tap.outputs = (n.reset.run src (t + 1)).outputs :=
        (outputs_process_of_feedback _ _ ((run_mode _ _ _).trans hm)).symm
      dsimp only
      rw [htap]
      exact ((Hush.arrays_link_iff.mpr houtputs).add hsources).mix _
    | forward => exact hsources.mix _

/-- **A network holds back its sources for its smallest latency.** -/
theorem outputs_mute (hsrc : ∀ t < due, ∀ s ∈ src t, H.Channels s) {t : ℕ}
    (ht : ∀ p ∈ n.paths, t < due + p.latency n.mode) :
    ∀ s ∈ (n.reset.run src (t + 1)).outputs, H.Channels s :=
  outputs_mute_of_feeds (fun _ hi k => feeds_mute hsrc hi k) ht

/-- What becomes of the paths depends on nothing but the paths, the mode and the matrix. -/
theorem paths_process_congr {m n : Network α} (hpaths : m.paths = n.paths) (hmode : m.mode = n.mode)
    (hmatrix : m.matrix = n.matrix) (sources : Array (Sample α)) :
    (m.process sources).paths = (n.process sources).paths := by
  have htap : m.tap.outputs = n.tap.outputs := by
    unfold tap outputs
    rw [hpaths]
  have hfed : ∀ k, m.fed sources k = n.fed sources k := by
    intro k
    unfold fed
    rw [hmode, hmatrix, htap]
  rw [process_paths, process_paths, hpaths, hmode]
  simp only [hfed]

end Network

/-! ## Chains -/

namespace Engine

/-- The chain after the sources `src 0`, …, `src (t - 1)`. -/
def chainAfter (l : List (Network α)) (src : ℕ → Array (Sample α)) : ℕ → List (Network α)
  | 0 => l
  | t + 1 => (runForward (chainAfter l src t) (src t)).2

/-- What comes out of the chain at step `t`. -/
def chainOut (l : List (Network α)) (src : ℕ → Array (Sample α)) (t : ℕ) : Array (Sample α) :=
  (runForward (chainAfter l src t) (src t)).1

variable {n : Network α} {src : ℕ → Array (Sample α)}

theorem chainAfter_nil (src : ℕ → Array (Sample α)) (t : ℕ) : chainAfter [] src t = [] := by
  induction t with
  | zero => rfl
  | succ t ih =>
    show (runForward (chainAfter [] src t) (src t)).2 = []
    rw [ih]
    rfl

/-- The first stage of a chain runs on its sources, and the others run on its outputs. -/
theorem chainAfter_cons (h : n.take.2 = n) (l : List (Network α)) (t : ℕ) :
    chainAfter (n :: l) src t =
      (n.run src t).take.2 :: chainAfter l (fun s => (n.run src (s + 1)).outputs) t := by
  induction t with
  | zero => exact congrArg (· :: l) h.symm
  | succ t ih =>
    have houtputs : ((n.run src t).take.2.process (src t)).outputs =
        (n.run src (t + 1)).outputs := Network.outputs_take_process _ _
    show (runForward (chainAfter (n :: l) src t) (src t)).2 = _
    rw [ih]
    simp only [runForward]
    rw [houtputs]
    exact congrArg (· :: chainAfter l _ (t + 1)) (Network.take_process_take _ _)

theorem chainOut_cons (h : n.take.2 = n) (l : List (Network α)) (t : ℕ) :
    chainOut (n :: l) src t = chainOut l (fun s => (n.run src (s + 1)).outputs) t := by
  have houtputs : ((n.run src t).take.2.process (src t)).outputs =
      (n.run src (t + 1)).outputs := Network.outputs_take_process _ _
  unfold chainOut
  rw [chainAfter_cons h]
  simp only [runForward]
  rw [houtputs]

/-- **The latencies of the stages add up.** -/
theorem chainOut_mute (l : List (Network α)) {due : ℕ}
    (hsrc : ∀ t < due, ∀ s ∈ src t, H.Channels s) {t : ℕ}
    (ht : t < due + (l.map fun n => n.leastDelay - 1).sum) :
    ∀ s ∈ chainOut (l.map Network.reset) src t, H.Channels s := by
  induction l generalizing src due with
  | nil =>
    unfold chainOut
    rw [List.map_nil, chainAfter_nil]
    exact hsrc t ht
  | cons n l ih =>
    have hnext : ∀ t < due + (n.leastDelay - 1), ∀ s ∈ (n.reset.run src (t + 1)).outputs,
        H.Channels s := by
      intro t ht
      refine Network.outputs_mute hsrc fun p hp => ?_
      have hlatency := Network.leastDelay_le_latency hp
      omega
    rw [List.map_cons, List.sum_cons] at ht
    rw [List.map_cons, chainOut_cons rfl]
    exact ih hnext (by omega)

/-! ## Measurements -/

variable {β : Type} [Scalar β] (e : Engine α β)

/-- What the first stage of a measurement is fed. -/
def measuredSources (i : ℕ) : Array (Sample α) := (e.measured i).sources (impulse i)

theorem forward_measured (i : ℕ) :
    (e.measured i).forward = chainAfter (e.forward.map Network.reset) e.measuredSources i := by
  induction i with
  | zero => rfl
  | succ i ih =>
    show ((e.measured i).tick (impulse i)).2.forward = _
    rw [tick_eq]
    show (runForward (e.measured i).forward _).2 = _
    rw [ih]
    rfl

/-- What the feedback network of a measurement is fed. -/
def measuredChain : ℕ → Array (Sample α) :=
  chainOut (e.forward.map Network.reset) e.measuredSources

/-- **A measurement is a run of the feedback network**, but for the input filters. -/
theorem paths_feedback_measured (i : ℕ) :
    (e.measured i).feedback.paths = (e.feedback.reset.run e.measuredChain i).paths := by
  induction i with
  | zero => rfl
  | succ i ih =>
    have hrest : (e.measured i).feedback.rest = e.feedback.rest :=
      congrArg Engine.feedback (rest_measured e i)
    have hmode : (e.measured i).feedback.mode = e.feedback.mode :=
      (congrArg Network.mode hrest :)
    have hmatrix : (e.measured i).feedback.matrix = e.feedback.matrix :=
      (congrArg Network.matrix hrest :)
    have hnext : (e.measured (i + 1)).feedback.paths =
        (((e.measured i).intake (impulse i)).2.process (e.measuredChain i)).paths := by
      show ((e.measured i).tick (impulse i)).2.feedback.paths = _
      rw [tick_eq]
      unfold measuredChain chainOut
      rw [← forward_measured]
      rfl
    obtain ⟨himode, himatrix⟩ : ((e.measured i).intake (impulse i)).2.mode = e.feedback.mode ∧
        ((e.measured i).intake (impulse i)).2.matrix = e.feedback.matrix := by
      rw [← hmode, ← hmatrix]
      unfold intake
      split_ifs <;> exact ⟨rfl, rfl⟩
    rw [hnext]
    refine Network.paths_process_congr ((paths_intake _ _).trans ih) ?_ ?_ _
    · rw [himode, Network.run_mode]
      rfl
    · rw [himatrix, Network.run_matrix]
      rfl

theorem outputs_processed_measured (i : ℕ) :
    ((e.measured i).processed (impulse i)).outputs =
      (e.feedback.reset.run e.measuredChain (i + 1)).outputs := by
  have hpaths : ((e.measured i).processed (impulse i)).paths =
      (e.measured (i + 1)).feedback.paths := by
    show _ = ((e.measured i).tick (impulse i)).2.feedback.paths
    rw [tick_eq]
    rfl
  unfold Network.outputs
  rw [hpaths, paths_feedback_measured]

/-- The index of the first sample that a reflection can reach: the smallest delay of the feedback
network, and one less than the smallest delay of each stage before it. -/
def onset (e : Engine α β) : ℕ :=
  e.feedback.leastDelay + (e.forward.map fun n => n.leastDelay - 1).sum

end Engine

end

/-- Before the onset, all outputs of the engine are exact zeros. -/
theorem Engine.tick_measured_eq_zero {e : Engine Float32 Float}
    (hmode : e.feedback.mode = .feedback) {i : ℕ} (hi : i < e.onset) :
    ((e.measured i).tick (impulse i)).1 = 0 := by
  refine tick_fst_eq_zero (output_measured e i) ?_
  rw [outputs_processed_measured]
  have hchain : ∀ t < (e.forward.map fun n => n.leastDelay - 1).sum, ∀ s ∈ e.measuredChain t,
      mute32.Channels s := by
    intro t ht
    have hnothing : ∀ t < 0, ∀ s ∈ e.measuredSources t, mute32.Channels s := fun t ht =>
      absurd ht (Nat.not_lt_zero t)
    exact chainOut_mute e.forward hnothing (by omega)
  refine Network.outputs_mute hchain fun p hp => ?_
  have hleast := Network.leastDelay_le hp
  unfold onset at hi
  rw [hmode]
  show i < _ + p.line.length
  omega

namespace Reverb

variable {c : Config Float32} {r : Reverb Float32 Float} {e : Engine Float32 Float}

/-- The last network of a reachable reverb feeds back, and has as many paths as were configured. -/
theorem feedback_of_reachable (h : Reachable c r) (he : r.engine? = some e) :
    e.feedback.mode = .feedback ∧ e.feedback.order = c.order := by
  have hcurrent := current_of_reachable h
  obtain ⟨e₀, hblank, hrest⟩ :=
    (hcurrent.engine e (engine_of_engine? he)).exists_blank hcurrent.order_ne_zero
  have hfeedback : e.feedback.rest = (e₀.derive r.parameters).feedback.rest :=
    congrArg Engine.feedback hrest
  refine ⟨(congrArg Network.mode hfeedback :).trans hblank.mode_eq, ?_⟩
  rw [← Network.order_rest, hfeedback, Network.order_rest]
  exact (Network.order_derive _ _).trans hblank.order_eq

/-- **No energy before the first reflection.** Whatever a reachable reverb was asked before, its
impulse response is there, has the length that was asked for, and is exactly zero before the onset
of its engine. -/
theorem impulseResponse_before_onset (h : Reachable c r) (he : r.engine? = some e) (length : ℕ) :
    ∃ response, (r.impulseResponse length).1 = some response ∧ response.size = length ∧
      ∀ i, i < length → i < e.onset → response[i]? = some binary32Zero := by
  have hmode := (feedback_of_reachable h he).1
  refine ⟨_, congrArg Prod.fst (impulseResponse_eq he length), ?_, fun i hi honset => ?_⟩
  · rw [Engine.impulseResponse_eq]
    exact Array.size_ofFn
  · rw [Engine.impulseResponse_eq, Array.getElem?_ofFn, dif_pos hi]
    exact congrArg some (congrArg Sample.w (Engine.tick_measured_eq_zero hmode honset))

/-- There is always something before the onset. -/
theorem two_le_onset (h : Reachable c r) (he : r.engine? = some e) : 2 ≤ e.onset := by
  have horder : e.feedback.order ≠ 0 := by
    rw [(feedback_of_reachable h he).2]
    exact (current_of_reachable h).order_ne_zero
  have hleast := Network.two_le_leastDelay horder
  unfold Engine.onset
  omega

theorem impulseResponse_before_onset_smallHall :
    ∃ (r : Reverb Float32 Float) (e : Engine Float32 Float),
      (Reachable smallHall r ∧ r.engine? = some e) ∧ 2 ≤ e.onset ∧
        ∃ response, (r.impulseResponse 1000).1 = some response ∧ response.size = 1000 ∧
          ∀ i, i < 1000 → i < e.onset → response[i]? = some binary32Zero := by
  have hcheck : smallHall.check = .ok .shortest := by decide +kernel
  have hrate : Scalar.isFinite (48000 : Float32) ∧ (1 : Float32) ≤ 48000 := by decide +kernel
  obtain ⟨r, e, hreachable, he, -⟩ := exists_reachable (β := Float) hcheck hrate 16
  exact ⟨r, e, ⟨hreachable, he⟩, two_le_onset hreachable he,
    impulseResponse_before_onset hreachable he 1000⟩

end Reverb

end AmbisonicReverb
