import Mathlib
import AmbisonicReverb.Proofs.Fragments
import AmbisonicReverb.Proofs.History
import AmbisonicReverb.Proofs.Onset
import AmbisonicReverb.Proofs.Tail

/-!
# The echo train of a single path

A network of one path is the simplest reverb there is. In feedback mode a pulse goes round, through
the delay line and the reflection, and is heard once in each round. An allpass without coefficient
is a delay of one sample, so that a round takes a step more than the delay line is long. In forward
mode the pulse is heard once.

**Theorem (`rings_derive_new`).** With exact numbers and the threshold of the signals, a new network
of order 1, derived without damping, answers a unit impulse of pressure with its echo train: in
feedback mode the powers of the gain, until they are flushed, and exact silence at all other steps
(`EchoTrain`). A network that has a history does the same unless the head of its line is outside
and loses the impulse (`rings_derive_iff`).

What the path puts out obeys a recurrence with the length of a round (`RoundTrips`), and its
solution is found by induction on the rounds (`RoundTrips.echo`, `RoundTrips.pause`).
-/

namespace AmbisonicReverb

/-! ## Round trips -/

/-- What comes in first is heard after `d + 1` steps, and comes back every `d + 1` steps, times `g`
each time. -/
structure RoundTrips (first g : ℝ) (d : ℕ) (u : ℕ → ℝ) : Prop where
  gain_mem : g ∈ Set.Icc 0 1
  early : ∀ t ≤ d, u t = 0
  trip : ∀ t, u (t + d + 1) = flushed ((if t = 0 then first else u t) * g)

namespace RoundTrips

variable {first g : ℝ} {d : ℕ} {u : ℕ → ℝ}

theorem echo (h : RoundTrips first g d u) (k : ℕ) :
    u ((k + 1) * (d + 1)) = flushed (first * g ^ (k + 1)) := by
  induction k with
  | zero =>
    have htrip := h.trip 0
    rw [if_pos rfl] at htrip
    rw [zero_add, one_mul, pow_one, ← htrip, zero_add]
  | succ k ih =>
    have htrip := h.trip ((k + 1) * (d + 1))
    rw [if_neg (by positivity), ih, flushed_flushed_mul h.gain_mem.1 h.gain_mem.2, mul_assoc,
      ← pow_succ] at htrip
    rw [← htrip]
    congr 1
    ring

theorem pause (h : RoundTrips first g d u) (k : ℕ) {r : ℕ} (hpos : 0 < r) (hr : r ≤ d) :
    u (k * (d + 1) + r) = 0 := by
  induction k with
  | zero => exact h.early _ (by omega)
  | succ k ih =>
    have htrip := h.trip (k * (d + 1) + r)
    rw [if_neg (by omega), ih, zero_mul, flushed_zero] at htrip
    rw [← htrip]
    congr 1
    ring

/-- Nothing is heard but at the end of a trip. -/
theorem eq_zero_or_echo (h : RoundTrips first g d u) (t : ℕ) :
    u t = 0 ∨ ∃ k, 1 ≤ k ∧ t = k * (d + 1) ∧ u t = flushed (first * g ^ k) := by
  have hdiv : t / (d + 1) * (d + 1) + t % (d + 1) = t := Nat.div_add_mod' t (d + 1)
  have hmod : t % (d + 1) < d + 1 := Nat.mod_lt t (Nat.succ_pos d)
  generalize t / (d + 1) = k at hdiv
  generalize t % (d + 1) = r at hdiv hmod
  subst hdiv
  rcases Nat.eq_zero_or_pos r with rfl | hpos
  · cases k with
    | zero => exact .inl (h.early _ (by omega))
    | succ k => exact .inr ⟨k + 1, by omega, rfl, h.echo k⟩
  · exact .inl (h.pause k hpos (by omega))

/-- A pulse that is lost is never heard. -/
theorem eq_zero (h : RoundTrips 0 g d u) (t : ℕ) : u t = 0 := by
  rcases h.eq_zero_or_echo t with hzero | ⟨k, -, -, hecho⟩
  · exact hzero
  · rw [hecho, zero_mul, flushed_zero]

end RoundTrips

/-! ## Echo trains -/

/-- What is heard of a unit impulse behind a single path of gain `g` and length `d`. -/
def EchoTrain (m : Mode) (g : ℝ) (d : ℕ) (u : ℕ → ℝ) : Prop :=
  match m with
  | .feedback =>
    (∀ k, 1 ≤ k → 1e-30 ≤ g ^ k → u (k * (d + 1)) = g ^ k) ∧
      ∀ t, (∀ k, 1 ≤ k → 1e-30 ≤ g ^ k → t ≠ k * (d + 1)) → u t = 0
  | .forward => u d = (if g < 1e-30 then 0 else g) ∧ ∀ t, t ≠ d → u t = 0

variable {m : Mode} {g : ℝ} {d : ℕ} {u : ℕ → ℝ}

theorem RoundTrips.echoTrain (h : RoundTrips 1 g d u) : EchoTrain .feedback g d u := by
  constructor
  · intro k hk hloud
    obtain ⟨k, rfl⟩ : ∃ i, k = i + 1 := ⟨k - 1, by omega⟩
    rw [h.echo, one_mul, flushed_of_le hloud]
  · intro t ht
    rcases h.eq_zero_or_echo t with hzero | ⟨k, hk, rfl, hecho⟩
    · exact hzero
    · have hquiet : ¬ 1e-30 ≤ g ^ k := fun hloud => ht k hk hloud rfl
      rw [hecho, one_mul, flushed_of_nonneg (pow_nonneg h.gain_mem.1 k),
        if_pos (not_le.mp hquiet)]

/-- The first echo has the level of the gain. -/
theorem EchoTrain.exists_eq (h : EchoTrain m g d u) (hloud : 1e-30 ≤ g) : ∃ t, u t = g := by
  cases m with
  | feedback => exact ⟨1 * (d + 1), by rw [h.1 1 le_rfl (by rwa [pow_one]), pow_one]⟩
  | forward => exact ⟨d, h.1.trans (if_neg (not_lt.mpr hloud))⟩

/-- Silence is an echo train if the first echo is flushed. -/
theorem echoTrain_zero_iff (hg : g ∈ Set.Icc 0 1) :
    (EchoTrain m g d fun _ => 0) ↔ g < 1e-30 := by
  constructor
  · intro h
    by_contra hloud
    obtain ⟨-, hzero⟩ := h.exists_eq (not_lt.mp hloud)
    rw [← hzero] at hloud
    norm_num at hloud
  · intro h
    cases m with
    | feedback =>
      refine ⟨fun k hk hloud => ?_, fun _ _ => rfl⟩
      have hle : g ^ k ≤ g := pow_le_of_le_one hg.1 hg.2 (by omega)
      exact absurd (hloud.trans hle) (not_le.mpr h)
    | forward => exact ⟨(if_pos h).symm, fun _ _ => rfl⟩

/-! ## Filters -/

namespace Reflection

variable {gain damping eta : Flushed} {f : Reflection Flushed}

theorem level_response_zero (h : f.Has gain damping eta) (hreset : f.reset = f)
    (heta : eta.toReal = 0) (v : ℕ → Sample Flushed) (a : Channel) :
    (f.response v 0).level a = 0 := by
  have hin : f.allpassIn.level a = 0 := by
    rw [← hreset]
    exact congrArg Flushed.toReal (Sample.channel_zero a)
  show (f.filter (v 0)).2.allpassOut.level a = 0
  rw [level_allpassOut_filter h, heta, hin, mul_zero, neg_zero, zero_mul, add_zero, add_zero,
    flushed_zero]

/-- Without damping and allpass a filter is one step late. -/
theorem level_response_succ (h : f.Has gain damping eta) (hdamping : damping.toReal = 0)
    (heta : eta.toReal = 0) (v : ℕ → Sample Flushed) (t : ℕ) (a : Channel) :
    (f.response v (t + 1)).level a = flushed ((v t).level a * gain.toReal) := by
  have hin : (f.after v (t + 1)).allpassIn.level a = flushed ((v t).level a * gain.toReal) := by
    show ((f.after v t).filter (v t)).2.lowpass.level a = _
    rw [level_lowpass_filter (h.after v t), hdamping, sub_zero, mul_one, zero_mul, add_zero]
  show ((f.after v (t + 1)).filter (v (t + 1))).2.allpassOut.level a = _
  rw [level_allpassOut_filter (h.after v (t + 1)), heta, hin, mul_zero, neg_zero, zero_mul,
    add_zero, zero_add, flushed_flushed]

end Reflection

namespace Network

/-! ## What is heard of a network -/

section

variable {α : Type} [Scalar α]

/-- One sample through a network, and what it puts out. -/
def hear (n : Network α) (sources : Array (Sample α)) : Sample α × Network α :=
  (n.process sources).take

theorem course_hear {n : Network α} (h : n.output = 0) (src : ℕ → Array (Sample α)) (t : ℕ) :
    course hear n src t = (n.run src t).take.2 := by
  induction t with
  | zero =>
    show n = { n with output := 0 }
    rw [← h]
  | succ t ih =>
    show ((course hear n src t).process (src t)).take.2 = _
    rw [ih, take_process_take]
    rfl

/-- What a network puts out is the sum of the signals of its paths. -/
theorem emitted_hear {n : Network α} (h : n.output = 0) (src : ℕ → Array (Sample α)) (t : ℕ) :
    emitted hear n src t = sumTo n.order fun k => n.signal src k t := by
  show ((course hear n src t).process (src t)).output = _
  rw [course_hear h, process_output, outputs_take_process]
  show (n.run src (t + 1)).outputs.foldl _ 0 = _
  rw [foldl_eq_foldl_range _ 0, size_outputs_run]
  rfl

/-- A unit impulse of pressure for a single path. -/
def knock (t : ℕ) : Array (Sample α) := #[Engine.impulse t]

end

/-! ## Single paths -/

/-- A silent network of one path, with neither damping nor allpass. -/
structure Single (n : Network Flushed) (p : Path Flushed) : Prop where
  paths_eq : n.paths = #[p]
  matrix_eq : n.matrix = #[#[1]]
  output_eq : n.output = 0
  gain_mem : n.gain.toReal ∈ Set.Icc 0 1
  silent : p.line.Silent
  reset_eq : p.reflection.reset = p.reflection
  exists_has : ∃ damping eta : Flushed, damping.toReal = 0 ∧ eta.toReal = 0 ∧
    p.reflection.Has n.gain damping eta

/-- The pressure that the path puts out. -/
noncomputable def ring (n : Network Flushed) (t : ℕ) : ℝ := (n.signal knock 0 t).level .w

namespace Single

variable {n : Network Flushed} {p : Path Flushed}

theorem order_eq (h : n.Single p) : n.order = 1 := congrArg Array.size h.paths_eq

theorem level_emitted (h : n.Single p) (t : ℕ) :
    (emitted hear n knock t).level .w = n.ring t := by
  rw [emitted_hear h.output_eq, h.order_eq]
  exact zero_add (n.ring t)

theorem signal_eq (h : n.Single p) (t : ℕ) :
    n.signal knock 0 t =
      (p.reflection.response (p.arrivals n.mode (n.feeds knock 0)) t).rotate p.rotation := by
  have hp : n.paths[0]? = some p := by
    rw [h.paths_eq]
    rfl
  rw [signal, Array.getD_eq_getD_getElem?, getElem?_outputs_run, hp]
  rfl

theorem ring_zero (h : n.Single p) : n.ring 0 = 0 := by
  obtain ⟨damping, eta, -, heta, hhas⟩ := h.exists_has
  unfold ring
  rw [h.signal_eq]
  exact Reflection.level_response_zero hhas h.reset_eq heta _ .w

theorem ring_succ (h : n.Single p) (t : ℕ) :
    n.ring (t + 1) =
      flushed ((p.arrivals n.mode (n.feeds knock 0) t).level .w * n.gain.toReal) := by
  obtain ⟨damping, eta, hdamping, heta, hhas⟩ := h.exists_has
  unfold ring
  rw [h.signal_eq]
  exact Reflection.level_response_succ hhas hdamping heta _ t .w

theorem entry_eq (h : n.Single p) : n.entry 0 0 = 1 := by
  unfold entry
  rw [h.matrix_eq]
  rfl

theorem feeds_eq (h : n.Single p) (t : ℕ) :
    n.feeds knock 0 t = n.inflow (fun j t => (knock t).getD j 0) (n.signal knock) 0 t := by
  have horder := h.order_eq
  have hsize : ∀ t, (knock t : Array (Sample Flushed)).size = n.order := fun _ => horder.symm
  refine feeds_eq_inflow ?_ ?_ hsize (by omega) t
  · rw [h.matrix_eq, horder]
    rfl
  · rw [h.matrix_eq, horder]
    simp

/-- What is fed to the path: the impulse, and in feedback mode what comes back. -/
theorem level_feeds (h : n.Single p) (t : ℕ) :
    (n.feeds knock 0 t).level .w =
      (if n.mode = .feedback then n.ring t else 0) + if t = 0 then 1 else 0 := by
  have hknock : ((knock t).getD 0 0 : Sample Flushed).level .w = if t = 0 then 1 else 0 := by
    show (Engine.impulse t : Sample Flushed).level .w = _
    unfold Engine.impulse
    split_ifs <;> rfl
  rw [h.feeds_eq, inflow, h.order_eq, ← hknock]
  cases n.mode with
  | feedback =>
    show 0 + (n.ring t + ((knock t).getD 0 0 : Sample Flushed).level .w) * (n.entry 0 0).toReal = _
    rw [h.entry_eq, Flushed.toReal_one, mul_one, zero_add, if_pos rfl]
  | forward =>
    show 0 + ((knock t).getD 0 0 : Sample Flushed).level .w * (n.entry 0 0).toReal = 0 + _
    rw [h.entry_eq, Flushed.toReal_one, mul_one]

/-- What reaches the line of it. -/
theorem level_kept (h : n.Single p) (t : ℕ) :
    (p.kept (n.feeds knock 0) t).level .w =
      if t = 0 then if p.line.Inside then 1 else 0
      else if n.mode = .feedback then n.ring t else 0 := by
  have hfeed := h.level_feeds t
  unfold Path.kept
  by_cases ht : t = 0
  · subst ht
    rw [h.ring_zero, ite_self, if_pos rfl, zero_add] at hfeed
    by_cases hin : p.line.Inside
    · rw [if_neg (fun hlost => hlost.2 hin), if_pos rfl, if_pos hin, hfeed]
    · rw [if_pos ⟨rfl, hin⟩, if_pos rfl, if_neg hin]
      rfl
  · rw [if_neg ht, add_zero] at hfeed
    rw [if_neg (fun hlost => ht hlost.1), if_neg ht, hfeed]

theorem ring_early (h : n.Single p) {t : ℕ} (ht : t ≤ p.latency n.mode) : n.ring t = 0 := by
  cases t with
  | zero => exact h.ring_zero
  | succ t =>
    rw [h.ring_succ, Path.arrivals_eq_kept n.mode h.silent, if_pos (by omega)]
    show flushed (0 * _) = 0
    rw [zero_mul, flushed_zero]

theorem ring_late (h : n.Single p) (t : ℕ) :
    n.ring (t + p.latency n.mode + 1) =
      flushed ((p.kept (n.feeds knock 0) t).level .w * n.gain.toReal) := by
  rw [h.ring_succ, Path.arrivals_eq_kept n.mode h.silent, if_neg (by omega), Nat.add_sub_cancel]

/-- In feedback mode the output of the path comes back. -/
theorem roundTrips (h : n.Single p) (hmode : n.mode = .feedback) :
    RoundTrips (if p.line.Inside then 1 else 0) n.gain.toReal p.line.length n.ring where
  gain_mem := h.gain_mem
  early t ht := h.ring_early (by rwa [hmode])
  trip t := by
    have hlate := h.ring_late t
    rw [h.level_kept, hmode, if_pos rfl] at hlate
    exact hlate

/-- A forward path is heard once. -/
theorem ring_forward (h : n.Single p) (hmode : n.mode = .forward) (t : ℕ) :
    n.ring t = if t = p.line.length then
      flushed ((if p.line.Inside then 1 else 0) * n.gain.toReal) else 0 := by
  have h2 := p.line.two_le_length
  have hlatency : p.latency n.mode = p.line.length - 1 := by
    rw [hmode]
    rfl
  by_cases hearly : t < p.line.length
  · rw [h.ring_early (by omega), if_neg (by omega)]
  · obtain ⟨s, rfl⟩ : ∃ s, t = s + p.line.length := ⟨t - p.line.length, by omega⟩
    have hlate := h.ring_late s
    have hstep : s + p.latency n.mode + 1 = s + p.line.length := by omega
    have hforward : ¬ n.mode = .feedback := by simp [hmode]
    rw [hstep, h.level_kept, if_neg hforward] at hlate
    rw [hlate]
    by_cases hs : s = 0
    · have hdue : s + p.line.length = p.line.length := by omega
      rw [if_pos hs, if_pos hdue]
    · have hdue : ¬ s + p.line.length = p.line.length := by omega
      rw [if_neg hs, if_neg hdue, zero_mul, flushed_zero]

theorem echoTrain_of_inside (h : n.Single p) (hin : p.line.Inside) :
    EchoTrain n.mode n.gain.toReal p.line.length n.ring := by
  cases hmode : n.mode with
  | feedback =>
    have htrips := h.roundTrips hmode
    rw [if_pos hin] at htrips
    exact htrips.echoTrain
  | forward =>
    refine ⟨?_, fun t ht => ?_⟩
    · rw [h.ring_forward hmode, if_pos rfl, if_pos hin, one_mul, flushed_of_nonneg h.gain_mem.1]
    · rw [h.ring_forward hmode, if_neg ht]

/-- A network that loses the impulse is silent. -/
theorem ring_of_not_inside (h : n.Single p) (hout : ¬ p.line.Inside) (t : ℕ) : n.ring t = 0 := by
  cases hmode : n.mode with
  | feedback =>
    have htrips := h.roundTrips hmode
    rw [if_neg hout] at htrips
    exact htrips.eq_zero t
  | forward => rw [h.ring_forward hmode, if_neg hout, zero_mul, flushed_zero, ite_self]

/-- A single path rings, unless the impulse is lost and would have been heard. -/
theorem echoTrain_iff (h : n.Single p) :
    EchoTrain n.mode n.gain.toReal p.line.length n.ring ↔
      p.line.Inside ∨ n.gain.toReal < 1e-30 := by
  by_cases hin : p.line.Inside
  · exact iff_of_true (h.echoTrain_of_inside hin) (.inl hin)
  · have hzero : n.ring = fun _ => 0 := funext (h.ring_of_not_inside hin)
    rw [hzero, echoTrain_zero_iff h.gain_mem]
    exact (or_iff_right hin).symm

end Single

/-- What a network of a single path puts out after a unit impulse of pressure is the echo train of
its gain and its delay. -/
def Rings (n : Network Flushed) : Prop :=
  ∃ d, n.delays = #[d] ∧
    EchoTrain n.mode n.gain.toReal d fun t => (emitted hear n knock t).w.toReal

theorem Single.rings_iff {n : Network Flushed} {p : Path Flushed} (h : n.Single p) :
    n.Rings ↔ n.Inside ∨ n.gain.toReal < 1e-30 := by
  have hdelays : n.delays = #[p.line.length] := by
    unfold delays
    rw [h.paths_eq, List.map_toArray]
    rfl
  have hinside : n.Inside ↔ p.line.Inside := by
    unfold Inside
    rw [h.paths_eq]
    simp
  have hheard : (fun t => (emitted hear n knock t).w.toReal) = n.ring := funext h.level_emitted
  unfold Rings
  rw [hinside, ← h.echoTrain_iff, hdelays, hheard]
  constructor
  · rintro ⟨d, hd, htrain⟩
    obtain rfl : p.line.length = d := by simpa using hd
    exact htrain
  · intro htrain
    exact ⟨p.line.length, rfl, htrain⟩

/-! ## Derived networks -/

variable {d : NetworkDesign Flushed}

theorem gain_derive_mem (n : Network Flushed) (d : NetworkDesign Flushed) :
    (n.derive d).gain.toReal ∈ Set.Icc 0 1 := by
  show (n.method.gain d.shortest _ d.decayTime).toReal ∈ Set.Icc 0 1
  unfold GainMethod.gain
  exact Scalar.clamp_mem zero_le_one _

theorem exists_single_derive {n : Network Flushed} (horder : n.order = 1) (hd : d.damping = 0) :
    ∃ p, (n.derive d).Single p := by
  obtain ⟨q, hq⟩ : ∃ q, n.paths = #[q] := Array.size_eq_one_iff.mp horder
  have hpaths : (n.derive d).paths = #[n.derivedPath d 0 q] := by
    rw [derive_eq, hq]
    rfl
  have hmatrix : (n.derive d).matrix = #[#[1]] := by
    show Circulant.matrix d.layout (Circulant.row n.order) = _
    rw [horder]
    cases d.layout <;> rfl
  have hdamping : d.damping.toReal = 0 := congrArg Flushed.toReal hd
  -- a single path stands where the first of many does, and gets no allpass
  have heta : (maxEta * NetworkDesign.fraction n.order 0 : Flushed).toReal = 0 := by
    rw [horder, Flushed.toReal_mul]
    exact mul_zero _
  exact ⟨_, hpaths, hmatrix, rfl, n.gain_derive_mem d, silent_derivedPath n d 0 q, rfl,
    _, _, hdamping, heta, rfl⟩

/-- Whatever was in a network of order 1, it rings after a derivation unless the impulse is lost
and would have been heard. -/
theorem rings_derive_iff {n : Network Flushed} (horder : n.order = 1) (hd : d.damping = 0) :
    (n.derive d).Rings ↔ (n.derive d).Inside ∨ (n.derive d).gain.toReal < 1e-30 := by
  obtain ⟨p, hp⟩ := exists_single_derive horder hd
  exact hp.rings_iff

/-- **A single path rings.** A new network of order 1 that is derived without damping answers a
unit impulse with its echo train. After any history another derivation makes it ring exactly if the
head of its line is inside, or the gain so small that nothing is heard. -/
theorem rings_derive_new (maxDelay : ℕ) (law : DelayLaw) (method : GainMethod) (mode : Mode)
    (hd : d.damping = 0) :
    ∃ n : Network Flushed, new 1 maxDelay law method mode = .ok n ∧
      (n.derive d).mode = mode ∧ (n.derive d).Rings ∧
      ∀ moves, ((n.applyAll moves).derive d).Rings ↔
        ((n.applyAll moves).derive d).Inside ∨
          ((n.applyAll moves).derive d).gain.toReal < 1e-30 := by
  obtain ⟨n, hn, horder, hmode, hhome⟩ :=
    exists_new (α := Flushed) one_pos maxDelay law method mode
  have hinside : (n.derive d).Inside := by
    intro p hp
    obtain ⟨k, q, hq, rfl⟩ := exists_of_mem_derive_paths hp
    exact inside_derivedPath n d k (hhome q (Array.mem_of_getElem? hq))
  refine ⟨n, hn, hmode, (rings_derive_iff horder hd).mpr (.inl hinside), fun moves => ?_⟩
  exact rings_derive_iff ((order_applyAll n moves).trans horder) hd

/-- A design for a path of ten samples, 60 dB down after 300. -/
noncomputable def shortDesign : NetworkDesign Flushed where
  turn := 0.3
  spread := 0.7
  shortest := 10.0
  longest := 10.0
  decayTime := 300.0
  damping := 0
  layout := .fixed
  truncateForward := false

theorem rings_derive_new_short : shortDesign.damping = 0 ∧
    ∃ n : Network Flushed, new 1 100 .geometric .schroeder .feedback = .ok n ∧
      (n.derive shortDesign).mode = .feedback ∧ (n.derive shortDesign).Rings ∧
      ∀ moves, ((n.applyAll moves).derive shortDesign).Rings ↔
        ((n.applyAll moves).derive shortDesign).Inside ∨
          ((n.applyAll moves).derive shortDesign).gain.toReal < 1e-30 :=
  ⟨rfl, rings_derive_new 100 .geometric .schroeder .feedback rfl⟩

end Network

end AmbisonicReverb
