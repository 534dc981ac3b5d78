import Mathlib
import AmbisonicReverb.Proofs.Energy
import AmbisonicReverb.Proofs.Reachable

/-!
# The echo of a lost impulse

Read exactly, and without forward stages, a response shows whether the impulse was lost. Each path
answers an impulse with a first echo (`Reflection.lag`, `Reflection.lead`), and all first echoes
have the same sign, since the rows of the matrix sum to one. Two silent networks, made alike, give
the same pressure until the first of the missing echoes is due, and at that sample they differ
(`Network.exists_sum_signal_lt`).

The input filters let nothing pass at once. An engine that uses them loses only silence, and the
others lose the impulse exactly if a head is outside (`Reverb.response_eq_iff`).
-/

namespace AmbisonicReverb

open Finset

/-! ## Filters -/

namespace Reflection

variable (f : Reflection ℝ)

/-- The steps until the first echo of an impulse leaves the filter. -/
noncomputable def lag : Nat := if f.eta = 0 then 1 else 0

/-- The first echo of a unit impulse. -/
noncomputable def lead : ℝ := if f.eta = 0 then f.b1 else f.b1 * f.eta

theorem filter_w (s : Sample ℝ) :
    (f.filter s).1.w = (s.w * f.b1 - f.lowpass.w * f.a2) * f.eta + f.allpassIn.w -
      f.allpassOut.w * f.eta := by
  unfold filter
  simp only [Sample.flush_eq]
  rfl

/-- Without allpass a silent filter gives nothing at once. -/
theorem filter_reset_of_eta (h : f.eta = 0) (s : Sample ℝ) : (f.reset.filter s).1 = 0 := by
  unfold filter reset
  simp only [h, Sample.flush_eq, Sample.silence_mul, Sample.mul_zero_eq, Sample.sub_silence,
    Sample.add_silence]

theorem filter_reset_zero : (f.reset.filter 0).1 = 0 := by
  unfold filter reset
  simp only [Sample.flush_eq, Sample.silence_mul, Sample.sub_silence, Sample.add_silence]

variable {f} {u v : Nat → Sample ℝ}

/-- The pressure in the filter depends on that of the inputs alone. -/
theorem after_w_eq {t : Nat} (h : ∀ s < t, (u s).w = (v s).w) :
    (f.after u t).lowpass.w = (f.after v t).lowpass.w ∧
      (f.after u t).allpassIn.w = (f.after v t).allpassIn.w ∧
      (f.after u t).allpassOut.w = (f.after v t).allpassOut.w := by
  induction t with
  | zero => exact ⟨rfl, rfl, rfl⟩
  | succ t ih =>
    obtain ⟨hlow, hin, hout⟩ := ih fun s hs => h s (by omega)
    obtain ⟨hub, hua, hue⟩ := f.after_coefficients u t
    obtain ⟨hvb, hva, hve⟩ := f.after_coefficients v t
    have hnow := h t (Nat.lt_succ_self t)
    have hpass : ((u t * (f.after u t).b1 - (f.after u t).lowpass * (f.after u t).a2).flush).w =
        ((v t * (f.after v t).b1 - (f.after v t).lowpass * (f.after v t).a2).flush).w := by
      simp only [Sample.flush_eq, Sample.sub_w, Sample.mul_w]
      rw [hub, hua, hvb, hva, hlow, hnow]
    refine ⟨hpass, hpass, ?_⟩
    show ((f.after u t).filter (u t)).1.w = ((f.after v t).filter (v t)).1.w
    rw [filter_w, filter_w, hub, hua, hue, hvb, hva, hve, hlow, hin, hout, hnow]

theorem response_w_eq {t : Nat} (h : ∀ s ≤ t, (u s).w = (v s).w) :
    (f.response u t).w = (f.response v t).w := by
  have hafter := after_w_eq (f := f) (t := t + 1) fun s hs => h s (by omega)
  exact hafter.2.2

/-- A pulse of pressure on top of an input is first heard after the lag, as its lead. -/
theorem response_w_add {L t : Nat} {x : ℝ} (hL : (u L).w = (v L).w + x)
    (h : ∀ s ≤ t, s ≠ L → (u s).w = (v s).w) (ht : t ≤ L + f.lag) :
    (f.response u t).w = (f.response v t).w + if t = L + f.lag then x * f.lead else 0 := by
  obtain ⟨hub, hua, hue⟩ := f.after_coefficients u t
  obtain ⟨hvb, hva, hve⟩ := f.after_coefficients v t
  unfold response
  rw [filter_w, filter_w, hub, hua, hue, hvb, hva, hve]
  unfold lag at ht ⊢
  unfold lead
  by_cases hshort : t ≤ L
  · obtain ⟨hlow, hin, hout⟩ := after_w_eq (f := f) (t := t) fun s hs => h s (by omega) (by omega)
    rw [hlow, hin, hout]
    by_cases hlast : t = L
    · rw [hlast, hL]
      by_cases heta : f.eta = 0
      · rw [if_pos heta, if_neg (by omega), heta]
        ring
      · rw [if_neg heta, if_neg heta, Nat.add_zero, if_pos rfl]
        ring
    · rw [h t (le_refl t) hlast, if_neg (by omega), add_zero]
  · -- the filter is one step behind, and only the last output of its lowpass differs
    have heta : f.eta = 0 := by
      by_contra hne
      rw [if_neg hne] at ht
      omega
    obtain rfl : t = L + 1 := by
      rw [if_pos heta] at ht
      omega
    obtain ⟨hlow, -, -⟩ := after_w_eq (f := f) (t := L) fun s hs => h s (by omega) (by omega)
    obtain ⟨hub, hua, -⟩ := f.after_coefficients u L
    obtain ⟨hvb, hva, -⟩ := f.after_coefficients v L
    have hin : ∀ w : Nat → Sample ℝ, (f.after w (L + 1)).allpassIn.w =
        (w L).w * (f.after w L).b1 - (f.after w L).lowpass.w * (f.after w L).a2 := by
      intro w
      show ((w L * (f.after w L).b1 - (f.after w L).lowpass * (f.after w L).a2).flush).w = _
      rw [Sample.flush_eq]
      rfl
    rw [hin u, hin v, hub, hua, hvb, hva, hlow, hL, if_pos heta, if_pos heta, if_pos rfl, heta]
    ring

end Reflection

/-! ## Paths -/

namespace Path

variable {p : Path ℝ}

/-- What reaches the delay line of what is fed to the path. -/
def kept {α : Type} [Scalar α] (p : Path α) (feed : Nat → Sample α) (t : Nat) : Sample α :=
  if t = 0 ∧ ¬ p.line.Inside then 0 else feed t

/-- A silent path delays what reaches its line by the latency. -/
theorem arrivals_eq_kept {α : Type} [Scalar α] {p : Path α} (m : Mode) (hsilent : p.line.Silent)
    (feed : Nat → Sample α) (t : Nat) :
    p.arrivals m feed t = if t < p.latency m then 0 else p.kept feed (t - p.latency m) := by
  have h2 := p.line.two_le_length
  unfold kept
  by_cases hin : p.line.Inside
  · rw [run_arrival m p feed hin (fun i _ => hsilent.ahead i)]
    simp only [hin, not_true_eq_false, and_false, if_false]
  · simp only [hin, not_false_eq_true, and_true]
    cases m with
    | feedback =>
      show (p.run .feedback feed t).line.read = if t < p.line.length then 0 else
        if t - p.line.length = 0 then 0 else feed (t - p.line.length)
      rw [run_line, DelayLine.read_pushes_of_not_inside hin hsilent]
      grind
    | forward =>
      -- the line is read one push later, and is one step faster
      show ((p.run .forward feed t).line.push (feed t)).read =
        if t < p.line.length - 1 then 0 else
          if t - (p.line.length - 1) = 0 then 0 else feed (t - (p.line.length - 1))
      rw [run_line]
      show (p.line.pushes feed (t + 1)).read = _
      rw [DelayLine.read_pushes_of_not_inside hin hsilent]
      grind

theorem arrivals_of_silent {α : Type} [Scalar α] {p : Path α} (hsilent : p.line.Silent)
    (feed : Nat → Sample α) (t : Nat) :
    p.arrivals .feedback feed t =
      if t < p.line.length then 0 else p.kept feed (t - p.line.length) :=
  arrivals_eq_kept .feedback hsilent feed t

/-- One step of pressure apart in what is fed first, two paths are one echo apart. -/
theorem response_kept_w {q : Path ℝ} (hp : p.line.Silent) (hq : q.line.Silent)
    (hin : q.line.Inside) (halike : p.Alike q) {u v : Nat → Sample ℝ} {t : Nat}
    (hfirst : (v 0).w = 1) (hfeed : ∀ s < t, (u s).w = (v s).w)
    (ht : ¬ p.line.Inside → t ≤ p.line.length + p.reflection.lag) :
    (q.reflection.response (q.arrivals .feedback v) t).w =
      (p.reflection.response (p.arrivals .feedback u) t).w +
        if ¬ p.line.Inside ∧ t = p.line.length + p.reflection.lag then p.reflection.lead
        else 0 := by
  have h2 := p.line.two_le_length
  have hlen := halike.line.length_eq
  have hother : ∀ s ≤ t, s ≠ p.line.length →
      (q.arrivals .feedback v s).w = (p.arrivals .feedback u s).w := by
    intro s hs hne
    rw [arrivals_of_silent hp, arrivals_of_silent hq, ← hlen]
    split_ifs with hshort
    · rfl
    · have hpos : s - p.line.length ≠ 0 := by omega
      have hlt : s - p.line.length < t := by omega
      simp only [kept, hpos, false_and, if_false]
      exact (hfeed _ hlt).symm
  have hpulse : p.line.length ≤ t → (q.arrivals .feedback v p.line.length).w =
      (p.arrivals .feedback u p.line.length).w + if p.line.Inside then 0 else 1 := by
    intro hle
    have hzero : (u 0).w = (v 0).w := hfeed 0 (by omega)
    rw [arrivals_of_silent hp, arrivals_of_silent hq, ← hlen, if_neg (lt_irrefl _),
      if_neg (lt_irrefl _), Nat.sub_self]
    by_cases hpin : p.line.Inside <;> simp [kept, hin, hpin, hfirst, hzero]
  rw [← halike.reflection_eq]
  by_cases hpin : p.line.Inside
  · have hnot : ¬ (¬ p.line.Inside ∧ t = p.line.length + p.reflection.lag) := fun h => h.1 hpin
    rw [if_neg hnot, add_zero]
    refine Reflection.response_w_eq fun s hs => ?_
    by_cases hs' : s = p.line.length
    · rw [hs', hpulse (hs' ▸ hs), if_pos hpin, add_zero]
    · exact hother s hs hs'
  · by_cases hle : p.line.length ≤ t
    · have hadd := hpulse hle
      rw [if_neg hpin] at hadd
      rw [Reflection.response_w_add hadd hother (ht hpin), one_mul]
      simp only [hpin, not_false_eq_true, true_and]
    · have hnot : ¬ (¬ p.line.Inside ∧ t = p.line.length + p.reflection.lag) := by omega
      rw [if_neg hnot, add_zero]
      exact Reflection.response_w_eq fun s hs => hother s hs (by omega)

end Path

/-! ## Networks -/

namespace Network

variable {c : ℝ} {m n : Network ℝ} {src : Nat → Array (Sample ℝ)}

/-- The first echo that a path owes to a lost impulse is due at step `t`. -/
def Due (n : Network ℝ) (t : Nat) : Prop :=
  ∃ (k : Nat) (p : Path ℝ), n.paths[k]? = some p ∧ ¬ p.line.Inside ∧
    t = p.line.length + p.reflection.lag

theorem signal_w (h : n.Tuned c) {k : Nat} {p : Path ℝ} (hp : n.paths[k]? = some p) (t : Nat) :
    (n.signal src k t).w =
      (p.reflection.response (p.arrivals .feedback (n.feeds src k)) t).w := by
  rw [signal, Array.getD_eq_getD_getElem?, getElem?_outputs_run, hp, h.mode_eq]
  rfl

theorem feeds_w (h : n.Tuned c) (hs : ∀ t, (src t).size = n.order) {k : Nat} (hk : k < n.order)
    (t : Nat) :
    (n.feeds src k t).w =
      ∑ j ∈ range n.order, ((n.signal src j t).w + ((src t).getD j 0).w) * n.entry k j := by
  rw [feeds_eq_inflow h.derived.size_matrix h.derived.size_row hs hk]
  unfold inflow
  rw [h.mode_eq]
  simp only
  rw [map_sumTo Sample.w rfl fun _ _ => rfl]
  rfl

/-- Nothing comes back at once, and the mixture of a unit impulse is a unit impulse. -/
theorem feeds_zero_w (h : n.Tuned c) (hs : ∀ t, (src t).size = n.order) (hsilent : n.Silent)
    (hreset : ∀ p ∈ n.paths, p.reflection.reset = p.reflection)
    (hsrc : ∀ j < n.order, ((src 0).getD j 0).w = 1) {k : Nat} (hk : k < n.order) :
    (n.feeds src k 0).w = 1 := by
  obtain ⟨l, hmatrix⟩ := h.matrix_eq
  have : NeZero n.order := ⟨h.order_pos.ne'⟩
  have hsignal : ∀ j < n.order, (n.signal src j 0).w = 0 := by
    intro j hj
    have hp : n.paths[j]? = some n.paths[j] := Array.getElem?_eq_getElem hj
    have hmem : n.paths[j] ∈ n.paths := Array.getElem_mem hj
    have h2 := n.paths[j].line.two_le_length
    rw [signal_w h hp]
    unfold Reflection.response
    rw [Path.arrivals_of_silent (hsilent _ hmem), if_pos (by omega), Reflection.filter_w]
    show (0 * _ - n.paths[j].reflection.lowpass.w * _) * _ + n.paths[j].reflection.allpassIn.w -
      n.paths[j].reflection.allpassOut.w * _ = 0
    rw [← hreset _ hmem]
    show (0 * _ - (0 : ℝ) * _) * _ + 0 - 0 * _ = 0
    ring
  rw [feeds_w h hs hk]
  calc ∑ j ∈ range n.order, ((n.signal src j 0).w + ((src 0).getD j 0).w) * n.entry k j
      = ∑ j ∈ range n.order, Circulant.entry l n.order k j := by
        refine sum_congr rfl fun j hj => ?_
        rw [hsignal j (mem_range.mp hj), hsrc j (mem_range.mp hj), zero_add, one_mul]
        unfold entry
        rw [hmatrix]
        rfl
    _ = 1 := Circulant.sum_entry l hk

/-- Until the first missing echo is due the outputs are the same, and then they differ by it. -/
theorem signal_w_eq (halike : m.Alike n) (hm : m.Tuned c) (hn : n.Tuned c)
    (hs : ∀ t, (src t).size = n.order) (hms : m.Silent) (hns : n.Silent) (hin : n.Inside)
    (hfirst : ∀ k < n.order, (n.feeds src k 0).w = 1) {T : Nat}
    (hT : ∀ s, m.Due s → T ≤ s) {t : Nat} (ht : t ≤ T) {k : Nat} {p : Path ℝ}
    (hp : m.paths[k]? = some p) :
    (n.signal src k t).w = (m.signal src k t).w +
      if ¬ p.line.Inside ∧ t = p.line.length + p.reflection.lag then p.reflection.lead else 0 := by
  induction t using Nat.strong_induction_on generalizing k p with
  | _ t ih =>
    obtain ⟨q, hq, hpq⟩ := halike.exists_right hp
    have hk : k < n.order := (Array.getElem?_eq_some_iff.mp hq).1
    have hfeed : ∀ s < t, (m.feeds src k s).w = (n.feeds src k s).w := by
      intro s hst
      rw [feeds_w hn hs hk, feeds_w hm (fun t => (hs t).trans halike.order_eq.symm)
        (halike.order_eq ▸ hk), halike.order_eq]
      refine sum_congr rfl fun j hj => ?_
      have hj : j < m.order := halike.order_eq ▸ mem_range.mp hj
      have hpj : m.paths[j]? = some m.paths[j] := Array.getElem?_eq_getElem hj
      have hnot : ¬ (¬ m.paths[j].line.Inside ∧
          s = m.paths[j].line.length + m.paths[j].reflection.lag) := by
        rintro ⟨hout, hdue⟩
        have hlate := hT s ⟨j, _, hpj, hout, hdue⟩
        omega
      have hsignal := ih s hst (by omega) hpj
      rw [if_neg hnot, add_zero] at hsignal
      unfold entry
      rw [hsignal, halike.matrix_eq]
    rw [signal_w hn hq, signal_w hm hp]
    exact Path.response_kept_w (hms p (Array.mem_of_getElem? hp)) (hns q (Array.mem_of_getElem? hq))
      (hin q (Array.mem_of_getElem? hq)) hpq (hfirst k hk) hfeed
      fun hout => ht.trans (hT _ ⟨k, p, hp, hout, rfl⟩)

/-- **A lost impulse is missed.** Of two silent networks made alike, the one with a head outside
once gives less pressure than the other, when its first missing echo is due. -/
theorem exists_sum_signal_lt (halike : m.Alike n) (hm : m.Tuned c) (hn : n.Tuned c)
    (hs : ∀ t, (src t).size = n.order) (hms : m.Silent) (hns : n.Silent) (hin : n.Inside)
    (hfirst : ∀ k < n.order, (n.feeds src k 0).w = 1)
    (hlead : ∀ p ∈ m.paths, 0 < p.reflection.lead) (hout : ¬ m.Inside) :
    ∃ t, ∑ k ∈ range n.order, (m.signal src k t).w < ∑ k ∈ range n.order, (n.signal src k t).w := by
  have hdue : ∃ t, m.Due t := by
    simp only [Inside, not_forall] at hout
    obtain ⟨p, hp, hpout⟩ := hout
    obtain ⟨k, hk⟩ := Array.mem_iff_getElem?.mp hp
    exact ⟨_, k, p, hk, hpout, rfl⟩
  classical
  obtain ⟨k, p, hp, hpout, hfind⟩ := Nat.find_spec hdue
  have hsignal : ∀ (j : Nat) (q : Path ℝ), m.paths[j]? = some q →
      (n.signal src j (Nat.find hdue)).w = (m.signal src j (Nat.find hdue)).w +
        if ¬ q.line.Inside ∧ Nat.find hdue = q.line.length + q.reflection.lag
          then q.reflection.lead else 0 :=
    fun j q hq => signal_w_eq halike hm hn hs hms hns hin hfirst
      (fun s hs => Nat.find_min' hdue hs) (le_refl _) hq
  refine ⟨Nat.find hdue, sum_lt_sum (fun j hj => ?_) ⟨k, ?_, ?_⟩⟩
  · have hj : j < m.order := halike.order_eq ▸ mem_range.mp hj
    rw [hsignal j _ (Array.getElem?_eq_getElem hj)]
    split_ifs
    · exact le_add_of_nonneg_right (hlead _ (Array.getElem_mem hj)).le
    · rw [add_zero]
  · rw [mem_range, ← halike.order_eq]
    exact (Array.getElem?_eq_some_iff.mp hp).1
  · rw [hsignal k p hp, if_pos ⟨hpout, hfind⟩]
    exact lt_add_of_pos_right _ (hlead p (Array.mem_of_getElem? hp))

end Network

/-! ## Silence -/

namespace Network

variable {n : Network ℝ}

/-- Nothing is left in the lines and filters of the paths. -/
structure Still (n : Network ℝ) : Prop where
  silent : n.Silent
  reflection : ∀ p ∈ n.paths, p.reflection.reset = p.reflection

theorem still_reset (n : Network ℝ) : n.reset.Still := by
  refine ⟨silent_reset n, fun p hp => ?_⟩
  obtain ⟨q, -, rfl⟩ := Array.mem_map.mp hp
  rfl

theorem mix_silence {row : Array ℝ} {samples : Array (Sample ℝ)} (h : ∀ s ∈ samples, s = 0) :
    mix row samples = 0 := by
  unfold mix
  rw [fold_eq_foldl_range (g := fun sum _ => sum), List.foldl_fixed]
  intro j hj sum
  have hzero : samples[j] = 0 := h _ (Array.getElem_mem _)
  rw [hzero, Sample.silence_mul, Sample.add_silence]

theorem Still.output_step (h : n.Still) {p : Path ℝ} (hp : p ∈ n.paths) (m : Mode) (s : Sample ℝ) :
    (p.step m s).output = 0 := by
  have harrival : p.arrival m s = 0 := by
    cases m with
    | feedback => exact (h.silent p hp).read
    | forward => exact (DelayLine.read_push _ s).trans ((h.silent p hp).ahead 1)
  rw [Path.step_eq, harrival, ← h.reflection p hp, Reflection.filter_reset_zero]
  exact Sample.rotate_silence _

variable {sources : Array (Sample ℝ)}

/-- Whatever the paths of such a network are fed, they give nothing at once. -/
theorem Still.mapIdx_output (h : n.Still) (m : Mode) (feed : Nat → Sample ℝ) :
    ∀ s ∈ n.paths.mapIdx fun k p => (p.step m (feed k)).output, s = 0 := by
  intro s hs
  obtain ⟨k, hk⟩ := Array.mem_iff_getElem?.mp hs
  rw [Array.getElem?_mapIdx] at hk
  obtain ⟨p, hp, rfl⟩ := Option.map_eq_some_iff.mp hk
  exact h.output_step (Array.mem_of_getElem? hp) _ _

theorem Still.outputs_process (h : n.Still) : ∀ s ∈ (n.process sources).outputs, s = 0 := by
  rw [Network.outputs_process]
  exact h.mapIdx_output n.mode _

/-- Silence is mixed to silence. -/
theorem Still.fed_silence (h : n.Still) (hs : ∀ s ∈ sources, s = 0) (k : Nat) :
    n.fed sources k = 0 := by
  unfold fed
  cases n.mode with
  | forward => exact mix_silence hs
  | feedback =>
    have htap : ∀ s ∈ n.tap.outputs, s = 0 := by
      rw [outputs_tap]
      exact h.mapIdx_output .feedback fun _ => 0
    refine mix_silence fun s hmem => ?_
    obtain ⟨j, hj, rfl⟩ := Array.getElem_of_mem hmem
    rw [Array.getElem_zipWith, htap _ (Array.getElem_mem _), hs _ (Array.getElem_mem _)]
    exact Sample.add_silence 0

end Network

/-! ## Engines -/

section

variable {α : Type} [Scalar α]

/-- A network does not look at the output that it has added up. -/
theorem Network.paths_process_take (n : Network α) (sources : Array (Sample α)) :
    (n.take.2.process sources).paths = (n.process sources).paths := by
  rw [process_paths, process_paths]
  rfl

theorem Network.take_process_take (n : Network α) (sources : Array (Sample α)) :
    (n.take.2.process sources).take.2 = (n.process sources).take.2 := by
  cases hm : n.mode <;> simp [process, take, tap, outputs, hm]

end

namespace Engine

/-- The engine is a feedback network and nothing else, but for what comes before the chain. -/
structure Plain {α β : Type} (e : Engine α β) : Prop where
  forward_eq : e.forward = []
  usesPrefilter_eq : e.usesPrefilter = false

section

variable {α β : Type} [Scalar α] [Scalar β] {e : Engine α β}

omit [Scalar β] in
theorem Plain.processed_eq (h : e.Plain) (s : Sample α) :
    e.processed s = e.feedback.process (Array.replicate e.feedback.order s) := by
  have hintake : e.intake s = (s, e.feedback) := by
    unfold intake
    simp [h.usesPrefilter_eq]
  unfold processed sources
  rw [hintake, h.forward_eq]
  rfl

/-- The input of the feedback network in a measurement. -/
def impulses (order t : Nat) : Array (Sample α) := Array.replicate order (impulse t)

theorem order_measured (e : Engine α β) (i : Nat) :
    (e.measured i).feedback.order = e.feedback.order := by
  have hrest : (e.measured i).feedback.rest = e.feedback.rest :=
    congrArg Engine.feedback (rest_measured e i)
  rw [← Network.order_rest, hrest, Network.order_rest]

theorem Plain.measured (h : e.Plain) (i : Nat) :
    (e.measured i).Plain ∧ (e.measured i).feedback =
      (e.feedback.reset.run (impulses e.feedback.order) i).take.2 := by
  induction i with
  | zero =>
    refine ⟨⟨?_, h.usesPrefilter_eq⟩, rfl⟩
    show e.forward.map Network.reset = []
    rw [h.forward_eq, List.map_nil]
  | succ i ih =>
    obtain ⟨hplain, hfeedback⟩ := ih
    have hnext : (e.measured (i + 1)).feedback = ((e.measured i).processed (impulse i)).take.2 := by
      show ((e.measured i).tick (impulse i)).2.feedback = _
      rw [tick_eq]
    refine ⟨⟨?_, ?_⟩, ?_⟩
    · show ((e.measured i).tick (impulse i)).2.forward = []
      rw [tick_eq, hplain.forward_eq]
      rfl
    · show ((e.measured i).tick (impulse i)).2.usesPrefilter = false
      rw [tick_eq]
      exact hplain.usesPrefilter_eq
    · rw [hnext, hplain.processed_eq, order_measured, hfeedback, Network.take_process_take]
      rfl

end

variable {e f : Engine ℝ ℝ}

theorem chainKeeps_of_still {l : List (Network ℝ)} (h : ∀ n ∈ l, n.Still)
    {sources : Array (Sample ℝ)} (hs : ∀ s ∈ sources, s = 0) :
    ChainKeeps l sources ∧ ∀ s ∈ (runForward l sources).1, s = 0 := by
  induction l generalizing sources with
  | nil => exact ⟨trivial, hs⟩
  | cons n l ih =>
    simp only [List.forall_mem_cons] at h
    have hnext : ∀ s ∈ (n.process sources).outputs, s = 0 := h.1.outputs_process
    obtain ⟨hkeeps, hout⟩ := ih h.2 hnext
    exact ⟨⟨fun k p _ => Or.inr (h.1.fed_silence hs k), hkeeps⟩, hout⟩

/-- With input filters the first sample of a measurement is silence, and nothing is lost. -/
theorem keeps_of_prefilter (hprefilter : e.usesPrefilter = true)
    (heta : e.feedback.prefilters.1.eta = 0) (s : Sample ℝ) : e.reset.Keeps s := by
  have hintake : e.reset.intake s = e.reset.feedback.prefilter s := if_pos hprefilter
  have hsource : (e.reset.intake s).1 = 0 := by
    rw [hintake]
    show ((e.feedback.prefilters.2.reset).filter
      ((e.feedback.prefilters.1.reset).filter s).1).1 = 0
    rw [Reflection.filter_reset_of_eta _ heta, Reflection.filter_reset_zero]
  have hsources : ∀ s' ∈ e.reset.sources s, s' = 0 :=
    fun s' hs' => (Array.mem_replicate.mp hs').2.trans hsource
  have hforward : ∀ n ∈ e.reset.forward, n.Still := by
    intro n hn
    obtain ⟨m, -, rfl⟩ := List.mem_map.mp hn
    exact Network.still_reset m
  have hfeedback : (e.reset.intake s).2.Still := by
    rw [hintake]
    exact ⟨Network.silent_reset _, (Network.still_reset e.feedback).reflection⟩
  obtain ⟨hkeeps, hout⟩ := chainKeeps_of_still hforward hsources
  exact ⟨hkeeps, fun k p _ => Or.inr (hfeedback.fed_silence hout k)⟩

/-- A response is the pressure of all paths. -/
theorem Plain.response_eq_sum (h : e.Plain) (i : Nat) :
    ((e.measured i).tick (impulse i)).1.w = ∑ k ∈ range e.feedback.order,
      (e.feedback.reset.signal (impulses e.feedback.order) k i).w := by
  obtain ⟨hplain, hfeedback⟩ := h.measured i
  have hprocessed := hplain.processed_eq (impulse i)
  have houtputs : ((e.measured i).processed (impulse i)).outputs =
      (e.feedback.reset.run (impulses e.feedback.order) (i + 1)).outputs := by
    unfold Network.outputs
    rw [hprocessed, order_measured, hfeedback, Network.paths_process_take]
    rfl
  have hsize : ((e.measured i).processed (impulse i)).outputs.size = e.feedback.order := by
    rw [houtputs, Network.size_outputs_run]
    exact Array.size_map
  have houtput : ((e.measured i).processed (impulse i)).output =
      ((e.measured i).processed (impulse i)).outputs.foldl (fun sum d => sum + d) 0 := by
    rw [hprocessed, Network.process_output, hfeedback]
    rfl
  rw [tick_eq]
  show ((e.measured i).processed (impulse i)).output.w = _
  rw [houtput, foldl_eq_foldl_range _ 0, foldl_range_eq_sum Sample.w fun _ _ => rfl, hsize,
    houtputs]
  exact zero_add _

/-- An engine whose network has a head outside answers an impulse otherwise than one made alike. -/
theorem Plain.exists_response_ne (he : e.Plain) (h : e.rest = f.rest) (hf : f.Inside) {c : ℝ}
    (htuned : e.feedback.Tuned c) (hlead : ∀ p ∈ e.feedback.paths, 0 < p.reflection.lead)
    (hout : ¬ e.feedback.Inside) : ∃ n, (e.impulseResponse n).1 ≠ (f.impulseResponse n).1 := by
  have hrest : e.feedback.rest = f.feedback.rest := congrArg Engine.feedback h
  have horder : e.feedback.order = f.feedback.order := by
    rw [← Network.order_rest, hrest, Network.order_rest]
  have hplain : f.Plain := by
    have hforward : e.rest.forward = f.rest.forward := congrArg Engine.forward h
    have hprefilter : e.rest.usesPrefilter = f.rest.usesPrefilter := congrArg Engine.usesPrefilter h
    refine ⟨List.map_eq_nil_iff.mp (hforward.symm.trans ?_), hprefilter ▸ he.usesPrefilter_eq⟩
    exact List.map_eq_nil_iff.mpr he.forward_eq
  have hsize : f.feedback.reset.order = f.feedback.order := Array.size_map
  have hm : e.feedback.reset.Tuned c := htuned.of_rest (Network.rest_reset _)
  have hn : f.feedback.reset.Tuned c :=
    htuned.of_rest ((Network.rest_reset _).trans hrest.symm)
  have hs : ∀ t, (impulses f.feedback.order t : Array (Sample ℝ)).size = f.feedback.reset.order :=
    fun t => Array.size_replicate.trans hsize.symm
  have hfirst : ∀ k < f.feedback.reset.order,
      (f.feedback.reset.feeds (impulses f.feedback.order) k 0).w = 1 := by
    intro k hk
    refine Network.feeds_zero_w hn hs (Network.silent_reset _) ?_ ?_ hk
    · intro p hp
      obtain ⟨q, -, rfl⟩ := Array.mem_map.mp hp
      rfl
    · intro j hj
      rw [hsize] at hj
      simp [impulses, impulse, hj, Sample.pressure]
  have hlead' : ∀ p ∈ e.feedback.reset.paths, 0 < p.reflection.lead := by
    intro p hp
    obtain ⟨q, hq, rfl⟩ := Array.mem_map.mp hp
    exact hlead q hq
  have hout' : ¬ e.feedback.reset.Inside := fun hin =>
    hout fun p hp => hin p.reset (Array.mem_map_of_mem hp)
  obtain ⟨t, ht⟩ := Network.exists_sum_signal_lt (Network.alike_reset hrest) hm hn hs
    (Network.silent_reset _) (Network.silent_reset _) (inside_reset hf).feedback hfirst hlead' hout'
  refine ⟨t + 1, fun heq => ht.ne ?_⟩
  rw [impulseResponse_eq, impulseResponse_eq] at heq
  have hat := congrArg (fun response : Array ℝ => response[t]?) heq
  simp only [Array.getElem?_ofFn, Nat.lt_succ_self, dite_true, Option.some.injEq] at hat
  rw [he.response_eq_sum, hplain.response_eq_sum, horder] at hat
  rw [hsize]
  exact hat

end Engine

/-! ## Derived engines -/

theorem GainMethod.law_pos (method : GainMethod) (shortest average decayTime : ℝ) :
    0 < method.law shortest average decayTime := by
  cases method with
  | shortest => exact Real.exp_pos _
  | mean => exact Real.exp_pos _
  | schroeder => exact Real.rpow_pos_of_pos (by norm_num) _

theorem GainMethod.gain_pos (method : GainMethod) (shortest average decayTime : ℝ) :
    0 < method.gain shortest average decayTime := by
  have hlaw := method.law_pos shortest average decayTime
  unfold gain
  simp only [Scalar.isFinite_eq, if_true]
  unfold Scalar.clamp
  split_ifs
  · linarith
  · exact one_pos
  · exact hlaw

theorem Parameters.stableDamping_mem (p : Parameters ℝ) :
    0 ≤ p.stableDamping ∧ p.stableDamping < 1 := by
  have hmax : (maxDamping : ℝ) = 0.999 := rfl
  have hpos : 0 ≤ (maxDamping : ℝ) := by
    rw [hmax]
    norm_num
  have hmem := Scalar.clamp_mem hpos p.damping
  unfold stableDamping
  split_ifs
  · exact ⟨le_refl 0, one_pos⟩
  · refine ⟨hmem.1, hmem.2.trans_lt ?_⟩
    rw [hmax]
    norm_num

theorem Network.lead_pos_derive {n : Network ℝ} {d : NetworkDesign ℝ} (hhigh : d.damping < 1) :
    ∀ p ∈ (n.derive d).paths, 0 < p.reflection.lead := by
  intro p hp
  obtain ⟨k, q, hq, rfl⟩ := exists_of_mem_derive_paths hp
  obtain ⟨hfraction, -⟩ := fraction_mem (Array.getElem?_eq_some_iff.mp hq).1
  have hb1 : 0 < (n.derivedPath d k q).reflection.b1 :=
    mul_pos (GainMethod.gain_pos _ _ _ _) (sub_pos.mpr hhigh)
  have heta : 0 ≤ (n.derivedPath d k q).reflection.eta :=
    mul_nonneg (by norm_num [maxEta]) hfraction
  unfold Reflection.lead
  split_ifs with hzero
  · exact hb1
  · exact mul_pos hb1 (lt_of_le_of_ne heta (Ne.symm hzero))

namespace Engine

/-- The engine is built as the configuration says, and every path answers an impulse. -/
structure Sounding (c : Config ℝ) (p : Parameters ℝ) (e : Engine ℝ ℝ) : Prop where
  usesPrefilter_eq : e.usesPrefilter = c.prefilter
  length_forward : e.forward.length = c.forwardStages
  eta_eq : e.feedback.prefilters.1.eta = 0
  tuned : e.feedback.Tuned p.stableDamping
  lead_pos : ∀ q ∈ e.feedback.paths, 0 < q.reflection.lead

theorem Current.sounding {c : Config ℝ} {method : GainMethod} {p : Parameters ℝ} {e : Engine ℝ ℝ}
    (h : e.Current c method p) (hc : c.order ≠ 0) : e.Sounding c p := by
  obtain ⟨e₀, hblank, hrest⟩ := h.exists_blank hc
  obtain ⟨hlow, hhigh⟩ := p.stableDamping_mem
  let derived : Network ℝ := (e₀.feedback.setLaw p.law).derive (p.design e₀.sampleRate)
  have hprefilter : e.rest.usesPrefilter = (e₀.derive p).rest.usesPrefilter := by rw [hrest]
  have hlength : e.rest.forward.length = (e₀.derive p).rest.forward.length := by rw [hrest]
  have hfeedback : e.feedback.rest = derived.rest := congrArg Engine.feedback hrest
  have heta : e.feedback.rest.prefilters.1.eta = derived.rest.prefilters.1.eta := by rw [hfeedback]
  have htuned : derived.Tuned p.stableDamping :=
    Network.tuned_derive (n := e₀.feedback.setLaw p.law) hblank.mode_eq
      (hblank.order_eq ▸ Nat.pos_of_ne_zero hc) (p.design e₀.sampleRate) hlow hhigh
  refine ⟨hprefilter.trans hblank.usesPrefilter_eq, ?_, heta.trans hblank.eta_eq,
    htuned.of_rest hfeedback, fun q hq => ?_⟩
  · simp only [rest, Engine.derive, List.length_map] at hlength
    exact hlength.trans hblank.length_forward
  · obtain ⟨k, hk⟩ := Array.mem_iff_getElem?.mp hq
    obtain ⟨q', hq', hqq'⟩ := Network.exists_path_of_rest_eq hfeedback hk
    have hlead : q'.rest.reflection.lead = q.rest.reflection.lead := by rw [hqq']
    have hpos := Network.lead_pos_derive (n := e₀.feedback.setLaw p.law)
      (d := p.design e₀.sampleRate) hhigh q' (Array.mem_of_getElem? hq')
    exact hlead ▸ hpos

end Engine

namespace Reverb

/-- **When measurements are right.** Without forward stages, a reachable reverb has the response of
a new engine exactly if it uses the input filters or all heads are inside. -/
theorem response_eq_iff {c : Config ℝ} {r : Reverb ℝ ℝ} (h : Reachable c r)
    {e : Engine ℝ ℝ} (he : r.engine? = some e) (hstages : c.forwardStages = 0) :
    ∃ (method : GainMethod) (fresh : Engine ℝ ℝ), c.check = .ok method ∧
      Engine.new c method e.sampleRate r.parameters = .ok fresh ∧
      ((∀ n, (r.impulseResponse n).1 = some (fresh.impulseResponse n).1) ↔
        c.prefilter = true ∨ e.feedback.Inside) := by
  have hcurrent := current_of_reachable h
  have hengine := hcurrent.engine e (engine_of_engine? he)
  have hsounding := hengine.sounding hcurrent.order_ne_zero
  have hforward : e.forward = [] :=
    List.length_eq_zero_iff.mp (hsounding.length_forward.trans hstages)
  obtain ⟨fresh, hnew, hinside, hrest⟩ := hengine
  refine ⟨r.method, fresh, hcurrent.check_eq, hnew, fun hresponse => ?_, fun hkept n => ?_⟩
  · by_contra hlost
    obtain ⟨hprefilter, hout⟩ := not_or.mp hlost
    have hplain : e.Plain :=
      ⟨hforward, hsounding.usesPrefilter_eq.trans (Bool.eq_false_of_not_eq_true hprefilter)⟩
    obtain ⟨n, hne⟩ :=
      hplain.exists_response_ne hrest hinside hsounding.tuned hsounding.lead_pos hout
    have hn := hresponse n
    rw [impulseResponse_eq he] at hn
    exact hne (Option.some.inj hn)
  · have hkeeps : e.reset.Keeps (Engine.impulse 0) := by
      rcases hkept with hprefilter | hin
      · exact Engine.keeps_of_prefilter (hsounding.usesPrefilter_eq.trans hprefilter)
          hsounding.eta_eq _
      · have hall : e.Inside := ⟨by simp [hforward], hin⟩
        exact (Engine.inside_reset hall).keeps _
    rw [impulseResponse_eq he, Engine.response_eq_of_keeps hrest hinside hkeeps]

/-! ## A room that shrinks -/

/-- Makes a room a small cube. -/
noncomputable def shrink (p : Parameters ℝ) : Parameters ℝ :=
  { p with
    room := ⟨Scalar.ofNat 2, Scalar.ofNat 2, Scalar.ofNat 2⟩
    damping := 0
    absorption := 1 / Scalar.ofNat 10 }

theorem designDelay_smallRoom {p : Parameters ℝ} {m : Nat}
    (hspeed : p.speedOfSound = Scalar.ofNat 340) (h : p.room.shortest = Scalar.ofNat m) :
    Engine.designDelay smallRoom p (Scalar.ofNat 1000) 0 =
      max 2 (min ⌊(1000 * (m / 340) + 1 / 2 : ℝ)⌋₊ 999) := by
  have htrunc : Elementary.truncToNat (Scalar.ofNat 1000 : ℝ) = 1000 := Nat.floor_natCast 1000
  have hmax : max 1000 Network.leastMaxDelay - 1 = 999 := rfl
  have htime : (p.design (Scalar.ofNat 1000)).pathTime p.law 1 0 = 1000 * (m / 340) := by
    show Scalar.ofNat 1000 * (p.room.shortest / p.speedOfSound) = _
    rw [h, hspeed, Scalar.ofNat_eq, Scalar.ofNat_eq, Scalar.ofNat_eq]
    norm_num
  unfold Engine.designDelay NetworkDesign.pathDelay
  rw [htrunc, hmax]
  show max 2 (min ⌊(p.design _).pathTime p.law 1 0 + 1 / 2⌋₊ 999) = _
  rw [htime]

theorem designDelay_smallRoom_before :
    Engine.designDelay smallRoom (.ofConfig smallRoom) (Scalar.ofNat 1000) 0 = 12 := by
  have hspeed : (Parameters.ofConfig smallRoom).speedOfSound = Scalar.ofNat 340 := by
    show (340.0 : ℝ) = ((340 : Nat) : ℝ)
    norm_num
  have hshortest : (Parameters.ofConfig smallRoom).room.shortest = Scalar.ofNat 4 := by
    show Scalar.minNum (Scalar.minNum ((4 : Nat) : ℝ) ((5 : Nat) : ℝ)) ((6 : Nat) : ℝ) =
      ((4 : Nat) : ℝ)
    have hinner : Scalar.minNum ((4 : Nat) : ℝ) ((5 : Nat) : ℝ) = ((4 : Nat) : ℝ) :=
      Scalar.minNum_eq_left (by norm_num)
    rw [hinner, Scalar.minNum_eq_left (by norm_num)]
  have hfloor : ⌊(1000 * ((4 : Nat) / 340) + 1 / 2 : ℝ)⌋₊ = 12 := by
    rw [Nat.floor_eq_iff (by positivity)]
    constructor <;> norm_num
  rw [designDelay_smallRoom hspeed hshortest, hfloor]
  rfl

theorem designDelay_smallRoom_after :
    Engine.designDelay smallRoom (shrink (.ofConfig smallRoom)) (Scalar.ofNat 1000) 0 = 6 := by
  have hspeed : (shrink (.ofConfig smallRoom)).speedOfSound = Scalar.ofNat 340 := by
    show (340.0 : ℝ) = ((340 : Nat) : ℝ)
    norm_num
  have hshortest : (shrink (.ofConfig smallRoom)).room.shortest = Scalar.ofNat 2 := by
    show Scalar.minNum (Scalar.minNum ((2 : Nat) : ℝ) ((2 : Nat) : ℝ)) ((2 : Nat) : ℝ) =
      ((2 : Nat) : ℝ)
    rw [Scalar.minNum_eq_left (le_refl _), Scalar.minNum_eq_left (le_refl _)]
  have hfloor : ⌊(1000 * ((2 : Nat) / 340) + 1 / 2 : ℝ)⌋₊ = 6 := by
    rw [Nat.floor_eq_iff (by positivity)]
    constructor <;> norm_num
  rw [designDelay_smallRoom hspeed hshortest, hfloor]
  rfl

/-- After a measurement of one sample the small room shrinks, and the next measurement is not that
of a new engine. -/
theorem response_ne_of_shrink : ∃ r₀ r₁ : Reverb ℝ ℝ, Reverb.new smallRoom = .ok r₀ ∧
    r₀.configure (Scalar.ofNat 1000) 16 = .ok r₁ ∧
      ∃ e fresh : Engine ℝ ℝ, ((r₁.impulseResponse 1).2.update shrink).engine? = some e ∧
        Engine.new smallRoom .shortest e.sampleRate
          ((r₁.impulseResponse 1).2.update shrink).parameters = .ok fresh ∧
        ∃ n, (((r₁.impulseResponse 1).2.update shrink).impulseResponse n).1 ≠
          some (fresh.impulseResponse n).1 := by
  obtain ⟨e₁, hnew, hconfigure, hrate, hhome⟩ := configure_smallReverb
  let r₁ : Reverb ℝ ℝ := { smallReverb with engine := some e₁, input := .silent 16 }
  let e₂ : Engine ℝ ℝ := (e₁.impulseResponse 1).2
  let r₃ : Reverb ℝ ℝ := (r₁.impulseResponse 1).2.update shrink
  let e₃ : Engine ℝ ℝ := e₂.derive (shrink (.ofConfig smallRoom))
  have hengine : r₃.engine? = some e₃ := rfl
  have hreachable : Reachable smallRoom r₃ := by
    refine ⟨smallReverb, new_smallRoom, ?_⟩
    exact ((Relation.ReflTransGen.single (.configure hconfigure)).tail
      (.impulseResponse r₁ 1)).tail (.update _ shrink)
  have hcurrent₁ : e₁.Current smallRoom .shortest (.ofConfig smallRoom) :=
    Engine.current_of_new Nat.one_ne_zero hnew
  have hcurrent₂ : e₂.Current smallRoom .shortest (.ofConfig smallRoom) :=
    hcurrent₁.of_rest_eq (Engine.rest_impulseResponse e₁ 1)
  have hrate₂ : e₂.sampleRate = Scalar.ofNat 1000 := by
    have hrest : e₂.rest.sampleRate = e₁.rest.sampleRate := by rw [Engine.rest_impulseResponse e₁ 1]
    exact hrest.trans hrate
  have hsounding := hcurrent₂.sounding Nat.one_ne_zero
  have hpos : 0 < e₂.feedback.paths.size := hsounding.tuned.order_pos
  have hpath : e₂.feedback.paths[0]? = some e₂.feedback.paths[0] := Array.getElem?_eq_getElem hpos
  have hout : ¬ e₃.feedback.Inside := by
    refine hcurrent₂.not_inside_derive Nat.one_ne_zero hpath
      (hhome.position_impulseResponse_one _ (Array.mem_of_getElem? hpath)) ?_
    rw [hrate₂, designDelay_smallRoom_before, designDelay_smallRoom_after]
    decide
  obtain ⟨method, fresh, hmethod, hfresh, hiff⟩ := response_eq_iff hreachable hengine rfl
  obtain rfl : GainMethod.shortest = method := Except.ok.inj (check_smallRoom.symm.trans hmethod)
  have hprefilter : ¬ smallRoom.prefilter = true := Bool.false_ne_true
  have hne := mt hiff.mp (not_or.mpr ⟨hprefilter, hout⟩)
  exact ⟨smallReverb, r₁, new_smallRoom, hconfigure, e₃, fresh, hengine, hfresh,
    not_forall.mp hne⟩

end Reverb

end AmbisonicReverb
