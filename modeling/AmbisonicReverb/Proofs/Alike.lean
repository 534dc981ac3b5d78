import AmbisonicReverb.Engine
import AmbisonicReverb.Proofs.Rest

/-!
# Engines that sound alike

Two delay lines are alike when they will show the same values, wherever these are stored and
wherever the heads stand; paths, networks and engines are alike when they have the same coefficients
and their delay lines are alike. Alike engines give the same output for the same input, and while
the heads are inside they stay alike (`Engine.Alike.tick`).

A head that is past the part in use loses what is pushed. Silent engines, one of which has all its
heads inside, are alike after their first sample exactly if the other one loses nothing in it, or
nothing but silence (`Engine.Alike.tick_iff_keeps`). From then on all heads are inside.
-/

namespace AmbisonicReverb

/-! ## Lines -/

namespace DelayLine

variable {S : Type} {d e : DelayLine S}

/-- The lines will show the same values. -/
structure Alike (d e : DelayLine S) : Prop where
  length_eq : d.length = e.length
  ahead_eq : ∀ i < d.length, d.ahead i = e.ahead i

theorem Alike.read_eq (h : d.Alike e) : d.read = e.read := by
  have h2 := d.two_le_length
  exact h.ahead_eq 0 (by omega)

/-- What is under the head after a push was one step ahead, wherever the head is. -/
theorem read_push (d : DelayLine S) (s : S) : (d.push s).read = d.ahead 1 := by
  have h2 := d.two_le_length
  by_cases hin : d.Inside
  · have hone : ¬ 0 + 1 = d.length := by omega
    exact (ahead_push hin s (by omega)).trans (if_neg hone)
  · exact ahead_push_of_not_inside hin s 0

theorem Alike.read_push (h : d.Alike e) (s : S) : (d.push s).read = (e.push s).read := by
  have h2 := d.two_le_length
  rw [DelayLine.read_push, DelayLine.read_push]
  exact h.ahead_eq 1 (by omega)

theorem Alike.push (h : d.Alike e) (hd : d.Inside) (he : e.Inside) (s : S) :
    (d.push s).Alike (e.push s) := by
  refine ⟨h.length_eq, fun i hi => ?_⟩
  have hi : i < d.length := hi
  rw [ahead_push hd s hi, ahead_push he s (h.length_eq ▸ hi), ← h.length_eq]
  split_ifs with hlast
  · rfl
  · exact h.ahead_eq (i + 1) (by omega)

variable [Zero S]

theorem alike_of_silent (hd : d.Silent) (he : e.Silent) (hlen : d.length = e.length) :
    d.Alike e :=
  ⟨hlen, fun i _ => (hd.ahead i).trans (he.ahead i).symm⟩

/-- Of two silent lines, the one with its head outside falls silent again. -/
theorem alike_push_iff (hd : d.Silent) (he : e.Silent) (hlen : d.length = e.length)
    (hin : e.Inside) (s : S) : (d.push s).Alike (e.push s) ↔ d.Inside ∨ s = 0 := by
  have h2 := e.two_le_length
  constructor
  · intro h
    by_cases hd' : d.Inside
    · exact Or.inl hd'
    · have hlast : e.length - 1 < d.length := by omega
      have hahead := h.ahead_eq (e.length - 1) hlast
      rw [ahead_push_of_not_inside hd', hd.ahead, ahead_push hin s (by omega),
        if_pos (by omega)] at hahead
      exact Or.inr hahead.symm
  · rintro (hd' | rfl)
    · exact (alike_of_silent hd he hlen).push hd' hin s
    · refine ⟨hlen, fun i hi => ?_⟩
      have hi : i < d.length := hi
      have hzero : (e.push 0).ahead i = 0 := by
        rw [ahead_push hin 0 (hlen ▸ hi), he.ahead, ite_self]
      rw [hzero, ahead_push_eq, hd.ahead, ite_self]

end DelayLine

/-! ## Paths -/

namespace Path

variable {α : Type} [Scalar α] {p q : Path α}

/-- The paths have the same filter and rotation, and lines that are alike. -/
structure Alike (p q : Path α) : Prop where
  line : p.line.Alike q.line
  reflection_eq : p.reflection = q.reflection
  rotation_eq : p.rotation = q.rotation

omit [Scalar α] in
theorem Alike.arrival_eq (h : p.Alike q) (m : Mode) (s : Sample α) :
    p.arrival m s = q.arrival m s := by
  cases m with
  | feedback => exact h.line.read_eq
  | forward => exact h.line.read_push s

theorem Alike.output_eq (h : p.Alike q) (m : Mode) (s : Sample α) :
    (p.step m s).output = (q.step m s).output := by
  rw [step_eq, step_eq, h.arrival_eq, h.reflection_eq, h.rotation_eq]

/-- Alike paths stay alike exactly if their lines do. -/
theorem Alike.step_iff (h : p.Alike q) (m : Mode) (s : Sample α) :
    (p.step m s).Alike (q.step m s) ↔ (p.line.push s).Alike (q.line.push s) := by
  rw [step_eq, step_eq]
  refine ⟨fun h' => h'.line, fun hline => ⟨hline, ?_, h.rotation_eq⟩⟩
  show (p.reflection.filter _).2 = (q.reflection.filter _).2
  rw [h.arrival_eq, h.reflection_eq]

/-- Paths that differ in their signals only are alike after a reset. -/
theorem alike_reset (h : p.rest = q.rest) : p.reset.Alike q.reset := by
  have hlength : p.rest.line.length = q.rest.line.length := by rw [h]
  have hreflection : p.rest.reflection = q.rest.reflection := by rw [h]
  have hrotation : p.rest.rotation = q.rest.rotation := by rw [h]
  refine ⟨?_, hreflection, hrotation⟩
  exact DelayLine.alike_of_silent (DelayLine.silent_clear _) (DelayLine.silent_clear _) hlength

theorem inside_step (m : Mode) (p : Path α) (s : Sample α) : (p.step m s).line.Inside := by
  rw [step_eq]
  exact DelayLine.inside_push p.line s

end Path

/-! ## Networks -/

namespace Network

variable {α : Type}

/-- The networks have the same matrix and input filters, and paths that are alike. -/
structure Alike (m n : Network α) : Prop where
  mode_eq : m.mode = n.mode
  matrix_eq : m.matrix = n.matrix
  prefilters_eq : m.prefilters = n.prefilters
  output_eq : m.output = n.output
  order_eq : m.order = n.order
  paths : ∀ (k : Nat) (p q : Path α), m.paths[k]? = some p → n.paths[k]? = some q → p.Alike q

/-- All heads are inside. -/
def Inside (n : Network α) : Prop := ∀ p ∈ n.paths, p.line.Inside

theorem Alike.exists_right {m n : Network α} (h : m.Alike n) {k : Nat} {p : Path α}
    (hp : m.paths[k]? = some p) : ∃ q, n.paths[k]? = some q ∧ p.Alike q := by
  have hm : k < m.order := (Array.getElem?_eq_some_iff.mp hp).1
  have hk : k < n.order := h.order_eq ▸ hm
  have hq : n.paths[k]? = some n.paths[k] := Array.getElem?_eq_getElem hk
  exact ⟨n.paths[k], hq, h.paths k p _ hp hq⟩

theorem Alike.map_eq {τ : Type} {m n : Network α} (h : m.Alike n) {f g : Nat → Path α → τ}
    (hfg : ∀ k p q, p.Alike q → f k p = g k q) : m.paths.mapIdx f = n.paths.mapIdx g := by
  refine Array.ext_getElem? fun k => ?_
  rw [Array.getElem?_mapIdx, Array.getElem?_mapIdx]
  cases hp : m.paths[k]? with
  | none =>
    have hm : m.order ≤ k := Array.getElem?_eq_none_iff.mp hp
    have hk : n.order ≤ k := h.order_eq ▸ hm
    rw [Array.getElem?_eq_none hk]
    rfl
  | some p =>
    obtain ⟨q, hq, hpq⟩ := h.exists_right hp
    rw [hq]
    exact congrArg some (hfg k p q hpq)

variable [Scalar α] {m n : Network α}

/-- All lines are silent. -/
def Silent (n : Network α) : Prop := ∀ p ∈ n.paths, p.line.Silent

/-- What the network is fed is not lost, or it is silence. -/
def Keeps (n : Network α) (sources : Array (Sample α)) : Prop :=
  ∀ k p, n.paths[k]? = some p → p.line.Inside ∨ n.fed sources k = 0

theorem Inside.keeps (h : n.Inside) (sources : Array (Sample α)) : n.Keeps sources :=
  fun _ p hp => Or.inl (h p (Array.mem_of_getElem? hp))

theorem inside_process (n : Network α) (sources : Array (Sample α)) :
    (n.process sources).Inside := by
  intro p hp
  obtain ⟨k, hk⟩ := Array.mem_iff_getElem?.mp hp
  rw [getElem?_process_paths] at hk
  obtain ⟨q, -, rfl⟩ := Option.map_eq_some_iff.mp hk
  exact Path.inside_step _ q _

theorem outputs_tap (n : Network α) :
    n.tap.outputs = n.paths.mapIdx fun _ p => (p.step .feedback 0).output := by
  refine Array.ext_getElem? fun k => ?_
  simp only [outputs, tap, Array.getElem?_map, Array.getElem?_mapIdx, Option.map_map]
  rfl

theorem outputs_process (n : Network α) (sources : Array (Sample α)) :
    (n.process sources).outputs =
      n.paths.mapIdx fun k p => (p.step n.mode (n.fed sources k)).output := by
  refine Array.ext_getElem? fun k => ?_
  simp only [outputs, Array.getElem?_map, Array.getElem?_mapIdx, getElem?_process_paths,
    Option.map_map]
  rfl

theorem Alike.fed_eq (h : m.Alike n) (sources : Array (Sample α)) (k : Nat) :
    m.fed sources k = n.fed sources k := by
  have houtputs : m.tap.outputs = n.tap.outputs := by
    rw [outputs_tap, outputs_tap]
    exact h.map_eq fun _ p q hpq => hpq.output_eq _ _
  unfold fed
  rw [h.mode_eq, h.matrix_eq, houtputs]

/-- Alike networks give the same outputs, wherever their heads are. -/
theorem Alike.outputs_process_eq (h : m.Alike n) (sources : Array (Sample α)) :
    (m.process sources).outputs = (n.process sources).outputs := by
  rw [outputs_process, outputs_process]
  refine h.map_eq fun k p q hpq => ?_
  rw [h.mode_eq, h.fed_eq]
  exact hpq.output_eq _ _

theorem Alike.output_process_eq (h : m.Alike n) (sources : Array (Sample α)) :
    (m.process sources).output = (n.process sources).output := by
  rw [process_output, process_output, h.outputs_process_eq, h.output_eq]

theorem process_prefilters (n : Network α) (sources : Array (Sample α)) :
    (n.process sources).prefilters = n.prefilters := by
  cases hm : n.mode <;> simp [process, hm, tap]

/-- Alike networks stay alike exactly if all their lines do. -/
theorem Alike.process_iff (h : m.Alike n) (sources : Array (Sample α)) :
    (m.process sources).Alike (n.process sources) ↔
      ∀ (k : Nat) (p q : Path α), m.paths[k]? = some p → n.paths[k]? = some q →
        (p.line.push (n.fed sources k)).Alike (q.line.push (n.fed sources k)) := by
  constructor
  · intro h' k p q hp hq
    have hpq := h'.paths k (p.step m.mode (m.fed sources k)) (q.step n.mode (n.fed sources k))
      (by rw [getElem?_process_paths, hp]; rfl) (by rw [getElem?_process_paths, hq]; rfl)
    rw [h.mode_eq, h.fed_eq] at hpq
    exact ((h.paths k p q hp hq).step_iff _ _).mp hpq
  · intro hlines
    refine ⟨?_, ?_, ?_, h.output_process_eq sources, ?_, fun k p' q' hp' hq' => ?_⟩
    · rw [process_mode, process_mode, h.mode_eq]
    · rw [process_matrix, process_matrix, h.matrix_eq]
    · rw [process_prefilters, process_prefilters, h.prefilters_eq]
    · rw [order_process, order_process, h.order_eq]
    · rw [getElem?_process_paths] at hp' hq'
      obtain ⟨p, hp, rfl⟩ := Option.map_eq_some_iff.mp hp'
      obtain ⟨q, hq, rfl⟩ := Option.map_eq_some_iff.mp hq'
      rw [h.mode_eq, h.fed_eq]
      exact ((h.paths k p q hp hq).step_iff _ _).mpr (hlines k p q hp hq)

/-- With all heads inside, alike networks stay alike. -/
theorem Alike.process (h : m.Alike n) (hm : m.Inside) (hn : n.Inside) (sources : Array (Sample α)) :
    (m.process sources).Alike (n.process sources) :=
  (h.process_iff sources).mpr fun k p q hp hq =>
    (h.paths k p q hp hq).line.push (hm p (Array.mem_of_getElem? hp))
      (hn q (Array.mem_of_getElem? hq)) _

/-- Silent networks, one with all heads inside, stay alike exactly if the other loses nothing. -/
theorem Alike.process_iff_keeps (h : m.Alike n) (hm : m.Silent) (hn : n.Silent) (hin : n.Inside)
    (sources : Array (Sample α)) :
    (m.process sources).Alike (n.process sources) ↔ m.Keeps sources := by
  have hline : ∀ (k : Nat) (p q : Path α), m.paths[k]? = some p → n.paths[k]? = some q →
      ((p.line.push (n.fed sources k)).Alike (q.line.push (n.fed sources k)) ↔
        p.line.Inside ∨ n.fed sources k = 0) := by
    intro k p q hp hq
    exact DelayLine.alike_push_iff (hm p (Array.mem_of_getElem? hp))
      (hn q (Array.mem_of_getElem? hq)) (h.paths k p q hp hq).line.length_eq
      (hin q (Array.mem_of_getElem? hq)) _
  rw [h.process_iff]
  constructor
  · intro hlines k p hp
    obtain ⟨q, hq, -⟩ := h.exists_right hp
    rw [h.fed_eq]
    exact (hline k p q hp hq).mp (hlines k p q hp hq)
  · intro hkeeps k p q hp hq
    have hkept := hkeeps k p hp
    rw [h.fed_eq] at hkept
    exact (hline k p q hp hq).mpr hkept

theorem silent_reset (n : Network α) : n.reset.Silent := by
  intro p hp
  obtain ⟨q, -, rfl⟩ := Array.mem_map.mp hp
  exact DelayLine.silent_clear q.line

/-- Networks that differ in their signals only are alike after a reset. -/
theorem alike_reset (h : m.rest = n.rest) : m.reset.Alike n.reset := by
  have hmode : m.rest.mode = n.rest.mode := by rw [h]
  have hmatrix : m.rest.matrix = n.rest.matrix := by rw [h]
  have hprefilters : m.rest.prefilters = n.rest.prefilters := by rw [h]
  refine ⟨hmode, hmatrix, hprefilters, rfl, ?_, ?_⟩
  · rw [← order_rest m.reset, rest_reset, h, ← rest_reset n, order_rest]
  · intro k p' q' hp' hq'
    rw [reset, Array.getElem?_map] at hp' hq'
    obtain ⟨p, hp, rfl⟩ := Option.map_eq_some_iff.mp hp'
    obtain ⟨q, hq, rfl⟩ := Option.map_eq_some_iff.mp hq'
    have hrest := congrArg (fun r : Network α => r.paths[k]?) h
    simp only [getElem?_rest_paths, hp, hq, Option.map_some] at hrest
    exact Path.alike_reset (Option.some.inj hrest)

/-- Taking the output does not change what is alike. -/
theorem Alike.take_iff (h : m.output = n.output) :
    m.take.2.Alike n.take.2 ↔ m.Alike n :=
  ⟨fun h' => ⟨h'.mode_eq, h'.matrix_eq, h'.prefilters_eq, h, h'.order_eq, h'.paths⟩,
    fun h' => ⟨h'.mode_eq, h'.matrix_eq, h'.prefilters_eq, rfl, h'.order_eq, h'.paths⟩⟩

end Network

/-! ## Engines -/

namespace Engine

variable {α β : Type} [Scalar α]

section

variable {l l' : List (Network α)}

/-- No stage of a chain loses what it is fed. -/
def ChainKeeps : List (Network α) → Array (Sample α) → Prop
  | [], _ => True
  | n :: rest, sources => n.Keeps sources ∧ ChainKeeps rest (n.process sources).outputs

theorem runForward_fst_eq (h : List.Forall₂ Network.Alike l l') (sources : Array (Sample α)) :
    (runForward l sources).1 = (runForward l' sources).1 := by
  induction h generalizing sources with
  | nil => rfl
  | cons hn _ ih =>
    simp only [runForward]
    rw [hn.outputs_process_eq]
    exact ih _

theorem inside_runForward (l : List (Network α)) (sources : Array (Sample α)) :
    ∀ n ∈ (runForward l sources).2, n.Inside := by
  induction l generalizing sources with
  | nil => exact fun _ hn => nomatch hn
  | cons n l ih =>
    intro n' hn'
    rcases List.mem_cons.mp hn' with rfl | hn'
    · exact Network.inside_process n sources
    · exact ih _ n' hn'

theorem alike_runForward (h : List.Forall₂ Network.Alike l l') (hl : ∀ n ∈ l, n.Inside)
    (hl' : ∀ n ∈ l', n.Inside) (sources : Array (Sample α)) :
    List.Forall₂ Network.Alike (runForward l sources).2 (runForward l' sources).2 := by
  induction h generalizing sources with
  | nil => exact List.Forall₂.nil
  | cons hn _ ih =>
    simp only [List.forall_mem_cons] at hl hl'
    simp only [runForward]
    rw [← hn.outputs_process_eq]
    refine List.Forall₂.cons ?_ (ih hl.2 hl'.2 _)
    exact (Network.Alike.take_iff (hn.output_process_eq sources)).mpr
      (hn.process hl.1 hl'.1 sources)

/-- Silent chains, one with all heads inside, stay alike exactly if the other loses nothing. -/
theorem alike_runForward_iff (h : List.Forall₂ Network.Alike l l') (hl : ∀ n ∈ l, n.Silent)
    (hl' : ∀ n ∈ l', n.Silent) (hin : ∀ n ∈ l', n.Inside) (sources : Array (Sample α)) :
    List.Forall₂ Network.Alike (runForward l sources).2 (runForward l' sources).2 ↔
      ChainKeeps l sources := by
  induction h generalizing sources with
  | nil => exact ⟨fun _ => trivial, fun _ => List.Forall₂.nil⟩
  | cons hn _ ih =>
    simp only [List.forall_mem_cons] at hl hl' hin
    simp only [runForward, ChainKeeps]
    rw [← hn.outputs_process_eq, List.forall₂_cons, ih hl.2 hl'.2 hin.2]
    refine and_congr ?_ Iff.rfl
    exact (Network.Alike.take_iff (hn.output_process_eq sources)).trans
      (hn.process_iff_keeps hl.1 hl'.1 hin.1 sources)

end

/-- The input of the chain, and the feedback network after its input filters. -/
def intake (e : Engine α β) (s : Sample α) : Sample α × Network α :=
  if e.usesPrefilter then e.feedback.prefilter s else (s, e.feedback)

/-- The sources of the first stage. -/
def sources (e : Engine α β) (s : Sample α) : Array (Sample α) :=
  Array.replicate (e.intake s).2.order (e.intake s).1

/-- The feedback network after a sample, before its output is taken. -/
def processed (e : Engine α β) (s : Sample α) : Network α :=
  (e.intake s).2.process (runForward e.forward (e.sources s)).1

theorem tick_eq (e : Engine α β) (s : Sample α) :
    e.tick s =
      (if (e.processed s).output.isFinite then (e.processed s).output else 0,
        { e with
          forward := (runForward e.forward (e.sources s)).2
          feedback := (e.processed s).take.2 }) := by
  unfold tick processed sources intake
  by_cases hp : e.usesPrefilter <;> simp only [hp] <;> rfl

/-- The engines are made alike and their networks are alike. -/
structure Alike (e f : Engine α β) : Prop where
  usesPrefilter_eq : e.usesPrefilter = f.usesPrefilter
  forward : List.Forall₂ Network.Alike e.forward f.forward
  feedback : e.feedback.Alike f.feedback

/-- All heads are inside. -/
structure Inside (e : Engine α β) : Prop where
  forward : ∀ n ∈ e.forward, n.Inside
  feedback : e.feedback.Inside

/-- All lines are silent. -/
structure Silent (e : Engine α β) : Prop where
  forward : ∀ n ∈ e.forward, n.Silent
  feedback : e.feedback.Silent

/-- No stage loses anything of the sample. -/
def Keeps (e : Engine α β) (s : Sample α) : Prop :=
  ChainKeeps e.forward (e.sources s) ∧
    (e.intake s).2.Keeps (runForward e.forward (e.sources s)).1

variable {e f : Engine α β}

/-- The input filters do not touch the paths. -/
theorem paths_intake (e : Engine α β) (s : Sample α) : (e.intake s).2.paths = e.feedback.paths := by
  unfold intake
  split_ifs <;> rfl

theorem Alike.intake (h : e.Alike f) (s : Sample α) :
    (e.intake s).1 = (f.intake s).1 ∧ (e.intake s).2.Alike (f.intake s).2 := by
  unfold Engine.intake
  rw [h.usesPrefilter_eq]
  by_cases hf : f.usesPrefilter
  · rw [if_pos hf, if_pos hf]
    unfold Network.prefilter
    rw [h.feedback.prefilters_eq]
    exact ⟨rfl, h.feedback.mode_eq, h.feedback.matrix_eq, rfl, h.feedback.output_eq,
      h.feedback.order_eq, h.feedback.paths⟩
  · rw [if_neg hf, if_neg hf]
    exact ⟨rfl, h.feedback⟩

theorem Alike.sources_eq (h : e.Alike f) (s : Sample α) : e.sources s = f.sources s := by
  unfold Engine.sources
  rw [(h.intake s).1, (h.intake s).2.order_eq]

theorem inside_tick (e : Engine α β) (s : Sample α) : (e.tick s).2.Inside := by
  rw [tick_eq]
  exact ⟨inside_runForward _ _, Network.inside_process _ _⟩

theorem Alike.processed_output_eq (h : e.Alike f) (s : Sample α) :
    (e.processed s).output = (f.processed s).output := by
  unfold processed
  rw [h.sources_eq, runForward_fst_eq h.forward]
  exact (h.intake s).2.output_process_eq _

theorem Alike.tick_fst_eq (h : e.Alike f) (s : Sample α) : (e.tick s).1 = (f.tick s).1 := by
  rw [tick_eq, tick_eq, h.processed_output_eq]

/-- Alike engines stay alike exactly if all their networks do. -/
theorem Alike.tick_iff (h : e.Alike f) (s : Sample α) :
    (e.tick s).2.Alike (f.tick s).2 ↔
      List.Forall₂ Network.Alike (runForward e.forward (f.sources s)).2
          (runForward f.forward (f.sources s)).2 ∧
        (e.processed s).Alike (f.processed s) := by
  rw [tick_eq, tick_eq, h.sources_eq, ← Network.Alike.take_iff (h.processed_output_eq s)]
  exact ⟨fun h' => ⟨h'.forward, h'.feedback⟩, fun h' => ⟨h.usesPrefilter_eq, h'.1, h'.2⟩⟩

theorem Alike.processed_iff (h : e.Alike f) (s : Sample α) :
    (e.processed s).Alike (f.processed s) ↔
      ((e.intake s).2.process (runForward f.forward (f.sources s)).1).Alike
        ((f.intake s).2.process (runForward f.forward (f.sources s)).1) := by
  unfold processed
  rw [h.sources_eq, runForward_fst_eq h.forward]

/-- With all heads inside, alike engines stay alike. -/
theorem Alike.tick (h : e.Alike f) (he : e.Inside) (hf : f.Inside) (s : Sample α) :
    (e.tick s).2.Alike (f.tick s).2 := by
  have hein : (e.intake s).2.Inside := fun p hp => he.feedback p (paths_intake e s ▸ hp)
  have hfin : (f.intake s).2.Inside := fun p hp => hf.feedback p (paths_intake f s ▸ hp)
  refine (h.tick_iff s).mpr ⟨alike_runForward h.forward he.forward hf.forward _, ?_⟩
  exact (h.processed_iff s).mpr ((h.intake s).2.process hein hfin _)

/-- **Losing a sample is all that tells silent engines apart.** Silent engines, one with all heads
inside, are alike after a sample exactly if the other loses nothing of it. -/
theorem Alike.tick_iff_keeps (h : e.Alike f) (he : e.Silent) (hf : f.Silent) (hin : f.Inside)
    (s : Sample α) : (e.tick s).2.Alike (f.tick s).2 ↔ e.Keeps s := by
  have hes : (e.intake s).2.Silent := fun p hp => he.feedback p (paths_intake e s ▸ hp)
  have hfs : (f.intake s).2.Silent := fun p hp => hf.feedback p (paths_intake f s ▸ hp)
  have hfin : (f.intake s).2.Inside := fun p hp => hin.feedback p (paths_intake f s ▸ hp)
  rw [h.tick_iff, h.processed_iff,
    alike_runForward_iff h.forward he.forward hf.forward hin.forward,
    (h.intake s).2.process_iff_keeps hes hfs hfin, ← h.sources_eq, ← runForward_fst_eq h.forward]
  exact Iff.rfl

theorem chainKeeps_of_inside {l : List (Network α)} (h : ∀ n ∈ l, n.Inside)
    (sources : Array (Sample α)) : ChainKeeps l sources := by
  induction l generalizing sources with
  | nil => trivial
  | cons n l ih =>
    simp only [List.forall_mem_cons] at h
    exact ⟨h.1.keeps sources, ih h.2 _⟩

theorem Inside.keeps (h : e.Inside) (s : Sample α) : e.Keeps s := by
  have hin : (e.intake s).2.Inside := fun p hp => h.feedback p (paths_intake e s ▸ hp)
  exact ⟨chainKeeps_of_inside h.forward _, hin.keeps _⟩

end Engine

end AmbisonicReverb
