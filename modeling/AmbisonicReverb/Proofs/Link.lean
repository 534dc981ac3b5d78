import AmbisonicReverb.Proofs.Alike
import AmbisonicReverb.Proofs.Sums

/-!
# Runs side by side

Some properties of a network are about several of its runs at once: each sample of one run stands
in some relation to the samples at the same place and time of the others. `Link` is such a relation,
together with the proof that the operations on samples keep it. Coefficients, matrices and delays
have to be the same in all runs, while the rotations may differ as far as the link allows
(`Link.Turns`).

What the operations on samples keep, a network keeps: linked networks that are fed linked sources
remain linked, sample by sample (`Link.Networks.process`), and so do whole runs
(`Link.Networks.run`).
-/

namespace AmbisonicReverb

/-- A relation between the samples of several runs, which the operations on samples keep. -/
structure Link (ι α : Type) [Scalar α] where
  /-- The samples at one place and time of all runs are related. -/
  Joins : (ι → Sample α) → Prop
  /-- The runs may be turned in these ways. -/
  Turns : (ι → Rotation α) → Prop
  zero : Joins fun _ => 0
  add : ∀ {s t}, Joins s → Joins t → Joins fun i => s i + t i
  sub : ∀ {s t}, Joins s → Joins t → Joins fun i => s i - t i
  mul : ∀ {s}, Joins s → ∀ g : α, Joins fun i => s i * g
  flush : ∀ {s}, Joins s → Joins fun i => (s i).flush
  rotate : ∀ {s q}, Joins s → Turns q → Joins fun i => (s i).rotate (q i)

namespace Link

variable {ι α : Type} [Scalar α] (L : Link ι α)

/-! ## Filters and lines -/

/-- Reflection filters with the same coefficients and linked registers. -/
structure Reflections (f : ι → Reflection α) : Prop where
  b1 : ∃ c, ∀ i, (f i).b1 = c
  a2 : ∃ c, ∀ i, (f i).a2 = c
  eta : ∃ c, ∀ i, (f i).eta = c
  lowpass : L.Joins fun i => (f i).lowpass
  allpassIn : L.Joins fun i => (f i).allpassIn
  allpassOut : L.Joins fun i => (f i).allpassOut

/-- Delay lines with the same length and head, and linked cells. -/
structure Lines (d : ι → DelayLine (Sample α)) : Prop where
  length : ∃ c, ∀ i, (d i).length = c
  position : ∃ c, ∀ i, (d i).position = c
  size : ∃ c, ∀ i, (d i).cells.size = c
  cells : ∀ k, L.Joins fun i => (d i).cells.getD k 0

variable {L}

theorem Reflections.filter {f : ι → Reflection α} {s : ι → Sample α} (h : L.Reflections f)
    (hs : L.Joins s) :
    L.Joins (fun i => ((f i).filter (s i)).1) ∧ L.Reflections fun i => ((f i).filter (s i)).2 := by
  obtain ⟨b1, hb1⟩ := h.b1
  obtain ⟨a2, ha2⟩ := h.a2
  obtain ⟨eta, heta⟩ := h.eta
  have hlow : L.Joins fun i => (s i * (f i).b1 - (f i).lowpass * (f i).a2).flush := by
    simp only [hb1, ha2]
    exact L.flush (L.sub (L.mul hs b1) (L.mul h.lowpass a2))
  have hout : L.Joins fun i => ((f i).filter (s i)).1 := by
    show L.Joins fun i => ((s i * (f i).b1 - (f i).lowpass * (f i).a2).flush * (f i).eta +
      (f i).allpassIn - (f i).allpassOut * (f i).eta).flush
    simp only [heta]
    exact L.flush (L.sub (L.add (L.mul hlow eta) h.allpassIn) (L.mul h.allpassOut eta))
  exact ⟨hout, h.b1, h.a2, h.eta, hlow, hlow, hout⟩

theorem Lines.read {d : ι → DelayLine (Sample α)} (h : L.Lines d) :
    L.Joins fun i => (d i).read := by
  obtain ⟨k, hk⟩ := h.position
  have hread : ∀ i, (d i).read = (d i).cells.getD k 0 := by
    intro i
    rw [Array.getD_eq_getD_getElem?, ← hk i, Array.getElem?_eq_getElem (d i).position_lt_size]
    rfl
  simp only [hread]
  exact h.cells k

theorem Lines.push {d : ι → DelayLine (Sample α)} {s : ι → Sample α} (h : L.Lines d)
    (hs : L.Joins s) : L.Lines fun i => (d i).push (s i) := by
  obtain ⟨length, hlength⟩ := h.length
  obtain ⟨head, hhead⟩ := h.position
  obtain ⟨size, hsize⟩ := h.size
  refine ⟨h.length, ⟨(if head = 0 then length else head) - 1, fun i => ?_⟩, ⟨size, fun i => ?_⟩,
    fun k => ?_⟩
  · show (if (d i).position = 0 then (d i).length else (d i).position) - 1 = _
    rw [hhead, hlength]
  · exact (Array.size_set (d i).position_lt_size).trans (hsize i)
  · have hcell : ∀ i, ((d i).push (s i)).cells.getD k 0 =
        if head = k then s i else (d i).cells.getD k 0 := by
      intro i
      show ((d i).cells.set (d i).position (s i) (d i).position_lt_size).getD k 0 = _
      rw [Array.getD_eq_getD_getElem?, Array.getElem?_set, hhead, Array.getD_eq_getD_getElem?]
      split_ifs <;> rfl
    simp only [hcell]
    split_ifs
    · exact hs
    · exact h.cells k

/-- A silent line is linked to itself. -/
theorem lines_of_silent {d : DelayLine (Sample α)} (h : d.Silent) : L.Lines fun _ => d := by
  refine ⟨⟨_, fun _ => rfl⟩, ⟨_, fun _ => rfl⟩, ⟨_, fun _ => rfl⟩, fun k => ?_⟩
  have hcell : d.cells.getD k 0 = 0 := by
    rw [Array.getD_eq_getD_getElem?]
    cases hk : d.cells[k]? with
    | none => rfl
    | some s => exact h s (Array.mem_of_getElem? hk)
  rw [hcell]
  exact L.zero

/-- So is a filter without a signal. -/
theorem reflections_reset (f : Reflection α) : L.Reflections fun _ => f.reset :=
  ⟨⟨_, fun _ => rfl⟩, ⟨_, fun _ => rfl⟩, ⟨_, fun _ => rfl⟩, L.zero, L.zero, L.zero⟩

/-! ## Paths -/

variable (L) in
/-- Paths that may differ in their rotations, with linked samples. -/
structure Paths (p : ι → Path α) : Prop where
  line : L.Lines fun i => (p i).line
  reflection : L.Reflections fun i => (p i).reflection
  rotation : L.Turns fun i => (p i).rotation
  output : L.Joins fun i => (p i).output

theorem Paths.arrival {p : ι → Path α} {s : ι → Sample α} (h : L.Paths p) (m : Mode)
    (hs : L.Joins s) : L.Joins fun i => (p i).arrival m (s i) := by
  cases m with
  | feedback => exact h.line.read
  | forward => exact (h.line.push hs).read

theorem Paths.step {p : ι → Path α} {s : ι → Sample α} (h : L.Paths p) (m : Mode)
    (hs : L.Joins s) : L.Paths fun i => (p i).step m (s i) := by
  obtain ⟨hfiltered, hreflection⟩ := h.reflection.filter (h.arrival m hs)
  simp only [Path.step_eq]
  exact ⟨h.line.push hs, hreflection, h.rotation, L.rotate hfiltered h.rotation⟩

/-! ## Sums -/

variable (L) in
/-- Arrays of the same size with linked entries. -/
structure Arrays (a : ι → Array (Sample α)) : Prop where
  size : ∃ c, ∀ i, (a i).size = c
  entries : ∀ k, L.Joins fun i => (a i).getD k 0

theorem joins_foldl_range {s : ι → Sample α} {term : ι → Nat → Sample α} (hs : L.Joins s)
    (hterm : ∀ k, L.Joins fun i => term i k) (m : Nat) :
    L.Joins fun i => (List.range m).foldl (fun sum k => sum + term i k) (s i) := by
  induction m with
  | zero => exact hs
  | succ m ih =>
    simp only [List.range_succ, List.foldl_append, List.foldl_cons, List.foldl_nil]
    exact L.add ih (hterm m)

theorem Arrays.sum {a : ι → Array (Sample α)} {s : ι → Sample α} (h : L.Arrays a)
    (hs : L.Joins s) : L.Joins fun i => (a i).foldl (fun sum d => sum + d) (s i) := by
  obtain ⟨m, hm⟩ := h.size
  have hsum : ∀ i, (a i).foldl (fun sum d => sum + d) (s i) =
      (List.range m).foldl (fun sum k => sum + (a i).getD k 0) (s i) := by
    intro i
    rw [← hm i]
    exact foldl_eq_foldl_range (a i) 0 _ _
  simp only [hsum]
  exact joins_foldl_range hs h.entries m

theorem Arrays.mix {a : ι → Array (Sample α)} (h : L.Arrays a) (row : Array α) :
    L.Joins fun i => Network.mix row (a i) := by
  obtain ⟨m, hm⟩ := h.size
  have hmix : ∀ i, Network.mix row (a i) =
      (List.range (min row.size m)).foldl (fun sum j => sum + (a i).getD j 0 * row.getD j 0) 0 := by
    intro i
    rw [← hm i]
    refine fold_eq_foldl_range (fun j hj sum => ?_) 0
    rw [Array.getD_eq_getD_getElem?, Array.getD_eq_getD_getElem?,
      Array.getElem?_eq_getElem (show j < (a i).size by omega),
      Array.getElem?_eq_getElem (show j < row.size by omega)]
    rfl
  simp only [hmix]
  exact joins_foldl_range L.zero (fun j => L.mul (h.entries j) _) _

/-- Only the entries that there are have to be compared. -/
theorem arrays_of_size {a : ι → Array (Sample α)} {m : Nat} (hsize : ∀ i, (a i).size = m)
    (hentries : ∀ k < m, L.Joins fun i => (a i).getD k 0) : L.Arrays a := by
  refine ⟨⟨m, hsize⟩, fun k => ?_⟩
  by_cases hk : k < m
  · exact hentries k hk
  · have hbeyond : ∀ i, (a i).getD k 0 = 0 := by
      intro i
      rw [Array.getD_eq_getD_getElem?, Array.getElem?_eq_none (by rw [hsize]; omega)]
      rfl
    simp only [hbeyond]
    exact L.zero

theorem Arrays.add {a b : ι → Array (Sample α)} (ha : L.Arrays a) (hb : L.Arrays b) :
    L.Arrays fun i => Array.zipWith (· + ·) (a i) (b i) := by
  obtain ⟨m, hm⟩ := ha.size
  obtain ⟨m', hm'⟩ := hb.size
  refine arrays_of_size (m := min m m') (fun i => by rw [Array.size_zipWith, hm, hm'])
    fun k hk => ?_
  have hentry : ∀ i, (Array.zipWith (· + ·) (a i) (b i)).getD k 0 =
      (a i).getD k 0 + (b i).getD k 0 := by
    intro i
    have hka : k < (a i).size := by rw [hm]; omega
    have hkb : k < (b i).size := by rw [hm']; omega
    simp only [Array.getD_eq_getD_getElem?, Array.getElem?_zipWith, Array.getElem?_eq_getElem hka,
      Array.getElem?_eq_getElem hkb]
    rfl
  simp only [hentry]
  exact L.add (ha.entries k) (hb.entries k)

theorem arrays_replicate {s : ι → Sample α} (m : Nat) (hs : L.Joins s) :
    L.Arrays fun i => Array.replicate m (s i) := by
  refine arrays_of_size (fun _ => Array.size_replicate) fun k hk => ?_
  have hentry : ∀ i, (Array.replicate m (s i)).getD k 0 = s i := by
    intro i
    rw [Array.getD_eq_getD_getElem?, Array.getElem?_replicate, if_pos hk]
    rfl
  simp only [hentry]
  exact hs

theorem arrays_ofFn {v : ι → Nat → Sample α} (hv : ∀ k, L.Joins fun i => v i k) (m : Nat) :
    L.Arrays fun i => Array.ofFn fun k : Fin m => v i k := by
  refine arrays_of_size (fun _ => Array.size_ofFn) fun k hk => ?_
  have hentry : ∀ i, (Array.ofFn fun k : Fin m => v i k).getD k 0 = v i k := by
    intro i
    rw [Array.getD_eq_getD_getElem?, Array.getElem?_ofFn, dif_pos hk]
    rfl
  simp only [hentry]
  exact hv k

/-! ## Networks -/

variable (L) in
/-- Networks with the same coefficients and linked samples. -/
structure Networks (n : ι → Network α) : Prop where
  mode : ∃ c, ∀ i, (n i).mode = c
  matrix : ∃ c, ∀ i, (n i).matrix = c
  order : ∃ c, ∀ i, (n i).order = c
  first : L.Reflections fun i => (n i).prefilters.1
  second : L.Reflections fun i => (n i).prefilters.2
  output : L.Joins fun i => (n i).output
  paths : ∀ (k : Nat) (p : ι → Path α), (∀ i, (n i).paths[k]? = some (p i)) → L.Paths p

/-- A sample for each path makes linked arrays. -/
theorem Networks.arrays {n : ι → Network α} (h : L.Networks n) {f : ι → Nat → Path α → Sample α}
    (hf : ∀ k p, L.Paths p → L.Joins fun i => f i k (p i)) :
    L.Arrays fun i => (n i).paths.mapIdx (f i) := by
  obtain ⟨m, hm⟩ := h.order
  refine arrays_of_size (fun i => Array.size_mapIdx.trans (hm i)) fun k hk => ?_
  have hpath : ∀ i, ∃ p, (n i).paths[k]? = some p := by
    intro i
    have hsize : k < (n i).order := by rwa [hm]
    exact ⟨_, Array.getElem?_eq_getElem hsize⟩
  choose p hp using hpath
  have hentry : ∀ i, ((n i).paths.mapIdx (f i)).getD k 0 = f i k (p i) := by
    intro i
    rw [Array.getD_eq_getD_getElem?, Array.getElem?_mapIdx, hp]
    rfl
  simp only [hentry]
  exact hf k p (h.paths k p hp)

/-- The last outputs of linked networks are linked. -/
theorem Networks.outputs {n : ι → Network α} (h : L.Networks n) :
    L.Arrays fun i => (n i).outputs := by
  have houtputs : ∀ i, (n i).outputs = (n i).paths.mapIdx fun _ p => p.output := by
    intro i
    refine Array.ext_getElem? fun k => ?_
    rw [Network.outputs, Array.getElem?_map, Array.getElem?_mapIdx]
  simp only [houtputs]
  exact h.arrays fun _ _ hp => hp.output

theorem Networks.fed {n : ι → Network α} {a : ι → Array (Sample α)} (h : L.Networks n)
    (ha : L.Arrays a) (k : Nat) : L.Joins fun i => (n i).fed (a i) k := by
  obtain ⟨m, hm⟩ := h.mode
  obtain ⟨rows, hrows⟩ := h.matrix
  unfold Network.fed
  simp only [hm, hrows]
  cases m with
  | feedback =>
    have houtputs : L.Arrays fun i => (n i).tap.outputs := by
      simp only [Network.outputs_tap]
      exact h.arrays fun _ _ hp => (hp.step .feedback L.zero).output
    exact (houtputs.add ha).mix _
  | forward => exact ha.mix _

theorem Networks.outputs_process {n : ι → Network α} {a : ι → Array (Sample α)}
    (h : L.Networks n) (ha : L.Arrays a) : L.Arrays fun i => ((n i).process (a i)).outputs := by
  obtain ⟨m, hm⟩ := h.mode
  simp only [Network.outputs_process, hm]
  exact h.arrays fun k _ hp => (hp.step m (h.fed ha k)).output

/-- **Linked networks remain linked** when they are fed linked sources. -/
theorem Networks.process {n : ι → Network α} {a : ι → Array (Sample α)} (h : L.Networks n)
    (ha : L.Arrays a) : L.Networks fun i => (n i).process (a i) := by
  have houtput : L.Joins fun i => ((n i).process (a i)).output := by
    simp only [Network.process_output]
    exact (h.outputs_process ha).sum h.output
  refine ⟨?_, ?_, ?_, ?_, ?_, houtput, fun k p' hp' => ?_⟩
  · simpa only [Network.process_mode] using h.mode
  · simpa only [Network.process_matrix] using h.matrix
  · simpa only [Network.order_process] using h.order
  · simpa only [Network.process_prefilters] using h.first
  · simpa only [Network.process_prefilters] using h.second
  · have hsteps : ∀ i, ∃ p, (n i).paths[k]? = some p ∧
        p' i = p.step (n i).mode ((n i).fed (a i) k) := by
      intro i
      have hi := hp' i
      rw [Network.getElem?_process_paths] at hi
      obtain ⟨p, hp, heq⟩ := Option.map_eq_some_iff.mp hi
      exact ⟨p, hp, heq.symm⟩
    choose p hp heq using hsteps
    obtain ⟨m, hm⟩ := h.mode
    obtain rfl : p' = fun i => (p i).step m ((n i).fed (a i) k) := by
      funext i
      rw [heq i, hm i]
    exact (h.paths k p hp).step m (h.fed ha k)

/-- Linked networks remain linked when their outputs are taken. -/
theorem Networks.take {n : ι → Network α} (h : L.Networks n) :
    L.Networks fun i => (n i).take.2 :=
  ⟨h.mode, h.matrix, h.order, h.first, h.second, L.zero, h.paths⟩

theorem Networks.prefilter {n : ι → Network α} {s : ι → Sample α} (h : L.Networks n)
    (hs : L.Joins s) :
    L.Joins (fun i => ((n i).prefilter (s i)).1) ∧
      L.Networks fun i => ((n i).prefilter (s i)).2 := by
  obtain ⟨hs, hfirst⟩ := h.first.filter hs
  obtain ⟨hs, hsecond⟩ := h.second.filter hs
  exact ⟨hs, h.mode, h.matrix, h.order, hfirst, hsecond, h.output, h.paths⟩

theorem Networks.run {n : ι → Network α} {src : ι → Nat → Array (Sample α)} (h : L.Networks n)
    (hsrc : ∀ t, L.Arrays fun i => src i t) (t : Nat) :
    L.Networks fun i => (n i).run (src i) t := by
  induction t with
  | zero => exact h
  | succ t ih => exact ih.process (hsrc t)

/-- What all runs made of one place, they made of one value. -/
theorem exists_eq_of_map [Nonempty ι] {γ δ : Type} {o : Option γ} {f : ι → γ → δ} {p : ι → δ}
    (h : ∀ i, o.map (f i) = some (p i)) : ∃ q, p = fun i => f i q := by
  obtain ⟨q, rfl, -⟩ := Option.map_eq_some_iff.mp (h (Classical.arbitrary ι))
  exact ⟨q, funext fun i => (Option.some.inj (h i)).symm⟩

/-- After a reset a network is linked to itself, if all runs may be turned alike. -/
theorem networks_reset [Nonempty ι] (n : Network α) (hturns : ∀ q, L.Turns fun _ => q) :
    L.Networks fun _ => n.reset := by
  refine ⟨⟨_, fun _ => rfl⟩, ⟨_, fun _ => rfl⟩, ⟨_, fun _ => rfl⟩,
    reflections_reset n.prefilters.1, reflections_reset n.prefilters.2, L.zero, fun k p hp => ?_⟩
  obtain ⟨q, rfl⟩ := exists_eq_of_map (f := fun _ => Path.reset) fun i =>
    Array.getElem?_map.symm.trans (hp i)
  exact ⟨lines_of_silent (DelayLine.silent_clear q.line), reflections_reset q.reflection,
    hturns q.rotation, L.zero⟩

theorem networks_of_reset [Nonempty ι] {n : Network α} (h : n.reset = n)
    (hturns : ∀ q, L.Turns fun _ => q) : L.Networks fun _ => n :=
  h ▸ networks_reset n hturns

/-! ## Chains -/

variable (L) in
/-- Chains of linked networks. -/
inductive Chains : (ι → List (Network α)) → Prop
  | nil : Chains fun _ => []
  | cons {n : ι → Network α} {l : ι → List (Network α)} (hn : L.Networks n) (hl : Chains l) :
      Chains fun i => n i :: l i

/-- Linked chains remain linked, and so does what comes out of them. -/
theorem Chains.runForward {l : ι → List (Network α)} (h : L.Chains l)
    {a : ι → Array (Sample α)} (ha : L.Arrays a) :
    L.Arrays (fun i => (Engine.runForward (l i) (a i)).1) ∧
      L.Chains fun i => (Engine.runForward (l i) (a i)).2 := by
  induction h generalizing a with
  | nil => exact ⟨ha, .nil⟩
  | cons hn _ ih =>
    have hprocessed := hn.process ha
    obtain ⟨hout, hrest⟩ := ih hprocessed.outputs
    exact ⟨hout, .cons hprocessed.take hrest⟩

theorem chains_reset [Nonempty ι] (l : List (Network α)) (hturns : ∀ q, L.Turns fun _ => q) :
    L.Chains fun _ => l.map Network.reset := by
  induction l with
  | nil => exact .nil
  | cons n l ih => exact .cons (networks_reset n hturns) ih

theorem chains_of_reset [Nonempty ι] {l : List (Network α)} (h : ∀ n ∈ l, n.reset = n)
    (hturns : ∀ q, L.Turns fun _ => q) : L.Chains fun _ => l := by
  have hreset : l.map Network.reset = l := (List.map_congr_left h).trans l.map_id
  exact hreset ▸ chains_reset l hturns

/-! ## Engines -/

variable {β : Type}

variable (L) in
/-- Engines with linked networks. -/
structure Engines (e : ι → Engine α β) : Prop where
  usesPrefilter : ∃ c, ∀ i, (e i).usesPrefilter = c
  forward : L.Chains fun i => (e i).forward
  feedback : L.Networks fun i => (e i).feedback

theorem Engines.intake {e : ι → Engine α β} {s : ι → Sample α} (h : L.Engines e)
    (hs : L.Joins s) :
    L.Joins (fun i => ((e i).intake (s i)).1) ∧
      L.Networks fun i => ((e i).intake (s i)).2 := by
  obtain ⟨c, hc⟩ := h.usesPrefilter
  unfold Engine.intake
  simp only [hc]
  cases c with
  | false => exact ⟨hs, h.feedback⟩
  | true => exact h.feedback.prefilter hs

theorem Engines.sources {e : ι → Engine α β} {s : ι → Sample α} (h : L.Engines e)
    (hs : L.Joins s) : L.Arrays fun i => (e i).sources (s i) := by
  obtain ⟨hin, hfeedback⟩ := h.intake hs
  obtain ⟨m, hm⟩ := hfeedback.order
  unfold Engine.sources
  simp only [hm]
  exact arrays_replicate m hin

theorem Engines.processed {e : ι → Engine α β} {s : ι → Sample α} (h : L.Engines e)
    (hs : L.Joins s) : L.Networks fun i => (e i).processed (s i) :=
  (h.intake hs).2.process (h.forward.runForward (h.sources hs)).1

/-- Linked engines remain linked. Their outputs are linked up to the guard, which watches all
channels at once and is not an operation of the link. -/
theorem Engines.tick {e : ι → Engine α β} {s : ι → Sample α} (h : L.Engines e)
    (hs : L.Joins s) : L.Engines fun i => ((e i).tick (s i)).2 := by
  simp only [Engine.tick_eq]
  exact ⟨h.usesPrefilter, (h.forward.runForward (h.sources hs)).2, (h.processed hs).take⟩

end Link

end AmbisonicReverb
