import Mathlib
import AmbisonicReverb.Proofs.Exact
import AmbisonicReverb.Proofs.Fragments

/-!
# Mixing sources

Between two fragments, sources are added to the input block: point sources with gains of their own,
which are kept from one chunk to the next, and sound fields. Here all arithmetic is exact.

**Theorem (`sources_mix`).** The gains of a point source go from their last values to those of its
direction in equal steps, one for each sample of the chunk, and end there exactly, also where the
chunk is longer than the block and its last samples are lost. Each sample is added with its gains.
An empty chunk changes nothing. In which order sources are added makes no difference.

* `ramp` — the gains on their way. The gains are added up step by step, and `course_ramp` is the
  invariant of that.
* `Mixer.add_comm` — two additions commute if they do not share their gains. Permutations of a whole
  list follow by Mathlib's `List.Perm.foldl_eq'`.
-/

namespace AmbisonicReverb

/-! ## Directions -/

namespace Direction

theorem norm_eq (d : Direction ℝ) : d.norm = √(d.x * d.x + d.y * d.y + d.z * d.z) := rfl

theorem norm_pos_iff {d : Direction ℝ} : 0 < d.norm ↔ d ≠ ⟨0, 0, 0⟩ := by
  rw [norm_eq, Real.sqrt_pos]
  constructor
  · rintro hpos rfl
    norm_num at hpos
  · intro hne
    by_contra hle
    have hx := mul_self_nonneg d.x
    have hy := mul_self_nonneg d.y
    have hz := mul_self_nonneg d.z
    refine hne ?_
    obtain ⟨x, y, z⟩ := d
    obtain rfl : x = 0 := mul_self_eq_zero.mp (by linarith)
    obtain rfl : y = 0 := mul_self_eq_zero.mp (by linarith)
    obtain rfl : z = 0 := mul_self_eq_zero.mp (by linarith)
    rfl

theorem norm_unit {d : Direction ℝ} (h : 0 < d.norm) : (d.map (· / d.norm)).norm = 1 := by
  have hsum : 0 ≤ d.x * d.x + d.y * d.y + d.z * d.z :=
    add_nonneg (add_nonneg (mul_self_nonneg d.x) (mul_self_nonneg d.y)) (mul_self_nonneg d.z)
  have hsquare : d.norm * d.norm = d.x * d.x + d.y * d.y + d.z * d.z := Real.mul_self_sqrt hsum
  rw [norm_eq, Real.sqrt_eq_one]
  show d.x / d.norm * (d.x / d.norm) + d.y / d.norm * (d.y / d.norm) +
    d.z / d.norm * (d.z / d.norm) = 1
  rw [div_mul_div_comm, div_mul_div_comm, div_mul_div_comm, ← add_div, ← add_div, ← hsquare,
    div_self (by positivity)]

theorem scale_unit {d : Direction ℝ} (h : 0 < d.norm) :
    (d.map (· / d.norm)).scale d.norm = d := by
  have hne := h.ne'
  show (⟨d.x / d.norm * d.norm, d.y / d.norm * d.norm, d.z / d.norm * d.norm⟩ : Direction ℝ) = d
  rw [div_mul_cancel₀ _ hne, div_mul_cancel₀ _ hne, div_mul_cancel₀ _ hne]

end Direction

/-! ## Gains -/

/-- The gains of a point source in a direction: 3 dB less on the pressure, and the unit direction.
Where there is no direction, there is no gain on it. -/
structure Encodes (direction : Direction ℝ) (gains : Sample ℝ) : Prop where
  pressure : gains.w = 1 / √2
  nowhere : direction = ⟨0, 0, 0⟩ → gains.direction = ⟨0, 0, 0⟩
  unit : direction ≠ ⟨0, 0, 0⟩ →
    gains.direction.norm = 1 ∧ ∃ c, 0 < c ∧ gains.direction.scale c = direction

theorem encodes_encoding (direction : Direction ℝ) :
    Encodes direction (Reverb.encoding direction) := by
  have hdirection : (Reverb.encoding direction).direction =
      if 0 < direction.norm then direction.map (· / direction.norm) else ⟨0, 0, 0⟩ := rfl
  refine ⟨?_, fun hzero => ?_, fun hne => ?_⟩
  · show √(0.5) = 1 / √2
    rw [one_div, ← Real.sqrt_inv]
    norm_num
  · rw [hdirection, if_neg]
    exact mt Direction.norm_pos_iff.mp (not_not.mpr hzero)
  · have hpos := Direction.norm_pos_iff.mpr hne
    rw [hdirection, if_pos hpos]
    exact ⟨Direction.norm_unit hpos, direction.norm, hpos, Direction.scale_unit hpos⟩

/-- The gains for sample `i` of a chunk of `n` samples, on the way from `start` to `target`. -/
noncomputable def ramp (start target : Sample ℝ) (n i : ℕ) : Sample ℝ :=
  start + (target - start) * ((i + 1) / n : ℝ)

theorem ramp_last (start target : Sample ℝ) {n : ℕ} (hn : 0 < n) :
    start + (target - start) * (1 / n : ℝ) * (n : ℝ) = target := by
  have hn : (n : ℝ) ≠ 0 := Nat.cast_ne_zero.mpr hn.ne'
  have h (a b : ℝ) : a + (b - a) * (1 / n) * n = b := by
    field_simp
    ring
  exact Sample.eq_of_channels (h _ _) (h _ _) (h _ _) (h _ _)

namespace Reverb

/-- The gains one step further, and the sample with them. -/
noncomputable def encodeStep (step : Sample ℝ) (gains : Sample ℝ) (v : ℝ) : Sample ℝ × Sample ℝ :=
  ((gains + step) * v, gains + step)

/-- Steps add up. -/
theorem course_encodeStep (step gains : Sample ℝ) (v : ℕ → ℝ) (i : ℕ) :
    course (encodeStep step) gains v i = gains + step * (i : ℝ) := by
  induction i with
  | zero =>
    have h (a b : ℝ) : a = a + b * (0 : ℕ) := by simp
    exact Sample.eq_of_channels (h _ _) (h _ _) (h _ _) (h _ _)
  | succ i ih =>
    show course (encodeStep step) gains v i + step = _
    rw [ih]
    have h (a b : ℝ) : a + b * i + b = a + b * (i + 1 : ℕ) := by
      push_cast
      ring
    exact Sample.eq_of_channels (h _ _) (h _ _) (h _ _) (h _ _)

/-- The samples of a chunk with their gains, and the gains after it. -/
noncomputable def encode (direction : Direction ℝ) (chunk : Array ℝ) (gains : Sample ℝ) :
    Array (Sample ℝ) × Sample ℝ :=
  let share : ℝ := 1 / Scalar.ofNat (max chunk.size 1)
  runOver (encodeStep ((encoding direction - gains) * share)) gains chunk

/-- A point source is added like a sound field. -/
theorem addPointSource_eq (r : Reverb ℝ ℝ) (direction : Direction ℝ) (chunk : Array ℝ)
    (gains : Sample ℝ) :
    r.addPointSource direction chunk gains =
      ((encode direction chunk gains).2, r.addDiffuse ⟨(encode direction chunk gains).1⟩) := rfl

/-- **The ramp.** Each sample has its gains, and the gains arrive. -/
theorem encode_eq (direction : Direction ℝ) {chunk : Array ℝ} (h : 0 < chunk.size)
    (gains : Sample ℝ) :
    encode direction chunk gains =
      (Array.ofFn fun i : Fin chunk.size =>
        ramp gains (encoding direction) chunk.size i * chunk[i], encoding direction) := by
  generalize htarget : encoding direction = target
  have hshare : (1 / Scalar.ofNat (max chunk.size 1) : ℝ) = 1 / chunk.size := by
    rw [max_eq_left h, Scalar.ofNat_eq]
  have hchunk : chunk = Array.ofFn fun i : Fin chunk.size => chunk.getD i 0 := by
    refine Array.ext (by simp) fun i hi _ => ?_
    simp [Array.getD_eq_getD_getElem?]
  have hrun := runOver_ofFn (encodeStep ((target - gains) * (1 / chunk.size : ℝ))) gains
    (fun k => chunk.getD k 0) chunk.size
  rw [← hchunk, course_encodeStep, ramp_last gains target h] at hrun
  unfold encode
  dsimp only
  rw [htarget, hshare, hrun]
  refine Prod.ext (congrArg Array.ofFn (funext fun i => ?_)) rfl
  have hget : chunk.getD i 0 = chunk[i] := by simp [Array.getD_eq_getD_getElem?]
  show (course _ gains _ i + (target - gains) * (1 / chunk.size : ℝ)) * chunk.getD i 0 = _
  rw [course_encodeStep, hget]
  have h (a b : ℝ) : (a + (b - a) * (1 / chunk.size) * i + (b - a) * (1 / chunk.size)) * chunk[i] =
      (a + (b - a) * ((i + 1) / chunk.size)) * chunk[i] := by ring
  exact Sample.eq_of_channels (h _ _) (h _ _) (h _ _) (h _ _)

theorem addPointSource_empty (r : Reverb ℝ ℝ) (direction : Direction ℝ) (gains : Sample ℝ) :
    r.addPointSource direction #[] gains = (gains, r) := by
  have hmix : r.input.mix ⟨#[]⟩ = r.input := by
    have hsame : r.input.samples.mapIdx (fun _ s => s) = r.input.samples :=
      Array.ext (by simp) fun i _ _ => by simp
    exact congrArg Block.mk hsame
  show (gains, { r with input := r.input.mix ⟨#[]⟩ }) = (gains, r)
  rw [hmix]

/-- What a chunk of a point source adds to a block. -/
structure Ramped (before : Block ℝ) (chunk : Array ℝ) (start target : Sample ℝ)
    (after : Block ℝ) : Prop where
  size_eq : after.samples.size = before.samples.size
  added : ∀ i (hi : i < chunk.size) (hb : i < before.samples.size),
    after.samples[i]? = some (before.samples[i] + ramp start target chunk.size i * chunk[i])
  kept : ∀ i, chunk.size ≤ i → after.samples[i]? = before.samples[i]?

theorem ramped_mix (before : Block ℝ) (chunk : Array ℝ) (start target : Sample ℝ) :
    Ramped before chunk start target (before.mix
      ⟨Array.ofFn fun i : Fin chunk.size => ramp start target chunk.size i * chunk[i]⟩) where
  size_eq := Array.size_mapIdx
  added i hi hb := by simp [Block.mix, hi, hb]
  kept i hi := by
    have hnone : ¬ i < chunk.size := not_lt.mpr hi
    simp [Block.mix, hnone]

end Reverb

/-! ## Any number of sources -/

/-- What can be added to an input block. Point sources are told apart by the records of their
gains. -/
inductive Contribution (κ : Type)
  | point (source : κ) (direction : Direction ℝ) (chunk : Array ℝ)
  | diffuse (chunk : Block ℝ)

/-- The record that a contribution uses. -/
def Contribution.source? {κ : Type} : Contribution κ → Option κ
  | .point source _ _ => some source
  | .diffuse _ => none

/-- A reverb, and the gains of its point sources. -/
structure Mixer (κ : Type) where
  reverb : Reverb ℝ ℝ
  gains : κ → Sample ℝ

namespace Mixer

variable {κ : Type} [DecidableEq κ]

noncomputable def add (m : Mixer κ) : Contribution κ → Mixer κ
  | .point source direction chunk =>
    let (gains, reverb) := m.reverb.addPointSource direction chunk (m.gains source)
    ⟨reverb, Function.update m.gains source gains⟩
  | .diffuse chunk => { m with reverb := m.reverb.addDiffuse chunk }

noncomputable def addAll (m : Mixer κ) (contributions : List (Contribution κ)) : Mixer κ :=
  contributions.foldl add m

end Mixer

/-! ### The order of contributions -/

/-- Of two blocks that are added, either can come first. -/
theorem Block.mix_right_comm (b c d : Block ℝ) : (b.mix c).mix d = (b.mix d).mix c := by
  refine congrArg Block.mk (Array.ext (by simp [mix]) fun i hi hi' => ?_)
  have h (x y z : ℝ) : x + y + z = x + z + y := by ring
  have hadd (s t u : Sample ℝ) : s + t + u = s + u + t :=
    Sample.eq_of_channels (h _ _ _) (h _ _ _) (h _ _ _) (h _ _ _)
  simp only [mix, Array.getElem_mapIdx]
  cases c.samples[i]? with
  | none => rfl
  | some t =>
    cases d.samples[i]? with
    | none => rfl
    | some u => exact hadd _ t u

namespace Contribution

variable {κ : Type}

variable (gains : κ → Sample ℝ)

/-- The block that is added. Of the gains it depends on those of its own record alone. -/
noncomputable def block : Contribution κ → Block ℝ
  | .point source direction chunk => ⟨(Reverb.encode direction chunk (gains source)).1⟩
  | .diffuse chunk => chunk

variable [DecidableEq κ]

/-- The gains afterwards. -/
noncomputable def settle : Contribution κ → κ → Sample ℝ
  | .point source direction chunk =>
    Function.update gains source (Reverb.encode direction chunk (gains source)).2
  | .diffuse _ => gains

variable {gains}

/-- Two contributions that do not use the same record. -/
def Apart (c c' : Contribution κ) : Prop := ∀ k, c.source? = some k → c'.source? ≠ some k

omit [DecidableEq κ] in
theorem Apart.symm {c c' : Contribution κ} (h : c.Apart c') : c'.Apart c :=
  fun k hk hk' => h k hk' hk

/-- Another record is left alone. -/
theorem block_settle {c c' : Contribution κ} (h : c.Apart c') :
    c'.block (c.settle gains) = c'.block gains := by
  cases c with
  | diffuse chunk => rfl
  | point source direction chunk =>
    cases c' with
    | diffuse chunk' => rfl
    | point source' direction' chunk' =>
      have hne : source' ≠ source := fun heq => h source rfl (congrArg some heq)
      show (⟨(Reverb.encode direction' chunk' (Function.update gains source _ source')).1⟩ :
        Block ℝ) = _
      rw [Function.update_of_ne hne]
      rfl

theorem settle_comm {c c' : Contribution κ} (h : c.Apart c') :
    c'.settle (c.settle gains) = c.settle (c'.settle gains) := by
  cases c with
  | diffuse chunk => rfl
  | point source direction chunk =>
    cases c' with
    | diffuse chunk' => rfl
    | point source' direction' chunk' =>
      have hne : source' ≠ source := fun heq => h source rfl (congrArg some heq)
      show Function.update (Function.update gains source _) source'
          (Reverb.encode direction' chunk' (Function.update gains source _ source')).2 =
        Function.update (Function.update gains source' _) source
          (Reverb.encode direction chunk (Function.update gains source' _ source)).2
      rw [Function.update_of_ne hne, Function.update_of_ne hne.symm,
        Function.update_comm hne.symm]

omit [DecidableEq κ] in
/-- In a list with distinct records, two members are apart or the same. -/
theorem apart_or_eq {l : List (Contribution κ)} (h : (l.filterMap source?).Nodup)
    {c c' : Contribution κ} (hc : c ∈ l) (hc' : c' ∈ l) : c.Apart c' ∨ c = c' := by
  have hpairs : l.Pairwise fun c c' : Contribution κ => c.Apart c' ∨ c = c' := by
    refine (List.pairwise_filterMap.mp h).imp fun hne => .inl fun k hk hk' => ?_
    exact hne k hk k hk' rfl
  have : Std.Symm fun c c' : Contribution κ => c.Apart c' ∨ c = c' :=
    ⟨fun _ _ h => h.imp Apart.symm Eq.symm⟩
  exact List.Pairwise.forall_of_forall (fun _ _ => .inr rfl) hpairs hc hc'

end Contribution

namespace Mixer

variable {κ : Type} [DecidableEq κ]

theorem add_eq (m : Mixer κ) (c : Contribution κ) :
    m.add c = ⟨m.reverb.addDiffuse (c.block m.gains), c.settle m.gains⟩ := by
  cases c <;> rfl

/-- Two contributions with records of their own commute. -/
theorem add_comm (m : Mixer κ) {c c' : Contribution κ} (h : c.Apart c') :
    (m.add c).add c' = (m.add c').add c := by
  have hinput : (m.reverb.addDiffuse (c.block m.gains)).addDiffuse (c'.block m.gains) =
      (m.reverb.addDiffuse (c'.block m.gains)).addDiffuse (c.block m.gains) :=
    congrArg (fun input => { m.reverb with input }) (m.reverb.input.mix_right_comm _ _)
  simp only [add_eq]
  rw [Contribution.block_settle h, Contribution.block_settle h.symm, hinput,
    Contribution.settle_comm h]

/-- **The order makes no difference.** -/
theorem addAll_perm (m : Mixer κ) {l l' : List (Contribution κ)}
    (h : (l.filterMap Contribution.source?).Nodup) (hperm : l.Perm l') :
    m.addAll l = m.addAll l' := by
  refine hperm.foldl_eq' (fun c hc c' hc' m => ?_) m
  rcases Contribution.apart_or_eq h hc hc' with hapart | rfl
  · exact m.add_comm hapart
  · rfl

end Mixer

/-! ## All of it -/

namespace Reverb

/-- **How sources are mixed.** A point source is added to the input block with gains that ramp to
those of its direction, and nothing else of the reverb changes. An empty chunk changes nothing at
all. Any number of point sources and sound fields, each point source with gains of its own, leave
the same reverb and the same gains in whatever order they are added. -/
theorem sources_mix (r : Reverb ℝ ℝ) :
    (∀ (direction : Direction ℝ) (chunk : Array ℝ) (gains : Sample ℝ), 0 < chunk.size →
      ∃ target input, Encodes direction target ∧ Ramped r.input chunk gains target input ∧
        r.addPointSource direction chunk gains = (target, { r with input })) ∧
      (∀ (direction : Direction ℝ) (gains : Sample ℝ),
        r.addPointSource direction #[] gains = (gains, r)) ∧
      ∀ (κ : Type) [DecidableEq κ] (gains : κ → Sample ℝ) (l l' : List (Contribution κ)),
        (l.filterMap Contribution.source?).Nodup → l.Perm l' →
          (Mixer.mk r gains).addAll l = (Mixer.mk r gains).addAll l' := by
  refine ⟨fun direction chunk gains h => ?_, r.addPointSource_empty, fun κ _ gains l l' => ?_⟩
  · refine ⟨encoding direction, _, encodes_encoding direction,
      ramped_mix r.input chunk gains (encoding direction), ?_⟩
    rw [addPointSource_eq, encode_eq direction h]
    rfl
  · exact Mixer.addAll_perm ⟨r, gains⟩

/-- Two point sources, one of them with a chunk longer than the block, and a sound field between
them. -/
noncomputable def smallSources : List (Contribution Bool) :=
  [.point true ⟨1, 0, 0⟩ #[1, 0, -1], .diffuse ⟨#[.pressure 1]⟩, .point false ⟨0, 0, 0⟩ #[1]]

theorem sources_mix_smallSources : ∃ r : Reverb ℝ ℝ, r.input.size = 2 ∧
    0 < (#[1, 0, -1] : Array ℝ).size ∧
    (smallSources.filterMap Contribution.source?).Nodup ∧
    smallSources.Perm smallSources.reverse ∧
    (∃ target input, Encodes ⟨1, 0, 0⟩ target ∧ Ramped r.input #[1, 0, -1] 0 target input ∧
      r.addPointSource ⟨1, 0, 0⟩ #[1, 0, -1] 0 = (target, { r with input })) ∧
    (Mixer.mk r fun _ => 0).addAll smallSources =
      (Mixer.mk r fun _ => 0).addAll smallSources.reverse := by
  let r : Reverb ℝ ℝ := { smallReverb with input := .silent 2 }
  have hsize : 0 < (#[1, 0, -1] : Array ℝ).size := by simp
  have hnodup : (smallSources.filterMap Contribution.source?).Nodup := by
    show [true, false].Nodup
    decide
  have hperm : smallSources.Perm smallSources.reverse := smallSources.reverse_perm.symm
  obtain ⟨hpoint, -, horder⟩ := sources_mix r
  exact ⟨r, by simp [r, Block.silent, Block.size], hsize, hnodup, hperm, hpoint _ _ _ hsize,
    horder Bool _ _ _ hnodup hperm⟩

end Reverb

end AmbisonicReverb
