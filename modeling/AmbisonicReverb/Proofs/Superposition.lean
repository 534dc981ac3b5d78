import Mathlib
import AmbisonicReverb.Proofs.Fragments
import AmbisonicReverb.Proofs.Link

/-!
# Superposition

Read exactly, a reverb is a linear system: two sounds do not disturb each other.

**Theorem (`playAll_superpose`).** From silence, what is heard of two signals, each with its own
gain, is what is heard of each of them, with the same gains, however the signals are cut into
fragments.

Three runs are watched, over two signals and over their superposition. At each place of an engine,
in each cell, register and sum, the third run holds the superposition of the other two
(`Link.superposition`, `Engine.Superposed`). Each operation on a sample is linear and so keeps this;
a flush would not, but read exactly it changes nothing, and neither does the guard of the output,
since every number is finite. The coefficients have to be the same in all runs. They are, since all
three start from the same silent engine (`Engine.superposed_of_reset`).
-/

namespace AmbisonicReverb

/-! ## Samples -/

namespace Sample

/-- Two samples, each with its gain. -/
noncomputable def superpose (a b : ℝ) (s t : Sample ℝ) : Sample ℝ := s * a + t * b

section

variable (a b : ℝ) (s s' t t' : Sample ℝ)

theorem superpose_zero : superpose a b 0 0 = 0 := by
  have h : (0 : ℝ) * a + 0 * b = 0 := by ring
  exact eq_of_channels h h h h

theorem superpose_add :
    s.superpose a b t + s'.superpose a b t' = (s + s').superpose a b (t + t') := by
  have h (x x' y y' : ℝ) : x * a + y * b + (x' * a + y' * b) = (x + x') * a + (y + y') * b := by
    ring
  exact eq_of_channels (h _ _ _ _) (h _ _ _ _) (h _ _ _ _) (h _ _ _ _)

theorem superpose_sub :
    s.superpose a b t - s'.superpose a b t' = (s - s').superpose a b (t - t') := by
  have h (x x' y y' : ℝ) : x * a + y * b - (x' * a + y' * b) = (x - x') * a + (y - y') * b := by
    ring
  exact eq_of_channels (h _ _ _ _) (h _ _ _ _) (h _ _ _ _) (h _ _ _ _)

theorem superpose_mul (g : ℝ) : s.superpose a b t * g = (s * g).superpose a b (t * g) := by
  have h (x y : ℝ) : (x * a + y * b) * g = x * g * a + y * g * b := by ring
  exact eq_of_channels (h _ _) (h _ _) (h _ _) (h _ _)

theorem superpose_x : (s.superpose a b t).x = s.x * a + t.x * b := rfl

theorem superpose_y : (s.superpose a b t).y = s.y * a + t.y * b := rfl

theorem superpose_z : (s.superpose a b t).z = s.z * a + t.z * b := rfl

theorem superpose_rotate (q : Rotation ℝ) :
    (s.superpose a b t).rotate q = (s.rotate q).superpose a b (t.rotate q) := by
  refine eq_of_channels rfl ?_ ?_ ?_
  all_goals
    simp only [superpose_x, superpose_y, superpose_z, rotate, ofDirection, direction,
      Rotation.apply, Rotation.imag, Direction.cross, Direction.add, Direction.scale]
    ring

end

end Sample

/-- Three runs, of which the last one holds the superposition of the others. -/
def Link.superposition (a b : ℝ) : Link (Fin 3) ℝ where
  Joins s := s 2 = (s 0).superpose a b (s 1)
  Turns q := ∃ c, ∀ i, q i = c
  zero := (Sample.superpose_zero a b).symm
  add := by
    intro s t hs ht
    show s 2 + t 2 = _
    rw [hs, ht, Sample.superpose_add]
  sub := by
    intro s t hs ht
    show s 2 - t 2 = _
    rw [hs, ht, Sample.superpose_sub]
  mul := by
    intro s hs g
    show s 2 * g = _
    rw [hs, Sample.superpose_mul]
  flush := by
    intro s hs
    simp only [Sample.flush_eq]
    exact hs
  rotate := by
    rintro s q hs ⟨c, hc⟩
    simp only [hc]
    rw [hs, Sample.superpose_rotate]

variable {a b : ℝ}

/-- Three arrays are linked if the last one is the superposition of the others. -/
theorem Link.arrays_superposition_iff {u : Fin 3 → Array (Sample ℝ)} :
    (superposition a b).Arrays u ↔
      (u 0).size = (u 1).size ∧ u 2 = Array.zipWith (Sample.superpose a b) (u 0) (u 1) := by
  constructor
  · rintro ⟨⟨m, hm⟩, hentries⟩
    refine ⟨(hm 0).trans (hm 1).symm, Array.ext ?_ fun k hk _ => ?_⟩
    · rw [Array.size_zipWith, hm, hm, hm, Nat.min_self]
    · have hentry : (u 2).getD k 0 = ((u 0).getD k 0).superpose a b ((u 1).getD k 0) := hentries k
      have hk0 : k < (u 0).size := by rwa [hm 0, ← hm 2]
      have hk1 : k < (u 1).size := by rwa [hm 1, ← hm 2]
      simp only [Array.getD_eq_getD_getElem?, Array.getElem?_eq_getElem hk,
        Array.getElem?_eq_getElem hk0, Array.getElem?_eq_getElem hk1] at hentry
      rw [Array.getElem_zipWith]
      exact hentry
  · rintro ⟨hsize, hzip⟩
    refine arrays_of_size (m := (u 0).size) (fun i => ?_) fun k hk => ?_
    · fin_cases i
      · rfl
      · exact hsize.symm
      · exact (congrArg Array.size hzip).trans (by rw [Array.size_zipWith, hsize, Nat.min_self])
    · show (u 2).getD k 0 = ((u 0).getD k 0).superpose a b ((u 1).getD k 0)
      simp only [hzip, Array.getD_eq_getD_getElem?, Array.getElem?_zipWith,
        Array.getElem?_eq_getElem hk, Array.getElem?_eq_getElem (hsize ▸ hk)]
      rfl

/-! ## High-passes -/

namespace Biquad

/-- The third filter holds the superposition of what the others hold. -/
def Superposed (a b : ℝ) (f : Fin 3 → Biquad ℝ) : Prop :=
  ∃ (c : Biquad ℝ) (x y : Fin 3 → ℝ), (∀ i, f i = { c with z1 := x i, z2 := y i }) ∧
    x 2 = x 0 * a + x 1 * b ∧ y 2 = y 0 * a + y 1 * b

theorem Superposed.process {f : Fin 3 → Biquad ℝ} {v : Fin 3 → ℝ} (h : Superposed a b f)
    (hv : v 2 = v 0 * a + v 1 * b) :
    ((f 2).process (v 2)).1 = ((f 0).process (v 0)).1 * a + ((f 1).process (v 1)).1 * b ∧
      Superposed a b fun i => ((f i).process (v i)).2 := by
  obtain ⟨c, x, y, hf, hx, hy⟩ := h
  obtain rfl : f = fun i => { c with z1 := x i, z2 := y i } := funext hf
  have hout : x 2 + c.b0 * v 2 = (x 0 + c.b0 * v 0) * a + (x 1 + c.b0 * v 1) * b := by
    rw [hx, hv]
    ring
  refine ⟨hout, c, _, _, fun i => rfl, ?_, ?_⟩
  · simp only [Scalar.flush_eq, hx, hy, hv]
    ring
  · simp only [Scalar.flush_eq, hx, hv]
    ring

theorem superposed_of_reset {f : Biquad ℝ} (h : f.reset = f) : Superposed a b fun _ => f := by
  refine ⟨f, fun _ => 0, fun _ => 0, fun _ => h.symm, ?_, ?_⟩ <;> ring

end Biquad

/-! ## Engines -/

namespace Engine

/-- Three engines with the same coefficients. At each place the third one holds the superposition
of what the others hold. -/
structure Superposed (a b : ℝ) (e : Fin 3 → Engine ℝ ℝ) : Prop where
  networks : (Link.superposition a b).Engines e
  inputGain : ∃ c, ∀ i, (e i).inputGain = c
  lowCut : (∀ i, (e i).lowCut = none) ∨ ∃ f : Fin 3 → Sample (Biquad ℝ),
    (∀ i, (e i).lowCut = some (f i)) ∧ Biquad.Superposed a b (fun i => (f i).w) ∧
      Biquad.Superposed a b (fun i => (f i).x) ∧ Biquad.Superposed a b (fun i => (f i).y) ∧
      Biquad.Superposed a b fun i => (f i).z

variable {e : Fin 3 → Engine ℝ ℝ} {s : Fin 3 → Sample ℝ}

theorem Superposed.applyLowCut (h : Superposed a b e) (hs : (Link.superposition a b).Joins s) :
    (Link.superposition a b).Joins (fun i => ((e i).applyLowCut (s i)).1) ∧
      Superposed a b fun i => ((e i).applyLowCut (s i)).2 := by
  unfold Engine.applyLowCut
  rcases h.lowCut with hnone | ⟨f, hf, hw, hx, hy, hz⟩
  · simp only [hnone]
    exact ⟨hs, h⟩
  · obtain ⟨hwout, hw⟩ := hw.process (v := fun i => (s i).w) (congrArg Sample.w hs)
    obtain ⟨hxout, hx⟩ := hx.process (v := fun i => (s i).x) (congrArg Sample.x hs)
    obtain ⟨hyout, hy⟩ := hy.process (v := fun i => (s i).y) (congrArg Sample.y hs)
    obtain ⟨hzout, hz⟩ := hz.process (v := fun i => (s i).z) (congrArg Sample.z hs)
    simp only [hf]
    exact ⟨Sample.eq_of_channels hwout hxout hyout hzout,
      ⟨h.networks.usesPrefilter, h.networks.forward, h.networks.feedback⟩, h.inputGain,
      Or.inr ⟨_, fun _ => rfl, hw, hx, hy, hz⟩⟩

theorem tick_fst_eq (e : Engine ℝ ℝ) (s : Sample ℝ) : (e.tick s).1 = (e.processed s).output := by
  have hfinite : (e.processed s).output.isFinite = true := rfl
  rw [tick_eq, hfinite]
  rfl

theorem Superposed.tick (h : Superposed a b e) (hs : (Link.superposition a b).Joins s) :
    (Link.superposition a b).Joins (fun i => ((e i).tick (s i)).1) ∧
      Superposed a b fun i => ((e i).tick (s i)).2 := by
  have hnetworks := h.networks.tick hs
  have hout := (h.networks.processed hs).output
  simp only [tick_fst_eq]
  simp only [tick_eq] at hnetworks ⊢
  exact ⟨hout, hnetworks, h.inputGain, h.lowCut⟩

theorem Superposed.hear (h : Superposed a b e) (hs : (Link.superposition a b).Joins s) :
    (Link.superposition a b).Joins (fun i => ((e i).hear (s i)).1) ∧
      Superposed a b fun i => ((e i).hear (s i)).2 := by
  obtain ⟨g, hg⟩ := h.inputGain
  let L := Link.superposition a b
  have hin : L.Joins fun i => (0 + s i) * (e i).inputGain := by
    simp only [hg]
    exact L.mul (L.add L.zero hs) g
  obtain ⟨hcut, h⟩ := h.applyLowCut hin
  obtain ⟨hout, h⟩ := h.tick hcut
  exact ⟨L.add L.zero hout, h⟩

/-- A silent engine holds the superposition of silence and silence. -/
theorem superposed_of_reset {e : Engine ℝ ℝ} (h : e.reset = e) : Superposed a b fun _ => e := by
  have hturns : ∀ q, (Link.superposition a b).Turns fun _ => q := fun q => ⟨q, fun _ => rfl⟩
  have hforward : ∀ n ∈ e.forward, n.reset = n :=
    List.map_inj_left.mp ((congrArg Engine.forward h).trans (List.map_id e.forward).symm)
  refine ⟨⟨⟨_, fun _ => rfl⟩, Link.chains_of_reset hforward hturns,
    Link.networks_of_reset (congrArg Engine.feedback h) hturns⟩, ⟨_, fun _ => rfl⟩, ?_⟩
  have hlowCut : e.reset.lowCut = e.lowCut := by rw [h]
  cases hf : e.lowCut with
  | none => exact Or.inl fun _ => rfl
  | some f =>
    have hreset : (⟨f.w.reset, f.x.reset, f.y.reset, f.z.reset⟩ : Sample (Biquad ℝ)) = f := by
      unfold reset at hlowCut
      rw [hf] at hlowCut
      exact Option.some.inj hlowCut
    exact Or.inr ⟨fun _ => f, fun _ => rfl, Biquad.superposed_of_reset (congrArg Sample.w hreset),
      Biquad.superposed_of_reset (congrArg Sample.x hreset),
      Biquad.superposed_of_reset (congrArg Sample.y hreset),
      Biquad.superposed_of_reset (congrArg Sample.z hreset)⟩

/-- A run of three engines side by side. -/
theorem Superposed.runOver {u : Fin 3 → Array (Sample ℝ)} (h : Superposed a b e)
    (hu : (Link.superposition a b).Arrays u) :
    (Link.superposition a b).Arrays fun i =>
      (AmbisonicReverb.runOver Engine.hear (e i) (u i)).1 := by
  obtain ⟨m, hm⟩ := hu.size
  let v (i : Fin 3) (k : ℕ) : Sample ℝ := (u i).getD k 0
  have hcourse : ∀ k, Superposed a b fun i => course Engine.hear (e i) (v i) k := by
    intro k
    induction k with
    | zero => exact h
    | succ k ih => exact (ih.hear (hu.entries k)).2
  have hrun : ∀ i, (AmbisonicReverb.runOver Engine.hear (e i) (u i)).1 =
      Array.ofFn fun k : Fin m => ((course Engine.hear (e i) (v i) k).hear (v i k)).1 := by
    intro i
    have hui : u i = Array.ofFn fun k : Fin m => v i k := by
      refine Array.ext (by rw [Array.size_ofFn, hm]) fun k hk _ => ?_
      simp [v, Array.getD_eq_getD_getElem?, hk]
    rw [hui, runOver_ofFn]
  simp only [hrun]
  exact Link.arrays_ofFn (fun k => ((hcourse k).hear (hu.entries k)).1) m

end Engine

/-! ## Reverbs -/

namespace Reverb

/-- **Superposition.** A reverb with a silent engine is played two signals of the same length, and
their superposition. What is heard of the superposition is the superposition of what is heard of
the signals, however each of the three is cut into fragments. -/
theorem playAll_superpose {r : Reverb ℝ ℝ} {e : Engine ℝ ℝ} (he : r.engine? = some e)
    (hsilent : e.reset = e) {n : ℕ} (hinput : r.input = .silent n) (a b : ℝ)
    {u v : Array (Sample ℝ)} (hsize : u.size = v.size) {first second both : List (Block ℝ)}
    (hfirst : Block.Cut n u first) (hsecond : Block.Cut n v second)
    (hboth : Block.Cut n (Array.zipWith (Sample.superpose a b) u v) both) :
    (r.playAll both).1 =
      Array.zipWith (Sample.superpose a b) (r.playAll first).1 (r.playAll second).1 := by
  rw [playAll_eq he hinput hfirst.size_le, playAll_eq he hinput hsecond.size_le,
    playAll_eq he hinput hboth.size_le, hfirst.join_eq, hsecond.join_eq, hboth.join_eq]
  have hsignals : (Link.superposition a b).Arrays
      ![u, v, Array.zipWith (Sample.superpose a b) u v] :=
    Link.arrays_superposition_iff.mpr ⟨hsize, rfl⟩
  have hrun := (Engine.superposed_of_reset hsilent).runOver hsignals
  exact (Link.arrays_superposition_iff.mp hrun).2

/-- The small room with everything that the input can run through. -/
noncomputable def stagedRoom : Config ℝ :=
  { smallRoom with order := 2, forwardStages := 2, prefilter := true, lowCut := 1 }

theorem new_stagedRoom : Reverb.new stagedRoom =
    .ok { smallReverb with config := stagedRoom, parameters := .ofConfig stagedRoom } := by
  have hcheck : stagedRoom.check = .ok .shortest := check_smallRoom
  unfold Reverb.new
  rw [hcheck]
  rfl

/-- A second signal for the example, with a sample from one side. -/
noncomputable def sidedSignal : Array (Sample ℝ) := #[⟨1, 0, 1, 0⟩, .pressure (-1), 0]

theorem cut_sidedSignal :
    Block.Cut 16 sidedSignal [⟨#[⟨1, 0, 1, 0⟩]⟩, ⟨#[.pressure (-1), 0]⟩] := by
  refine ⟨?_, rfl⟩
  simp [Block.size]

/-- Two signals, each in pieces of its own, and their superposition in one piece. -/
theorem playAll_superpose_smallCuts :
    ∃ (r : Reverb ℝ ℝ) (e : Engine ℝ ℝ) (u : Array (Sample ℝ)) (sided both : List (Block ℝ)),
      (r.engine? = some e ∧ e.reset = e ∧ r.input = .silent 16 ∧ u.size = sidedSignal.size ∧
        Block.Cut 16 u smallCuts.2 ∧ Block.Cut 16 sidedSignal sided ∧
        Block.Cut 16 (Array.zipWith (Sample.superpose 3 (-1)) u sidedSignal) both) ∧
      (r.playAll both).1 = Array.zipWith (Sample.superpose 3 (-1)) (r.playAll smallCuts.2).1
        (r.playAll sided).1 := by
  have hrate : Scalar.isFinite (Scalar.ofNat 1000 : ℝ) ∧ (1 : ℝ) ≤ Scalar.ofNat 1000 := by
    rw [Scalar.ofNat_eq]
    exact ⟨rfl, by norm_num⟩
  obtain ⟨r, hr⟩ := exists_configure (β := ℝ) new_stagedRoom hrate 16
  obtain ⟨e, -, hsilent, he, hinput⟩ := configure_new new_stagedRoom hr
  let u : Array (Sample ℝ) := #[.pressure 1, .pressure 0, .pressure (-1)]
  have hsize : u.size = sidedSignal.size := rfl
  have hboth : Block.Cut 16 (Array.zipWith (Sample.superpose 3 (-1)) u sidedSignal)
      [⟨Array.zipWith (Sample.superpose 3 (-1)) u sidedSignal⟩] := by
    refine ⟨?_, Array.append_empty⟩
    simp [u, sidedSignal, Block.size]
  exact ⟨r, e, u, _, _,
    ⟨he, hsilent, hinput, hsize, cut_smallCuts.2, cut_sidedSignal, hboth⟩,
    playAll_superpose he hsilent hinput 3 (-1) hsize cut_smallCuts.2 cut_sidedSignal hboth⟩

end Reverb

end AmbisonicReverb
