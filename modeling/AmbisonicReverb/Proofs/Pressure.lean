import AmbisonicReverb.Proofs.Flow
import AmbisonicReverb.Proofs.Link

/-!
# The pressure is not turned

Decay times are measured on the pressure alone, and a room is fitted to them without regard to the
rotations. Both rely on the channels of a sample being kept apart: nothing that happens to the
directional channels is ever heard on the pressure, not even if they are infinite or have no value.

**Theorem (`pressure_run_eq`).** Two networks that were made the same way and derived from designs
that differ in their rotations only, run on sources with the same pressure, have the same pressure
on every path and on their output after every step.

Two runs with the same pressure are linked (`Link.pressure`), since a rotation copies the pressure
and all other operations work channel by channel. What a rotation is does not enter.
-/

namespace AmbisonicReverb

/-- Two runs with the same pressure. -/
def Link.pressure (α : Type) [Scalar α] : Link Bool α where
  Joins s := (s true).w = (s false).w
  Turns _ := True
  zero := rfl
  add hs ht := congrArg₂ (· + ·) hs ht
  sub hs ht := congrArg₂ (· - ·) hs ht
  mul hs g := congrArg (· * g) hs
  flush hs := congrArg Scalar.flush hs
  rotate hs _ := hs

namespace Link

section

variable {α : Type} [Scalar α]

/-- Arrays of the same pressure are linked, and there are no others. -/
theorem arrays_pressure_iff {a : Bool → Array (Sample α)} :
    (pressure α).Arrays a ↔ (a true).map Sample.w = (a false).map Sample.w := by
  constructor
  · rintro ⟨⟨m, hm⟩, hentries⟩
    refine Array.ext (by rw [Array.size_map, Array.size_map, hm, hm]) fun k hk hk' => ?_
    have hentry : ((a true).getD k 0).w = ((a false).getD k 0).w := hentries k
    rw [Array.size_map] at hk hk'
    rw [Array.getD_eq_getD_getElem?, Array.getD_eq_getD_getElem?, Array.getElem?_eq_getElem hk,
      Array.getElem?_eq_getElem hk'] at hentry
    rw [Array.getElem_map, Array.getElem_map]
    exact hentry
  · intro h
    have hsize : (a true).size = (a false).size := by simpa using congrArg Array.size h
    refine ⟨⟨(a false).size, fun i => by cases i <;> simp [hsize]⟩, fun k => ?_⟩
    have hentry := congrArg (·.getD k 0) h
    show ((a true).getD k 0).w = ((a false).getD k 0).w
    simp only [Array.getD_eq_getD_getElem?, Array.getElem?_map] at hentry ⊢
    cases hp : (a true)[k]? <;> cases hq : (a false)[k]? <;> rw [hp, hq] at hentry <;> exact hentry

end

variable {ι α β : Type} [Elementary α] [Elementary β] [Widening α β] {L : Link ι α}

/-- Derivations from designs that differ in their rotations are linked, if the rotations may. -/
theorem networks_derive [Nonempty ι] (n : Network α) (design : NetworkDesign α)
    (turn spread : ι → α)
    (hturns : ∀ k, L.Turns fun i =>
      { design with turn := turn i, spread := spread i }.pathRotation n.order k) :
    L.Networks fun i => n.derive { design with turn := turn i, spread := spread i } := by
  refine ⟨⟨n.mode, fun _ => rfl⟩,
    ⟨Circulant.matrix design.layout (Circulant.row n.order), fun _ => rfl⟩,
    ⟨n.order, fun _ => Network.order_derive n _⟩,
    reflections_reset (n.prefilters.1.setLowpass (n.designGain design) design.damping),
    reflections_reset (n.prefilters.2.setLowpass (n.designGain design) design.damping), L.zero,
    fun k p hp => ?_⟩
  simp only [Network.getElem?_derive_paths] at hp
  obtain ⟨q, rfl⟩ := exists_eq_of_map hp
  -- The line and the filter of a path do not depend on the rotations.
  exact ⟨lines_of_silent (Network.silent_derivedPath n design k q),
    reflections_reset (n.derivedPath design k q).reflection, hturns k, L.zero⟩

end Link

variable {α β : Type} [Elementary α] [Elementary β] [Widening α β]

/-- **The pressure is not turned.** For every order but 0 a network can be made. Derived from two
designs that differ in their turn and spread only, and run on sources with the same pressure, it has
the same pressure on each path and on its output after every step, whatever the directional channels
are. -/
theorem Network.pressure_run_eq {order : Nat} (h : 0 < order) (maxDelay : Nat) (law : DelayLaw)
    (method : GainMethod) (mode : Mode) (design : NetworkDesign α) (turn spread : α)
    {src src' : Nat → Array (Sample α)}
    (hsrc : ∀ t, (src t).map Sample.w = (src' t).map Sample.w) :
    ∃ n : Network α, Network.new order maxDelay law method mode = .ok n ∧ ∀ t,
      ((n.derive design).run src t).outputs.map Sample.w =
          ((n.derive { design with turn, spread }).run src' t).outputs.map Sample.w ∧
        ((n.derive design).run src t).output.w =
          ((n.derive { design with turn, spread }).run src' t).output.w := by
  obtain ⟨n, hn, -⟩ := exists_new h maxDelay law method mode (α := α)
  refine ⟨n, hn, fun t => ?_⟩
  have hderived := Link.networks_derive (L := Link.pressure α) n design
    (fun i => cond i design.turn turn) (fun i => cond i design.spread spread) fun _ => trivial
  have hsources : ∀ t, (Link.pressure α).Arrays fun i => (cond i src src') t :=
    fun t => Link.arrays_pressure_iff.mpr (hsrc t)
  have hrun := hderived.run hsources t
  exact ⟨Link.arrays_pressure_iff.mp hrun.outputs, hrun.output⟩

/-- Sources with the same pressure; the directional channels of the second ones have no value. -/
def smallSources (t : Nat) : Array (Sample Float32) × Array (Sample Float32) :=
  let undefined : Float32 := 0 / 0
  let w := Float32.ofNat t
  (Array.replicate 3 (.pressure w), Array.replicate 3 ⟨w, undefined, -undefined, 1 / 0⟩)

theorem Network.pressure_run_eq_smallSources :
    (0 < 3 ∧ ∀ t, (smallSources t).1.map Sample.w = (smallSources t).2.map Sample.w) ∧
      ∃ n : Network Float32, Network.new 3 100 .geometric .schroeder .feedback = .ok n ∧ ∀ t,
        ((n.derive smallDesign).run (fun t => (smallSources t).1) t).outputs.map Sample.w =
            ((n.derive { smallDesign with turn := 0, spread := 1 }).run
              (fun t => (smallSources t).2) t).outputs.map Sample.w ∧
          ((n.derive smallDesign).run (fun t => (smallSources t).1) t).output.w =
            ((n.derive { smallDesign with turn := 0, spread := 1 }).run
              (fun t => (smallSources t).2) t).output.w := by
  have hsources : ∀ t, (smallSources t).1.map Sample.w = (smallSources t).2.map Sample.w := by
    intro t
    simp [smallSources, Sample.pressure]
  exact ⟨⟨by decide, hsources⟩, Network.pressure_run_eq (by decide) 100 .geometric .schroeder
    .feedback smallDesign 0 1 hsources⟩

end AmbisonicReverb
