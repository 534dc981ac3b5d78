import AmbisonicReverb.Proofs.Rest

/-!
# Histories of a network

What can happen to a network after it was made, as a list of moves. Whatever happens, a network
keeps its frame (`frame_applyAll`): the room for delays, the gain method, the mode and the input
allpasses. So the lines of a network have room for its delays at any time (`Roomy.applyAll`),
whatever lengths were set and wherever the heads are.
-/

namespace AmbisonicReverb.Network

variable {α β : Type}

/-- The capacity of the delay lines. Forward lines may need one cell more. -/
def lineCapacity (mode : Mode) (maxDelay : ℕ) : ℕ :=
  match mode with
  | .feedback => maxDelay
  | .forward => maxDelay + 1

/-- There are paths, and lines for their delays. -/
structure Roomy (n : Network α) : Prop where
  order_pos : 0 < n.order
  least_le : leastMaxDelay ≤ n.maxDelay
  capacity_eq : ∀ p ∈ n.paths, p.line.capacity = lineCapacity n.mode n.maxDelay

section

variable [Elementary α]

/-- A network can be made for every order but 0, and what it has then. -/
theorem exists_roomy_new {order : ℕ} (h : 0 < order) (maxDelay : ℕ) (law : DelayLaw)
    (method : GainMethod) (mode : Mode) :
    ∃ n : Network α, new order maxDelay law method mode = .ok n ∧ n.order = order ∧
      n.maxDelay = max maxDelay leastMaxDelay ∧ n.mode = mode ∧ n.Roomy := by
  unfold new
  rw [if_neg (by omega)]
  have hleast : leastMaxDelay = 3 := rfl
  refine ⟨_, rfl, Array.size_replicate, rfl, rfl, ?_, Nat.le_max_right _ _, ?_⟩
  · exact h.trans_eq Array.size_replicate.symm
  · intro p hp
    rw [(Array.mem_replicate.mp hp).2]
    refine (DelayLine.capacity_new _).trans ?_
    cases mode <;> simp only [lineCapacity] <;> omega

omit [Elementary α] in
/-- Room is a matter of the frame. -/
theorem Roomy.of_frame_eq [Scalar α] {m n : Network α} (h : n.Roomy) (hframe : m.frame = n.frame) :
    m.Roomy := by
  have horder := order_eq_of_frame_eq hframe
  have hdelay : m.maxDelay = n.maxDelay := congrArg (fun frame => frame.1) hframe
  have hmode : m.mode = n.mode := congrArg (fun frame => frame.2.2.1) hframe
  have hcapacity : m.paths.map (·.line.capacity) = n.paths.map (·.line.capacity) :=
    congrArg (fun frame => frame.2.2.2.1) hframe
  refine ⟨horder ▸ h.order_pos, hdelay ▸ h.least_le, fun p hp => ?_⟩
  have hmem : p.line.capacity ∈ m.paths.map (·.line.capacity) := Array.mem_map_of_mem hp
  rw [hcapacity] at hmem
  obtain ⟨q, hq, hpq⟩ := Array.mem_map.mp hmem
  rw [hdelay, hmode, ← hpq]
  exact h.capacity_eq q hq

/-! ## Moves -/

/-- What can happen to a network. -/
inductive Move (α : Type)
  | derive (d : NetworkDesign α)
  | setLaw (law : DelayLaw)
  | process (sources : Array (Sample α))
  | prefilter (s : Sample α)
  | take
  | clear
  | reset

variable [Elementary β] [Widening α β]

def Move.apply (n : Network α) : Move α → Network α
  | .derive d => n.derive d
  | .setLaw law => n.setLaw law
  | .process sources => n.process sources
  | .prefilter s => (n.prefilter s).2
  | .take => n.take.2
  | .clear => n.clear
  | .reset => n.reset

def applyAll (n : Network α) (moves : List (Move α)) : Network α := moves.foldl Move.apply n

theorem frame_apply (n : Network α) (m : Move α) : (m.apply n).frame = n.frame := by
  cases m with
  | derive d => exact frame_derive n d
  | setLaw | prefilter | take => rfl
  | process sources => exact frame_process n sources
  | clear => exact frame_clear n
  | reset => exact frame_reset n

/-- **Whatever happens to a network, its frame stays.** -/
theorem frame_applyAll (n : Network α) (moves : List (Move α)) :
    (n.applyAll moves).frame = n.frame := by
  induction moves generalizing n with
  | nil => rfl
  | cons m moves ih => exact (ih (m.apply n)).trans (frame_apply n m)

theorem order_applyAll (n : Network α) (moves : List (Move α)) :
    (n.applyAll moves).order = n.order :=
  order_eq_of_frame_eq (frame_applyAll n moves)

theorem maxDelay_applyAll (n : Network α) (moves : List (Move α)) :
    (n.applyAll moves).maxDelay = n.maxDelay :=
  congrArg (fun frame => frame.1) (frame_applyAll n moves)

theorem mode_applyAll (n : Network α) (moves : List (Move α)) :
    (n.applyAll moves).mode = n.mode :=
  congrArg (fun frame => frame.2.2.1) (frame_applyAll n moves)

theorem Roomy.applyAll {n : Network α} (h : n.Roomy) (moves : List (Move α)) :
    (n.applyAll moves).Roomy :=
  h.of_frame_eq (frame_applyAll n moves)

end

end AmbisonicReverb.Network
