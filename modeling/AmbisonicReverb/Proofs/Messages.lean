import Mathlib
import AmbisonicReverb.Proofs.Operations

/-!
# Control messages commute

There are three kinds of control messages, and each revises parameters of its own. What a queue
leaves of the parameters therefore depends on the last message of each kind alone
(`Parameters.foldl_revise`), whatever stands between them.

**Theorem (`poll_eq_of_same_kinds`).** Two queues with the same messages of each kind, in the same
order, leave the same parameters and the same settings of all networks, in whatever order messages
of different kinds come.

Each message derives all networks again, so the networks go through different settings on the way.
That leaves no trace, since the settings of a reachable reverb follow from its parameters alone
(`Engine.Current.settings_eq`).
-/

namespace AmbisonicReverb

/-! ## Kinds of messages -/

namespace ControlMessage

variable {α : Type}

inductive Kind
  | room
  | layout
  | law
deriving DecidableEq

def kind : ControlMessage α → Kind
  | .room .. => .room
  | .layout _ => .layout
  | .law _ => .law

/-- The room of a message, with damping and absorption. -/
def room? : ControlMessage α → Option (Room α × α × α)
  | .room dimensions damping absorption => some (dimensions, damping, absorption)
  | _ => none

def layout? : ControlMessage α → Option Circulant.Layout
  | .layout l => some l
  | _ => none

def law? : ControlMessage α → Option DelayLaw
  | .law l => some l
  | _ => none

/-- The queues have the same messages of each kind, in the same order. -/
def SameKinds (queue queue' : List (ControlMessage α)) : Prop :=
  ∀ kind : Kind, queue.filter (·.kind = kind) = queue'.filter (·.kind = kind)

theorem filterMap_filter_kind {γ : Type} {f : ControlMessage α → Option γ} {kind : Kind}
    (hf : ∀ m, (f m).isSome → m.kind = kind) (queue : List (ControlMessage α)) :
    (queue.filter (·.kind = kind)).filterMap f = queue.filterMap f := by
  rw [List.filterMap_filter]
  refine List.filterMap_congr fun m _ => ?_
  cases h : f m with
  | none => simp
  | some a => simp [hf m (by simp [h])]

end ControlMessage

/-! ## What a queue leaves of the parameters -/

namespace ControlMessage

variable {α γ : Type}

/-- What the last message that says something about a part of the parameters says about it. -/
def latest (part? : ControlMessage α → Option γ) (queue : List (ControlMessage α)) : Option γ :=
  queue.reverse.findSome? part?

theorem latest_append (part? : ControlMessage α → Option γ) (queue : List (ControlMessage α))
    (m : ControlMessage α) : latest part? (queue ++ [m]) = (part? m).or (latest part? queue) := by
  simp only [latest, List.reverse_append, List.reverse_singleton, List.singleton_append,
    List.findSome?_cons]
  cases part? m <;> rfl

theorem SameKinds.latest_eq {queue queue' : List (ControlMessage α)} (h : SameKinds queue queue')
    {part? : ControlMessage α → Option γ} (kind : Kind)
    (hpart : ∀ m, (part? m).isSome → m.kind = kind) : latest part? queue = latest part? queue' := by
  have hfilter : ∀ l : List (ControlMessage α),
      latest part? l = ((l.filter (·.kind = kind)).filterMap part?).getLast? := by
    intro l
    rw [filterMap_filter_kind hpart, List.getLast?_filterMap]
    rfl
  rw [hfilter, hfilter, h kind]

end ControlMessage

open ControlMessage (latest)

namespace Parameters

variable {α : Type} [Scalar α]

/-- The parameters with the last room, the last layout and the last delay law of a queue. A room
takes the decay time back to 0; all else stays. -/
def settle (p : Parameters α) (queue : List (ControlMessage α)) : Parameters α :=
  let housed := match latest ControlMessage.room? queue with
    | some (room, damping, absorption) => { p with room, damping, absorption, decayTime := 0 }
    | none => p
  { housed with
    layout := (latest ControlMessage.layout? queue).getD p.layout
    law := (latest ControlMessage.law? queue).getD p.law }

theorem settle_append (p : Parameters α) (queue : List (ControlMessage α))
    (m : ControlMessage α) : p.settle (queue ++ [m]) = m.revise (p.settle queue) := by
  unfold settle
  simp only [ControlMessage.latest_append]
  cases latest ControlMessage.room? queue <;> cases m <;> rfl

/-- **The last message of each kind counts.** -/
theorem foldl_revise (p : Parameters α) (queue : List (ControlMessage α)) :
    queue.foldl (fun p m => m.revise p) p = p.settle queue := by
  induction queue using List.reverseRecOn with
  | nil => rfl
  | append_singleton queue m ih => rw [List.foldl_append, ih, settle_append]; rfl

theorem settle_eq_of_sameKinds {queue queue' : List (ControlMessage α)}
    (h : ControlMessage.SameKinds queue queue') (p : Parameters α) :
    p.settle queue = p.settle queue' := by
  have hroom : latest ControlMessage.room? queue = latest ControlMessage.room? queue' :=
    h.latest_eq .room fun m hm => by cases m <;> first | rfl | exact nomatch hm
  have hlayout : latest ControlMessage.layout? queue = latest ControlMessage.layout? queue' :=
    h.latest_eq .layout fun m hm => by cases m <;> first | rfl | exact nomatch hm
  have hlaw : latest ControlMessage.law? queue = latest ControlMessage.law? queue' :=
    h.latest_eq .law fun m hm => by cases m <;> first | rfl | exact nomatch hm
  unfold settle
  rw [hroom, hlayout, hlaw]

end Parameters

/-! ## Settings of a whole engine -/

namespace Engine

variable {α β : Type}

/-- What a derivation sets on an engine. -/
structure Settings (α : Type) where
  inputGain : α
  forward : List (Network.Settings α)
  feedback : Network.Settings α

def settings (e : Engine α β) : Settings α :=
  ⟨e.inputGain, e.forward.map Network.settings, e.feedback.settings⟩

variable [Elementary α] [Elementary β] [Widening α β]

omit [Widening α β] in
theorem settings_rest (e : Engine α β) : e.rest.settings = e.settings := by
  have hforward : e.forward.map (Network.settings ∘ Network.rest) =
      e.forward.map Network.settings := List.map_congr_left fun n _ => n.settings_rest
  simp only [settings, rest, List.map_map, hforward, Network.settings_rest]

/-- The settings follow from configuration, sample rate and parameters. -/
theorem Current.settings_eq {c : Config α} {method : GainMethod} {p : Parameters α}
    {e f : Engine α β} (he : e.Current c method p) (hf : f.Current c method p)
    (hrate : e.sampleRate = f.sampleRate) : e.settings = f.settings := by
  obtain ⟨fresh, hnew, -, hrest⟩ := he
  obtain ⟨fresh', hnew', -, hrest'⟩ := hf
  rw [hrate] at hnew
  obtain rfl := Except.ok.inj (hnew.symm.trans hnew')
  rw [← settings_rest e, hrest, ← hrest', settings_rest]

end Engine

/-! ## Polling -/

namespace Reverb

variable {α β : Type} [Elementary α] [Elementary β] [Widening α β]

/-- Takes messages off a queue until none is left, and applies each. Says how many there were, and
what is left of the queue. -/
def poll (r : Reverb α β) : List (ControlMessage α) → (ℕ × List (ControlMessage α)) × Reverb α β
  | [] => ((0, []), r)
  | m :: queue =>
    let ((count, left), r) := (r.apply m).poll queue
    ((count + 1, left), r)

theorem applyAll_eq (r : Reverb α β) (queue : List (ControlMessage α)) :
    r.applyAll queue = (queue.length, queue.foldl apply r) := by
  have hcount : ∀ (r : Reverb α β) (count : ℕ),
      queue.foldl (fun s m => (s.1 + 1, s.2.apply m)) (count, r) =
        (count + queue.length, queue.foldl apply r) := by
    induction queue with
    | nil => exact fun _ _ => rfl
    | cons m queue ih =>
      intro r count
      rw [List.foldl_cons, ih, List.length_cons, List.foldl_cons, Nat.add_right_comm, Nat.add_assoc]
  exact (hcount r 0).trans (by rw [Nat.zero_add])

/-- Polling counts and applies the whole queue, and leaves nothing of it. -/
theorem poll_eq (r : Reverb α β) (queue : List (ControlMessage α)) :
    r.poll queue = (((r.applyAll queue).1, []), (r.applyAll queue).2) := by
  rw [applyAll_eq]
  induction queue generalizing r with
  | nil => rfl
  | cons m queue ih => rw [poll, ih]; rfl

theorem parameters_applyAll (r : Reverb α β) (queue : List (ControlMessage α)) :
    (r.applyAll queue).2.parameters = r.parameters.settle queue := by
  rw [applyAll_eq, ← Parameters.foldl_revise]
  induction queue generalizing r with
  | nil => rfl
  | cons m queue ih => exact ih (r.apply m)

theorem sampleRate?_applyAll (r : Reverb α β) (queue : List (ControlMessage α)) :
    (r.applyAll queue).2.sampleRate? = r.sampleRate? := by
  rw [applyAll_eq]
  induction queue generalizing r with
  | nil => rfl
  | cons m queue ih =>
    have hrate : (r.apply m).sampleRate? = r.sampleRate? := by
      simp only [sampleRate?, Reverb.apply, Reverb.update, rederive, Option.map_map]
      rfl
    exact (ih (r.apply m)).trans hrate

variable {c : Config α} {r : Reverb α β}

/-- What is derived follows from configuration, sample rate and parameters. -/
theorem Current.settings_eq {r' : Reverb α β} (h : r.Current c) (h' : r'.Current c)
    (hparameters : r.parameters = r'.parameters) (hrate : r.sampleRate? = r'.sampleRate?) :
    r.engine.map Engine.settings = r'.engine.map Engine.settings := by
  have hmethod : r.method = r'.method := Except.ok.inj (h.check_eq.symm.trans h'.check_eq)
  unfold sampleRate? at hrate
  cases he : r.engine with
  | none =>
    rw [he] at hrate
    rw [Option.map_eq_none_iff.mp hrate.symm]
  | some e =>
    rw [he] at hrate
    obtain ⟨e', he', hrate⟩ := Option.map_eq_some_iff.mp hrate.symm
    have hcurrent' := h'.engine e' he'
    rw [← hmethod, ← hparameters] at hcurrent'
    rw [he', Option.map_some, Option.map_some, (h.engine e he).settings_eq hcurrent' hrate.symm]

/-- **Messages of different kinds commute.** -/
theorem poll_eq_of_same_kinds (h : Reachable c r) {queue queue' : List (ControlMessage α)}
    (hkinds : ControlMessage.SameKinds queue queue') :
    ((r.poll queue).1 = (queue.length, []) ∧ (r.poll queue').1 = (queue'.length, [])) ∧
      (r.poll queue).2.parameters = r.parameters.settle queue ∧
      (r.poll queue').2.parameters = r.parameters.settle queue ∧
      (r.poll queue).2.engine.map Engine.settings =
        (r.poll queue').2.engine.map Engine.settings := by
  have hcurrent := current_of_reachable h
  have hsettle : r.parameters.settle queue' = r.parameters.settle queue :=
    (Parameters.settle_eq_of_sameKinds hkinds _).symm
  simp only [poll_eq]
  refine ⟨⟨by rw [applyAll_eq], by rw [applyAll_eq]⟩, parameters_applyAll r queue,
    (parameters_applyAll r queue').trans hsettle, ?_⟩
  apply (hcurrent.applyAll queue).settings_eq (hcurrent.applyAll queue')
  · rw [parameters_applyAll, parameters_applyAll, hsettle]
  · rw [sampleRate?_applyAll, sampleRate?_applyAll]

/-- Two rooms, two delay laws and a layout, in two orders. -/
noncomputable def smallQueues : List (ControlMessage ℝ) × List (ControlMessage ℝ) :=
  ([.law .squareRoot, .room ⟨1, 1, 1⟩ 0 1, .layout .fixed, .room ⟨1, 1, 1⟩ 1 1, .law .geometric],
    [.room ⟨1, 1, 1⟩ 0 1, .room ⟨1, 1, 1⟩ 1 1, .law .squareRoot, .law .geometric, .layout .fixed])

theorem poll_eq_of_same_kinds_smallQueues : ∃ r : Reverb ℝ ℝ,
    (Reachable smallRoom r ∧ ControlMessage.SameKinds smallQueues.1 smallQueues.2) ∧
      ((r.poll smallQueues.1).1 = (smallQueues.1.length, []) ∧
        (r.poll smallQueues.2).1 = (smallQueues.2.length, [])) ∧
      (r.poll smallQueues.1).2.parameters = r.parameters.settle smallQueues.1 ∧
      (r.poll smallQueues.2).2.parameters = r.parameters.settle smallQueues.1 ∧
      (r.poll smallQueues.1).2.engine.map Engine.settings =
        (r.poll smallQueues.2).2.engine.map Engine.settings := by
  obtain ⟨e, -, hconfigure, -⟩ := configure_smallReverb
  have hreachable :
      Reachable smallRoom { smallReverb with engine := some e, input := .silent 16 } :=
    ⟨smallReverb, new_smallRoom, Relation.ReflTransGen.single (.configure hconfigure)⟩
  have hkinds : ControlMessage.SameKinds smallQueues.1 smallQueues.2 := by
    intro kind
    cases kind <;> rfl
  exact ⟨_, ⟨hreachable, hkinds⟩, poll_eq_of_same_kinds hreachable hkinds⟩

end Reverb

end AmbisonicReverb
