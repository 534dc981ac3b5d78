import AmbisonicReverb.Parameters

/-!
# Control messages

What can be asked of a running reverb. Each message revises one part of the parameters.
-/

namespace AmbisonicReverb

namespace Parameters

variable {α : Type}

/-- A new room with new walls; the decay time is taken from the room again. -/
def withRoom [Scalar α] (p : Parameters α) (room : Room α) (damping absorption : α) :
    Parameters α :=
  { p with room, damping, absorption, decayTime := 0 }

def withLayout (p : Parameters α) (layout : Circulant.Layout) : Parameters α := { p with layout }

def withLaw (p : Parameters α) (law : DelayLaw) : Parameters α := { p with law }

end Parameters

inductive ControlMessage (α : Type)
  | room (dimensions : Room α) (damping absorption : α)
  | layout (layout : Circulant.Layout)
  | law (law : DelayLaw)
deriving DecidableEq

/-- What a message does to the parameters. -/
def ControlMessage.revise {α : Type} [Scalar α] (m : ControlMessage α) (p : Parameters α) :
    Parameters α :=
  match m with
  | .room dimensions damping absorption => p.withRoom dimensions damping absorption
  | .layout l => p.withLayout l
  | .law l => p.withLaw l

end AmbisonicReverb
