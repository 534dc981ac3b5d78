import AmbisonicReverb.Sample

/-!
# Blocks

A block is one fragment of an ambisonic signal, sample by sample. Its channels are numbered in the
order W, Y, Z, X.
-/

namespace AmbisonicReverb

inductive Channel
  | w
  | y
  | z
  | x
deriving DecidableEq, Repr

def Channel.number : Channel → Nat
  | w => 0
  | y => 1
  | z => 2
  | x => 3

structure Block (α : Type) where
  samples : Array (Sample α)

namespace Block

variable {α : Type}

def size (b : Block α) : Nat := b.samples.size

/-- One channel of each sample. -/
def channel (b : Block α) (c : Channel) : Array α :=
  b.samples.map fun s => match c with
    | .w => s.w
    | .x => s.x
    | .y => s.y
    | .z => s.z

/-- Replaces the first values of one channel. -/
def overwrite (b : Block α) (c : Channel) (values : Array α) : Block α where
  samples := b.samples.mapIdx fun i s => match values[i]? with
    | none => s
    | some v => match c with
      | .w => { s with w := v }
      | .x => { s with x := v }
      | .y => { s with y := v }
      | .z => { s with z := v }

variable [Scalar α]

/-- A silent block. -/
def silent (size : Nat) : Block α := ⟨Array.replicate size 0⟩

def clear (b : Block α) : Block α := silent b.size

/-- Adds a sample to one place. -/
def addAt (b : Block α) (i : Nat) (s : Sample α) : Block α := ⟨b.samples.modify i (· + s)⟩

def scale (b : Block α) (g : α) : Block α := ⟨b.samples.map (· * g)⟩

/-- Adds the samples of another block, as far as both reach. -/
def mix (b c : Block α) : Block α where
  samples := b.samples.mapIdx fun i s => match c.samples[i]? with
    | none => s
    | some t => s + t

end Block

end AmbisonicReverb
