import AmbisonicReverb.Rotation

/-!
# Ambisonic samples

A first-order ambisonic sample carries a sound field in four channels: the pressure W, and the
figures-of-eight X (front and back), Y (left and right) and Z (up and down). All arithmetic works
channel by channel; a rotation of the field touches X, Y and Z only.
-/

namespace AmbisonicReverb

structure Sample (α : Type) where
  w : α
  x : α
  y : α
  z : α
deriving DecidableEq, Repr

namespace Sample

/-- Applies `f` to each channel. -/
@[inline] def map {α β : Type} (f : α → β) (s : Sample α) : Sample β := ⟨f s.w, f s.x, f s.y, f s.z⟩

/-- The directional channels. -/
@[inline] def direction {α : Type} (s : Sample α) : Direction α := ⟨s.x, s.y, s.z⟩

@[inline] def ofDirection {α : Type} (w : α) (v : Direction α) : Sample α := ⟨w, v.x, v.y, v.z⟩

theorem eq_of_channels {α : Type} {s t : Sample α} (hw : s.w = t.w) (hx : s.x = t.x)
    (hy : s.y = t.y) (hz : s.z = t.z) : s = t := by
  cases s
  cases t
  subst hw hx hy hz
  rfl

variable {α : Type} [Scalar α]

@[inline] instance : Zero (Sample α) := ⟨⟨0, 0, 0, 0⟩⟩

@[inline] instance : Add (Sample α) := ⟨fun s t => ⟨s.w + t.w, s.x + t.x, s.y + t.y, s.z + t.z⟩⟩

@[inline] instance : Sub (Sample α) := ⟨fun s t => ⟨s.w - t.w, s.x - t.x, s.y - t.y, s.z - t.z⟩⟩

@[inline] instance : HMul (Sample α) α (Sample α) := ⟨fun s g => s.map (· * g)⟩

/-- A sample of pressure alone. -/
@[inline] def pressure (a : α) : Sample α := ⟨a, 0, 0, 0⟩

@[inline] def flush (s : Sample α) : Sample α := s.map Scalar.flush

@[inline] def isFinite (s : Sample α) : Bool :=
  Scalar.isFinite s.w && Scalar.isFinite s.x && Scalar.isFinite s.y && Scalar.isFinite s.z

@[inline] def energy (s : Sample α) : α := s.w * s.w + s.x * s.x + s.y * s.y + s.z * s.z

/-- Equality of all channels as the order sees it. -/
def agrees (s t : Sample α) : Bool :=
  Scalar.agrees s.w t.w && Scalar.agrees s.x t.x && Scalar.agrees s.y t.y && Scalar.agrees s.z t.z

/-- Turns the sound field. -/
@[inline] def rotate (q : Rotation α) (s : Sample α) : Sample α :=
  ofDirection s.w (q.apply s.direction)

/-! ## Channels of the results -/

section

variable (s t : Sample α) (g : α) (q : Rotation α)

@[simp] theorem zero_w : (0 : Sample α).w = 0 := rfl

@[simp] theorem add_w : (s + t).w = s.w + t.w := rfl

@[simp] theorem sub_w : (s - t).w = s.w - t.w := rfl

@[simp] theorem mul_w : (s * g).w = s.w * g := rfl

@[simp] theorem flush_w : s.flush.w = Scalar.flush s.w := rfl

/-- A rotation does not touch the pressure. -/
@[simp] theorem rotate_w : (s.rotate q).w = s.w := rfl

@[simp] theorem zero_direction : (0 : Sample α).direction = ⟨0, 0, 0⟩ := rfl

@[simp] theorem add_direction : (s + t).direction = s.direction.add t.direction := rfl

@[simp] theorem mul_direction : (s * g).direction = s.direction.scale g := rfl

@[simp] theorem rotate_direction : (s.rotate q).direction = q.apply s.direction := rfl

end

end Sample

end AmbisonicReverb
