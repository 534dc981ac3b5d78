import AmbisonicReverb.Scalar

/-!
# Rotations

Rotations of the sound field, held as quaternions. A rotation by an angle about a unit axis has
the half angle's cosine as its scalar part, and rotations compose by Hamilton's product.
-/

namespace AmbisonicReverb

/-- A direction, or the directional part of a sample. -/
structure Direction (α : Type) where
  x : α
  y : α
  z : α
deriving DecidableEq

namespace Direction

variable {α : Type} [Scalar α]

@[inline] def cross (u v : Direction α) : Direction α :=
  ⟨u.y * v.z - u.z * v.y, u.z * v.x - u.x * v.z, u.x * v.y - u.y * v.x⟩

@[inline] def add (u v : Direction α) : Direction α := ⟨u.x + v.x, u.y + v.y, u.z + v.z⟩

@[inline] def scale (u : Direction α) (g : α) : Direction α := ⟨u.x * g, u.y * g, u.z * g⟩

@[inline] def map {β : Type} (f : α → β) (u : Direction α) : Direction β := ⟨f u.x, f u.y, f u.z⟩

/-- The length of a direction. -/
def norm {α : Type} [Elementary α] (u : Direction α) : α :=
  Elementary.sqrt (u.x * u.x + u.y * u.y + u.z * u.z)

end Direction

/-- A quaternion, written by its real part and its three imaginary parts. -/
structure Rotation (α : Type) where
  re : α
  i : α
  j : α
  k : α
deriving DecidableEq

namespace Rotation

variable {α : Type}

def identity [Scalar α] : Rotation α := ⟨1, 0, 0, 0⟩

/-- The rotation by `angle` about `axis`, which is used as it is. -/
def about [Elementary α] (axis : Direction α) (angle : α) : Rotation α :=
  let half := angle / 2.0
  let s := Elementary.sin half
  ⟨Elementary.cos half, axis.x * s, axis.y * s, axis.z * s⟩

/-- The rotations about the three axes. -/
def aboutX [Elementary α] (angle : α) : Rotation α := about ⟨1, 0, 0⟩ angle

def aboutY [Elementary α] (angle : α) : Rotation α := about ⟨0, 1, 0⟩ angle

def aboutZ [Elementary α] (angle : α) : Rotation α := about ⟨0, 0, 1⟩ angle

/-- First `q`, then `p`. -/
def comp [Scalar α] (p q : Rotation α) : Rotation α where
  re := p.re * q.re - p.i * q.i - p.j * q.j - p.k * q.k
  i := p.re * q.i + p.i * q.re + p.j * q.k - p.k * q.j
  j := p.re * q.j - p.i * q.k + p.j * q.re + p.k * q.i
  k := p.re * q.k + p.i * q.j - p.j * q.i + p.k * q.re

/-- The imaginary part. -/
@[inline] def imag (q : Rotation α) : Direction α := ⟨q.i, q.j, q.k⟩

/-- The rotated direction: with `t` twice the cross product of the imaginary part and `v`, it is
`v` plus `t` times the real part plus the cross product of the imaginary part and `t`. -/
@[inline] def apply [Scalar α] (q : Rotation α) (v : Direction α) : Direction α :=
  let c := q.imag.cross v
  let t := c.add c
  ((t.scale q.re).add (q.imag.cross t)).add v

end Rotation

end AmbisonicReverb
