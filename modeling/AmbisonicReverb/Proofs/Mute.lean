import Mathlib
import AmbisonicReverb.Proofs.Link
import AmbisonicReverb.Proofs.SignedZero

/-!
# What becomes of silence

Silence does not stay an exact zero in a network. A zero times a negative coefficient is the
negative zero, and a zero times a coefficient that is infinite or has no value is no number. These
three numbers are all that can come of it: they are an ideal (`Hush`), as far as numbers that round
have one, and so are the same three numbers of the filters that run in double precision.

* `Hush` — a set of numbers that no operation of a network leads out of. It is a property of a
  single run that the operations on samples keep, and so a `Link`.
* `mute32`, `mute64` — the zeros of both signs, and what is no number.
* `mute64_widen`, `mute32_narrow` — the conversions lead from the one set to the other.
* `Settled` — a sum of such numbers from zero on is an exact zero, if it is a number. What an engine
  gives out is one, since the guard at its output lets nothing else pass (`tick_fst_eq_zero`).
-/

namespace AmbisonicReverb

/-! ## Ideals -/

/-- A set of numbers that the operations of a network do not lead out of, with any coefficients. -/
structure Hush (α : Type) [Scalar α] where
  Mem : α → Prop
  zero : Mem 0
  add : ∀ {x y}, Mem x → Mem y → Mem (x + y)
  sub : ∀ {x y}, Mem x → Mem y → Mem (x - y)
  mul_right : ∀ {x}, Mem x → ∀ g, Mem (x * g)
  mul_left : ∀ {x}, Mem x → ∀ g, Mem (g * x)

namespace Hush

variable {α : Type} [Scalar α] (H : Hush α)

/-- All channels of the sample are in the set. -/
structure Channels (s : Sample α) : Prop where
  w : H.Mem s.w
  x : H.Mem s.x
  y : H.Mem s.y
  z : H.Mem s.z

variable {H}

theorem flush {x : α} (h : H.Mem x) : H.Mem (Scalar.flush x) := by
  unfold Scalar.flush
  split_ifs
  · exact H.zero
  · exact h

theorem rotate {s : Sample α} (h : H.Channels s) (q : Rotation α) : H.Channels (s.rotate q) := by
  have hcross : ∀ {a b c d : α}, H.Mem b → H.Mem d → H.Mem (a * b - c * d) := fun hb hd =>
    H.sub (H.mul_left hb _) (H.mul_left hd _)
  have hx := hcross (a := q.j) (c := q.k) h.z h.y
  have hy := hcross (a := q.k) (c := q.i) h.x h.z
  have hz := hcross (a := q.i) (c := q.j) h.y h.x
  have hx := H.add hx hx
  have hy := H.add hy hy
  have hz := H.add hz hz
  exact ⟨h.w, H.add (H.add (H.mul_right hx _) (hcross hz hy)) h.x,
    H.add (H.add (H.mul_right hy _) (hcross hx hz)) h.y,
    H.add (H.add (H.mul_right hz _) (hcross hy hx)) h.z⟩

/-- Membership of the samples of a single run, however it is turned. -/
def link (H : Hush α) : Link Unit α where
  Joins s := H.Channels (s ())
  Turns _ := True
  zero := ⟨H.zero, H.zero, H.zero, H.zero⟩
  add hs ht := ⟨H.add hs.w ht.w, H.add hs.x ht.x, H.add hs.y ht.y, H.add hs.z ht.z⟩
  sub hs ht := ⟨H.sub hs.w ht.w, H.sub hs.x ht.x, H.sub hs.y ht.y, H.sub hs.z ht.z⟩
  mul hs g := ⟨H.mul_right hs.w g, H.mul_right hs.x g, H.mul_right hs.y g, H.mul_right hs.z g⟩
  flush hs := ⟨flush hs.w, flush hs.x, flush hs.y, flush hs.z⟩
  rotate hs _ := rotate hs _

theorem arrays_link_iff {a : Array (Sample α)} :
    (H.link.Arrays fun _ => a) ↔ ∀ s ∈ a, H.Channels s := by
  constructor
  · rintro ⟨-, hentries⟩ s hs
    obtain ⟨k, hk⟩ := Array.mem_iff_getElem?.mp hs
    have hentry : H.Channels (a.getD k 0) := hentries k
    rwa [Array.getD_eq_getD_getElem?, hk] at hentry
  · intro h
    refine Link.arrays_of_size (fun _ => rfl) fun k hk => ?_
    rw [Array.getD_eq_getD_getElem?, Array.getElem?_eq_getElem hk]
    exact h a[k] (Array.getElem_mem hk)

/-- The registers of a section are in the set. -/
structure Registers (H : Hush α) (f : Biquad α) : Prop where
  z1 : H.Mem f.z1
  z2 : H.Mem f.z2

theorem registers_reset (f : Biquad α) : H.Registers f.reset := ⟨H.zero, H.zero⟩

theorem Registers.process {f : Biquad α} {x : α} (h : H.Registers f) (hx : H.Mem x) :
    H.Mem (f.process x).1 ∧ H.Registers (f.process x).2 := by
  have hy : H.Mem (f.z1 + f.b0 * x) := H.add h.z1 (H.mul_left hx _)
  exact ⟨hy, flush (H.sub (H.add h.z2 (H.mul_left hx _)) (H.mul_left hy _)),
    flush (H.sub (H.mul_left hx _) (H.mul_left hy _))⟩

end Hush

/-! ## Zeros and what is no number -/

open Float.Model (Format UnpackedFloat)
open Float.Model.UnpackedFloat

/-- The forms of the zeros and of what is no number. -/
inductive MuteForm : UnpackedFloat → Prop
  | zero (s : Sign) : MuteForm (.zero s)
  | undefined : MuteForm .notANumber

namespace MuteForm

variable (f : Format) {u v : UnpackedFloat}

theorem add (hu : MuteForm u) (hv : MuteForm v) : MuteForm (UnpackedFloat.add f u v) := by
  rcases hu with s | _ <;> rcases hv with t | _
  · show MuteForm (if s == t then .zero s else .zero .positive)
    split_ifs <;> exact .zero _
  all_goals exact .undefined

theorem sub (hu : MuteForm u) (hv : MuteForm v) : MuteForm (UnpackedFloat.sub f u v) := by
  rcases hu with s | _ <;> rcases hv with t | _
  · show MuteForm (if s == -t then .zero s else .zero .positive)
    split_ifs <;> exact .zero _
  all_goals exact .undefined

theorem mul_right (hu : MuteForm u) (v : UnpackedFloat) : MuteForm (UnpackedFloat.mul f u v) := by
  rcases hu with s | _ <;> cases v
  all_goals first | exact .undefined | exact .zero _

theorem mul_left (hv : MuteForm v) (u : UnpackedFloat) : MuteForm (UnpackedFloat.mul f u v) := by
  rcases hv with s | _ <;> cases u
  all_goals first | exact .undefined | exact .zero _

end MuteForm

/-- Numbers that are computed with through their forms. -/
structure FormArithmetic (α : Type) [Scalar α] where
  format : Format
  form : α → UnpackedFloat
  ofForm : UnpackedFloat → α
  form_ofForm : ∀ {u}, MuteForm u → form (ofForm u) = u
  zero_eq : 0 = ofForm (.zero .positive)
  add_eq : ∀ x y, x + y = ofForm (UnpackedFloat.add format (form x) (form y))
  sub_eq : ∀ x y, x - y = ofForm (UnpackedFloat.sub format (form x) (form y))
  mul_eq : ∀ x y, x * y = ofForm (UnpackedFloat.mul format (form x) (form y))

/-- The numbers with one of the mute forms. -/
def FormArithmetic.hush {α : Type} [Scalar α] (A : FormArithmetic α) : Hush α where
  Mem x := ∃ u, MuteForm u ∧ x = A.ofForm u
  zero := ⟨_, .zero .positive, A.zero_eq⟩
  add := by
    rintro _ _ ⟨u, hu, rfl⟩ ⟨v, hv, rfl⟩
    refine ⟨_, hu.add A.format hv, ?_⟩
    rw [A.add_eq, A.form_ofForm hu, A.form_ofForm hv]
  sub := by
    rintro _ _ ⟨u, hu, rfl⟩ ⟨v, hv, rfl⟩
    refine ⟨_, hu.sub A.format hv, ?_⟩
    rw [A.sub_eq, A.form_ofForm hu, A.form_ofForm hv]
  mul_right := by
    rintro _ ⟨u, hu, rfl⟩ g
    refine ⟨_, hu.mul_right A.format (A.form g), ?_⟩
    rw [A.mul_eq, A.form_ofForm hu]
  mul_left := by
    rintro _ ⟨u, hu, rfl⟩ g
    refine ⟨_, hu.mul_left A.format (A.form g), ?_⟩
    rw [A.mul_eq, A.form_ofForm hu]

/-- Binary32 numbers by their forms. -/
def formArithmetic32 : FormArithmetic Float32 where
  format := .binary32
  form x := x.toModel.unpack
  ofForm := ofUnpacked
  form_ofForm h := by rcases h with (_ | _) | _ <;> rfl
  zero_eq := rfl
  add_eq := add_eq_ofUnpacked
  sub_eq := sub_eq_ofUnpacked
  mul_eq := mul_eq_ofUnpacked

/-- Binary64 numbers by their forms. -/
def formArithmetic64 : FormArithmetic Float where
  format := .binary64
  form x := x.toModel.unpack
  ofForm u := .ofModel (.pack u)
  form_ofForm h := by rcases h with (_ | _) | _ <;> rfl
  zero_eq := rfl
  add_eq _ _ := rfl
  sub_eq _ _ := rfl
  mul_eq _ _ := rfl

/-- The zeros of both signs, and what is no number. -/
def mute32 : Hush Float32 := formArithmetic32.hush

/-- The same numbers in double precision. -/
def mute64 : Hush Float := formArithmetic64.hush

theorem mute64_widen {x : Float32} (h : mute32.Mem x) : mute64.Mem (widen x : Float) := by
  obtain ⟨u, hu, rfl⟩ := h
  refine ⟨u, hu, ?_⟩
  rcases hu with (_ | _) | _ <;> decide +kernel

theorem mute32_narrow {x : Float} (h : mute64.Mem x) : mute32.Mem (narrow x) := by
  obtain ⟨u, hu, rfl⟩ := h
  refine ⟨u, hu, ?_⟩
  rcases hu with (_ | _) | _ <;> decide +kernel

/-! ## Sums -/

/-- An exact zero, or no number. -/
def Settled (x : Float32) : Prop := x = binary32Zero ∨ x = ofUnpacked .notANumber

theorem Settled.add {x y : Float32} (hx : Settled x) (hy : mute32.Mem y) : Settled (x + y) := by
  obtain ⟨u, hu, rfl⟩ := hy
  unfold Settled
  rcases hx with rfl | rfl <;> rcases hu with (_ | _) | _ <;> decide +kernel

theorem Settled.eq_zero {x : Float32} (h : Settled x) (hx : x.isFinite) : x = binary32Zero := by
  rcases h with h | rfl
  · exact h
  · exact absurd hx (by decide +kernel)

/-- A sum of mute samples from silence on is silent, if it is finite. -/
theorem foldl_eq_zero {terms : Array (Sample Float32)} (h : ∀ s ∈ terms, mute32.Channels s)
    (hfinite : (terms.foldl (fun sum s => sum + s) 0).isFinite) :
    terms.foldl (fun sum s => sum + s) 0 = 0 := by
  let motive (_ : Nat) (sum : Sample Float32) : Prop :=
    Settled sum.w ∧ Settled sum.x ∧ Settled sum.y ∧ Settled sum.z
  have hsum : motive terms.size (terms.foldl (fun sum s => sum + s) 0) := by
    refine Array.foldl_induction motive ⟨.inl rfl, .inl rfl, .inl rfl, .inl rfl⟩ ?_
    rintro k sum ⟨hw, hx, hy, hz⟩
    have hterm := h terms[k] (Array.getElem_mem k.isLt)
    exact ⟨hw.add hterm.w, hx.add hterm.x, hy.add hterm.y, hz.add hterm.z⟩
  obtain ⟨hw, hx, hy, hz⟩ := hsum
  unfold Sample.isFinite at hfinite
  simp only [Bool.and_eq_true] at hfinite
  obtain ⟨⟨⟨hfw, hfx⟩, hfy⟩, hfz⟩ := hfinite
  exact Sample.eq_of_channels (hw.eq_zero hfw) (hx.eq_zero hfx) (hy.eq_zero hfy) (hz.eq_zero hfz)

/-- **Mute outputs are heard as exact zeros.** What is no number is caught by the guard. -/
theorem Engine.tick_fst_eq_zero {e : Engine Float32 Float} {s : Sample Float32}
    (hout : e.feedback.output = 0)
    (h : ∀ d ∈ (e.processed s).outputs, mute32.Channels d) : (e.tick s).1 = 0 := by
  have hintake : (e.intake s).2.output = 0 := by
    unfold intake
    split_ifs
    · exact hout
    · exact hout
  have hsum : (e.processed s).output = (e.processed s).outputs.foldl (fun sum d => sum + d) 0 := by
    unfold processed
    rw [Network.process_output, hintake]
  rw [tick_eq]
  dsimp only
  split_ifs with hfinite
  · rw [hsum] at hfinite ⊢
    exact foldl_eq_zero h hfinite
  · rfl

end AmbisonicReverb
