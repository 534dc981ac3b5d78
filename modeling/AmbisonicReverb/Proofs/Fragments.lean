import Mathlib
import AmbisonicReverb.Proofs.Reachable

/-!
# Fragments

A host hands a signal over in fragments of any length up to that of the input block: each is added
to the input block, run through the engine into a silent block, and the blocks that come out are
put together.

**Theorem (`playAll_eq_of_cut`).** How a signal is cut makes no difference, neither to what is
heard nor to the state of the reverb.

* `Engine.hear` — what happens to a single sample, on its way from cell to cell of the blocks.
* `Reverb.play_eq` — a fragment is a run of `Engine.hear` over its samples, and leaves the input
  block silent.
* `runOver_append` — runs over two signals make up a run over both.
-/

namespace AmbisonicReverb

/-! ## Runs -/

section

variable {σ τ υ : Type} (step : σ → τ → υ × σ)

omit step in
@[elab_as_elim]
theorem push_induction {motive : Array τ → Prop} (empty : motive #[])
    (push : ∀ xs x, motive xs → motive (xs.push x)) (xs : Array τ) : motive xs := by
  obtain ⟨l⟩ := xs
  induction l using List.reverseRecOn with
  | nil => exact empty
  | append_singleton l x ih =>
    have hpush := push _ x ih
    rwa [List.push_toArray] at hpush

theorem runOver_push (s : σ) (xs : Array τ) (x : τ) :
    runOver step s (xs.push x) =
      ((runOver step s xs).1.push (step (runOver step s xs).2 x).1,
        (step (runOver step s xs).2 x).2) := by
  unfold runOver
  rw [Array.foldl_push]
  rfl

/-- What one run leaves, another takes up. -/
theorem runOver_append (s : σ) (xs ys : Array τ) :
    runOver step s (xs ++ ys) =
      ((runOver step s xs).1 ++ (runOver step (runOver step s xs).2 ys).1,
        (runOver step (runOver step s xs).2 ys).2) := by
  induction ys using push_induction with
  | empty => simp [runOver]
  | push ys y ih => rw [Array.append_push, runOver_push, runOver_push, ih, Array.append_push]

theorem runOver_map {τ' υ' : Type} (f : τ' → τ) (g : υ → υ') (s : σ) (xs : Array τ') :
    runOver (fun s x => let (y, s) := step s (f x); (g y, s)) s xs =
      ((runOver step s (xs.map f)).1.map g, (runOver step s (xs.map f)).2) := by
  induction xs using push_induction with
  | empty => simp [runOver]
  | push xs x ih => rw [runOver_push, ih, Array.map_push, runOver_push, Array.map_push]

/-- The state before step `i` of a run over `v 0`, `v 1`, … -/
def course (s : σ) (v : ℕ → τ) : ℕ → σ
  | 0 => s
  | i + 1 => (step (course s v i) (v i)).2

theorem runOver_ofFn (s : σ) (v : ℕ → τ) (n : ℕ) :
    runOver step s (Array.ofFn fun i : Fin n => v i) =
      (Array.ofFn fun i : Fin n => (step (course step s v i) (v i)).1, course step s v n) := by
  induction n with
  | zero => simp [runOver, course]
  | succ n ih =>
    rw [Array.ofFn_succ]
    show runOver step s ((Array.ofFn fun i : Fin n => v i).push (v n)) = _
    rw [runOver_push, ih, Array.ofFn_succ]
    rfl

/-- What step `i` of a run over `v 0`, `v 1`, … puts out. -/
def emitted (s : σ) (v : ℕ → τ) (i : ℕ) : υ := (step (course step s v i) (v i)).1

theorem runOver_eq_emitted (s : σ) (default : τ) (xs : Array τ) :
    (runOver step s xs).1 =
      Array.ofFn fun i : Fin xs.size => emitted step s (fun k => xs.getD k default) i := by
  have hxs : xs = Array.ofFn fun i : Fin xs.size => xs.getD i default := by
    refine Array.ext (by simp) fun i hi _ => ?_
    simp [Array.getD_eq_getD_getElem?]
  have hrun := runOver_ofFn step s (fun k => xs.getD k default) xs.size
  rw [← hxs] at hrun
  exact congrArg Prod.fst hrun

theorem size_runOver (s : σ) (xs : Array τ) : (runOver step s xs).1.size = xs.size := by
  induction xs using push_induction with
  | empty => simp [runOver]
  | push xs x ih => rw [runOver_push, Array.size_push, Array.size_push, ih]

end

/-! ## Blocks -/

namespace Block

variable {α : Type}

/-- The samples of all blocks, one after the other. -/
def join : List (Block α) → Array (Sample α)
  | [] => #[]
  | b :: blocks => b.samples ++ join blocks

/-- The blocks are a signal, cut into pieces of at most `size` samples. -/
structure Cut (size : ℕ) (signal : Array (Sample α)) (pieces : List (Block α)) : Prop where
  size_le : ∀ piece ∈ pieces, piece.size ≤ size
  join_eq : join pieces = signal

variable [Scalar α]

/-- What a silent block is after another was added, as far as that reaches. -/
theorem take_mix_silent {n : ℕ} {b : Block α} (h : b.size ≤ n) :
    ((silent n).mix b).samples.take b.size = b.samples.map (0 + ·) := by
  apply Array.ext
  · simpa [mix, silent, size] using h
  · intro i hi hi'
    have hb : i < b.samples.size := by simpa using hi'
    simp [mix, silent, hb]

theorem mix_silent (b : Block α) : (silent b.size).mix b = ⟨b.samples.map (0 + ·)⟩ := by
  have hsize : ((silent b.size).mix b).samples.size ≤ b.size := by simp [mix, silent]
  rw [← take_mix_silent le_rfl, Array.take_eq_extract, Array.extract_eq_self_of_le hsize]

end Block

variable {α β : Type} [Elementary α] [Elementary β] [Widening α β]

/-- A sample on its way from an empty cell of the input block to an empty cell of the output. -/
def Engine.hear (e : Engine α β) (s : Sample α) : Sample α × Engine α β :=
  let (heard, e) := e.step (0 + s)
  (0 + heard, e)

namespace Reverb

variable {r : Reverb α β} {e : Engine α β} {n : ℕ}

/-- Runs a fragment into a silent block of its length. -/
def play (r : Reverb α β) (piece : Block α) : Block α × Reverb α β :=
  (r.addDiffuse piece).process (.silent piece.size)

/-- Plays one fragment after the other, and puts together what comes out. -/
def playAll (r : Reverb α β) : List (Block α) → Array (Sample α) × Reverb α β
  | [] => (#[], r)
  | piece :: pieces =>
    let (heard, r) := r.play piece
    let (rest, r) := r.playAll pieces
    (heard.samples ++ rest, r)

theorem play_eq (he : r.engine? = some e) (hinput : r.input = .silent n) {piece : Block α}
    (hpiece : piece.size ≤ n) :
    r.play piece = (⟨(runOver Engine.hear e piece.samples).1⟩,
      { r with engine := some (runOver Engine.hear e piece.samples).2 }) := by
  have he' : (r.addDiffuse piece).engine? = some e := he
  have htaken : (r.addDiffuse piece).input.samples.take (Block.silent piece.size : Block α).size =
      piece.samples.map (0 + ·) := by
    rw [← Block.take_mix_silent hpiece, addDiffuse, hinput]
    simp [Block.silent, Block.size]
  have hclear : (r.addDiffuse piece).input.clear = r.input := by
    rw [addDiffuse, hinput]
    simp [Block.clear, Block.mix, Block.silent, Block.size]
  have hsize : piece.size = (runOver Engine.step e (piece.samples.map (0 + ·))).1.size := by
    rw [size_runOver, Array.size_map]
    rfl
  have hhear : runOver Engine.hear e piece.samples = _ :=
    runOver_map Engine.step (0 + ·) (0 + ·) e piece.samples
  unfold play process
  simp only [he', htaken, hclear, hhear]
  refine Prod.ext ?_ rfl
  rw [hsize]
  exact Block.mix_silent ⟨_⟩

theorem playAll_eq (he : r.engine? = some e) (hinput : r.input = .silent n)
    {pieces : List (Block α)} (hpieces : ∀ piece ∈ pieces, piece.size ≤ n) :
    r.playAll pieces = ((runOver Engine.hear e (Block.join pieces)).1,
      { r with engine := some (runOver Engine.hear e (Block.join pieces)).2 }) := by
  induction pieces generalizing r e with
  | nil =>
    have hengine := engine_of_engine? he
    simp [playAll, Block.join, runOver, ← hengine]
  | cons piece pieces ih =>
    have hpiece := hpieces piece List.mem_cons_self
    have hrest := ih (engine?_with he (runOver Engine.hear e piece.samples).2) hinput
      fun b hb => hpieces b (List.mem_cons_of_mem piece hb)
    simp only [playAll, play_eq he hinput hpiece, hrest, Block.join, runOver_append]

/-- **Fragments are not heard.** Two ways of cutting a signal leave the same reverb and give the
same output, and both are what a run of the engine over the whole signal makes of it, one step for
each sample. Nothing stays in the input block. -/
theorem playAll_eq_of_cut (he : r.engine? = some e) (hinput : r.input = .silent n)
    {signal : Array (Sample α)} {pieces pieces' : List (Block α)}
    (h : Block.Cut n signal pieces) (h' : Block.Cut n signal pieces') :
    r.playAll pieces = r.playAll pieces' ∧
      r.playAll pieces = ((runOver Engine.hear e signal).1,
        { r with engine := some (runOver Engine.hear e signal).2 }) ∧
      (r.playAll pieces).2.input = .silent n := by
  have hplay := playAll_eq he hinput h.size_le
  have hplay' := playAll_eq he hinput h'.size_le
  rw [h.join_eq] at hplay
  rw [h'.join_eq] at hplay'
  refine ⟨hplay.trans hplay'.symm, hplay, ?_⟩
  rw [hplay]
  exact hinput

/-- Two cuts of a signal of three samples, one of them with an empty piece. -/
noncomputable def smallCuts : List (Block ℝ) × List (Block ℝ) :=
  ([⟨#[.pressure 1, .pressure 0]⟩, ⟨#[.pressure (-1)]⟩],
    [⟨#[.pressure 1]⟩, ⟨#[]⟩, ⟨#[.pressure 0, .pressure (-1)]⟩])

theorem cut_smallCuts :
    Block.Cut 16 #[.pressure 1, .pressure 0, .pressure (-1)] smallCuts.1 ∧
      Block.Cut 16 #[.pressure 1, .pressure 0, .pressure (-1)] smallCuts.2 := by
  refine ⟨⟨?_, rfl⟩, ⟨?_, rfl⟩⟩ <;> simp [smallCuts, Block.size]

theorem playAll_eq_of_cut_smallCuts : ∃ (r : Reverb ℝ ℝ) (e : Engine ℝ ℝ),
    (r.engine? = some e ∧ r.input = .silent 16) ∧
      r.playAll smallCuts.1 = r.playAll smallCuts.2 ∧
      r.playAll smallCuts.1 =
        ((runOver Engine.hear e #[.pressure 1, .pressure 0, .pressure (-1)]).1,
          { r with
            engine := some
              (runOver Engine.hear e #[.pressure 1, .pressure 0, .pressure (-1)]).2 }) ∧
      (r.playAll smallCuts.1).2.input = .silent 16 := by
  obtain ⟨e, -⟩ := configure_smallReverb
  let r : Reverb ℝ ℝ := { smallReverb with engine := some e, input := .silent 16 }
  have hengine : r.engine? = some e := rfl
  exact ⟨r, e, ⟨hengine, rfl⟩, playAll_eq_of_cut hengine rfl cut_smallCuts.1 cut_smallCuts.2⟩

end Reverb

end AmbisonicReverb
