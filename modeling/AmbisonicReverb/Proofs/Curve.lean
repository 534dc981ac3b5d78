import Mathlib
import AmbisonicReverb.Fit
import AmbisonicReverb.Proofs.SignedZero

/-!
# Curves in another order

A target curve lists its bands in some order. What a fit takes from curves does not depend on it
(`Goal.rearranged_ofCurve`), as long as no band is listed twice and none of the numbers is NaN:

* The longest time is the same up to the sign of a zero, and that sign is lost in all that follows
  (`agrees_longest`, `squaredError_congr`).
* The extreme bands are found by their positions. There is one lowest and one highest band, so that
  the positions are moved like the bands are (`exists_extremes`).
-/

namespace AmbisonicReverb

open Float.Model (Format UnpackedFloat)
open Float.Model.UnpackedFloat (Sign)

/-! ## Rearranged arrays -/

/-- The second array has the entries of the first one, in the order that a permutation gives. -/
structure Rearranged {τ : Type} {n : ℕ} (π : Equiv.Perm (Fin n)) (xs ys : Array τ) : Prop where
  size_left : xs.size = n
  size_right : ys.size = n
  getElem?_eq : ∀ i : Fin n, ys[(i : ℕ)]? = xs[(π i : ℕ)]?

namespace Rearranged

variable {τ υ : Type} {n : ℕ} {π : Equiv.Perm (Fin n)} {xs ys : Array τ}

theorem map (h : Rearranged π xs ys) (f : τ → υ) : Rearranged π (xs.map f) (ys.map f) where
  size_left := Array.size_map.trans h.size_left
  size_right := Array.size_map.trans h.size_right
  getElem?_eq i := by rw [Array.getElem?_map, Array.getElem?_map, h.getElem?_eq i]

theorem replicate (x : τ) : Rearranged π (Array.replicate n x) (Array.replicate n x) where
  size_left := Array.size_replicate
  size_right := Array.size_replicate
  getElem?_eq i := by
    rw [Array.getElem?_replicate, Array.getElem?_replicate, if_pos i.isLt, if_pos (π i).isLt]

theorem mem_iff (h : Rearranged π xs ys) {x : τ} : x ∈ ys ↔ x ∈ xs := by
  rw [Array.mem_iff_getElem?, Array.mem_iff_getElem?]
  constructor
  · rintro ⟨i, hi⟩
    obtain ⟨hlt, -⟩ := Array.getElem?_eq_some_iff.mp hi
    exact ⟨_, (h.getElem?_eq ⟨i, h.size_right ▸ hlt⟩).symm.trans hi⟩
  · rintro ⟨i, hi⟩
    obtain ⟨hlt, -⟩ := Array.getElem?_eq_some_iff.mp hi
    refine ⟨π.symm ⟨i, h.size_left ▸ hlt⟩, (h.getElem?_eq _).trans ?_⟩
    rw [Equiv.apply_symm_apply]
    exact hi

theorem getD_eq (h : Rearranged π xs ys) (i : Fin n) (d : τ) : ys.getD i d = xs.getD (π i) d := by
  rw [Array.getD_eq_getD_getElem?, Array.getD_eq_getD_getElem?, h.getElem?_eq i]

end Rearranged

/-! ## The longest time -/

section

variable {x y z : Float32}

theorem binary32_le_refl (h : x.isNaN = false) : x ≤ x := binary32_le_iff.mpr ⟨⟨h, h⟩, le_rfl⟩

theorem binary32_le_of_lt (h : x < y) : x ≤ y :=
  binary32_le_iff.mpr ⟨(binary32_lt_iff.mp h).1, (binary32_lt_iff.mp h).2.le⟩

theorem binary32_lt_trans (hxy : x < y) (hyz : y < z) : x < z := by
  rw [binary32_lt_iff] at hxy hyz ⊢
  exact ⟨⟨hxy.1.1, hyz.1.2⟩, hxy.2.trans hyz.2⟩

theorem not_zero_lt_zero (s : Sign) : ¬ binary32Zero < ofUnpacked (.zero s) := by
  cases s <;> decide +kernel

theorem maxNum_eq (hx : x.isNaN = false) (y : Float32) :
    Scalar.maxNum x y = if x < y then y else x := by
  unfold Scalar.maxNum
  rw [isNaN_eq, hx]
  simp only [Bool.false_eq_true, or_false]

/-- The largest of two numbers, as long as they are numbers. -/
theorem maxNum_spec (hx : x.isNaN = false) (hy : y.isNaN = false) :
    (Scalar.maxNum x y = x ∨ Scalar.maxNum x y = y) ∧ x ≤ Scalar.maxNum x y ∧
      y ≤ Scalar.maxNum x y := by
  rw [maxNum_eq hx]
  split_ifs with hlt
  · exact ⟨.inr rfl, binary32_le_of_lt hlt, binary32_le_refl hy⟩
  · exact ⟨.inl rfl, binary32_le_refl hx, binary32_le_of_not_lt hx hy hlt⟩

theorem foldl_maxNum_spec {x : Float32} (hx : x.isNaN = false) {l : List Float32}
    (hl : ∀ y ∈ l, y.isNaN = false) :
    l.foldl Scalar.maxNum x ∈ x :: l ∧ ∀ y ∈ x :: l, y ≤ l.foldl Scalar.maxNum x := by
  induction l generalizing x with
  | nil =>
    refine ⟨List.mem_singleton_self x, fun y hy => ?_⟩
    rw [List.mem_singleton.mp hy]
    exact binary32_le_refl hx
  | cons z l ih =>
    obtain ⟨hmem, hxm, hzm⟩ := maxNum_spec hx (hl z List.mem_cons_self)
    have hnumber : (Scalar.maxNum x z).isNaN = false := (binary32_le_iff.mp hxm).1.2
    obtain ⟨hfold, hle⟩ := ih hnumber fun y hy => hl y (List.mem_cons_of_mem z hy)
    have hmax := hle _ List.mem_cons_self
    rw [List.foldl_cons]
    refine ⟨?_, fun y hy => ?_⟩
    · rcases List.mem_cons.mp hfold with hfold | hfold
      · rw [hfold]
        rcases hmem with hmem | hmem <;> rw [hmem] <;> simp
      · exact List.mem_cons_of_mem x (List.mem_cons_of_mem z hfold)
    · rcases List.mem_cons.mp hy with rfl | hy
      · exact binary32_le_trans hxm hmax
      · rcases List.mem_cons.mp hy with rfl | hy
        · exact binary32_le_trans hzm hmax
        · exact hle y (List.mem_cons_of_mem _ hy)

end

/-- None of the entries is NaN. -/
def Numbers (xs : Array Float32) : Prop := ∀ x ∈ xs, Scalar.isNaN x = false

theorem Numbers.isNaN {xs : Array Float32} (h : Numbers xs) {x : Float32} (hx : x ∈ xs.toList) :
    x.isNaN = false :=
  (isNaN_eq x).symm.trans (h x (Array.mem_toList_iff.mp hx))

theorem Rearranged.numbers {n : ℕ} {π : Equiv.Perm (Fin n)} {xs ys : Array Float32}
    (h : Rearranged π xs ys) (hxs : Numbers xs) : Numbers ys := fun x hx => hxs x (h.mem_iff.mp hx)

theorem longest_spec {times : Array Float32} (h : Numbers times) (hpos : 0 < times.size) :
    Fit.longest times ∈ times ∧ ∀ t ∈ times, t ≤ Fit.longest times := by
  have hnumber := fun x (hx : x ∈ times.toList) => h.isNaN hx
  simp only [← Array.mem_toList_iff]
  unfold Fit.longest
  cases htimes : times.toList with
  | nil =>
    rw [← Array.length_toList, htimes] at hpos
    exact absurd hpos (lt_irrefl _)
  | cons t rest =>
    rw [htimes] at hnumber
    exact foldl_maxNum_spec (hnumber t List.mem_cons_self)
      fun y hy => hnumber y (List.mem_cons_of_mem t hy)

section

variable {n : ℕ} {π : Equiv.Perm (Fin n)} {times times' : Array Float32}

/-- The longest time does not depend on the order, but for the sign of a zero. -/
theorem agrees_longest (h : Rearranged π times times') (hnumber : Numbers times) (hn : 0 < n) :
    Scalar.agrees (Fit.longest times) (Fit.longest times') := by
  obtain ⟨hmem, hle⟩ := longest_spec hnumber (h.size_left ▸ hn)
  obtain ⟨hmem', hle'⟩ := longest_spec (h.numbers hnumber) (h.size_right ▸ hn)
  exact Scalar.agrees_iff.mpr ⟨hle' _ (h.mem_iff.mpr hmem), hle _ (h.mem_iff.mp hmem')⟩

/-- From zero on, the maximum is zero itself or positive. -/
theorem foldl_maxNum_cases {x : Float32} (hx : x = binary32Zero ∨ binary32Zero < x)
    {l : List Float32} (hl : ∀ y ∈ l, y.isNaN = false) :
    l.foldl Scalar.maxNum x = binary32Zero ∨ binary32Zero < l.foldl Scalar.maxNum x := by
  induction l generalizing x with
  | nil => exact hx
  | cons y l ih =>
    refine ih ?_ fun z hz => hl z (List.mem_cons_of_mem y hz)
    have hnumber : x.isNaN = false := by
      rcases hx with rfl | hx
      · rfl
      · exact (binary32_lt_iff.mp hx).1.2
    rw [maxNum_eq hnumber]
    split_ifs with hlt
    · rcases hx with rfl | hx
      · exact .inr hlt
      · exact .inr (binary32_lt_trans hx hlt)
    · exact hx

/-- The room for a response does not depend on the order at all. -/
theorem longestTime_eq (h : Rearranged π times times') (hnumber : Numbers times) :
    Engine.longestTime times' = Engine.longestTime times := by
  have hnumbers : ∀ {xs : Array Float32}, Numbers xs → ∀ y ∈ xs.toList, y.isNaN = false :=
    fun hxs _ hy => hxs.isNaN hy
  have hzero : binary32Zero.isNaN = false := rfl
  have hmem : ∀ y, y ∈ binary32Zero :: times'.toList ↔ y ∈ binary32Zero :: times.toList := by
    intro y
    simp only [List.mem_cons, Array.mem_toList_iff, h.mem_iff]
  obtain ⟨hmem₁, hle₁⟩ := foldl_maxNum_spec hzero (hnumbers hnumber)
  obtain ⟨hmem₂, hle₂⟩ := foldl_maxNum_spec hzero (hnumbers (h.numbers hnumber))
  have hcases₁ := foldl_maxNum_cases (.inl rfl) (hnumbers hnumber)
  have hcases₂ := foldl_maxNum_cases (.inl rfl) (hnumbers (h.numbers hnumber))
  have hagrees := Scalar.agrees_iff.mpr
    ⟨hle₁ _ ((hmem _).mp hmem₂), hle₂ _ ((hmem _).mpr hmem₁)⟩
  unfold Engine.longestTime
  rw [← Array.foldl_toList, ← Array.foldl_toList]
  show times'.toList.foldl Scalar.maxNum binary32Zero =
    times.toList.foldl Scalar.maxNum binary32Zero
  rcases agrees_cases hagrees with heq | ⟨s, t, hs, ht⟩
  · exact heq
  · -- a zero is not positive, so that both are the zero from which the maximum is taken
    rw [hcases₂.resolve_right (hs ▸ not_zero_lt_zero s),
      hcases₁.resolve_right (ht ▸ not_zero_lt_zero t)]

end

/-! ## The extreme bands -/

/-- No two entries agree, not even zeros of different signs. -/
def Distinct (xs : Array Float32) : Prop := xs.toList.Pairwise fun x y => ¬ Scalar.agrees x y

theorem Distinct.eq_of_agrees {xs : Array Float32} (h : Distinct xs) {i j : ℕ} {x y : Float32}
    (hi : xs[i]? = some x) (hj : xs[j]? = some y) (hxy : Scalar.agrees x y) : i = j := by
  rw [← Array.getElem?_toList] at hi hj
  obtain ⟨hi', rfl⟩ := List.getElem?_eq_some_iff.mp hi
  obtain ⟨hj', rfl⟩ := List.getElem?_eq_some_iff.mp hj
  have hpairs := List.pairwise_iff_getElem.mp h
  rcases lt_trichotomy i j with hlt | heq | hgt
  · exact absurd hxy (hpairs i j hi' hj' hlt)
  · exact heq
  · exact absurd (Scalar.agrees_iff.mpr (Scalar.agrees_iff.mp hxy).symm) (hpairs j i hj' hi' hgt)

/-- The extremes are at the positions of a lowest and of a highest band. -/
theorem extremes_spec {bands : Array Float32} (h : Numbers bands) (hpos : 0 < bands.size) :
    ∃ lo hi l u, Fit.extremes bands = (lo, hi) ∧ bands[lo]? = some l ∧ bands[hi]? = some u ∧
      ∀ b ∈ bands, l ≤ b ∧ b ≤ u := by
  have hnumber := fun x (hx : x ∈ bands.toList) => h.isNaN hx
  simp only [← Array.mem_toList_iff, ← Array.getElem?_toList]
  unfold Fit.extremes
  cases hbands : bands.toList with
  | nil =>
    rw [← Array.length_toList, hbands] at hpos
    exact absurd hpos (lt_irrefl _)
  | cons b rest =>
    rw [hbands] at hnumber
    have hirrefl : ∀ x : Float32, ¬ x < x := fun x hx => lt_irrefl _ (binary32_lt_iff.mp hx).2
    have htrans : ∀ x y z : Float32, x < y → y < z → x < z := fun _ _ _ => binary32_lt_trans
    have hleader : ∀ better : Float32 → Float32 → Bool, (∀ x, ¬ better x x) →
        (∀ x y z, better x y → better y z → better x z) →
          ∃ k v, Simplex.leader better b (b :: rest) = (k, v) ∧ (b :: rest)[k]? = some v ∧
            ∀ a ∈ b :: rest, ¬ better a v :=
      fun better hirrefl htrans => Simplex.leader_spec (p := fun _ => True) (fun x _ => hirrefl x)
        (fun x y z _ _ _ => htrans x y z) fun _ _ => trivial
    obtain ⟨lo, l, hlo, hl, hleast⟩ := hleader (fun x y => decide (x < y)) (by simpa using hirrefl)
      (by simpa using htrans)
    obtain ⟨hi, u, hhi, hu, hlargest⟩ := hleader (fun x y => decide (y < x))
      (by simpa using hirrefl) (by simpa using fun x y z hxy hyz => htrans z y x hyz hxy)
    have hl' := hnumber l (List.mem_of_getElem? hl)
    have hu' := hnumber u (List.mem_of_getElem? hu)
    refine ⟨lo, hi, l, u, ?_, hl, hu, fun x hx => ?_⟩
    · dsimp only
      rw [hlo, hhi]
    · have hlow := hleast x hx
      have hhigh := hlargest x hx
      rw [decide_eq_true_eq] at hlow hhigh
      exact ⟨binary32_le_of_not_lt (hnumber x hx) hl' hlow,
        binary32_le_of_not_lt hu' (hnumber x hx) hhigh⟩

section

variable {n : ℕ} {π : Equiv.Perm (Fin n)} {bands bands' times times' : Array Float32}

/-- The positions of the extreme bands move like the bands do. -/
theorem exists_extremes (h : Rearranged π bands bands') (hnumber : Numbers bands)
    (hdistinct : Distinct bands) (hn : 0 < n) :
    ∃ i j : Fin n, Fit.extremes bands' = (↑i, ↑j) ∧ Fit.extremes bands = (↑(π i), ↑(π j)) := by
  obtain ⟨lo, hi, l, u, hextremes, hl, hu, hbounds⟩ := extremes_spec hnumber (h.size_left ▸ hn)
  obtain ⟨lo', hi', l', u', hextremes', hl', hu', hbounds'⟩ :=
    extremes_spec (h.numbers hnumber) (h.size_right ▸ hn)
  have hlt : lo' < n := h.size_right ▸ (Array.getElem?_eq_some_iff.mp hl').1
  have hlt' : hi' < n := h.size_right ▸ (Array.getElem?_eq_some_iff.mp hu').1
  have hl' := (h.getElem?_eq ⟨lo', hlt⟩).symm.trans hl'
  have hu' := (h.getElem?_eq ⟨hi', hlt'⟩).symm.trans hu'
  have hlow : Scalar.agrees l l' := Scalar.agrees_iff.mpr
    ⟨(hbounds l' (Array.mem_of_getElem? hl')).1,
      (hbounds' l (h.mem_iff.mpr (Array.mem_of_getElem? hl))).1⟩
  have hhigh : Scalar.agrees u u' := Scalar.agrees_iff.mpr
    ⟨(hbounds' u (h.mem_iff.mpr (Array.mem_of_getElem? hu))).2,
      (hbounds u' (Array.mem_of_getElem? hu')).2⟩
  refine ⟨⟨lo', hlt⟩, ⟨hi', hlt'⟩, hextremes', ?_⟩
  rw [hextremes, hdistinct.eq_of_agrees hl hl' hlow, hdistinct.eq_of_agrees hu hu' hhigh]

theorem slope_eq (hbands : Rearranged π bands bands') (htimes : Rearranged π times times')
    (i j : Fin n) :
    Fit.slope bands' times' i j = Fit.slope bands times (π i) (π j) := by
  unfold Fit.slope
  rw [hbands.getD_eq, hbands.getD_eq, htimes.getD_eq, htimes.getD_eq]

end

/-! ## Errors -/

section

variable {x : Float32}

/-- In a difference, the sign of a zero matters to another zero only. -/
theorem sub_zero_congr (h : ∀ s, x ≠ ofUnpacked (.zero s)) (s t : Sign) :
    x - ofUnpacked (.zero s) = x - ofUnpacked (.zero t) ∧
      ofUnpacked (.zero s) - x = ofUnpacked (.zero t) - x := by
  have hx : ∀ s, x.toModel.unpack ≠ .zero s := fun s hs => h s (by rw [← hs, ofUnpacked_unpack])
  have hzero : ∀ s, (ofUnpacked (.zero s)).toModel.unpack = .zero s :=
    fun s => toModel_ofUnpacked trivial
  simp only [sub_eq_ofUnpacked, hzero]
  cases hu : x.toModel.unpack with
  | zero s => exact absurd hu (hx s)
  | notANumber | infinity | finite => exact ⟨rfl, rfl⟩

variable {target target' measured measured' : Float32}

/-- The error from a target of zero is the square of what is measured. -/
theorem squaredError_zero (measured : Float32) (s : Sign) :
    (Fit.squaredError measured (ofUnpacked (.zero s)) : Float) =
      let difference : Float := widen (measured - ofUnpacked (.zero s))
      if Scalar.isFinite (difference * difference) then difference * difference
      else Fit.unmeasurable := by
  have hsmall : ∀ s, ¬ 1.0e-6 < Scalar.abs (ofUnpacked (.zero s)) := by
    rintro (_ | _) <;> decide +kernel
  unfold Fit.squaredError
  dsimp only
  rw [if_neg (hsmall s)]

/-- **Errors do not see the sign of a zero.** -/
theorem squaredError_congr (hmeasured : Scalar.agrees measured measured')
    (htarget : Scalar.agrees target target') :
    (Fit.squaredError measured target : Float) = Fit.squaredError measured' target' := by
  have hzeros : ∀ s t s' t',
      (Fit.squaredError (ofUnpacked (.zero s)) (ofUnpacked (.zero t)) : Float) =
        Fit.squaredError (ofUnpacked (.zero s')) (ofUnpacked (.zero t')) := by
    rintro (_ | _) (_ | _) (_ | _) (_ | _) <;> decide +kernel
  rcases agrees_cases hmeasured with rfl | ⟨s, s', rfl, rfl⟩ <;>
    rcases agrees_cases htarget with rfl | ⟨t, t', rfl, rfl⟩
  · rfl
  · by_cases hzero : ∃ s, measured = ofUnpacked (.zero s)
    · obtain ⟨s, rfl⟩ := hzero
      exact hzeros s t s t'
    · rw [squaredError_zero, squaredError_zero, (sub_zero_congr (not_exists.mp hzero) t t').1]
  · by_cases hzero : ∃ t, target = ofUnpacked (.zero t)
    · obtain ⟨t, rfl⟩ := hzero
      exact hzeros s t s' t
    · unfold Fit.squaredError
      rw [(sub_zero_congr (not_exists.mp hzero) s s').2]
  · exact hzeros s t s' t'

theorem leastAbsorption_congr (room : Room Float32) (h : Scalar.agrees target target') :
    (Fit.leastAbsorption room target : Float) = Fit.leastAbsorption room target' := by
  rcases agrees_cases h with rfl | ⟨s, t, rfl, rfl⟩
  · rfl
  · unfold Fit.leastAbsorption
    dsimp only
    rw [if_neg fun hpos => not_zero_lt_zero s hpos.1,
      if_neg fun hpos => not_zero_lt_zero t hpos.1]

end

/-! ## Goals -/

namespace Fit

/-- What a fit of the same curve in another order is after. -/
structure Goal.Rearranged {n : ℕ} (π : Equiv.Perm (Fin n)) (goal goal' : Goal Float32 Float) :
    Prop where
  bands : AmbisonicReverb.Rearranged π goal.bands goal'.bands
  extremes : ∃ i j : Fin n, (goal'.lowest = i ∧ goal'.highest = j) ∧
    goal.lowest = π i ∧ goal.highest = π j
  longest : Scalar.agrees goal.longest goal'.longest
  slope_eq : goal'.slope = goal.slope
  least_eq : goal'.least = goal.least

variable {n : ℕ} {π : Equiv.Perm (Fin n)} {bands bands' targets targets' : Array Float32}

/-- **The goal of a fit does not depend on the order of the curve.** -/
theorem Goal.rearranged_ofCurve (hbands : AmbisonicReverb.Rearranged π bands bands')
    (htargets : AmbisonicReverb.Rearranged π targets targets') (hnumbers : Numbers bands)
    (hdistinct : Distinct bands) (hnumbers' : Numbers targets) (hn : 0 < n) (room : Room Float32) :
    (Goal.ofCurve bands targets room).Rearranged π (Goal.ofCurve bands' targets' room) := by
  obtain ⟨i, j, hextremes', hextremes⟩ := exists_extremes hbands hnumbers hdistinct hn
  have hlongest := agrees_longest htargets hnumbers' hn
  have hslope := slope_eq hbands htargets i j
  unfold Goal.ofCurve
  rw [hextremes, hextremes']
  exact ⟨hbands, ⟨i, j, ⟨rfl, rfl⟩, rfl, rfl⟩, hlongest, hslope,
    (leastAbsorption_congr room hlongest).symm⟩

/-- A curve measured in another order has the same slope. -/
theorem Goal.Rearranged.slope_measured {goal goal' : Goal Float32 Float}
    (h : goal.Rearranged π goal') {times times' : Array Float32}
    (htimes : AmbisonicReverb.Rearranged π times times') :
    Fit.slope goal'.bands times' goal'.lowest goal'.highest =
      Fit.slope goal.bands times goal.lowest goal.highest := by
  obtain ⟨i, j, ⟨hlowest', hhighest'⟩, hlowest, hhighest⟩ := h.extremes
  rw [hlowest, hhighest, hlowest', hhighest']
  exact AmbisonicReverb.slope_eq h.bands htimes i j

end Fit

end AmbisonicReverb
