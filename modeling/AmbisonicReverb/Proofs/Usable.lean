import Mathlib
import AmbisonicReverb.Proofs.BinaryMonotone
import AmbisonicReverb.Proofs.Checked
import AmbisonicReverb.Proofs.Fragments
import AmbisonicReverb.Proofs.Messages
import AmbisonicReverb.Proofs.Range

/-!
# Usable decay times

Parameters, input and the centres of bands are any binary32 numbers, and a filter can make infinite
what was finite. A decay time is usable all the same.

**Theorem (`times_usable`).** In every reachable state a measurement gives one time for each centre
and one over all frequencies. Each is `unmeasured`, if the walk along the response ends without a
pair of crossings. Otherwise it is the finite time between the pair that is found: the second
crossing is a sample of the response and does not come before the first one, so that their
difference, taken with a check, is there (`Decay.Usable`).

* `Decay.crossings_bounds` — the order of the two crossings is kept along the walk, whatever the
  energies are. No comparison with NaN holds, and none is needed.
* `Reverb.sampleRate_of_reachable` — a step keeps the sample rate or brings a sound one.
* `Decay.Stages.mono` — a shorter span does not take a longer time, since rounding keeps order.
-/

namespace AmbisonicReverb

/-! ## Spans of a response -/

namespace Decay

section

variable {α : Type} [Scalar α]

/-- The decay time that a span between the two levels shows. -/
def spanTime (span : ℕ) (sampleRate : α) : α := 3.0 * Scalar.ofNat span / sampleRate

/-- A decay time that can be used, of a response with the given number of samples, when `pair` is
what the walk found in it: there is none, or it is that of the span between the two crossings. -/
inductive Usable (length : ℕ) (sampleRate : α) (pair : Option (ℕ × ℕ)) : α → Prop
  | unmeasured (missing : pair = none) : Usable length sampleRate pair unmeasured
  | spanned {a b span : ℕ} (found : pair = some (a, b)) (lt_length : b < length)
      (difference : difference? b a = some span)
      (finite : Scalar.isFinite (spanTime span sampleRate))
      (nonneg : 0 ≤ spanTime span sampleRate)
      (le_longest : spanTime span sampleRate ≤ spanTime (length - 1) sampleRate) :
      Usable length sampleRate pair (spanTime span sampleRate)

end

section

variable {α β : Type} [Scalar β] [Widening α β]

/-- The second crossing is not before the first one, and within the response. -/
theorem crossings_bounds {levels : Thresholds β} {l : List α} {remaining : β} {index : ℕ}
    {above : Option ℕ} (habove : ∀ a ∈ above, a ≤ index) {a b : ℕ}
    (h : crossings levels remaining index above l = some (a, b)) :
    a ≤ b ∧ b < index + l.length := by
  induction l generalizing remaining index above with
  | nil => exact nomatch h
  | cons x l ih =>
    rw [crossings] at h
    generalize hfirst : (if above.isNone && remaining ≤ levels.upper then some index else above) =
      first at h
    have hle : ∀ a ∈ first, a ≤ index := by
      intro a ha
      rw [← hfirst] at ha
      split_ifs at ha
      · exact (Option.mem_some_iff.mp ha).ge
      · exact habove a ha
    split_ifs at h with hlower
    · obtain ⟨a', ha', hab⟩ := Option.map_eq_some_iff.mp h
      obtain ⟨rfl, rfl⟩ := Prod.mk.inj hab
      exact ⟨hle a' ha', Nat.lt_add_of_pos_right (Nat.succ_pos l.length)⟩
    · obtain ⟨hab, hb⟩ := ih (fun a ha => (hle a ha).trans (Nat.le_succ index)) h
      refine ⟨hab, hb.trans_eq ?_⟩
      rw [List.length_cons]
      omega

end

variable {α β : Type} [Elementary α] [Elementary β] [Widening α β]

/-- The pair of crossings that is found in a response. There is none in one that is silent or has no
finite energy. -/
def crossed (response : Array α) : Option (ℕ × ℕ) :=
  let total : β := totalEnergy response
  if total ≤ 0 ∨ ¬ Scalar.isFinite total then none
  else
    let shares : Thresholds β := Thresholds.standard (α := α)
    crossings ⟨total * shares.upper, total * shares.lower⟩ total 0 none response.toList

/-- The crossings that are found are samples of the response, in order. -/
theorem crossed_bounds {response : Array α} {a b : ℕ}
    (h : crossed (β := β) response = some (a, b)) : a ≤ b ∧ b < response.size := by
  unfold crossed at h
  dsimp only at h
  split_ifs at h
  have hbounds := crossings_bounds (fun a ha => absurd ha (Option.not_mem_none a)) h
  rwa [Nat.zero_add, Array.length_toList] at hbounds

/-- A decay time is that of the crossings that are found. -/
theorem time_eq_elim (response : Array α) (sampleRate : α) :
    time (β := β) response sampleRate = (crossed (β := β) response).elim unmeasured
      fun pair => spanTime (pair.2 - pair.1) sampleRate := by
  unfold time crossed
  dsimp only
  split_ifs
  · rfl
  · generalize crossings _ _ 0 none response.toList = found
    cases found <;> rfl

omit [Elementary α] in
theorem size_bandLimited (response : Array α) (centre sampleRate : α) :
    (bandLimited response centre sampleRate).size = response.size := by
  unfold bandLimited
  induction bandPasses with
  | zero => rfl
  | succ n ih => exact (size_runOver _ _ _).trans ih

end Decay

/-! ## The sample rate -/

namespace Reverb

section

variable {α β : Type} [Elementary α] [Elementary β] [Widening α β] {c : Config α}
  {r r' : Reverb α β}

theorem sampleRate?_update (r : Reverb α β) (revise : Parameters α → Parameters α) :
    (r.update revise).sampleRate? = r.sampleRate? :=
  Option.map_map ..

/-- A step keeps the sample rate, or brings one that can be configured. -/
theorem sampleRate?_step (hc : r.Current c) (h : Step r r') :
    r'.sampleRate? = r.sampleRate? ∨
      ∃ rate, r'.sampleRate? = some rate ∧ Scalar.isFinite rate ∧ 1 ≤ rate := by
  have hsignals : ∀ {e e' : Engine α β}, r.engine? = some e → e'.rest = e.rest →
      some e'.sampleRate = r.sampleRate? := by
    intro e e' he hrest
    rw [sampleRate?, engine_of_engine? he, Engine.sampleRate_eq_of_rest_eq hrest]
    rfl
  cases h with
  | @configure _ _ rate _ h =>
    obtain ⟨hsound, e, hnew, rfl⟩ := configure_eq_ok_iff.mp h
    rw [hc.config_eq] at hnew
    obtain ⟨_, _, _, rfl⟩ := Engine.exists_eq_derive_of_new hc.order_ne_zero hnew
    exact .inr ⟨rate, rfl, hsound⟩
  | update _ revise => exact .inl (sampleRate?_update r revise)
  | applyAll _ queue => exact .inl (sampleRate?_applyAll r queue)
  | addPointSource => exact .inl rfl
  | addDiffuse => exact .inl rfl
  | process _ output =>
    left
    unfold Reverb.process
    cases he : r.engine? with
    | none => rfl
    | some e => exact hsignals he (Engine.rest_runOver e _)
  | impulseResponse _ n =>
    left
    unfold Reverb.impulseResponse
    cases he : r.engine? with
    | none => rfl
    | some e => exact hsignals he (Engine.rest_impulseResponse e n)
  | measure _ analyse =>
    left
    unfold Reverb.measure
    cases he : r.engine? with
    | none => rfl
    | some e => exact hsignals he (Engine.rest_impulseResponse e _)
  | hold => exact .inl rfl

/-- The sample rate of a reachable reverb is finite, and at least 1. -/
theorem sampleRate_of_reachable (h : Reachable c r) {e : Engine α β} (he : r.engine = some e) :
    Scalar.isFinite e.sampleRate ∧ 1 ≤ e.sampleRate := by
  obtain ⟨start, hstart, hsteps⟩ := h
  have hrates : ∀ rate ∈ r.sampleRate?, Scalar.isFinite rate ∧ 1 ≤ rate := by
    clear he
    induction hsteps with
    | refl =>
      have hengine : start.engine = none := congrArg Reverb.engine (eq_of_new hstart)
      intro rate hrate
      rw [sampleRate?, hengine] at hrate
      exact absurd hrate (Option.not_mem_none rate)
    | tail hbefore hstep ih =>
      have hcurrent := current_of_reachable ⟨start, hstart, hbefore⟩
      rcases sampleRate?_step hcurrent hstep with hkept | ⟨rate, hrate, hsound⟩
      · exact hkept ▸ ih
      · intro rate' hrate'
        rw [hrate] at hrate'
        exact Option.mem_some_iff.mp hrate' ▸ hsound
  exact hrates e.sampleRate (Option.map_eq_some_iff.mpr ⟨e, he, rfl⟩)

end

end Reverb

/-! ## Binary32 times -/

theorem BinaryValue.toNatBy_le {quotient : ℕ → ℕ → ℕ} (v : BinaryValue) :
    v.toNatBy quotient ≤ largestCount := by
  rcases v with ⟨_ | _, m, _ | _⟩ | ⟨_ | _⟩ | _ <;> first
    | exact Nat.zero_le _
    | exact le_rfl
    | exact min_le_right _ _

theorem Parameters.responseLengthFor_le (p : Parameters Float32) (sampleRate seconds : Float32) :
    p.responseLengthFor sampleRate seconds ≤ BinaryValue.largestCount := by
  have hround (x : Float32) : (binary32Value x).roundToNat ≤ BinaryValue.largestCount :=
    BinaryValue.toNatBy_le _
  have htrunc (x : Float32) : (binary32Value x).truncToNat ≤ BinaryValue.largestCount :=
    BinaryValue.toNatBy_le _
  unfold responseLengthFor
  dsimp only
  split_ifs
  · exact hround _
  · exact htrunc _

namespace Decay

variable {k n : ℕ} {sampleRate : Float32}

theorem three_eq : (3.0 : Float32) = Float32.ofNat 3 := by decide +kernel

/-- The stages in which the time of a span is computed. None of them overflows. -/
structure Stages (n : ℕ) (sampleRate : Float32) : Prop where
  count : (Float32.ofNat n).isFinite
  product : Rounded (3 * realOf (Float32.ofNat n)) (3.0 * Float32.ofNat n)
  product_finite : (3.0 * Float32.ofNat n).isFinite
  quotient : Rounded (realOf (3.0 * Float32.ofNat n) / realOf sampleRate) (spanTime n sampleRate)
  finite : (spanTime n sampleRate).isFinite
  nonneg : 0 ≤ realOf (spanTime n sampleRate)

/-- What is rounded from a number that is not too large is finite. -/
theorem rounded_bounds {v : ℝ} {x : Float32} {i : ℤ} (hx : Rounded v x) (hlow : 0 ≤ v)
    (hhigh : v ≤ 2 ^ i) (hi : -126 ≤ i) (hi' : i ≤ 127) :
    x.isFinite ∧ 0 ≤ realOf x ∧ realOf x ≤ 2 ^ i := by
  have hzero := realOf_binary32Zero
  have hpow := realOf_binary32PowTwo hi hi'
  have hbetween := hx.rounds.between isFinite_binary32Zero (isFinite_binary32PowTwo hi hi')
    (hzero.trans_le hlow) (hhigh.trans_eq hpow.symm)
  rwa [hzero, hpow] at hbetween

theorem stages (hn : n ≤ BinaryValue.largestCount) (hrate : sampleRate.isFinite)
    (hrate' : 1 ≤ realOf sampleRate) : Stages n sampleRate := by
  have hcount : (n : ℝ) ≤ 2 ^ (64 : ℤ) := by
    have hcount : n ≤ 2 ^ 64 := hn.trans (Nat.sub_le _ _)
    exact_mod_cast hcount
  obtain ⟨hthree, hthree'⟩ := realOf_ofNat (n := 3) (by norm_num)
  rw [← three_eq] at hthree hthree'
  obtain ⟨hx, hxlow, hxhigh⟩ :=
    rounded_bounds (rounded_ofNat n) n.cast_nonneg hcount (by norm_num) (by norm_num)
  have hproduct := rounded_mul hthree hx (by rw [hthree']; norm_num) hxlow
  rw [hthree'] at hproduct
  have hlarge : 3 * realOf (Float32.ofNat n) ≤ 2 ^ (66 : ℤ) := by
    calc 3 * realOf (Float32.ofNat n) ≤ 3 * 2 ^ (64 : ℤ) := by gcongr
      _ ≤ 2 ^ (66 : ℤ) := by norm_num
  obtain ⟨hy, hylow, hyhigh⟩ :=
    rounded_bounds hproduct (by positivity) hlarge (by norm_num) (by norm_num)
  have hquotient := rounded_div hy hrate hylow (zero_lt_one.trans_le hrate')
  obtain ⟨hz, hzlow, -⟩ := rounded_bounds hquotient (by positivity)
    ((div_le_self hylow hrate').trans hyhigh) (by norm_num) (by norm_num)
  exact ⟨hx, hproduct, hy, hquotient, hz, hzlow⟩

/-- A shorter span does not take a longer time. -/
theorem Stages.mono (hk : Stages k sampleRate) (hn : Stages n sampleRate) (hkn : k ≤ n)
    (hrate : 1 ≤ realOf sampleRate) :
    realOf (spanTime k sampleRate) ≤ realOf (spanTime n sampleRate) := by
  have hcount : realOf (Float32.ofNat k) ≤ realOf (Float32.ofNat n) :=
    (rounded_ofNat k).mono (rounded_ofNat n) (Nat.cast_le.mpr hkn) hk.count hn.count
  have hproduct : realOf (3.0 * Float32.ofNat k) ≤ realOf (3.0 * Float32.ofNat n) :=
    hk.product.mono hn.product (by gcongr) hk.product_finite hn.product_finite
  exact hk.quotient.mono hn.quotient (by gcongr) hk.finite hn.finite

/-- **Decay times are usable.** The response is anything, as long as its samples can be counted. -/
theorem usable_time {response : Array Float32} (hsize : response.size ≤ BinaryValue.largestCount)
    (hrate : Scalar.isFinite sampleRate) (hrate' : 1 ≤ sampleRate) :
    Usable response.size sampleRate (crossed (β := Float) response)
      (time (β := Float) response sampleRate) := by
  have hrate : sampleRate.isFinite := hrate
  have hone : 1 ≤ realOf sampleRate := by
    rw [← realOf_binary32One]
    exact (binary32_le_iff_realOf isFinite_binary32One hrate).mp hrate'
  rw [time_eq_elim]
  rcases hcrossed : crossed (β := Float) response with _ | ⟨a, b⟩
  · exact .unmeasured rfl
  · obtain ⟨hab, hb⟩ := crossed_bounds hcrossed
    have hspan := stages (n := b - a) (by omega) hrate hone
    have hlongest := stages (n := response.size - 1) (by omega) hrate hone
    refine .spanned rfl hb (difference?_eq hab) hspan.finite ?_ ?_
    · exact (binary32_le_iff_realOf isFinite_binary32Zero hspan.finite).mpr hspan.nonneg
    · exact (binary32_le_iff_realOf hspan.finite hlongest.finite).mpr
        (hspan.mono hlongest (by omega) hone)

/-- Usable times are finite, and so they are not NaN. -/
theorem Usable.isFinite {length : ℕ} {pair : Option (ℕ × ℕ)} {t : Float32}
    (h : Usable length sampleRate pair t) : t.isFinite = true := by
  cases h with
  | unmeasured => rfl
  | spanned _ _ _ finite => exact finite

theorem usable_bandTime {response : Array Float32}
    (hsize : response.size ≤ BinaryValue.largestCount) (hrate : Scalar.isFinite sampleRate)
    (hrate' : 1 ≤ sampleRate) (centre : Float32) :
    Usable response.size sampleRate
      (crossed (β := Float) (bandLimited (β := Float) response centre sampleRate))
      (bandTime (β := Float) response centre sampleRate) := by
  have hband := size_bandLimited (β := Float) response centre sampleRate
  have htime := usable_time (hband.trans_le hsize) hrate hrate'
  rw [hband] at htime
  exact htime

end Decay

/-! ## Measurements -/

namespace Reverb

variable {c : Config Float32} {r : Reverb Float32 Float} {e : Engine Float32 Float}

theorem size_analysed (r : Reverb Float32 Float) (e : Engine Float32 Float) :
    (e.impulseResponse (r.analysedLength e)).1.size = r.analysedLength e :=
  e.size_impulseResponse _

/-- What is analysed can be counted. -/
theorem size_analysed_le (r : Reverb Float32 Float) (e : Engine Float32 Float) :
    (e.impulseResponse (r.analysedLength e)).1.size ≤ BinaryValue.largestCount :=
  (size_analysed r e).trans_le ((min_le_left _ _).trans (r.parameters.responseLengthFor_le _ _))

/-- The time in any band is usable. -/
theorem usable_analysed (h : Reachable c r) (he : r.engine? = some e) (centre : Float32) :
    let response := (e.impulseResponse (r.analysedLength e)).1
    Decay.Usable response.size e.sampleRate
      (Decay.crossed (β := Float) (Decay.bandLimited (β := Float) response centre e.sampleRate))
      (Decay.bandTime (β := Float) response centre e.sampleRate) := by
  obtain ⟨hfinite, hone⟩ := sampleRate_of_reachable h (engine_of_engine? he)
  exact Decay.usable_bandTime (size_analysed_le r e) hfinite hone centre

/-- **Measured decay times are usable.** Whatever a reachable reverb was asked before, and whatever
its parameters are, a measurement analyses some response, as far as there is room for it. It gives
one time for each centre, from the crossings in the response confined to the band of that centre,
and one over all frequencies, from the crossings in the response itself. All of them are usable. -/
theorem times_usable (h : Reachable c r) (he : r.engine? = some e) :
    ∃ response, (r.measure fun response _ => response).1 = some response ∧
      response.size ≤ e.capacity ∧
      (∀ centres, ∃ times, (r.bandTimes centres).1 = some times ∧ times.size = centres.size ∧
        ∀ (i : ℕ) centre, centres[i]? = some centre → ∃ t, times[i]? = some t ∧
          Decay.Usable response.size e.sampleRate
            (Decay.crossed (β := Float)
              (Decay.bandLimited (β := Float) response centre e.sampleRate)) t) ∧
      ∃ t, r.broadbandTime.1 = some t ∧
        Decay.Usable response.size e.sampleRate (Decay.crossed (β := Float) response) t := by
  obtain ⟨hfinite, hone⟩ := sampleRate_of_reachable h (engine_of_engine? he)
  have hmeasure : ∀ {γ : Type} (analyse : Array Float32 → Float32 → γ), (r.measure analyse).1 =
      some (analyse (e.impulseResponse (r.analysedLength e)).1 e.sampleRate) :=
    fun analyse => congrArg Prod.fst (measure_eq he analyse)
  refine ⟨_, hmeasure _, (size_analysed r e).trans_le (min_le_right _ _), fun centres => ?_, ?_⟩
  · refine ⟨_, hmeasure _, Array.size_map, fun i centre hcentre => ?_⟩
    rw [Array.getElem?_map, hcentre]
    exact ⟨_, rfl, usable_analysed h he centre⟩
  · exact ⟨_, hmeasure _, Decay.usable_time (size_analysed_le r e) hfinite hone⟩

/-- Parameters that are no numbers, or no room. -/
def strayParameters (p : Parameters Float32) : Parameters Float32 :=
  { p with
    room := ⟨0 / 0, 4, -5⟩
    damping := 0 / 0
    decayTime := 1 / 0
    speedOfSound := 0 }

theorem times_usable_smallHall : ∃ (r : Reverb Float32 Float) (e : Engine Float32 Float),
    (Reachable smallHall r ∧ r.engine? = some e) ∧
      ∃ response, (r.measure fun response _ => response).1 = some response ∧
        response.size ≤ e.capacity ∧
        (∀ centres, ∃ times, (r.bandTimes centres).1 = some times ∧ times.size = centres.size ∧
          ∀ (i : ℕ) centre, centres[i]? = some centre → ∃ t, times[i]? = some t ∧
            Decay.Usable response.size e.sampleRate
              (Decay.crossed (β := Float)
                (Decay.bandLimited (β := Float) response centre e.sampleRate)) t) ∧
        ∃ t, r.broadbandTime.1 = some t ∧
          Decay.Usable response.size e.sampleRate (Decay.crossed (β := Float) response) t := by
  have hcheck : smallHall.check = .ok .shortest := by decide +kernel
  have hrate : Scalar.isFinite (48000 : Float32) ∧ (1 : Float32) ≤ 48000 := by decide +kernel
  obtain ⟨r, e, hreachable, he, -⟩ := exists_reachable (β := Float) hcheck hrate 16
  have hreachable := hreachable.step (.update r strayParameters)
  have hengine := engine?_update he strayParameters
  exact ⟨_, _, ⟨hreachable, hengine⟩, times_usable hreachable hengine⟩

end Reverb

end AmbisonicReverb
