import Mathlib
import AmbisonicReverb.Proofs.CubeRoot
import AmbisonicReverb.Proofs.Operations

/-!
# The stable range

A network is stable as long as its gain and its filters stay in range, and delays fit into their
lines. Parameters come from outside and are anything that a binary32 number can be, but derived
settings are always in range.

**Theorem (`inRange_applyAll`).** After any control messages all networks of a configured reverb
are in range, and the gain of the input is finite and not negative.

* `Scalar.Within` — a range of numbers, to which NaN does not belong.
* `within_oneSub`, `within_mul`, `within_fraction` — the arithmetic of filter coefficients does not
  leave its ranges, since rounding passes no number (`Rounds.within`).
* `Network.inRange_of_setFor` — the settings of a derived network are in range.

The order of networks is at most `2 ^ 24` here. Above it, indices of paths are rounded.
-/

namespace AmbisonicReverb

/-! ## Ranges -/

/-- A number of the range. NaN is in no range. -/
structure Scalar.Within {α : Type} [Scalar α] (lo hi x : α) : Prop where
  lo_le : lo ≤ x
  le_hi : x ≤ hi
  number : Scalar.isNaN x = false

open Scalar (Within)

/-- Coefficients of a stable filter that does not amplify, and where they come from. -/
structure Reflection.Coefficients.InRange {α : Type} [Scalar α] (gain damping : α)
    (f : Reflection.Coefficients α) : Prop where
  b1_eq : f.b1 = gain * (1 - damping)
  a2_eq : f.a2 = -damping
  b1 : Within 0 1 f.b1
  a2 : Within (-Parameters.maxDamping) 0 f.a2
  eta : Within 0 Network.maxEta f.eta

/-- Delays fit into their lines, and gain and filters are in range. -/
structure Network.InRange {α : Type} [Scalar α] (damping : α) (n : Network α) : Prop where
  gain : Within 0 1 n.gain
  two_le_delay : ∀ p ∈ n.paths, 2 ≤ p.delay
  delay_le : ∀ p ∈ n.paths, p.delay ≤ p.line.capacity - 1
  paths : ∀ p ∈ n.paths, p.reflection.coefficients.InRange n.gain damping
  prefilters : n.prefilters.1.coefficients.InRange n.gain damping ∧
    n.prefilters.2.coefficients.InRange n.gain damping

structure Engine.InRange {α β : Type} [Scalar α] (damping : α) (e : Engine α β) : Prop where
  damping_within : Within 0 Parameters.maxDamping damping
  forward : ∀ n ∈ e.forward, n.InRange damping
  feedback : e.feedback.InRange damping
  inputGain : Scalar.isFinite e.inputGain ∧ 0 ≤ e.inputGain

/-! ## Arithmetic in ranges -/

theorem isFinite_binary32Zero : binary32Zero.isFinite = true := rfl

theorem realOf_binary32Zero : realOf binary32Zero = 0 := rfl

section

variable {lo hi x y : Float32}

theorem isNaN_eq (x : Float32) : Scalar.isNaN x = x.isNaN := by
  have hself : x ≤ x ↔ x.isNaN = false := by
    rw [binary32_le_iff, and_self]
    exact and_iff_left le_rfl
  unfold Scalar.isNaN
  cases h : x.isNaN with
  | false => rw [decide_eq_true (hself.mpr h), Bool.not_true]
  | true => rw [decide_eq_false (fun hle => nomatch (hself.mp hle).symm.trans h), Bool.not_false]

theorem within_of_le (h : lo ≤ x) (h' : x ≤ hi) : Within lo hi x :=
  ⟨h, h', (isNaN_eq x).trans (binary32_le_iff.mp h).1.2⟩

theorem within_iff (hlo : lo.isFinite) (hhi : hi.isFinite) :
    Within lo hi x ↔ x.isFinite ∧ realOf lo ≤ realOf x ∧ realOf x ≤ realOf hi := by
  constructor
  · rintro ⟨hle, hge, -⟩
    have hx := isFinite_of_le_of_le hlo hhi hle hge
    exact ⟨hx, (binary32_le_iff_realOf hlo hx).mp hle, (binary32_le_iff_realOf hx hhi).mp hge⟩
  · rintro ⟨hx, hle, hge⟩
    exact within_of_le ((binary32_le_iff_realOf hlo hx).mpr hle)
      ((binary32_le_iff_realOf hx hhi).mpr hge)

theorem within_clamp (h : lo ≤ hi) (hx : x.isNaN = false) :
    Within lo hi (Scalar.clamp lo hi x) := by
  obtain ⟨⟨hlo, hhi⟩, -⟩ := binary32_le_iff.mp h
  unfold Scalar.clamp
  split_ifs with hlow hhigh
  · exact within_of_le (binary32_le_iff.mpr ⟨⟨hlo, hlo⟩, le_rfl⟩) h
  · exact within_of_le h (binary32_le_iff.mpr ⟨⟨hhi, hhi⟩, le_rfl⟩)
  · exact within_of_le (binary32_le_of_not_lt hx hlo hlow) (binary32_le_of_not_lt hhi hx hhigh)

/-- A range with finite ends to which a value belongs also has what it is rounded to. -/
theorem Rounds.within {v : ℝ} (h : Rounds v x) (hlo : lo.isFinite) (hhi : hi.isFinite)
    (hle : realOf lo ≤ v) (hge : v ≤ realOf hi) : Within lo hi x :=
  (within_iff hlo hhi).mpr (h.between hlo hhi hle hge)

theorem within_oneSub (h : Within binary32Zero binary32One x) :
    Within binary32Zero binary32One (binary32One - x) := by
  obtain ⟨hx, hle, hge⟩ := (within_iff isFinite_binary32Zero isFinite_binary32One).mp h
  have hsub := rounds_sub isFinite_binary32One hx hle hge
  rw [realOf_binary32Zero] at hle
  rw [realOf_binary32One] at hge hsub
  apply hsub.within isFinite_binary32Zero isFinite_binary32One
  · rw [realOf_binary32Zero]
    linarith
  · rw [realOf_binary32One]
    linarith

/-- A factor between 0 and 1 makes nothing larger. -/
theorem within_mul (hhi : hi.isFinite) (hx : Within binary32Zero hi x)
    (hy : Within binary32Zero binary32One y) : Within binary32Zero hi (x * y) := by
  obtain ⟨hx, hxle, hxge⟩ := (within_iff isFinite_binary32Zero hhi).mp hx
  obtain ⟨hy, hyle, hyge⟩ := (within_iff isFinite_binary32Zero isFinite_binary32One).mp hy
  rw [realOf_binary32Zero] at hxle hyle
  rw [realOf_binary32One] at hyge
  apply (rounds_mul hx hy hxle hyle).within isFinite_binary32Zero hhi
  · rw [realOf_binary32Zero]
    positivity
  · exact (mul_le_of_le_one_right hxle hyge).trans hxge

theorem within_neg (hhi : hi.isFinite) (hx : Within binary32Zero hi x) :
    Within (-hi) binary32Zero (-x) := by
  obtain ⟨hx, hle, hge⟩ := (within_iff isFinite_binary32Zero hhi).mp hx
  rw [realOf_binary32Zero] at hle
  rw [within_iff (isFinite_neg hhi) isFinite_binary32Zero, realOf_neg, realOf_neg,
    realOf_binary32Zero]
  exact ⟨isFinite_neg hx, neg_le_neg hge, neg_nonpos.mpr hle⟩

/-- The position of a path, which is exact up to an order of `2 ^ 24`. -/
theorem within_fraction {order k : ℕ} (horder : order ≤ 2 ^ 24) (hk : k < order) :
    Within binary32Zero binary32One (NetworkDesign.fraction order k) := by
  unfold NetworkDesign.fraction
  split_ifs with h
  · obtain ⟨hnum, hnum'⟩ := realOf_ofNat (hk.le.trans horder)
    obtain ⟨hn, hn'⟩ := realOf_ofNat horder
    have hone : (1 : ℝ) ≤ order := by exact_mod_cast h.le
    have hsub := rounds_sub hn isFinite_binary32One (by rw [realOf_binary32One]; norm_num)
      (by rw [hn', realOf_binary32One]; exact hone)
    obtain ⟨y, hy, hyn⟩ := exists_realOf_eq (n := order - 1) (by omega)
    rw [Nat.cast_sub h.le, Nat.cast_one] at hyn
    rw [hn', realOf_binary32One] at hsub
    obtain ⟨hden, hden'⟩ := hsub.exact hy hyn
    have hpos : (0 : ℝ) < order - 1 := by
      have hlt : (1 : ℝ) < order := by exact_mod_cast h
      linarith
    have hle : (k : ℝ) ≤ order - 1 := by
      have hle : ((k + 1 : ℕ) : ℝ) ≤ order := by exact_mod_cast hk
      push_cast at hle
      linarith
    have hdiv := rounds_div hnum hden (by rw [hnum']; positivity) (hden' ▸ hpos)
    rw [hnum', hden'] at hdiv
    apply hdiv.within isFinite_binary32Zero isFinite_binary32One
    · rw [realOf_binary32Zero]
      positivity
    · rw [realOf_binary32One]
      exact (div_le_one hpos).mpr hle
  · exact (within_iff isFinite_binary32Zero isFinite_binary32One).mpr
      ⟨isFinite_binary32Zero, le_rfl, by rw [realOf_binary32One]; exact zero_le_one⟩

end

/-! ## Derived settings -/

section

variable {x : Float32}

theorem within_gain (method : GainMethod) (shortest average decayTime : Float32) :
    Within binary32Zero binary32One (method.gain shortest average decayTime) := by
  have hrange : binary32Zero ≤ binary32One := by decide +kernel
  unfold GainMethod.gain
  dsimp only
  split_ifs with hfinite
  · exact within_clamp hrange (isNaN_of_isFinite hfinite)
  · exact within_of_le (by decide +kernel) hrange

theorem isFinite_maxDamping : (Parameters.maxDamping : Float32).isFinite = true := rfl

theorem isFinite_maxEta : (Network.maxEta : Float32).isFinite = true := rfl

theorem within_stableDamping (p : Parameters Float32) :
    Within binary32Zero Parameters.maxDamping p.stableDamping := by
  have hrange : binary32Zero ≤ (Parameters.maxDamping : Float32) := by decide +kernel
  unfold Parameters.stableDamping
  split_ifs with hnan
  · exact within_of_le (by decide +kernel) hrange
  · apply within_clamp hrange
    rwa [isNaN_eq, Bool.not_eq_true] at hnan

theorem isFinite_half : (0.5 : Float32).isFinite = true := rfl

theorem realOf_half : realOf (0.5 : Float32) = 2 ^ (-1 : ℤ) := by
  have hunpack : (0.5 : Float32) = binary32PowTwo (-1) := by decide +kernel
  rw [hunpack]
  exact realOf_binary32PowTwo (by norm_num) (by norm_num)

/-- The reciprocal of half a root that is not too small. -/
theorem reciprocal_bounds (hx : x.isFinite) (hlow : 2 ^ (-50 : ℤ) ≤ realOf x) :
    (binary32One / (0.5 * x)).isFinite ∧ binary32Zero ≤ binary32One / (0.5 * x) := by
  have hx' : 0 ≤ realOf x := (zpow_pos two_pos _).le.trans hlow
  have hhalf := rounds_mul isFinite_half hx (realOf_half ▸ (zpow_pos two_pos _).le) hx'
  rw [realOf_half] at hhalf
  have hleast := realOf_binary32PowTwo (k := -51) (by norm_num) (by norm_num)
  have hlargest := realOf_binary32PowTwo (k := 51) (by norm_num) (by norm_num)
  obtain ⟨hden, hdenlow, -⟩ := hhalf.between
    (isFinite_binary32PowTwo (k := -51) (by norm_num) (by norm_num)) hx
    (by rw [hleast]; norm_num at hlow ⊢; linarith) (by norm_num; linarith)
  rw [hleast] at hdenlow
  have hpos : 0 < realOf (0.5 * x) := (zpow_pos two_pos _).trans_le hdenlow
  have hdiv := rounds_div isFinite_binary32One hden (realOf_binary32One ▸ zero_le_one) hpos
  rw [realOf_binary32One] at hdiv
  obtain ⟨hfinite, hle, -⟩ := hdiv.between isFinite_binary32Zero
    (isFinite_binary32PowTwo (k := 51) (by norm_num) (by norm_num))
    (by rw [realOf_binary32Zero]; positivity)
    (by rw [hlargest, div_le_iff₀ hpos]; norm_num at hdenlow ⊢; linarith)
  exact ⟨hfinite, (binary32_le_iff_realOf isFinite_binary32Zero hfinite).mpr hle⟩

/-- A positive number is infinite or has a canonical form. -/
theorem unpack_of_pos (h : binary32Zero < x) :
    x.toModel.unpack = .infinity .positive ∨
      ∃ m e hm, x.toModel.unpack = .finite .positive m e hm ∧ Fits m e ∧ e ≤ 104 := by
  have hcanonical := canonical_of x
  obtain ⟨⟨-, hnumber⟩, hplace⟩ := binary32_lt_iff.mp h
  rw [isNaN_eq_false_iff] at hnumber
  have hplace : toLex (0, toLex (0, 0)) < place x.toModel.unpack := hplace
  rcases hu : x.toModel.unpack with ⟨_ | _⟩ | _ | _ | ⟨_ | _, m, e, hm⟩ <;>
    rw [hu] at hplace hcanonical
  · exact absurd hplace (by decide)
  · exact .inl rfl
  · exact absurd hu hnumber
  · exact absurd hplace (lt_irrefl _)
  · exact absurd hplace (by simp [place, Prod.Lex.toLex_lt_toLex])
  · exact .inr ⟨m, e, hm, rfl, hcanonical.1, hcanonical.2⟩

/-- A room of any size takes its input at a finite level. -/
theorem inputGain_bounds (room : Room Float32) :
    room.inputGain.isFinite ∧ binary32Zero ≤ room.inputGain := by
  unfold Room.inputGain
  split_ifs with hvolume
  · rcases unpack_of_pos hvolume with hinfinite | ⟨m, e, hm, hfinite, hfits, he⟩
    · have hvalue := BinaryValue.eq_infinite_of_unpacked
        ((unpack_toModel room.volume).symm.trans hinfinite)
      have hroot : Elementary.cubeRoot room.volume = Float32.ofBits 0x7f800000 :=
        congrArg BinaryValue.cubeRoot32 hvalue
      rw [hroot]
      decide +kernel
    · have hvalue := BinaryValue.eq_finite_of_unpacked
        ((unpack_toModel room.volume).symm.trans hfinite)
      have hroot : Elementary.cubeRoot room.volume = BinaryValue.cubeRoot32 (.finite false m e) :=
        congrArg BinaryValue.cubeRoot32 hvalue
      obtain ⟨hc, hlow⟩ := BinaryValue.cubeRoot32_bounds hm.ne' hfits he
      rw [hroot]
      exact reciprocal_bounds hc hlow
  · decide +kernel

end

variable {gain damping : Float32}

theorem Reflection.inRange_setLowpass {f : Reflection Float32}
    (hgain : Within binary32Zero binary32One gain)
    (hdamping : Within binary32Zero Parameters.maxDamping damping)
    (heta : Within binary32Zero Network.maxEta f.eta) :
    (f.setLowpass gain damping).coefficients.InRange gain damping := by
  have hdamping' : Within binary32Zero binary32One damping :=
    within_of_le hdamping.lo_le (binary32_le_trans hdamping.le_hi (by decide +kernel))
  exact ⟨rfl, rfl, within_mul isFinite_binary32One hgain (within_oneSub hdamping'),
    within_neg isFinite_maxDamping hdamping, heta⟩

variable {c : Config Float32} {method : GainMethod} {p : Parameters Float32}

/-- **Derived networks are in range.** -/
theorem Network.inRange_of_setFor (hc : c.order ≤ 2 ^ 24) {sampleRate : Float32} {mode : Mode}
    {n : Network Float32} (h : n.SetFor c method p sampleRate mode) :
    n.InRange p.stableDamping := by
  obtain ⟨fresh, hnew, hsettings⟩ := h
  have hfresh : fresh.order = c.order ∧
      fresh.prefilters = (Reflection.silent, Reflection.silent.setEta maxEta) := by
    unfold new at hnew
    split_ifs at hnew
    obtain rfl := Except.ok.inj hnew
    exact ⟨Array.size_replicate, rfl⟩
  have hgain : Within binary32Zero binary32One (fresh.designGain (p.design sampleRate)) :=
    within_gain _ _ _ _
  have hdamping := within_stableDamping p
  have hmaxEta : binary32Zero ≤ (maxEta : Float32) := by decide +kernel
  have hsilent : Within binary32Zero maxEta (Reflection.silent : Reflection Float32).eta :=
    within_of_le (by decide +kernel) hmaxEta
  have hlast : Within binary32Zero maxEta
      ((Reflection.silent : Reflection Float32).setEta maxEta).eta :=
    within_of_le hmaxEta (by decide +kernel)
  have hgain' : n.gain = fresh.designGain (p.design sampleRate) :=
    congrArg Settings.gain hsettings
  rw [derive_eq, hfresh.2] at hsettings
  constructor
  case gain => exact hgain' ▸ hgain
  case two_le_delay => exact fun q _ => q.line.two_le_length
  case delay_le => exact fun q _ => Nat.le_sub_one_of_lt q.line.length_lt_size
  case paths =>
    intro q hq
    have hmem : q.settings ∈ n.paths.map Path.settings := Array.mem_map_of_mem hq
    rw [show n.paths.map Path.settings = _ from congrArg Settings.paths hsettings] at hmem
    obtain ⟨q', hq', hqq'⟩ := Array.mem_map.mp hmem
    obtain ⟨k, hk, rfl⟩ := Array.mem_mapIdx.mp hq'
    have hcoefficients : q.reflection.coefficients =
        (fresh.derivedPath (p.design sampleRate) k fresh.paths[k]).reflection.coefficients :=
      (congrArg Path.Settings.reflection hqq').symm
    rw [hgain', hcoefficients]
    apply Reflection.inRange_setLowpass hgain hdamping
    rw [hfresh.1]
    exact within_mul isFinite_maxEta (within_of_le hmaxEta (by decide +kernel))
      (within_fraction hc (hfresh.1 ▸ hk))
  case prefilters =>
    have hprefilters := congrArg Settings.prefilters hsettings
    have hfirst : n.prefilters.1.coefficients =
        (Reflection.silent.setLowpass (fresh.designGain (p.design sampleRate))
          p.stableDamping).coefficients := congrArg Prod.fst hprefilters
    have hsecond : n.prefilters.2.coefficients =
        ((Reflection.silent.setEta maxEta).setLowpass (fresh.designGain (p.design sampleRate))
          p.stableDamping).coefficients := congrArg Prod.snd hprefilters
    rw [hgain', hfirst, hsecond]
    exact ⟨Reflection.inRange_setLowpass hgain hdamping hsilent,
      Reflection.inRange_setLowpass hgain hdamping hlast⟩

theorem Engine.Matches.inRange {e : Engine Float32 Float} (h : e.Matches c method p)
    (hc : c.order ≤ 2 ^ 24) : e.InRange p.stableDamping where
  damping_within := within_stableDamping p
  forward n hn := Network.inRange_of_setFor hc (h.forward n hn)
  feedback := Network.inRange_of_setFor hc h.feedback
  inputGain := by
    rw [h.inputGain]
    exact inputGain_bounds p.room

namespace Reverb

/-- **No control message leads out of the stable range.** -/
theorem inRange_applyAll (hc : c.order ≤ 2 ^ 24) {start r : Reverb Float32 Float}
    (hnew : Reverb.new c = .ok start) (earlier : List (Operation Float32 Float))
    {sampleRate : Float32} {fragment : ℕ}
    (hconfigure : (start.performAll earlier).configure sampleRate fragment = .ok r)
    (queue : List (ControlMessage Float32)) :
    ∃ e, (r.applyAll queue).2.engine = some e ∧
      e.InRange (r.applyAll queue).2.parameters.stableDamping := by
  have hcurrent : (r.applyAll queue).2.Current c :=
    ((current_of_reachable ⟨start, hnew, steps_performAll start earlier⟩).configure
      hconfigure).applyAll queue
  have hengine : (r.applyAll queue).2.engine.isSome := by
    obtain ⟨-, e, -, rfl⟩ := configure_eq_ok_iff.mp hconfigure
    exact isSome_engine_step (.applyAll _ queue) rfl
  obtain ⟨e, he⟩ := Option.isSome_iff_exists.mp hengine
  exact ⟨e, he, ((hcurrent.engine e he).matches hcurrent.order_ne_zero).inRange hc⟩

/-- A hall with a forward stage, as binary32 numbers. -/
def smallHall : Config Float32 :=
  { Config.default with
    forwardStages := 1
    room := ⟨40, 50, 10⟩ }

/-- Rooms that are none. -/
def strayRooms : List (ControlMessage Float32) :=
  [.room ⟨0 / 0, 4, 5⟩ (0 / 0) (0 / 0), .law .squareRoot, .room ⟨-4, 5, 1 / 0⟩ (1 / 0) (-1),
    .layout .fixed, .room ⟨0, -5, 6⟩ (-1) 0]

theorem inRange_applyAll_strayRooms : ∃ start r : Reverb Float32 Float,
    (smallHall.order ≤ 2 ^ 24 ∧ Reverb.new smallHall = .ok start ∧
      (start.performAll [.applyAll strayRooms]).configure 48000 16 = .ok r) ∧
        ∃ e, (r.applyAll strayRooms).2.engine = some e ∧
          e.InRange (r.applyAll strayRooms).2.parameters.stableDamping := by
  have hcheck : smallHall.check = .ok .shortest := by decide +kernel
  obtain ⟨start, hnew⟩ : ∃ start : Reverb Float32 Float, Reverb.new smallHall = .ok start := by
    unfold new
    rw [hcheck]
    exact ⟨_, rfl⟩
  have hcurrent : (start.performAll [.applyAll strayRooms]).Current smallHall :=
    current_of_reachable ⟨start, hnew, steps_performAll start _⟩
  have hsound : Scalar.isFinite (48000 : Float32) ∧ (1 : Float32) ≤ 48000 := by decide +kernel
  obtain ⟨_, -, hfresh⟩ := Engine.exists_new (α := Float32) (β := Float) hcurrent.order_ne_zero
    (start.performAll [.applyAll strayRooms]).method 48000
  obtain ⟨e, he, -⟩ := hfresh (start.performAll [.applyAll strayRooms]).parameters
  rw [← hcurrent.config_eq] at he
  have hconfigure : (start.performAll [.applyAll strayRooms]).configure 48000 16 = .ok _ :=
    configure_eq_ok_iff.mpr ⟨hsound, e, he, rfl⟩
  have horder : smallHall.order ≤ 2 ^ 24 := by decide
  exact ⟨start, _, ⟨horder, hnew, hconfigure⟩,
    inRange_applyAll horder hnew [.applyAll strayRooms] hconfigure strayRooms⟩

end Reverb

end AmbisonicReverb
