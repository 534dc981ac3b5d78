import Mathlib
import AmbisonicReverb.Proofs.Domain
import AmbisonicReverb.Proofs.Echo
import AmbisonicReverb.Proofs.GainLaws
import AmbisonicReverb.Proofs.Spacing

/-!
# Absorption acts on the gains

When a reverb takes its decay time from the room, the absorption of the room is what a fit turns to
change it. Turning it one way must change the decay one way, and must not change anything else, or
a search would chase a target that moves.

**Theorem (`derive_absorption`).** Read exactly, more absorption makes no gain of an engine larger
and leaves all but the gains as it was. Above the least absorption the reverberation loses gain
with every bit of it. When the decay time is given, absorption has no effect.

The gains of a network are the gain of its design and the first coefficients of all its reflections
(`Network.gains`). The decay time of a design has no part in anything else
(`Network.withoutGain_derive`), and the gains grow with it (`Network.gains_derive_mono`), as
Sabine's time falls with the absorption (`Room.sabineTime_anti`).
-/

namespace AmbisonicReverb

/-! ## Designs that differ in their decay time -/

section

variable {α : Type} [Scalar α]

def Reflection.withoutGain (f : Reflection α) : Reflection α := { f with b1 := 0 }

def Path.withoutGain (p : Path α) : Path α := { p with reflection := p.reflection.withoutGain }

namespace Network

/-- The network without what its gain decides. -/
def withoutGain (n : Network α) : Network α :=
  { n with
    gain := 0
    prefilters := (n.prefilters.1.withoutGain, n.prefilters.2.withoutGain)
    paths := n.paths.map Path.withoutGain }

/-- The gain of a network, and how much of their input its reflections let in. -/
def gains (n : Network α) : List α :=
  n.gain :: n.prefilters.1.b1 :: n.prefilters.2.b1 :: n.paths.toList.map (·.reflection.b1)

end Network

end

namespace Network

section

variable {α β : Type} [Elementary α] [Elementary β] [Widening α β]

/-- The decay time has no part in what is not a gain. -/
theorem withoutGain_derive (n : Network α) (d : NetworkDesign α) (decayTime : α) :
    (n.derive { d with decayTime }).withoutGain = (n.derive d).withoutGain := by
  have hpaths : (n.paths.mapIdx (n.derivedPath { d with decayTime })).map Path.withoutGain =
      (n.paths.mapIdx (n.derivedPath d)).map Path.withoutGain := by
    refine Array.ext_getElem? fun k => ?_
    simp only [Array.getElem?_map, Array.getElem?_mapIdx, Option.map_map]
    rfl
  rw [derive_eq, derive_eq]
  simp only [withoutGain]
  rw [hpaths]
  rfl

theorem gains_derive (n : Network α) (d : NetworkDesign α) :
    (n.derive d).gains = n.designGain d ::
      List.replicate (n.order + 2) (n.designGain d * (1 - d.damping)) := by
  have hpaths : (n.derive d).paths.toList.map (·.reflection.b1) =
      List.replicate n.order (n.designGain d * (1 - d.damping)) := by
    rw [derive_eq, List.eq_replicate_iff]
    refine ⟨by simp [order], fun b hb => ?_⟩
    obtain ⟨p, hp, rfl⟩ := List.mem_map.mp hb
    obtain ⟨k, hk, rfl⟩ := Array.mem_mapIdx.mp (Array.mem_toList_iff.mp hp)
    rfl
  unfold gains
  rw [hpaths]
  rfl

end

/-- The second network is the first one with smaller gains, or equal ones. -/
structure AbsorbsLess (m n : Network ℝ) : Prop where
  withoutGain_eq : m.withoutGain = n.withoutGain
  gains_le : List.Forall₂ (· ≤ ·) n.gains m.gains

variable {d : NetworkDesign ℝ} {short long : ℝ}

theorem averageDelay_nonneg (delays : Array ℕ) (order : ℕ) :
    0 ≤ delays.foldl (fun t delay => t + Scalar.ofNat delay) (0 : ℝ) / Scalar.ofNat order := by
  refine div_nonneg ?_ (Nat.cast_nonneg order)
  refine Array.foldl_induction (fun _ (t : ℝ) => 0 ≤ t) (le_refl 0) fun i t ht => ?_
  exact add_nonneg ht (Nat.cast_nonneg _)

theorem averageDelay_pos {delays : Array ℕ} (hdelays : ∀ delay ∈ delays, 1 ≤ delay)
    (hpos : 0 < delays.size) {order : ℕ} (horder : 0 < order) :
    0 < delays.foldl (fun t delay => t + Scalar.ofNat delay) (0 : ℝ) / Scalar.ofNat order := by
  have hsum : ((delays.size : ℕ) : ℝ) ≤
      delays.foldl (fun t delay => t + Scalar.ofNat delay) (0 : ℝ) := by
    refine Array.foldl_induction (fun i (t : ℝ) => (i : ℝ) ≤ t) Nat.cast_zero.le fun i t ht => ?_
    have hdelay : (1 : ℝ) ≤ Scalar.ofNat delays[i] :=
      Nat.one_le_cast.mpr (hdelays _ (Array.getElem_mem i.isLt))
    rw [Nat.cast_succ]
    exact add_le_add ht hdelay
  have hsize : (0 : ℝ) < (delays.size : ℕ) := Nat.cast_pos.mpr hpos
  have horder : (0 : ℝ) < Scalar.ofNat order := Nat.cast_pos.mpr horder
  exact div_pos (hsize.trans_le hsum) horder

/-- A longer decay takes a larger gain. -/
theorem designGain_mono (n : Network ℝ) (hshortest : 0 ≤ d.shortest) (hpos : 0 < short)
    (hle : short ≤ long) :
    n.designGain { d with decayTime := short } ≤ n.designGain { d with decayTime := long } := by
  refine GainMethod.gain_mono_decayTime ?_ hpos hle
  cases n.method with
  | shortest => exact hshortest
  | mean => exact averageDelay_nonneg _ _
  | schroeder => exact averageDelay_nonneg _ _

theorem designGain_strictMono (n : Network ℝ) (horder : 0 < n.order) (hshortest : 0 < d.shortest)
    (hpos : 0 < short) (hlt : short < long) :
    n.designGain { d with decayTime := short } < n.designGain { d with decayTime := long } := by
  let delays := Array.ofFn fun k : Fin n.order => d.pathDelay n.law n.maxDelay n.order k.val
  have hdelays : ∀ delay ∈ delays, 1 ≤ delay := by
    intro delay hmem
    obtain ⟨k, rfl⟩ := Array.mem_ofFn.mp hmem
    exact one_le_two.trans (d.two_le_pathDelay _ _ _ _)
  have hsize : 0 < delays.size := horder.trans_eq Array.size_ofFn.symm
  have haverage := averageDelay_pos hdelays hsize horder
  refine GainMethod.gain_strictMono_decayTime ?_ hpos hlt
  cases n.method with
  | shortest => exact hshortest
  | mean => exact haverage
  | schroeder => exact haverage

theorem gains_derive_mono (n : Network ℝ) (hshortest : 0 ≤ d.shortest) (hpos : 0 < short)
    (hle : short ≤ long) (hdamping : d.damping ≤ 1) :
    List.Forall₂ (· ≤ ·) (n.derive { d with decayTime := short }).gains
      (n.derive { d with decayTime := long }).gains := by
  have hgain := n.designGain_mono hshortest hpos hle
  have hb1 : n.designGain { d with decayTime := short } * (1 - d.damping) ≤
      n.designGain { d with decayTime := long } * (1 - d.damping) :=
    mul_le_mul_of_nonneg_right hgain (sub_nonneg.mpr hdamping)
  rw [gains_derive, gains_derive]
  refine List.Forall₂.cons hgain ?_
  rw [List.forall₂_iff_zip]
  refine ⟨by simp, fun hmem => ?_⟩
  rw [List.zip_replicate', List.mem_replicate] at hmem
  obtain ⟨-, hpair⟩ := hmem
  obtain ⟨rfl, rfl⟩ := Prod.mk.inj hpair
  exact hb1

/-- A shorter decay absorbs more. -/
theorem absorbsLess_derive (n : Network ℝ) (hshortest : 0 ≤ d.shortest) (hpos : 0 < short)
    (hle : short ≤ long) (hdamping : d.damping ≤ 1) :
    (n.derive { d with decayTime := long }).AbsorbsLess
      (n.derive { d with decayTime := short }) where
  withoutGain_eq := (withoutGain_derive n d long).trans (withoutGain_derive n d short).symm
  gains_le := n.gains_derive_mono hshortest hpos hle hdamping

end Network

/-! ## Rooms -/

namespace Room

variable {room : Room ℝ}

/-- Sabine's law takes more absorption to a shorter time. Below the least absorption the time
stays. -/
theorem sabineTime_anti (h : room.isProper = true) : Antitone room.sabineTime := by
  intro absorption more hle
  have harea := area_pos h
  have hdecay : 0 ≤ sabineConstant * room.volume := (mul_pos sabineConstant_pos (volume_pos h)).le
  have hleast := max_leastAbsorption_pos absorption
  rw [sabineTime_eq h, sabineTime_eq h]
  gcongr

/-- Above it every bit of absorption counts. -/
theorem sabineTime_strictAntiOn (h : room.isProper = true) :
    StrictAntiOn room.sabineTime (Set.Ici leastAbsorption) := by
  intro absorption hleast more hleast' hlt
  have hleast : leastAbsorption ≤ absorption := hleast
  have hpos : 0 < absorption := max_eq_left hleast ▸ max_leastAbsorption_pos absorption
  rw [sabineTime_eq_div h hleast, sabineTime_eq_div h hleast']
  exact div_lt_div_of_pos_left (sabineTime_pos h 1) hpos hlt

theorem shortest_pos (h : room.isProper = true) : 0 < room.shortest := by
  obtain ⟨hx, hy, hz⟩ := isProper_iff_pos.mp h
  unfold shortest
  rw [Scalar.minNum_eq_min, Scalar.minNum_eq_min]
  exact lt_min (lt_min hx hy) hz

end Room

namespace Parameters

variable (p : Parameters ℝ) {sampleRate : ℝ}

/-- If the room decides on the decay time, its absorption decides on nothing else. -/
theorem design_absorption (htime : p.decayTime ≤ 0) (sampleRate absorption : ℝ) :
    { p with absorption }.design sampleRate =
      { p.design sampleRate with decayTime := sampleRate * p.room.sabineTime absorption } := by
  have htarget : { p with absorption }.targetTime = p.room.sabineTime absorption :=
    if_neg (not_lt.mpr htime)
  unfold design
  rw [htarget]
  rfl

/-- A decay time that is given is the one to reach, whatever the room absorbs. -/
theorem design_absorption_eq (htime : 0 < p.decayTime) (sampleRate absorption : ℝ) :
    { p with absorption }.design sampleRate = p.design sampleRate := by
  have htarget : ∀ a, { p with absorption := a }.targetTime = p.decayTime := fun a => if_pos htime
  unfold design
  rw [htarget absorption, ← htarget p.absorption]
  rfl

theorem shortest_design_pos (hroom : p.room.isProper = true) (hspeed : 0 < p.speedOfSound)
    (hrate : 0 < sampleRate) : 0 < (p.design sampleRate).shortest :=
  mul_pos hrate (div_pos (Room.shortest_pos hroom) hspeed)

end Parameters

/-! ## Engines -/

namespace Engine

/-- The second engine is the first one with smaller gains, or equal ones, in its networks. -/
structure AbsorbsLess (e f : Engine ℝ ℝ) : Prop where
  inputGain_eq : e.inputGain = f.inputGain
  forward : List.Forall₂ Network.AbsorbsLess e.forward f.forward
  feedback : e.feedback.AbsorbsLess f.feedback

variable {p : Parameters ℝ} {absorption more : ℝ}

theorem absorbsLess_derive (e : Engine ℝ ℝ) (hroom : p.room.isProper = true)
    (hspeed : 0 < p.speedOfSound) (hrate : 1 ≤ e.sampleRate) (htime : p.decayTime ≤ 0)
    (hmore : absorption ≤ more) :
    (e.derive { p with absorption }).AbsorbsLess (e.derive { p with absorption := more }) := by
  have hpos : 0 < e.sampleRate := one_pos.trans_le hrate
  have hshortest := p.shortest_design_pos hroom hspeed hpos
  have hdecay := mul_pos hpos (Room.sabineTime_pos hroom more)
  have hle := mul_le_mul_of_nonneg_left (Room.sabineTime_anti hroom hmore) hpos.le
  have hnetwork : ∀ n : Network ℝ,
      (n.derive ({ p with absorption }.design e.sampleRate)).AbsorbsLess
        (n.derive ({ p with absorption := more }.design e.sampleRate)) := by
    intro n
    rw [p.design_absorption htime e.sampleRate absorption,
      p.design_absorption htime e.sampleRate more]
    exact n.absorbsLess_derive hshortest.le hdecay hle p.stableDamping_mem.2.le
  refine ⟨rfl, ?_, hnetwork _⟩
  refine List.forall₂_map_left_iff.mpr (List.forall₂_map_right_iff.mpr ?_)
  exact List.forall₂_same.mpr fun n _ => hnetwork (n.setLaw p.law)

/-- Above the least absorption the gain falls with every bit of it. -/
theorem gain_derive_lt (e : Engine ℝ ℝ) (horder : 0 < e.feedback.order)
    (hroom : p.room.isProper = true) (hspeed : 0 < p.speedOfSound) (hrate : 1 ≤ e.sampleRate)
    (htime : p.decayTime ≤ 0) (hleast : Room.leastAbsorption ≤ absorption)
    (hmore : absorption < more) :
    (e.derive { p with absorption := more }).feedback.gain <
      (e.derive { p with absorption }).feedback.gain := by
  have hpos : 0 < e.sampleRate := one_pos.trans_le hrate
  have hshortest := p.shortest_design_pos hroom hspeed hpos
  have hdecay := mul_pos hpos (Room.sabineTime_pos hroom more)
  have hlt : e.sampleRate * p.room.sabineTime more < e.sampleRate * p.room.sabineTime absorption :=
    mul_lt_mul_of_pos_left
      (Room.sabineTime_strictAntiOn hroom hleast (hleast.trans hmore.le) hmore) hpos
  show (e.feedback.setLaw p.law).designGain ({ p with absorption := more }.design e.sampleRate) <
    (e.feedback.setLaw p.law).designGain ({ p with absorption }.design e.sampleRate)
  rw [p.design_absorption htime e.sampleRate absorption,
    p.design_absorption htime e.sampleRate more]
  exact Network.designGain_strictMono _ horder hshortest hdecay hlt

theorem derive_absorption_eq (e : Engine ℝ ℝ) (htime : 0 < p.decayTime) (absorption : ℝ) :
    e.derive { p with absorption } = e.derive p := by
  unfold derive
  simp only
  rw [p.design_absorption_eq htime]

/-- **Absorption acts on the gains alone.** If the room decides on the decay time, an engine that
is derived for more absorption has the same networks and the same input gain, but for gains that
are smaller or equal, and a smaller gain of reverberation if it has paths and more than the least
absorption. With a decay time that is given, absorption has no effect at all. -/
theorem derive_absorption (e : Engine ℝ ℝ) (hroom : p.room.isProper = true)
    (hspeed : 0 < p.speedOfSound) (hrate : 1 ≤ e.sampleRate) (hmore : absorption ≤ more) :
    (p.decayTime ≤ 0 →
      (e.derive { p with absorption }).AbsorbsLess (e.derive { p with absorption := more }) ∧
        (0 < e.feedback.order → Room.leastAbsorption ≤ absorption → absorption < more →
          (e.derive { p with absorption := more }).feedback.gain <
            (e.derive { p with absorption }).feedback.gain)) ∧
      (0 < p.decayTime →
        e.derive { p with absorption } = e.derive { p with absorption := more }) := by
  refine ⟨fun htime => ⟨?_, fun horder hleast hlt => ?_⟩, fun htime => ?_⟩
  · exact e.absorbsLess_derive hroom hspeed hrate htime hmore
  · exact e.gain_derive_lt horder hroom hspeed hrate htime hleast hlt
  · rw [e.derive_absorption_eq htime absorption, e.derive_absorption_eq htime more]

/-- A room that absorbs half of the sound and one that absorbs everything. -/
theorem derive_absorption_smallRoom :
    let p : Parameters ℝ := .ofConfig Reverb.smallRoom
    ∃ e : Engine ℝ ℝ,
      (p.room.isProper = true ∧ 0 < p.speedOfSound ∧ 1 ≤ e.sampleRate ∧ p.decayTime ≤ 0 ∧
          0 < e.feedback.order ∧ Room.leastAbsorption ≤ (1 / 2 : ℝ)) ∧
        (e.derive { p with absorption := 1 / 2 }).AbsorbsLess
          (e.derive { p with absorption := 1 }) ∧
        (e.derive { p with absorption := 1 }).feedback.gain <
          (e.derive { p with absorption := 1 / 2 }).feedback.gain ∧
        e.derive { p with decayTime := 1, absorption := 1 / 2 } =
          e.derive { p with decayTime := 1, absorption := 1 } := by
  intro p
  obtain ⟨e, hnew, -, hrate, -⟩ := Reverb.configure_smallReverb
  have hroom : p.room.isProper = true := by
    simp [p, Parameters.ofConfig, Reverb.smallRoom, Room.isProper, Scalar.isFinite_eq,
      Scalar.ofNat_eq]
  have hspeed : 0 < p.speedOfSound := by
    show (0 : ℝ) < 340.0
    norm_num
  have hsampleRate : 1 ≤ e.sampleRate := by
    rw [hrate, Scalar.ofNat_eq]
    norm_num
  have htime : p.decayTime ≤ 0 := le_refl (0 : ℝ)
  have hgiven : 0 < { p with decayTime := 1 }.decayTime := one_pos
  have hcurrent := current_of_new Nat.one_ne_zero hnew
  have horder : 0 < e.feedback.order := (hcurrent.sounding Nat.one_ne_zero).tuned.order_pos
  have hleast : Room.leastAbsorption ≤ (1 / 2 : ℝ) := by
    unfold Room.leastAbsorption
    norm_num
  have hhalf : (1 / 2 : ℝ) < 1 := one_half_lt_one
  obtain ⟨hless, hlt⟩ := (e.derive_absorption hroom hspeed hsampleRate hhalf.le).1 htime
  have heq := (derive_absorption (p := { p with decayTime := 1 }) e hroom hspeed hsampleRate
    hhalf.le).2 hgiven
  exact ⟨e, ⟨hroom, hspeed, hsampleRate, htime, horder, hleast⟩, hless,
    hlt horder hleast hhalf, heq⟩

end Engine

end AmbisonicReverb
