import BitCodec.Proofs.GeometryCodes

/-!
# Floats in a range

A number read as a step between two bounds is clamped to them, and then rounded to the
type of the bounds.  The clamp keeps every number in the range, but not-a-number passes
through it, so it has to be known what the arithmetic before the clamp can come to.  The
rounding behind the clamp passes over neither bound, because both are numbers of the type.

The bounds are finite and the steps lie from zero to one, so not-a-number can only come
from a range that is too wide for its width to be finite: an infinite width times the step
zero.  Bounds of binary32 are never that far apart.
-/

namespace BitCodec

open Float.Model (Format UnpackedFloat totalExponent)
open Float.Model.UnpackedFloat
open Code (fixed)

namespace FloatType

/-! ## Finite numbers -/

/-- A number in the form of a format, and not too large for it. -/
def Fits (spec : Format) : UnpackedFloat → Prop
  | .finite _ m e _ => Canonical spec m e ∧ e ≤ maxExponent spec
  | .zero _ => True
  | _ => False

namespace Fits

variable {spec : Format} {x : UnpackedFloat}

theorem isCanonical (h : Fits spec x) : IsCanonical spec x := by
  cases x with
  | finite s m e hm => exact h.1
  | zero s => trivial
  | _ => cases h

theorem isFinite (h : Fits spec x) : x.isFinite = true := by
  cases x with
  | finite s m e hm => rfl
  | zero s => rfl
  | _ => cases h

theorem unpack_pack (h : Fits spec x) : unpack spec (pack spec x) = x := by
  cases x with
  | finite s m e hm => exact unpack_pack_finite h.1 h.2
  | zero s => exact unpack_packedZero
  | _ => cases h

end Fits

theorem fits_unpack {spec : Format} (hspec : 2 ≤ spec.exponentBits) {pattern : BitVec spec.numBits}
    (h : (unpack spec pattern).isFinite = true) : Fits spec (unpack spec pattern) := by
  cases hunpack : unpack spec pattern with
  | finite s m e hm => exact unpack_finite hspec hunpack
  | zero s => trivial
  | _ =>
    rw [hunpack] at h
    cases h

/-- What is rounded from between two numbers of a format is not too large for it. -/
theorem Rounds.fits {spec : Format} {q : ℚ} {a b x : UnpackedFloat} (h : Rounds spec q x)
    (ha : Fits spec a) (hb : Fits spec b) (hlow : value a ≤ q) (hhigh : q ≤ value b) :
    Fits spec x := by
  obtain ⟨hx, hbetween⟩ := h
  have hleft := (hbetween a ha.isCanonical).1 hlow
  have hright := (hbetween b hb.isCanonical).2 hhigh
  cases x with
  | finite s m e hm =>
    have hpos := size_pos hm e
    refine ⟨hx, ?_⟩
    cases s with
    | positive =>
      cases b with
      | finite t n f hn =>
        have hn' := size_pos hn f
        cases t with
        | positive =>
          have := (Canonical.size_le_iff hx hb.1).mp hright
          have := hb.2
          omega
        | negative =>
          simp only [value] at hright
          linarith
      | zero t => exact absurd hright (not_le.mpr hpos)
      | _ => cases hb
    | negative =>
      cases a with
      | finite t n f hn =>
        have hn' := size_pos hn f
        cases t with
        | negative =>
          have := (Canonical.size_le_iff hx ha.1).mp (neg_le_neg_iff.mp hleft)
          have := ha.2
          omega
        | positive =>
          simp only [value] at hleft
          linarith
      | zero t => exact absurd hleft (not_le.mpr (neg_lt_zero.mpr hpos))
      | _ => cases ha
  | zero s => trivial
  | _ => cases hx

/-! ## The numbers of the arithmetic -/

theorem le_iff {x y : Float} : x ≤ y ↔ x.toModel.unpack.le y.toModel.unpack = true :=
  ⟨fun h => of_decide_eq_true h, fun h => decide_eq_true h⟩

theorem fits_of_isFinite {x : Float} (h : x.isFinite = true) : Fits .binary64 x.toModel.unpack :=
  fits_unpack (by decide) h

/-- Between finite numbers everything is finite. -/
theorem isFinite_of_between {x y z : UnpackedFloat} (hx : x.isFinite = true)
    (hz : z.isFinite = true) (hxy : x.le y = true) (hyz : y.le z = true) : y.isFinite = true := by
  cases y with
  | finite s m e hm => rfl
  | zero s => rfl
  | notANumber =>
    cases x <;> cases hxy
  | infinity s =>
    cases s with
    | positive =>
      cases z with
      | zero t => cases hyz
      | finite t m e hm => cases t <;> cases hyz
      | _ => cases hz
    | negative =>
      cases x with
      | zero t => cases hxy
      | finite t m e hm => cases t <;> cases hxy
      | _ => cases hx

/-- Widening changes no value. -/
theorem value_number_f32 {pattern : FloatType.f32.Value}
    (h : (unpack .binary32 pattern).isFinite = true) :
    (number .f32 pattern).isFinite = true ∧
      value (number .f32 pattern) = value (unpack .binary32 pattern) := by
  rw [number_f32]
  cases hunpack : unpack .binary32 pattern with
  | finite s m e hm =>
    obtain ⟨n, f, hn, hwide, -, -, hsize⟩ := widened hunpack
    rw [← hunpack, hwide, hunpack, value_finite, value_finite, hsize]
    exact ⟨rfl, rfl⟩
  | zero s => exact ⟨rfl, rfl⟩
  | _ =>
    rw [hunpack] at h
    cases h

theorem isFinite_unpack_of_number {pattern : FloatType.f32.Value}
    (h : (number .f32 pattern).isFinite = true) : (unpack .binary32 pattern).isFinite = true := by
  rw [number_f32] at h
  cases hunpack : unpack .binary32 pattern with
  | finite s m e hm => rfl
  | zero s => rfl
  | _ =>
    rw [hunpack] at h
    cases h

theorem number_ofFloat_f64 (x : Float) : number .f64 (ofFloat .f64 x) = x.toModel.unpack :=
  number_f64 _

/-- Rounding to the type of two bounds stays between them. -/
theorem ofFloat_between (t : FloatType) {a b : t.Value} {x : Float}
    (ha : (t.toFloat a).isFinite = true) (hb : (t.toFloat b).isFinite = true)
    (hlow : t.toFloat a ≤ x) (hhigh : x ≤ t.toFloat b) :
    t.toFloat a ≤ t.toFloat (t.ofFloat x) ∧ t.toFloat (t.ofFloat x) ≤ t.toFloat b := by
  rw [le_iff] at hlow hhigh
  simp only [le_iff]
  cases t with
  | f64 =>
    have hsame : (FloatType.f64.toFloat (FloatType.f64.ofFloat x)).toModel.unpack =
        x.toModel.unpack := number_ofFloat_f64 x
    rw [hsame]
    exact ⟨hlow, hhigh⟩
  | f32 =>
    have hx : x.isFinite = true := isFinite_of_between ha hb hlow hhigh
    have ha' := isFinite_unpack_of_number ha
    have hb' := isFinite_unpack_of_number hb
    have hxfits := fits_of_isFinite hx
    have hleft := (le_iff_value (fits_of_isFinite ha).isCanonical hxfits.isCanonical).mp hlow
    have hright := (le_iff_value hxfits.isCanonical (fits_of_isFinite hb).isCanonical).mp hhigh
    have hvalueA : value (FloatType.f32.toFloat a).toModel.unpack = value (unpack .binary32 a) :=
      (value_number_f32 ha').2
    have hvalueB : value (FloatType.f32.toFloat b).toModel.unpack = value (unpack .binary32 b) :=
      (value_number_f32 hb').2
    rw [hvalueA] at hleft
    rw [hvalueB] at hright
    -- Both bounds are binary32 numbers, and none of these is passed over.
    have hrounds : Rounds .binary32 (value x.toModel.unpack) (convert .binary32 x.toModel.unpack) :=
      convert_rounds .binary32 hx
    have hAfits := fits_unpack (by decide) ha'
    have hBfits := fits_unpack (by decide) hb'
    have hfits := hrounds.fits hAfits hBfits hleft hright
    have hunpack : unpack .binary32 (FloatType.f32.ofFloat x) = convert .binary32 x.toModel.unpack :=
      hfits.unpack_pack
    have hfinite : (unpack .binary32 (FloatType.f32.ofFloat x)).isFinite = true := by
      rw [hunpack]
      exact hfits.isFinite
    obtain ⟨hnumber, hvalue⟩ := value_number_f32 hfinite
    have hcanonical : IsCanonical .binary64
        (FloatType.f32.toFloat (FloatType.f32.ofFloat x)).toModel.unpack :=
      (fits_of_isFinite hnumber).isCanonical
    have hvalueX : value (FloatType.f32.toFloat (FloatType.f32.ofFloat x)).toModel.unpack =
        value (convert .binary32 x.toModel.unpack) := hvalue.trans (congrArg value hunpack)
    rw [le_iff_value (fits_of_isFinite ha).isCanonical hcanonical,
      le_iff_value hcanonical (fits_of_isFinite hb).isCanonical, hvalueA, hvalueB, hvalueX]
    exact ⟨(hrounds.2 _ hAfits.isCanonical).1 hleft, (hrounds.2 _ hBfits.isCanonical).2 hright⟩

/-! ## What is a number -/

theorem roundWithAccuracy_isNumber (spec : Format) (s : Sign) (m : Nat) (e : Int)
    (acc : Accuracy) : roundWithAccuracy spec s m e acc ≠ .notANumber := by
  unfold roundWithAccuracy
  dsimp only
  split <;> nofun

/-- A finite number that is not zero times any number. -/
theorem mul_finite_isNumber {spec : Format} {x : UnpackedFloat} (hx : x ≠ .notANumber) (s : Sign)
    (m : Nat) (e : Int) (hm : 0 < m) : x.mul spec (.finite s m e hm) ≠ .notANumber := by
  cases x with
  | notANumber => exact absurd rfl hx
  | finite s' m' e' hm' => exact roundWithAccuracy_isNumber _ _ _ _ _
  | _ => nofun

/-- Zero times a finite number. -/
theorem mul_zero_isNumber {spec : Format} {x : UnpackedFloat} (hx : x.isFinite = true) (s : Sign) :
    x.mul spec (.zero s) ≠ .notANumber := by
  cases x with
  | finite s' m' e' hm' => nofun
  | zero s' => nofun
  | _ => cases hx

/-- A finite number plus any number. -/
theorem add_isNumber {spec : Format} {x y : UnpackedFloat} (hx : x.isFinite = true)
    (hy : y ≠ .notANumber) : x.add spec y ≠ .notANumber := by
  cases x with
  | finite s m e hm =>
    cases y with
    | finite t n f hn => exact (normalize_rounds spec _ _ _).1.isNumber
    | notANumber => exact absurd rfl hy
    | _ => nofun
  | zero s =>
    cases y with
    | zero t => cases s <;> cases t <;> nofun
    | notANumber => exact absurd rfl hy
    | _ => nofun
  | _ => cases hx

/-- A size with enough bits and a moderate exponent is rounded to a finite number that is not
zero. -/
theorem roundWithAccuracy_fits (s : Sign) (acc : Accuracy) {m : Nat} (e : Int) (hm : 0 < m)
    (hbits : 52 ≤ m.log2) (hlow : -1074 < e) (hhigh : m.log2 + e ≤ 1022) :
    ∃ n f hn, Fits .binary64 (.finite s n f hn) ∧
      roundWithAccuracy .binary64 s m e acc = .finite s n f hn := by
  have hwidth : Format.binary64.mantissaBits = 53 := rfl
  have hmin : Format.binary64.minExponent = -1074 := rfl
  have hmax : maxExponent .binary64 = 971 := rfl
  have htarget : Format.binary64.targetExponent (totalExponent m e) = m.log2 + e - 52 := by
    simp only [Format.targetExponent, totalExponent, hwidth, hmin]
    omega
  have hle : e ≤ Format.binary64.targetExponent (totalExponent m e) := by omega
  obtain ⟨n, f, hcanonical, hsize, hf, hround⟩ := roundWithAccuracy_eq s acc hm hle
  -- The bits that are kept fill the mantissa, so something is left.
  have hkept := le_div_surplus hm hle (by omega)
  have hfloor := le_dropped m acc (surplus .binary64 m e)
  have hsome : 0 < dropped m acc (surplus .binary64 m e) :=
    (Nat.two_pow_pos _).trans_le (hkept.trans hfloor)
  have hn : 0 < n := by
    refine Nat.pos_of_ne_zero fun hzero => ?_
    have hpos := size_pos hsome (e + surplus .binary64 m e)
    rw [← hsize, hzero, size, Nat.cast_zero, zero_mul] at hpos
    exact lt_irrefl 0 hpos
  refine ⟨n, f, hn, ⟨hcanonical, ?_⟩, hround.trans (dif_neg (Nat.ne_of_gt hn))⟩
  unfold surplus at hf
  omega

/-- A quotient of numbers of moderate size is neither lost nor too large. -/
theorem div_fits {m n : Nat} {e f : Int} (hm : 0 < m) (hn : 0 < n) (hmlog : m.log2 = 52)
    (hnlog : n.log2 = 52) (hlow : -1000 ≤ e - f) (hhigh : e - f ≤ 900) :
    ∃ k g hk, Fits .binary64 (.finite .positive k g hk) ∧
      UnpackedFloat.div .binary64 (.finite .positive m e hm) (.finite .positive n f hn) =
        .finite .positive k g hk := by
  obtain ⟨hmlow, hmhigh⟩ := (Nat.log2_eq_iff (Nat.ne_of_gt hm)).mp hmlog
  obtain ⟨hnlow, hnhigh⟩ := (Nat.log2_eq_iff (Nat.ne_of_gt hn)).mp hnlog
  have hwidth : Format.binary64.mantissaBits = 53 := rfl
  have hmin : Format.binary64.minExponent = -1074 := rfl
  have hexponent : min (e - f)
      (Format.binary64.targetExponent (totalExponent m e - totalExponent n f)) = e - f - 53 := by
    simp only [Format.targetExponent, totalExponent, hmlog, hnlog, hwidth, hmin]
    omega
  have hshift : (e - f - (e - f - 53)).toNat = 53 := by omega
  have hcore : divCore .binary64 m e n f =
      ((m <<< 53) / n, e - f - 53, accuracyOfFraction ((m <<< 53) % n) n) := by
    simp only [divCore, hexponent, hshift]
  have hquotient : 2 ^ 52 ≤ (m <<< 53) / n := by
    rw [Nat.le_div_iff_mul_le hn, Nat.shiftLeft_eq]
    omega
  have hpos : 0 < (m <<< 53) / n := by omega
  have hlog : 52 ≤ ((m <<< 53) / n).log2 := (Nat.le_log2 (Nat.ne_of_gt hpos)).mpr hquotient
  have hlog' : ((m <<< 53) / n).log2 < 107 := by
    refine (Nat.log2_lt (Nat.ne_of_gt hpos)).mpr ((Nat.div_le_self _ _).trans_lt ?_)
    rw [Nat.shiftLeft_eq]
    omega
  obtain ⟨k, g, hk, hfits, hround⟩ := roundWithAccuracy_fits .positive
    (accuracyOfFraction ((m <<< 53) % n) n) (e - f - 53) hpos hlog (by omega) (by omega)
  refine ⟨k, g, hk, hfits, ?_⟩
  simp only [UnpackedFloat.div, hcore]
  exact hround

end FloatType

namespace Ranged

open FloatType

/-- How far a step is on the way from the lower bound to the upper one. -/
def fraction (step : Nat) : Float :=
  floatOfNat step / 65535.0

theorem fraction_zero : (fraction 0).toModel.unpack = .zero .positive := by rfl

theorem steps_unpack : (65535.0 : Float).toModel.unpack =
    .finite .positive (65535 <<< 37) (-37) (by decide) := by rfl

/-- Every other step lies behind the lower bound. -/
theorem fraction_pos {step : Nat} (hstep : 0 < step) (hlt : step < 2 ^ 16) :
    ∃ m e hm, (fraction step).toModel.unpack = .finite .positive m e hm := by
  have hlog : step.log2 < 16 := (Nat.log2_lt (Nat.ne_of_gt hstep)).mpr hlt
  have hword : (UInt64.ofNat step).toNat = step := Nat.mod_eq_of_lt (by omega)
  have hround : UnpackedFloat.ofUInt64 .binary64 (UInt64.ofNat step) =
      UnpackedFloat.round .binary64 .positive step 0 := by
    have hcompare : compare (step : Int) 0 = .gt := compare_gt_iff_gt.mpr (by omega)
    simp only [UnpackedFloat.ofUInt64, UnpackedFloat.ofNat, UnpackedFloat.ofInt,
      UnpackedFloat.normalize, hword, hcompare, Int.toNat_natCast]
  have hmax : maxExponent .binary64 = 971 := rfl
  obtain ⟨hpos, hshifted, hcanonical⟩ :=
    round_fits .binary64 .positive hstep (hlt.trans (by decide)) (e := 0) (by decide)
  have hnumber : (floatOfNat step).toModel.unpack =
      .finite .positive (step <<< (52 - step.log2)) (0 - (52 - step.log2 : Nat)) hpos := by
    have hunpack : (floatOfNat step).toModel.unpack =
        unpack .binary64 (pack .binary64 (UnpackedFloat.ofUInt64 .binary64 (UInt64.ofNat step))) :=
      rfl
    rw [hunpack, hround, hshifted]
    exact unpack_pack_finite hcanonical (by omega)
  have hwhole : (step <<< (52 - step.log2)).log2 = 52 := by
    rw [log2_shiftLeft hstep]
    omega
  obtain ⟨k, g, hk, hfits, hdiv⟩ := div_fits hpos (by decide : 0 < 65535 <<< 37) hwhole
    (by decide) (e := 0 - (52 - step.log2 : Nat)) (f := -37) (by omega) (by omega)
  refine ⟨k, g, hk, ?_⟩
  have hfraction : (fraction step).toModel.unpack = unpack .binary64 (pack .binary64
      (UnpackedFloat.div .binary64 (floatOfNat step).toModel.unpack
        (65535.0 : Float).toModel.unpack)) := rfl
  rw [hfraction, hnumber, steps_unpack, hdiv]
  exact hfits.unpack_pack

/-! ## The clamp -/

/-- A number is clamped into the bounds. -/
theorem clampFloat_between {low high x : Float} (hlow : low.toModel.unpack ≠ .notANumber)
    (hhigh : high.toModel.unpack ≠ .notANumber) (hx : x.toModel.unpack ≠ .notANumber)
    (hlt : low < high) : low ≤ clampFloat low high x ∧ clampFloat low high x ≤ high := by
  have hrefl : ∀ {y : Float}, y.toModel.unpack ≠ .notANumber → y ≤ y := by
    intro y hy
    rw [le_iff_not_lt hy hy]
    intro hless
    exact ((le_iff_not_lt hy hy).mp (le_of_lt hless)) hless
  unfold clampFloat
  split
  · exact ⟨hrefl hlow, le_of_lt hlt⟩
  · next hbelow =>
    have hleft : low ≤ x := (le_iff_not_lt hx hlow).mpr hbelow
    split
    · exact ⟨le_of_lt hlt, hrefl hhigh⟩
    · next habove => exact ⟨hleft, (le_iff_not_lt hhigh hx).mpr habove⟩

/-- Not-a-number stays. -/
theorem clampFloat_notANumber {low high x : Float} (hx : x.toModel.unpack = .notANumber) :
    clampFloat low high x = x := by
  have hbelow : ¬x < low := by
    intro hlt
    have hmodel : x.toModel.unpack.lt low.toModel.unpack = true := of_decide_eq_true hlt
    rw [hx] at hmodel
    cases hmodel
  have habove : ¬x > high := by
    intro hlt
    have hmodel : high.toModel.unpack.lt x.toModel.unpack = true := of_decide_eq_true hlt
    rw [hx] at hmodel
    cases hhigh : high.toModel.unpack <;> rw [hhigh] at hmodel <;> cases hmodel
  rw [clampFloat, if_neg hbelow, if_neg habove]

/-! ## The number of a step -/

/-- What is clamped: the step on its way from the lower bound. -/
def raw (step : Nat) (low high : Float) : Float :=
  low + (high - low) * fraction step

theorem ofStep_eq (step : Nat) (low high : Float) :
    ofStep step low high = clampFloat low high (raw step low high) := rfl

section Steps

variable {low high : Float} {step : Nat}

theorem sub_isNumber (hlow : low.isFinite = true) (hhigh : high.isFinite = true) :
    (high - low).toModel.unpack ≠ .notANumber :=
  unpack_pack_ne (sub_rounds (fits_of_isFinite hhigh).isCanonical
    (fits_of_isFinite hlow).isCanonical).1.isNumber

/-- The arithmetic comes to a number where the range is not too wide, and at every step but
zero. -/
theorem raw_isNumber (hlow : low.isFinite = true) (hhigh : high.isFinite = true)
    (hstep : step < 2 ^ 16) (h : (high - low).isFinite = true ∨ step ≠ 0) :
    (raw step low high).toModel.unpack ≠ .notANumber := by
  have hspan := sub_isNumber hlow hhigh
  have hproduct : (high - low).toModel.unpack.mul .binary64 (fraction step).toModel.unpack ≠
      .notANumber := by
    by_cases hzero : step = 0
    · have hfinite := h.resolve_right (fun hne => hne hzero)
      rw [hzero, fraction_zero]
      exact mul_zero_isNumber hfinite _
    · obtain ⟨m, e, hm, hfraction⟩ := fraction_pos (Nat.pos_of_ne_zero hzero) hstep
      rw [hfraction]
      exact mul_finite_isNumber hspan _ _ _ _
  exact unpack_pack_ne (add_isNumber hlow (unpack_pack_ne hproduct))

/-- An infinite width times the step zero is not a number. -/
theorem raw_notANumber (hlow : low.isFinite = true) (hhigh : high.isFinite = true)
    (hspan : ¬(high - low).isFinite = true) :
    (raw 0 low high).toModel.unpack = .notANumber := by
  have hnumber := sub_isNumber hlow hhigh
  obtain ⟨s, hinfinite⟩ : ∃ s, (high - low).toModel.unpack = .infinity s := by
    have hnot : ¬(high - low).toModel.unpack.isFinite = true := hspan
    cases hunpack : (high - low).toModel.unpack with
    | infinity s => exact ⟨s, rfl⟩
    | notANumber => exact absurd hunpack hnumber
    | _ =>
      rw [hunpack] at hnot
      exact absurd rfl hnot
  have hproduct : ((high - low) * fraction 0).toModel.unpack = .notANumber := by
    have hmul : ((high - low) * fraction 0).toModel.unpack = unpack .binary64 (pack .binary64
        ((high - low).toModel.unpack.mul .binary64 (fraction 0).toModel.unpack)) := rfl
    rw [hmul, hinfinite, fraction_zero]
    exact unpack_packedNaN
  have hsum : (raw 0 low high).toModel.unpack = unpack .binary64 (pack .binary64
      (low.toModel.unpack.add .binary64 ((high - low) * fraction 0).toModel.unpack)) := rfl
  rw [hsum, hproduct]
  cases low.toModel.unpack <;> exact unpack_packedNaN

end Steps

end Ranged

/-! ## Values in a range -/

namespace FloatType

/-- A value lies between two others, as the comparisons of the type have it. -/
def Within (t : FloatType) (min max v : t.Value) : Prop :=
  t.toFloat min ≤ t.toFloat v ∧ t.toFloat v ≤ t.toFloat max

/-- The bounds are finite and told apart. -/
structure Bounds (t : FloatType) (min max : t.Value) : Prop where
  min_finite : (t.toFloat min).isFinite = true
  max_finite : (t.toFloat max).isFinite = true
  lt : t.toFloat min < t.toFloat max

/-- The distance between two values is a finite number. -/
def Spanned (t : FloatType) (min max : t.Value) : Prop :=
  (t.toFloat max - t.toFloat min).isFinite = true

variable {t : FloatType} {min max : t.Value}

theorem isNumber_of_isFinite {x : Float} (h : x.isFinite = true) :
    x.toModel.unpack ≠ .notANumber :=
  (fits_of_isFinite h).isCanonical.isNumber

/-- The size of a finite binary32 number. -/
theorem abs_value_f32_le {pattern : FloatType.f32.Value}
    (h : (FloatType.f32.toFloat pattern).isFinite = true) :
    |value (FloatType.f32.toFloat pattern).toModel.unpack| ≤ size (2 ^ 52) 76 := by
  have hfinite := isFinite_unpack_of_number h
  have hvalue : value (FloatType.f32.toFloat pattern).toModel.unpack =
      value (unpack .binary32 pattern) := (value_number_f32 hfinite).2
  have hlarge := size_nonneg (2 ^ 52) 76
  rw [hvalue]
  cases hunpack : unpack .binary32 pattern with
  | finite s m e hm =>
    obtain ⟨⟨hlt, -, -⟩, hexponent⟩ := unpack_finite (by decide) hunpack
    have hmost : e ≤ 104 := hexponent
    have hsize : size m e ≤ size (2 ^ 52) 76 := by
      calc size m e ≤ size (2 ^ 24) e := (size_le_size e).mpr (Nat.le_of_lt hlt)
        _ ≤ size (2 ^ 24) 104 := by
          unfold size
          gcongr
          norm_num
        _ = size (2 ^ 24 * 2 ^ 28) 76 := (size_shift (2 ^ 24) 28 76).symm
        _ = size (2 ^ 52) 76 := by norm_num
    have hpos := size_nonneg m e
    cases s
    · rw [value, abs_neg, abs_of_nonneg hpos]
      exact hsize
    · rw [value, abs_of_nonneg hpos]
      exact hsize
  | _ => simpa [value] using hlarge

/-- No two binary32 numbers are too far apart. -/
theorem spanned_f32 {min max : FloatType.f32.Value} (h : FloatType.f32.Bounds min max) :
    FloatType.f32.Spanned min max := by
  have hlow := abs_le.mp (abs_value_f32_le h.min_finite)
  have hhigh := abs_le.mp (abs_value_f32_le h.max_finite)
  have hrounds := sub_rounds (fits_of_isFinite h.max_finite).isCanonical
    (fits_of_isFinite h.min_finite).isCanonical
  have hlimit : ∀ s, Fits .binary64 (.finite s (2 ^ 52) 77 (by decide)) :=
    fun s => ⟨⟨by decide, by decide, .inl (by decide)⟩, by decide⟩
  have hdouble : size (2 ^ 52) 77 = 2 * size (2 ^ 52) 76 := by
    have hshift : size (2 ^ 52) 77 = size (2 ^ 52 * 2 ^ 1) 76 := (size_shift (2 ^ 52) 1 76).symm
    rw [hshift, size, size]
    push_cast
    ring
  have hleast : -size (2 ^ 52) 77 ≤ value (FloatType.f32.toFloat max).toModel.unpack -
      value (FloatType.f32.toFloat min).toModel.unpack := by linarith
  have hmost : value (FloatType.f32.toFloat max).toModel.unpack -
      value (FloatType.f32.toFloat min).toModel.unpack ≤ size (2 ^ 52) 77 := by linarith
  have hfits := hrounds.fits (hlimit .negative) (hlimit .positive) hleast hmost
  have hspan : (FloatType.f32.toFloat max - FloatType.f32.toFloat min).toModel.unpack =
      UnpackedFloat.sub .binary64 (FloatType.f32.toFloat max).toModel.unpack
        (FloatType.f32.toFloat min).toModel.unpack := hfits.unpack_pack
  have hfinite : (FloatType.f32.toFloat max - FloatType.f32.toFloat min).toModel.unpack.isFinite =
      true := by
    rw [hspan]
    exact hfits.isFinite
  exact hfinite

/-- A step that comes to a number comes to one in the range. -/
theorem Bounds.within (h : t.Bounds min max) {step : IntType.u16.Value}
    (hspan : t.Spanned min max ∨ step ≠ 0) :
    t.Within min max (t.ofFloat (Ranged.ofStep step.toNat (t.toFloat min) (t.toFloat max))) := by
  have hnumber : t.Spanned min max ∨ step.toNat ≠ 0 :=
    hspan.imp_right fun hstep hzero => hstep (BitVec.eq_of_toNat_eq hzero)
  have hraw := Ranged.raw_isNumber h.min_finite h.max_finite step.isLt hnumber
  obtain ⟨hlow, hhigh⟩ := Ranged.clampFloat_between (isNumber_of_isFinite h.min_finite)
    (isNumber_of_isFinite h.max_finite) hraw h.lt
  exact ofFloat_between t h.min_finite h.max_finite hlow hhigh

/-- The step zero of a range that is too wide does not. -/
theorem Bounds.isNaN (h : t.Bounds min max) (hspan : ¬t.Spanned min max) :
    t.isNaN (t.ofFloat (Ranged.ofStep 0 (t.toFloat min) (t.toFloat max))) = true := by
  cases t with
  | f32 => exact absurd (spanned_f32 h) hspan
  | f64 =>
    have hraw := Ranged.raw_notANumber h.min_finite h.max_finite hspan
    have hnumber : (FloatType.f64.toFloat (FloatType.f64.ofFloat
        (Ranged.ofStep 0 (FloatType.f64.toFloat min) (FloatType.f64.toFloat max)))).toModel.unpack =
        .notANumber := by
      refine (number_ofFloat_f64 _).trans ?_
      rw [Ranged.ofStep_eq, Ranged.clampFloat_notANumber hraw]
      exact hraw
    have hmodel : (FloatType.f64.toFloat (FloatType.f64.ofFloat
        (Ranged.ofStep 0 (FloatType.f64.toFloat min)
          (FloatType.f64.toFloat max)))).toModel.unpack.isNaN = true := by
      rw [hnumber]
      rfl
    exact hmodel

end FloatType

namespace Ranged

open FloatType

variable {t : FloatType} {min max : t.Value}

theorem readFloat_takes (h : t.toFloat min < t.toFloat max) (step : IntType.u16.Value) :
    Takes (readFloat t min max)
      (t.ofFloat (ofStep step.toNat (t.toFloat min) (t.toFloat max))) (fixed (stepBits step)) := by
  have hnumber : Takes (readNumber (t.toFloat min) (t.toFloat max))
      (ofStep step.toNat (t.toFloat min) (t.toFloat max)) (fixed (stepBits step)) := by
    rw [readNumber_eq]
    exact (readStep_takes h step).map _
  exact hnumber.map _

/-- Any sixteen bits are those of a step. -/
theorem exists_stepBits {bits : List Bool} (hlen : bits.length = 16) :
    ∃ step : IntType.u16.Value, bits = stepBits step := by
  have hlt := Bits.toNumber_lt bits
  have hback := Bits.ofNumber_toNumber bits
  rw [hlen] at hlt hback
  obtain ⟨step, hstep⟩ : ∃ step : IntType.u16.Value, step.toNat = Bits.toNumber bits :=
    ⟨BitVec.ofNat 16 (Bits.toNumber bits), Nat.mod_eq_of_lt hlt⟩
  exact ⟨step, by rw [stepBits, hstep, hback]⟩

theorem stepBits_eq_zeros {step : IntType.u16.Value} :
    stepBits step = List.replicate 16 false ↔ step = 0 := by
  constructor
  · intro hzeros
    have hnumber : step.toNat % 2 ^ 16 = 0 := by
      rw [← Bits.toNumber_ofNumber, ← stepBits, hzeros]
      rfl
    exact BitVec.eq_of_toNat_eq ((Nat.mod_eq_of_lt step.isLt).symm.trans hnumber)
  · rintro rfl
    rfl

theorem readFloat_run {p : Payload} {pos : Nat} (h : t.toFloat min < t.toFloat max)
    (hp : p.Sound) (hroom : pos + 16 ≤ p.bits) {step : IntType.u16.Value}
    (hbits : Bits.slice p.data pos 16 = stepBits step) :
    readFloat t min max p pos =
      ⟨.value (t.ofFloat (ofStep step.toNat (t.toFloat min) (t.toFloat max))), pos + 16, []⟩ := by
  have hstring : p.string.drop pos = stepBits step ++ (p.string.drop pos).drop 16 := by
    rw [← hbits, Payload.slice_eq hroom, List.take_append_drop]
  rw [readFloat_takes h step hp (by omega) hstring, fixed, ← hbits, Bits.length_slice]

/-- Where a range of floats is read, whatever sixteen bits stand there, and read back, whatever
was written.

* The value lies in the range, as long as the width of the range is finite or the bits are not
  all zero.
* Otherwise it is not a number.
* Sixteen bits stand for every number that is written; what is read in their place lies in the
  range under the same condition.
* The width of a binary32 range is always finite. -/
theorem floats_in_range (h : t.Bounds min max) :
    (∀ (p : Payload) (pos : Nat), p.Sound → pos + 16 ≤ p.bits →
      ∃ v, readFloat t min max p pos = ⟨.value v, pos + 16, []⟩ ∧
        (t.Spanned min max ∨ Bits.slice p.data pos 16 ≠ List.replicate 16 false →
          t.Within min max v) ∧
        (¬t.Spanned min max → Bits.slice p.data pos 16 = List.replicate 16 false →
          t.isNaN v = true)) ∧
      (∀ x : t.Value, t.isNaN x = false → ∃ (step : IntType.u16.Value) (v : t.Value),
        Emits (writeFloat t x min max) () (fixed (stepBits step)) ∧
          Takes (readFloat t min max) v (fixed (stepBits step)) ∧
          (t.Spanned min max ∨ step ≠ 0 → t.Within min max v)) ∧
      (t = .f32 → t.Spanned min max) := by
  refine ⟨?read, ?back, ?narrow⟩
  case read =>
    intro p pos hp hroom
    obtain ⟨step, hbits⟩ := exists_stepBits (Bits.length_slice p.data pos 16)
    rw [hbits, ne_eq, stepBits_eq_zeros]
    refine ⟨_, readFloat_run h.lt hp hroom hbits, h.within, fun hspan hzero => ?_⟩
    rw [hzero]
    exact h.isNaN hspan
  case back =>
    intro x hx
    have hsent : step? (t.toFloat x) (t.toFloat min) (t.toFloat max) =
        some (BitVec.ofNat 16 (toStep (t.toFloat x) (t.toFloat min) (t.toFloat max))) := by
      have hnumber : ¬(t.toFloat x).isNaN = true := ne_true_of_eq_false hx
      rw [step?, if_pos h.lt, if_neg hnumber]
      rfl
    have hsends := writeNumber_sends (t.toFloat x) (t.toFloat min) (t.toFloat max)
    rw [hsent] at hsends
    exact ⟨_, _, hsends, readFloat_takes h.lt _, h.within⟩
  case narrow =>
    rintro rfl
    exact spanned_f32 h

/-- The binary32 range from -1 to 1, whatever the sixteen bits from the fourth on. -/
theorem floats_in_range_unit :
    FloatType.f32.Bounds 0xBF800000#32 0x3F800000#32 ∧
      FloatType.f32.Spanned 0xBF800000#32 0x3F800000#32 ∧
      ∃ v, readFloat .f32 0xBF800000#32 0x3F800000#32 (Payload.ofBytes [0x12, 0x34, 0x56]) 3 =
          ⟨.value v, 19, []⟩ ∧
        FloatType.f32.Within 0xBF800000#32 0x3F800000#32 v := by
  have hbounds : FloatType.f32.Bounds 0xBF800000#32 0x3F800000#32 :=
    ⟨by decide +kernel, by decide +kernel, by decide +kernel⟩
  obtain ⟨hread, -, hspan⟩ := floats_in_range hbounds
  obtain ⟨v, hrun, hwithin, -⟩ :=
    hread (Payload.ofBytes [0x12, 0x34, 0x56]) 3 (Payload.ofBytes_sound _) (by decide)
  exact ⟨hbounds, hspan rfl, v, hrun, hwithin (.inl (hspan rfl))⟩

/-- From the least binary64 number to the largest, zero is written as sixteen zeros, and these
are read as not-a-number. -/
theorem floats_out_of_range :
    FloatType.f64.Bounds 0xFFEFFFFFFFFFFFFF#64 0x7FEFFFFFFFFFFFFF#64 ∧
      Emits (writeFloat .f64 0#64 0xFFEFFFFFFFFFFFFF#64 0x7FEFFFFFFFFFFFFF#64) ()
        (fixed (List.replicate 16 false)) ∧
      ∃ v, readFloat .f64 0xFFEFFFFFFFFFFFFF#64 0x7FEFFFFFFFFFFFFF#64
          (Payload.ofBytes [0, 0]) 0 = ⟨.value v, 16, []⟩ ∧
        FloatType.f64.isNaN v = true ∧
        ¬FloatType.f64.Within 0xFFEFFFFFFFFFFFFF#64 0x7FEFFFFFFFFFFFFF#64 v := by
  have hbounds : FloatType.f64.Bounds 0xFFEFFFFFFFFFFFFF#64 0x7FEFFFFFFFFFFFFF#64 :=
    ⟨by decide +kernel, by decide +kernel, by decide +kernel⟩
  have hstep : toStep (FloatType.f64.toFloat 0#64) (FloatType.f64.toFloat 0xFFEFFFFFFFFFFFFF#64)
      (FloatType.f64.toFloat 0x7FEFFFFFFFFFFFFF#64) = 0 := by decide +kernel
  have hsends := writeNumber_sends (FloatType.f64.toFloat 0#64)
    (FloatType.f64.toFloat 0xFFEFFFFFFFFFFFFF#64) (FloatType.f64.toFloat 0x7FEFFFFFFFFFFFFF#64)
  rw [step?, if_pos hbounds.lt, if_neg (by decide +kernel), hstep] at hsends
  have hbits : Bits.slice #[0, 0] 0 16 = stepBits 0 := by decide
  have hrun := readFloat_run hbounds.lt (Payload.ofBytes_sound [0, 0]) (by decide : 0 + 16 ≤ _)
    hbits
  refine ⟨hbounds, hsends, _, hrun, ?_, ?_⟩
  · decide +kernel
  · intro hwithin
    exact absurd hwithin.1 (by decide +kernel)

end Ranged

end BitCodec
