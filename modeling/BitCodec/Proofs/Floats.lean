import BitCodec.Proofs.Rounding

/-!
# Floats as numbers

A pattern stands for a number of the binary64 format.  A binary32 pattern gets there by
widening, which is exact: its mantissa is shifted up until it has all the bits of the
larger format, so different numbers stay different.  Two patterns that compare as equal
are therefore the same pattern or two zeros.
-/

namespace BitCodec

open Float.Model (Format UnpackedFloat)
open Float.Model.UnpackedFloat

namespace FloatType

/-! ## Patterns and the numbers they stand for -/

section Patterns

variable {spec : Format}

theorem unpack_of_isNaNBits {pattern : BitVec spec.numBits} (h : isNaNBits pattern = true) :
    unpack spec pattern = .notANumber := by
  simp only [isNaNBits, decide_eq_true_eq] at h
  simp [unpack, h.1, h.2]

/-- A pattern that is a number is given back by its number. -/
theorem pack_of_number (hspec : 2 ≤ spec.exponentBits) {pattern : BitVec spec.numBits}
    (h : unpack spec pattern ≠ .notANumber) : pack spec (unpack spec pattern) = pattern := by
  rw [pack_unpack pattern hspec, if_neg fun hnan => h (unpack_of_isNaNBits hnan)]

theorem unpack_inj (hspec : 2 ≤ spec.exponentBits) {a b : BitVec spec.numBits}
    (ha : unpack spec a ≠ .notANumber) (h : unpack spec a = unpack spec b) : a = b := by
  rw [← pack_of_number hspec ha, h, pack_of_number hspec (h ▸ ha)]

/-- Packing a number that was unpacked loses nothing but the payload of not-a-number. -/
theorem unpack_pack_unpack (hspec : 2 ≤ spec.exponentBits) (pattern : BitVec spec.numBits) :
    unpack spec (pack spec (unpack spec pattern)) = unpack spec pattern := by
  by_cases h : unpack spec pattern = .notANumber
  · rw [h]
    exact unpack_packedNaN
  · rw [pack_of_number hspec h]

theorem unpack_packedInfinity (s : Sign) : unpack spec (packedInfinity spec s) = .infinity s := by
  simp [unpack, packedInfinity]

end Patterns

/-! ## The form of an unpacked number -/

section Form

variable {spec : Format}

theorem minExponent_eq (spec : Format) :
    spec.minExponent = 1 - spec.exponentBias - spec.mantissaBitsWithoutImplicit := by
  have hpos : 1 ≤ 2 ^ (spec.exponentBits - 1) := Nat.one_le_two_pow
  rw [Format.minExponent, Format.exponentBias, Format.mantissaBits, Nat.cast_sub hpos]
  push_cast
  ring

theorem two_pow_exponentBits (spec : Format) :
    2 ^ spec.exponentBits = 2 * spec.exponentBias + 2 := by
  obtain ⟨k, hk⟩ : ∃ k, spec.exponentBits = k + 1 := ⟨_, (Nat.succ_pred_eq_of_pos spec.he).symm⟩
  have hpos : 1 ≤ 2 ^ k := Nat.one_le_two_pow
  rw [Format.exponentBias, hk, Nat.add_sub_cancel, Nat.pow_succ]
  omega

/-- The largest exponent of a finite number. -/
def maxExponent (spec : Format) : Int :=
  spec.exponentBias - spec.mantissaBitsWithoutImplicit

theorem ofNat_ne_ones {width number : Nat} (h : number + 1 < 2 ^ width) :
    BitVec.ofNat width number ≠ -1#_ := by
  intro hones
  have hnumber := congrArg BitVec.toNat hones
  rw [BitVec.toNat_ofNat, Nat.mod_eq_of_lt (by omega), BitVec.neg_one_eq_allOnes,
    BitVec.toNat_allOnes] at hnumber
  omega

theorem ofNat_ne_zero {width number : Nat} (hpos : 0 < number) (h : number < 2 ^ width) :
    BitVec.ofNat width number ≠ 0#_ := by
  intro hzero
  have hnumber := congrArg BitVec.toNat hzero
  rw [BitVec.toNat_ofNat, Nat.mod_eq_of_lt h, BitVec.toNat_zero] at hnumber
  omega

theorem toNat_implicit {width : Nat} (mantissa : BitVec width) :
    (1#1 ++ mantissa).toNat = 2 ^ width + mantissa.toNat := by
  rw [BitVec.toNat_append, ← Nat.shiftLeft_add_eq_or_of_lt mantissa.isLt, Nat.shiftLeft_eq]
  simp

/-- What a pattern can stand for. -/
theorem unpack_finite (hspec : 2 ≤ spec.exponentBits) {pattern : BitVec spec.numBits} {s : Sign}
    {m : Nat} {e : Int} {h : 0 < m} (hunpack : unpack spec pattern = .finite s m e h) :
    Canonical spec m e ∧ e ≤ maxExponent spec := by
  have hmin := minExponent_eq spec
  have hbias : 2 ^ 2 ≤ 2 ^ spec.exponentBits := Nat.pow_le_pow_right (by decide) hspec
  have hrange := two_pow_exponentBits spec
  have hwidth : 2 ^ spec.mantissaBits = 2 * 2 ^ spec.mantissaBitsWithoutImplicit := by
    rw [Format.mantissaBits, Nat.pow_add, Nat.pow_one]
  simp only [unpack] at hunpack
  generalize unpackExponent pattern = field at hunpack
  have hmantissa := (unpackMantissa pattern).isLt
  unfold maxExponent
  split at hunpack
  · split at hunpack <;> cases hunpack
  · next hones =>
    have hfield : field.toNat + 1 < 2 ^ spec.exponentBits := by
      refine Nat.lt_of_le_of_ne field.isLt fun hmax => hones ?_
      apply BitVec.eq_of_toNat_eq
      rw [BitVec.neg_one_eq_allOnes, BitVec.toNat_allOnes]
      omega
    split at hunpack
    · next hzero =>
      have hnone : field.toNat = 0 := by rw [hzero]; rfl
      split at hunpack
      · cases hunpack
      · simp only [finite.injEq] at hunpack
        obtain ⟨-, rfl, rfl⟩ := hunpack
        exact ⟨⟨by omega, by omega, .inr (by omega)⟩, by omega⟩
    · next hzero =>
      have hsome : field.toNat ≠ 0 := fun h => hzero (BitVec.eq_of_toNat_eq h)
      simp only [finite.injEq, toNat_implicit] at hunpack
      obtain ⟨-, rfl, rfl⟩ := hunpack
      exact ⟨⟨by omega, by omega, .inl (by omega)⟩, by omega⟩

section Packing

variable {s : Sign} {m : Nat} {e : Int} {hm : 0 < m} {biased : Nat}

/-- The exponent field of a finite number is not all ones. -/
theorem exists_biased (hlow : spec.minExponent ≤ e) (he : e ≤ maxExponent spec) :
    ∃ biased : Nat, (biased : Int) = e + spec.exponentBias + spec.mantissaBitsWithoutImplicit ∧
      0 < biased ∧ biased + 1 < 2 ^ spec.exponentBits := by
  have hmin := minExponent_eq spec
  have hrange := two_pow_exponentBits spec
  unfold maxExponent at he
  refine ⟨(e + spec.exponentBias + spec.mantissaBitsWithoutImplicit).toNat, ?_, ?_, ?_⟩ <;> omega

/-- With all bits of the mantissa, the first of them is left out and put back. -/
theorem unpack_pack_full
    (hbiased : (biased : Int) = e + spec.exponentBias + spec.mantissaBitsWithoutImplicit)
    (hpos : 0 < biased) (hfits : biased + 1 < 2 ^ spec.exponentBits)
    (hlt : m < 2 ^ spec.mantissaBits) (hfull : 2 ^ spec.mantissaBitsWithoutImplicit ≤ m) :
    unpack spec (pack spec (.finite s m e hm)) = .finite s m e hm := by
  have hwidth : 2 ^ spec.mantissaBits = 2 * 2 ^ spec.mantissaBitsWithoutImplicit := by
    rw [Format.mantissaBits, Nat.pow_add, Nat.pow_one]
  have hfield : (e + spec.exponentBias + spec.mantissaBitsWithoutImplicit).toNat = biased := by
    omega
  have hbits : (BitVec.ofNat spec.exponentBits biased).toNat = biased := by
    rw [BitVec.toNat_ofNat, Nat.mod_eq_of_lt (by omega)]
  have hlog : m.log2 + 1 = spec.mantissaBits := by
    have hlower := (Nat.le_log2 (Nat.ne_of_gt hm)).mpr hfull
    have hupper := (Nat.log2_lt (Nat.ne_of_gt hm)).mpr hlt
    unfold Format.mantissaBits at *
    omega
  have hmantissa : (1#1 ++ BitVec.ofNat spec.mantissaBitsWithoutImplicit m).toNat = m := by
    have hmod : m % 2 ^ spec.mantissaBitsWithoutImplicit =
        m - 2 ^ spec.mantissaBitsWithoutImplicit := by
      rw [Nat.mod_eq_sub_mod hfull, Nat.mod_eq_of_lt (by omega)]
    rw [toNat_implicit, BitVec.toNat_ofNat, hmod]
    omega
  have hexponent : (biased : Int) - (spec.exponentBias + spec.mantissaBitsWithoutImplicit) = e := by
    omega
  simp only [pack, hfield, if_neg (Nat.not_le_of_lt hfits), if_pos hlog, unpack,
    unpackExponent_packComponents, unpackMantissa_packComponents, unpackSign_packComponents,
    Sign.ofBitVec_toBitVec, if_neg (ofNat_ne_ones hfits),
    if_neg (ofNat_ne_zero hpos (Nat.lt_of_succ_lt hfits)), hmantissa, hbits, hexponent]

/-- With fewer bits the exponent field is zero, which stands for the smallest exponent. -/
theorem unpack_pack_least
    (hbiased : (biased : Int) = e + spec.exponentBias + spec.mantissaBitsWithoutImplicit)
    (hfits : biased + 1 < 2 ^ spec.exponentBits) (hleast : e = spec.minExponent)
    (hsmall : m < 2 ^ spec.mantissaBitsWithoutImplicit) :
    unpack spec (pack spec (.finite s m e hm)) = .finite s m e hm := by
  have hmin := minExponent_eq spec
  have hfield : (e + spec.exponentBias + spec.mantissaBitsWithoutImplicit).toNat = biased := by
    omega
  have hlog : ¬m.log2 + 1 = spec.mantissaBits := by
    have hupper := (Nat.log2_lt (Nat.ne_of_gt hm)).mpr hsmall
    unfold Format.mantissaBits
    omega
  have hbits : (BitVec.ofNat spec.mantissaBitsWithoutImplicit m).toNat = m := by
    rw [BitVec.toNat_ofNat, Nat.mod_eq_of_lt hsmall]
  have hexponent : ((0 : Nat) : Int) -
      (spec.exponentBias + spec.mantissaBitsWithoutImplicit) + 1 = e := by
    omega
  simp only [pack, hfield, if_neg (Nat.not_le_of_lt hfits), if_neg hlog, unpack,
    unpackExponent_packComponents, unpackMantissa_packComponents, unpackSign_packComponents,
    Sign.ofBitVec_toBitVec, if_neg (ofNat_ne_ones (by omega : 0 + 1 < 2 ^ spec.exponentBits)),
    if_true, dif_neg (ofNat_ne_zero hm hsmall), hbits, BitVec.toNat_zero, hexponent]

/-- A number in the form of the format is what its packed form unpacks to. -/
theorem unpack_pack_finite (h : Canonical spec m e) (he : e ≤ maxExponent spec) :
    unpack spec (pack spec (.finite s m e hm)) = .finite s m e hm := by
  obtain ⟨biased, hbiased, hpos, hfits⟩ := exists_biased h.min_le he
  rcases Nat.lt_or_ge m (2 ^ spec.mantissaBitsWithoutImplicit) with hsmall | hfull
  · have hleast : e = spec.minExponent := h.full.resolve_left (Nat.not_le_of_lt hsmall)
    exact unpack_pack_least hbiased hfits hleast hsmall
  · exact unpack_pack_full hbiased hpos hfits h.lt hfull

end Packing

end Form

/-! ## Widening -/

/-- A binary32 number that is widened: its form, and its size. -/
theorem widened {pattern : BitVec Format.binary32.numBits} {s : Sign} {m : Nat} {e : Int}
    {h : 0 < m} (hunpack : unpack .binary32 pattern = .finite s m e h) :
    ∃ n f hn, convert .binary64 (unpack .binary32 pattern) = .finite s n f hn ∧
      Canonical .binary64 n f ∧ f ≤ maxExponent .binary64 ∧ size n f = size m e := by
  obtain ⟨⟨hm, hlow, -⟩, hhigh⟩ := unpack_finite (by decide) hunpack
  have hfits : m < 2 ^ Format.binary64.mantissaBits :=
    hm.trans (Nat.pow_lt_pow_right (by decide) (by decide))
  have hroom : Format.binary64.minExponent + Format.binary64.mantissaBitsWithoutImplicit ≤ e :=
    (show (-1074 + 52 : Int) ≤ -149 by decide).trans hlow
  have hmost : e ≤ maxExponent .binary64 := hhigh.trans (by decide)
  obtain ⟨hpos, hround, hcanonical⟩ := round_fits .binary64 s h hfits hroom
  refine ⟨_, _, hpos, ?_, hcanonical, by omega, ?_⟩
  · rw [hunpack]
    exact hround
  · rw [Nat.shiftLeft_eq, size_shift, Int.sub_add_cancel]

/-! ## The number of a pattern -/

/-- The number that a pattern stands for, in the format of the arithmetic. -/
def number (t : FloatType) (pattern : t.Value) : UnpackedFloat :=
  (t.toFloat pattern).toModel.unpack

theorem number_f64 (pattern : FloatType.f64.Value) :
    number .f64 pattern = unpack .binary64 pattern :=
  unpack_pack_unpack (by decide) _

/-- Widening is exact: no number is changed by being packed in the larger format. -/
theorem number_f32 (pattern : FloatType.f32.Value) :
    number .f32 pattern = convert .binary64 (unpack .binary32 pattern) := by
  have hnumber : number .f32 pattern =
      unpack .binary64 (pack .binary64 (convert .binary64 (unpack .binary32 pattern))) :=
    unpack_pack_unpack (by decide) _
  rw [hnumber]
  cases hunpack : unpack .binary32 pattern with
  | notANumber => exact unpack_packedNaN
  | infinity s => exact unpack_packedInfinity s
  | zero s => exact unpack_packedZero
  | finite s m e h =>
    obtain ⟨n, f, hn, hwide, hcanonical, hmax, -⟩ := widened hunpack
    rw [← hunpack, hwide]
    exact unpack_pack_finite hcanonical hmax

/-- Different numbers are widened to different numbers. -/
theorem convert_inj {a b : BitVec Format.binary32.numBits}
    (h : convert .binary64 (unpack .binary32 a) = convert .binary64 (unpack .binary32 b)) :
    unpack .binary32 a = unpack .binary32 b := by
  cases ha : unpack .binary32 a with
  | finite s m e hm =>
    obtain ⟨n, f, hn, hwide, -, -, hsize⟩ := widened ha
    cases hb : unpack .binary32 b with
    | finite s' m' e' hm' =>
      obtain ⟨n', f', hn', hwide', -, -, hsize'⟩ := widened hb
      rw [hwide, hwide', finite.injEq] at h
      obtain ⟨rfl, rfl, rfl⟩ := h
      -- Sizes of one form are equal only for equal mantissas and exponents.
      obtain ⟨rfl, rfl⟩ := (unpack_finite (by decide) ha).1.size_inj
        (unpack_finite (by decide) hb).1 (hsize.symm.trans hsize')
      rfl
    | _ =>
      rw [hwide, hb] at h
      cases h
  | _ =>
    rw [ha] at h
    cases hb : unpack .binary32 b with
    | finite s' m' e' hm' =>
      obtain ⟨n', f', hn', hwide', -⟩ := widened hb
      rw [hwide'] at h
      cases h
    | _ => exact h.trans (congrArg (convert .binary64) hb)

/-! ## Equal numbers -/

/-- A zero of either sign. -/
def IsZero (t : FloatType) (pattern : t.Value) : Prop :=
  pattern = 0 ∨ pattern = BitVec.ofNat t.bits (2 ^ (t.bits - 1))

/-- The number decides everything but the sign of zero and the payload of not-a-number. -/
theorem eq_of_number {t : FloatType} {a b : t.Value} (ha : t.number a ≠ .notANumber)
    (h : t.number a = t.number b) : a = b := by
  cases t with
  | f64 =>
    rw [number_f64] at ha h
    rw [number_f64] at h
    exact unpack_inj (by decide) ha h
  | f32 =>
    rw [number_f32] at ha h
    rw [number_f32] at h
    have hnarrow : unpack .binary32 a ≠ .notANumber := fun hnan => ha (by rw [hnan]; rfl)
    exact unpack_inj (by decide) hnarrow (convert_inj h)

theorem zero_of_number {t : FloatType} {a : t.Value} {s : Sign} (h : t.number a = .zero s) :
    t.IsZero a := by
  have hzero : ∃ z : t.Value, t.number z = .zero s ∧ t.IsZero z := by
    cases t <;> cases s
    · exact ⟨0x80000000, by rfl, .inr rfl⟩
    · exact ⟨0, by rfl, .inl rfl⟩
    · exact ⟨0x8000000000000000, by rfl, .inr rfl⟩
    · exact ⟨0, by rfl, .inl rfl⟩
  obtain ⟨z, hz, hsign⟩ := hzero
  have heq : a = z := eq_of_number (by rw [h]; nofun) (h.trans hz.symm)
  rw [heq]
  exact hsign

/-- Equal numbers have the same pattern, or are two zeros. -/
theorem eq_of_same {t : FloatType} {a b : t.Value} (h : t.same a b = true) :
    a = b ∨ t.IsZero a ∧ t.IsZero b := by
  have hbeq : (t.number a).beq (t.number b) = true := h
  rw [beq_iff_ne_notANumber_and_eq] at hbeq
  obtain ⟨ha, -, heq | ⟨hpos, hneg⟩ | ⟨hneg, hpos⟩⟩ := hbeq
  · exact .inl (eq_of_number ha heq)
  · exact .inr ⟨zero_of_number hpos, zero_of_number hneg⟩
  · exact .inr ⟨zero_of_number hneg, zero_of_number hpos⟩

/-! ## Order -/

theorem isNaNBits_of_unpack {spec : Format} {pattern : BitVec spec.numBits}
    (h : unpack spec pattern = .notANumber) : isNaNBits pattern = true := by
  simp only [isNaNBits, decide_eq_true_eq]
  unfold unpack at h
  dsimp only at h
  split at h
  · next hones =>
    split at h
    · cases h
    · next hmantissa => exact ⟨hones, hmantissa⟩
  · split at h
    · split at h <;> cases h
    · cases h

/-- Only not-a-number is packed as one. -/
theorem unpack_pack_ne {spec : Format} {x : UnpackedFloat} (h : x ≠ .notANumber) :
    unpack spec (pack spec x) ≠ .notANumber := by
  intro hunpack
  have hbits := isNaNBits_of_unpack hunpack
  simp only [isNaNBits, decide_eq_true_eq] at hbits
  obtain ⟨hones, hmantissa⟩ := hbits
  have hzero : BitVec.ofNat spec.exponentBits 0 ≠ -1#_ :=
    ofNat_ne_ones (Nat.one_lt_two_pow (Nat.ne_of_gt spec.he))
  cases x with
  | notANumber => exact h rfl
  | infinity s => simp [pack, packedInfinity] at hmantissa
  | zero s =>
    rw [pack, packedZero, unpackExponent_packComponents] at hones
    exact hzero hones
  | finite s m e hm =>
    unfold pack at hones hmantissa
    dsimp only at hones hmantissa
    split at hones
    · simp [*, packedInfinity] at hmantissa
    · next hfits =>
      split at hones
      · rw [unpackExponent_packComponents] at hones
        exact ofNat_ne_ones (by omega) hones
      · rw [unpackExponent_packComponents] at hones
        exact hzero hones

theorem convert_ne {target : Format} {x : UnpackedFloat} (h : x ≠ .notANumber) :
    convert target x ≠ .notANumber := by
  cases x with
  | finite s m e hm =>
    have hrounds : Rounds target _ (convert target (.finite s m e hm)) := convert_rounds target rfl
    exact hrounds.1.isNumber
  | _ => exact h

/-- Rounding a number to binary32 gives a number, an infinite one perhaps. -/
theorem number_ofFloat {number : Float} (h : number.isFinite = true) :
    FloatType.number .f32 (FloatType.f32.ofFloat number) ≠ .notANumber := by
  have hfinite : number.toModel.unpack ≠ .notANumber := by
    intro hnan
    have hmodel : number.toModel.unpack.isFinite = true := h
    rw [hnan] at hmodel
    cases hmodel
  rw [number_f32]
  exact convert_ne (unpack_pack_ne (convert_ne hfinite))

theorem compare_swap (a b : UnpackedFloat) :
    b.compare a = (a.compare b).map Ordering.swap := by
  cases a with
  | notANumber => cases b <;> rfl
  | infinity s =>
    cases s <;> cases b with
    | infinity s' => cases s' <;> rfl
    | _ => rfl
  | zero s =>
    cases b with
    | infinity s' => cases s' <;> rfl
    | finite s' m e h => cases s' <;> rfl
    | _ => rfl
  | finite s m e h =>
    cases b with
    | infinity s' => cases s <;> cases s' <;> rfl
    | notANumber => cases s <;> rfl
    | zero s' => cases s <;> rfl
    | finite s' m' e' h' =>
      cases s <;> cases s'
      · exact congrArg some (congrArg Ordering.swap (sizes_swap e e' m m').symm)
      · rfl
      · rfl
      · exact congrArg some (sizes_swap e e' m m').symm

theorem compare_isSome {a b : UnpackedFloat} (ha : a ≠ .notANumber) (hb : b ≠ .notANumber) :
    ∃ order, a.compare b = some order := by
  fun_cases UnpackedFloat.compare a b <;> simp_all

/-- Of two numbers either the first is smaller or the second is at most as large. -/
theorem le_iff_not_lt {a b : Float} (ha : a.toModel.unpack ≠ .notANumber)
    (hb : b.toModel.unpack ≠ .notANumber) : b ≤ a ↔ ¬a < b := by
  obtain ⟨order, horder⟩ := compare_isSome ha hb
  have hlt : a < b ↔ order = .lt := by
    have hmodel : a < b ↔ a.toModel.unpack.lt b.toModel.unpack = true :=
      ⟨fun h => of_decide_eq_true h, fun h => decide_eq_true h⟩
    rw [hmodel, UnpackedFloat.lt, horder]
    simp
  have hle : b ≤ a ↔ order.swap.isLE = true := by
    have hmodel : b ≤ a ↔ b.toModel.unpack.le a.toModel.unpack = true :=
      ⟨fun h => of_decide_eq_true h, fun h => decide_eq_true h⟩
    rw [hmodel, UnpackedFloat.le, compare_swap, horder]
    rfl
  rw [hlt, hle]
  cases order <;> decide

end FloatType
end BitCodec
