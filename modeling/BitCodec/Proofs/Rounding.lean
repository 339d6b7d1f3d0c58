import Mathlib
import BitCodec.FloatType

/-!
# Rounding between numbers of a format

A finite number stands for a rational one, its mantissa times a power of two.  In the form
that a format asks for, the mantissa has all its bits or the exponent is the smallest one,
and the order of such numbers is the order of the pairs of exponent and mantissa.

Rounding to a format drops the low bits of a mantissa and may add one to what is left.  That
never passes over a number of the format: what was on one side of it stays on that side.
This is all that is said here about where a rounded number lies, and it is enough to carry
bounds through widening, narrowing and subtraction.
-/

namespace BitCodec

open Float.Model (Format UnpackedFloat totalExponent)
open Float.Model.UnpackedFloat

namespace FloatType

/-! ## Sizes -/

/-- The size of a number: its mantissa times a power of two. -/
def size (m : Nat) (e : Int) : ℚ :=
  m * 2 ^ e

theorem size_nonneg (m : Nat) (e : Int) : 0 ≤ size m e := by
  unfold size
  positivity

theorem size_pos {m : Nat} (hm : 0 < m) (e : Int) : 0 < size m e := by
  unfold size
  positivity

/-- The low bits of an exponent belong to the mantissa. -/
theorem size_shift (m k : Nat) (e : Int) : size (m * 2 ^ k) e = size m (e + k) := by
  rw [size, size, zpow_add₀ (by norm_num), zpow_natCast]
  push_cast
  ring

theorem size_le_size {m n : Nat} (e : Int) : size m e ≤ size n e ↔ m ≤ n := by
  rw [size, size, mul_le_mul_iff_left₀ (by positivity), Nat.cast_le]

/-- A mantissa with all its bits, or the smallest exponent. -/
structure Canonical (spec : Format) (m : Nat) (e : Int) : Prop where
  lt : m < 2 ^ spec.mantissaBits
  min_le : spec.minExponent ≤ e
  full : 2 ^ spec.mantissaBitsWithoutImplicit ≤ m ∨ e = spec.minExponent

namespace Canonical

variable {spec : Format} {m n : Nat} {e f : Int}

theorem size_lt (hm : Canonical spec m e) (hn : Canonical spec n f) (h : e < f) :
    size m e < size n f := by
  obtain ⟨k, hk⟩ : ∃ k : Nat, f = e + (1 + k : Nat) := ⟨(f - e - 1).toNat, by omega⟩
  have hfull : 2 ^ spec.mantissaBitsWithoutImplicit ≤ n := by
    have hmin := hm.min_le
    exact hn.full.resolve_right (by omega)
  have hmantissa : m < n * 2 ^ (1 + k) := by
    calc m < 2 ^ spec.mantissaBits := hm.lt
      _ = 2 ^ spec.mantissaBitsWithoutImplicit * 2 ^ 1 := by
        rw [Format.mantissaBits, Nat.add_comm, Nat.pow_add]
      _ ≤ n * 2 ^ (1 + k) := Nat.mul_le_mul hfull (Nat.pow_le_pow_right (by decide) (by omega))
  rw [hk, ← size_shift]
  exact not_le.mp fun hle => absurd ((size_le_size e).mp hle) (by omega)

/-- The order of sizes is that of exponents, then that of mantissas. -/
theorem size_le_iff (hm : Canonical spec m e) (hn : Canonical spec n f) :
    size m e ≤ size n f ↔ e < f ∨ e = f ∧ m ≤ n := by
  rcases lt_trichotomy e f with hlt | rfl | hgt
  · simp [hlt, (size_lt hm hn hlt).le]
  · simp [size_le_size]
  · have hnot := not_le.mpr (size_lt hn hm hgt)
    simp only [hnot, false_iff]
    omega

theorem size_inj (hm : Canonical spec m e) (hn : Canonical spec n f)
    (h : size m e = size n f) : m = n ∧ e = f := by
  have hle := (size_le_iff hm hn).mp h.le
  have hge := (size_le_iff hn hm).mp h.ge
  omega

end Canonical

/-! ## Dropping bits -/

section Shift

open ExtendedMantissa

theorem shiftRight_succ (em : ExtendedMantissa) (k : Nat) :
    em >>> (k + 1) = (em >>> k).shiftRightOne := rfl

theorem mantissa_shiftRight (em : ExtendedMantissa) (k : Nat) :
    (em >>> k).mantissa = em.mantissa / 2 ^ k := by
  induction k with
  | zero => simp [HShiftRight.hShiftRight, Nat.repeat]
  | succ k ih => rw [shiftRight_succ, shiftRightOne, ih, Nat.div_div_eq_div_mul, Nat.pow_succ]

/-- The two bits behind the mantissa remember whether anything was dropped. -/
theorem residue_shiftRight (em : ExtendedMantissa) (k : Nat) :
    ((em >>> k).roundBit || (em >>> k).stickyBit) =
      (em.roundBit || em.stickyBit || em.mantissa % 2 ^ k != 0) := by
  induction k with
  | zero => simp [HShiftRight.hShiftRight, Nat.repeat, Nat.mod_one]
  | succ k ih =>
    have hmod : (em.mantissa % 2 ^ (k + 1) != 0) =
        (em.mantissa / 2 ^ k % 2 != 0 || em.mantissa % 2 ^ k != 0) := by
      have hpos := Nat.two_pow_pos k
      rw [Nat.mod_pow_succ]
      rcases Nat.mod_two_eq_zero_or_one (em.mantissa / 2 ^ k) with h | h
      · simp [h]
      · simp [h]
    rw [shiftRight_succ, hmod, shiftRightOne, mantissa_shiftRight, ih, Bool.or_left_comm]

theorem roundedMantissa_bounds (em : ExtendedMantissa) :
    em.mantissa ≤ em.roundedMantissa ∧ em.roundedMantissa ≤ em.mantissa + 1 := by
  rcases em with ⟨m, _ | _, _ | _⟩ <;>
    simp only [roundedMantissa, accuracy, Accuracy.roundToNearestEven] <;> omega

theorem roundedMantissa_exact {em : ExtendedMantissa} (h : (em.roundBit || em.stickyBit) = false) :
    em.roundedMantissa = em.mantissa := by
  rcases em with ⟨m, _ | _, _ | _⟩
  · rfl
  all_goals cases h

/-- A mantissa that loses its low bits and is rounded. -/
def dropped (m : Nat) (acc : Accuracy) (k : Nat) : Nat :=
  (ofMantissaAndAccuracy m acc >>> k).roundedMantissa

theorem mantissa_ofMantissaAndAccuracy (m : Nat) (acc : Accuracy) :
    (ofMantissaAndAccuracy m acc).mantissa = m := by
  unfold ofMantissaAndAccuracy
  split <;> rfl

theorem le_dropped (m : Nat) (acc : Accuracy) (k : Nat) : m / 2 ^ k ≤ dropped m acc k := by
  have hbounds := roundedMantissa_bounds (ofMantissaAndAccuracy m acc >>> k)
  rw [mantissa_shiftRight, mantissa_ofMantissaAndAccuracy] at hbounds
  exact hbounds.1

theorem dropped_le (m : Nat) (acc : Accuracy) (k : Nat) : dropped m acc k ≤ m / 2 ^ k + 1 := by
  have hbounds := roundedMantissa_bounds (ofMantissaAndAccuracy m acc >>> k)
  rw [mantissa_shiftRight, mantissa_ofMantissaAndAccuracy] at hbounds
  exact hbounds.2

/-- Nothing is lost where only zeros are dropped. -/
theorem dropped_exact {m k : Nat} (h : 2 ^ k ∣ m) : dropped m .exact k = m / 2 ^ k := by
  have hresidue := residue_shiftRight (ofMantissaAndAccuracy m .exact) k
  have hnone : (ofMantissaAndAccuracy m .exact).mantissa % 2 ^ k = 0 := Nat.mod_eq_zero_of_dvd h
  simp only [hnone] at hresidue
  rw [dropped, roundedMantissa_exact hresidue, mantissa_shiftRight]
  rfl

/-- A whole number is not passed over. -/
theorem dropped_le_of_le {m k n : Nat} (h : m ≤ n * 2 ^ k) : dropped m .exact k ≤ n := by
  by_cases hdvd : 2 ^ k ∣ m
  · rw [dropped_exact hdvd]
    exact Nat.div_le_of_le_mul (by rwa [Nat.mul_comm])
  · have hlt : m < n * 2 ^ k := by
      refine Nat.lt_of_le_of_ne h fun heq => hdvd ?_
      rw [heq]
      exact Nat.dvd_mul_left _ _
    have hdiv : m / 2 ^ k < n := Nat.div_lt_of_lt_mul (by rwa [Nat.mul_comm])
    have hbound := dropped_le m .exact k
    omega

theorem le_dropped_of_le {m k n : Nat} (h : n * 2 ^ k ≤ m) : n ≤ dropped m .exact k :=
  ((Nat.le_div_iff_mul_le (Nat.two_pow_pos k)).mpr h).trans (le_dropped m .exact k)

end Shift

/-! ## Rounding sizes -/

/-- The number of a sign and a size; no mantissa is left of a zero. -/
def ofSize (s : Sign) (m : Nat) (e : Int) : UnpackedFloat :=
  if h : m = 0 then .zero s else .finite s m e (Nat.pos_of_ne_zero h)

/-- No number of a format lies strictly between one size and another. -/
def Beside (spec : Format) (q r : ℚ) : Prop :=
  ∀ (m : Nat) (e : Int), Canonical spec m e →
    (size m e ≤ q → size m e ≤ r) ∧ (q ≤ size m e → r ≤ size m e)

section Rounding

variable {spec : Format} {m n : Nat} {e f : Int}

theorem le_targetExponent (spec : Format) (total : Int) :
    spec.minExponent ≤ spec.targetExponent total :=
  le_max_right _ _

theorem targetExponent_le (hm : m < 2 ^ spec.mantissaBits) (he : spec.minExponent ≤ e) :
    spec.targetExponent (totalExponent m e) ≤ e := by
  have hlog : m.log2 < spec.mantissaBits := by
    by_cases hzero : m = 0
    · rw [hzero, Nat.log2_zero, Format.mantissaBits]
      omega
    · exact (Nat.log2_lt hzero).mpr hm
  refine max_le ?_ he
  unfold totalExponent
  omega

/-- One bit too many raises the exponent by one. -/
theorem targetExponent_full (he : spec.minExponent ≤ e) :
    spec.targetExponent (totalExponent (2 ^ spec.mantissaBits) e) = e + 1 := by
  rw [Format.targetExponent, totalExponent, Nat.log2_two_pow]
  omega

/-- The number of bits that rounding drops. -/
def surplus (spec : Format) (m : Nat) (e : Int) : Nat :=
  (spec.targetExponent (totalExponent m e) - e).toNat

theorem div_surplus_lt (spec : Format) (hm : 0 < m) (e : Int) :
    m / 2 ^ surplus spec m e < 2 ^ spec.mantissaBits := by
  refine Nat.div_lt_of_lt_mul ?_
  rw [← Nat.pow_add]
  refine (Nat.log2_lt (Nat.ne_of_gt hm)).mp ?_
  have htarget : totalExponent m e - spec.mantissaBits ≤
      spec.targetExponent (totalExponent m e) := le_max_left _ _
  unfold surplus totalExponent at *
  omega

/-- Above the smallest exponent the bits that are kept fill the mantissa. -/
theorem le_div_surplus (hm : 0 < m) (he : e ≤ spec.targetExponent (totalExponent m e))
    (hmin : spec.targetExponent (totalExponent m e) ≠ spec.minExponent) :
    2 ^ spec.mantissaBitsWithoutImplicit ≤ m / 2 ^ surplus spec m e := by
  refine (Nat.le_div_iff_mul_le (Nat.two_pow_pos _)).mpr ?_
  rw [← Nat.pow_add]
  refine (Nat.le_log2 (Nat.ne_of_gt hm)).mp ?_
  have htarget : spec.targetExponent (totalExponent m e) =
      totalExponent m e - spec.mantissaBits := by
    rcases max_choice (totalExponent m e - spec.mantissaBits) spec.minExponent with h | h
    · exact h
    · exact absurd h hmin
  have hbits : spec.mantissaBits = 1 + spec.mantissaBitsWithoutImplicit := rfl
  unfold surplus totalExponent at *
  omega

/-- What rounding makes of a size, exact or not: the bits that are kept, one more perhaps,
in the form of the format. -/
theorem roundWithAccuracy_eq (s : Sign) (acc : Accuracy) (hm : 0 < m)
    (he : e ≤ spec.targetExponent (totalExponent m e)) :
    ∃ n f, Canonical spec n f ∧
      size n f = size (dropped m acc (surplus spec m e)) (e + surplus spec m e) ∧
      f ≤ e + surplus spec m e + 1 ∧ roundWithAccuracy spec s m e acc = ofSize s n f := by
  have htarget : e + surplus spec m e = spec.targetExponent (totalExponent m e) := by
    unfold surplus
    omega
  have hlow := le_targetExponent spec (totalExponent m e)
  rw [← htarget] at hlow
  have hfloor := le_dropped m acc (surplus spec m e)
  have hceil := dropped_le m acc (surplus spec m e)
  have hkept := div_surplus_lt spec hm e
  have hround : roundWithAccuracy spec s m e acc =
      ofSize s (shiftToTargetExponent spec (dropped m acc (surplus spec m e))
          (e + surplus spec m e) .exact).1.mantissa
        (shiftToTargetExponent spec (dropped m acc (surplus spec m e))
          (e + surplus spec m e) .exact).2 := rfl
  rcases Nat.lt_or_ge (dropped m acc (surplus spec m e)) (2 ^ spec.mantissaBits) with hlt | hge
  · have hstill : spec.targetExponent (totalExponent (dropped m acc (surplus spec m e))
        (e + surplus spec m e)) - (e + surplus spec m e) ≤ 0 := by
      have := targetExponent_le hlt hlow
      omega
    refine ⟨_, _, ⟨hlt, hlow, ?_⟩, rfl, by omega, ?_⟩
    · by_cases hmin : spec.targetExponent (totalExponent m e) = spec.minExponent
      · exact .inr (htarget.trans hmin)
      · exact .inl ((le_div_surplus hm he hmin).trans hfloor)
    · rw [hround, shiftToTargetExponent, shiftToExponent, Int.toNat_of_nonpos hstill]
      simp [mantissa_shiftRight, mantissa_ofMantissaAndAccuracy]
  · -- One was added to a mantissa of ones, and the carry is shifted back out.
    have hfull : dropped m acc (surplus spec m e) = 2 ^ spec.mantissaBits := by omega
    have hhalf : 2 ^ spec.mantissaBits / 2 ^ 1 = 2 ^ spec.mantissaBitsWithoutImplicit := by
      rw [Format.mantissaBits, Nat.pow_add, Nat.mul_div_cancel_left _ (by decide)]
    refine ⟨2 ^ spec.mantissaBitsWithoutImplicit, e + surplus spec m e + 1, ⟨?_, by omega, ?_⟩, ?_,
      le_refl _, ?_⟩
    · exact Nat.pow_lt_pow_right (by decide) (by rw [Format.mantissaBits]; omega)
    · exact .inl (le_refl _)
    · rw [hfull, Format.mantissaBits, Nat.add_comm 1, Nat.pow_add, size_shift]
      rfl
    · have hone : (spec.targetExponent (totalExponent (2 ^ spec.mantissaBits)
          (e + surplus spec m e)) - (e + surplus spec m e)).toNat = 1 := by
        rw [targetExponent_full hlow]
        omega
      rw [hround, hfull, shiftToTargetExponent, shiftToExponent, hone]
      simp only [mantissa_shiftRight, mantissa_ofMantissaAndAccuracy, hhalf, Nat.cast_one]

/-- Dropping bits from an exact size passes over no number of the format. -/
theorem dropped_beside (hm : 0 < m) (he : e ≤ spec.targetExponent (totalExponent m e)) :
    Beside spec (size m e)
      (size (dropped m .exact (surplus spec m e)) (e + surplus spec m e)) := by
  have htarget : e + surplus spec m e = spec.targetExponent (totalExponent m e) := by
    unfold surplus
    omega
  have hfloor := le_dropped m .exact (surplus spec m e)
  -- Numbers of smaller exponents lie below what is kept, which fills the mantissa.
  have hbelow : ∀ {n : Nat} {f : Int}, Canonical spec n f → f < e + surplus spec m e →
      size n f < size (m / 2 ^ surplus spec m e) (e + surplus spec m e) := by
    intro n f hn hf
    have hmin : spec.targetExponent (totalExponent m e) ≠ spec.minExponent := by
      have := hn.min_le
      omega
    refine hn.size_lt ⟨div_surplus_lt spec hm e, ?_, .inl (le_div_surplus hm he hmin)⟩ hf
    rw [htarget]
    exact le_targetExponent _ _
  have hdiv : size (m / 2 ^ surplus spec m e) (e + surplus spec m e) ≤ size m e := by
    rw [← size_shift, size_le_size]
    exact Nat.div_mul_le_self _ _
  intro n f hn
  rcases lt_or_ge f (e + surplus spec m e) with hf | hf
  · have hlt := hbelow hn hf
    refine ⟨fun _ => ?_, fun hge => ?_⟩
    · exact hlt.le.trans ((size_le_size _).mpr hfloor)
    · exact absurd (hge.trans_lt hlt) (not_lt.mpr hdiv)
  · obtain ⟨j, rfl⟩ : ∃ j : Nat, f = e + surplus spec m e + j :=
      ⟨(f - (e + surplus spec m e)).toNat, by omega⟩
    rw [← size_shift, size_le_size, size_le_size, ← size_shift, size_le_size, size_le_size]
    exact ⟨le_dropped_of_le, dropped_le_of_le⟩

theorem log2_shiftLeft {m : Nat} (h : 0 < m) (k : Nat) : (m <<< k).log2 = m.log2 + k := by
  rw [Nat.shiftLeft_eq]
  obtain ⟨hlow, hhigh⟩ := (Nat.log2_eq_iff (Nat.ne_of_gt h)).mp rfl
  refine (Nat.log2_eq_iff (by positivity)).mpr ⟨?_, ?_⟩
  · rw [Nat.pow_add]
    exact Nat.mul_le_mul_right _ hlow
  · rw [Nat.add_right_comm, Nat.pow_add]
    exact Nat.mul_lt_mul_of_pos_right hhigh (Nat.two_pow_pos k)

/-- Rounding a size gives one of the format, and passes over none. -/
theorem round_eq (spec : Format) (s : Sign) (hm : 0 < m) (e : Int) :
    ∃ n f, Canonical spec n f ∧ Beside spec (size m e) (size n f) ∧
      UnpackedFloat.round spec s m e = ofSize s n f := by
  -- The exponent is first brought down to the target, which changes no size.
  obtain ⟨k, hk⟩ : ∃ k, k = (e - spec.targetExponent (totalExponent m e)).toNat := ⟨_, rfl⟩
  have hpos : 0 < m <<< k := by
    rw [Nat.shiftLeft_eq]
    positivity
  have hsize : size (m <<< k) (e - k) = size m e := by
    rw [Nat.shiftLeft_eq, size_shift, Int.sub_add_cancel]
  have htotal : totalExponent (m <<< k) (e - k) = totalExponent m e := by
    rw [totalExponent, totalExponent, log2_shiftLeft hm]
    omega
  have hle : e - k ≤ spec.targetExponent (totalExponent (m <<< k) (e - k)) := by
    rw [htotal]
    omega
  obtain ⟨n, f, hcanonical, hvalue, -, hround⟩ := roundWithAccuracy_eq s .exact hpos hle
  have hbeside := dropped_beside hpos hle
  rw [← hvalue, hsize] at hbeside
  refine ⟨n, f, hcanonical, hbeside, ?_⟩
  rw [← hround, UnpackedFloat.round, decreaseExponent, hk]

/-- A size of the format is rounded to itself. -/
theorem Beside.eq (h : Beside spec (size m e) (size n f)) (hm : Canonical spec m e) :
    size n f = size m e :=
  le_antisymm ((h m e hm).2 (le_refl _)) ((h m e hm).1 (le_refl _))

/-- A mantissa that fits, over an exponent that leaves room, is only shifted up. -/
theorem round_fits (spec : Format) (s : Sign) (hm : 0 < m) (hlt : m < 2 ^ spec.mantissaBits)
    (he : spec.minExponent + spec.mantissaBitsWithoutImplicit ≤ e) :
    ∃ hpos, UnpackedFloat.round spec s m e =
        .finite s (m <<< (spec.mantissaBitsWithoutImplicit - m.log2))
          (e - (spec.mantissaBitsWithoutImplicit - m.log2 : Nat)) hpos ∧
      Canonical spec (m <<< (spec.mantissaBitsWithoutImplicit - m.log2))
        (e - (spec.mantissaBitsWithoutImplicit - m.log2 : Nat)) := by
  have hpos : 0 < m <<< (spec.mantissaBitsWithoutImplicit - m.log2) := by
    rw [Nat.shiftLeft_eq]
    positivity
  have hlog : m.log2 < spec.mantissaBits := (Nat.log2_lt (Nat.ne_of_gt hm)).mpr hlt
  have hbits : spec.mantissaBits = 1 + spec.mantissaBitsWithoutImplicit := rfl
  have hwhole : (m <<< (spec.mantissaBitsWithoutImplicit - m.log2)).log2 =
      spec.mantissaBitsWithoutImplicit := by
    rw [log2_shiftLeft hm]
    omega
  obtain ⟨hleft, hright⟩ := (Nat.log2_eq_iff (Nat.ne_of_gt hpos)).mp hwhole
  have hcanonical : Canonical spec (m <<< (spec.mantissaBitsWithoutImplicit - m.log2))
      (e - (spec.mantissaBitsWithoutImplicit - m.log2 : Nat)) := by
    refine ⟨?_, by omega, .inl hleft⟩
    rwa [hbits, Nat.add_comm]
  have hsize : size (m <<< (spec.mantissaBitsWithoutImplicit - m.log2))
      (e - (spec.mantissaBitsWithoutImplicit - m.log2 : Nat)) = size m e := by
    rw [Nat.shiftLeft_eq, size_shift, Int.sub_add_cancel]
  obtain ⟨n, f, hn, hbeside, hround⟩ := round_eq spec s hm e
  rw [← hsize] at hbeside
  obtain ⟨rfl, rfl⟩ := hn.size_inj hcanonical (hbeside.eq hcanonical)
  exact ⟨hpos, hround.trans (dif_neg (Nat.ne_of_gt hpos)), hcanonical⟩

end Rounding

/-! ## Signed numbers -/

/-- The rational number of a finite one; the others count as zero. -/
def value : UnpackedFloat → ℚ
  | .finite .positive m e _ => size m e
  | .finite .negative m e _ => -size m e
  | _ => 0

@[simp] theorem value_zero (s : Sign) : value (.zero s) = 0 := rfl

/-- A size with a sign. -/
def signed (s : Sign) (q : ℚ) : ℚ :=
  match s with
  | .positive => q
  | .negative => -q

theorem value_finite (s : Sign) (m : Nat) (e : Int) (h : 0 < m) :
    value (.finite s m e h) = signed s (size m e) := by
  cases s <;> rfl

theorem value_ofSize (s : Sign) (m : Nat) (e : Int) : value (ofSize s m e) = signed s (size m e) := by
  unfold ofSize
  split
  · next h =>
    subst h
    cases s <;> simp [value, signed, size]
  · exact value_finite s m e _

/-- A finite number in the form that a format asks for. -/
def IsCanonical (spec : Format) : UnpackedFloat → Prop
  | .finite _ m e _ => Canonical spec m e
  | .zero _ => True
  | _ => False

theorem isCanonical_ofSize {spec : Format} {m : Nat} {e : Int} (s : Sign)
    (h : Canonical spec m e) : IsCanonical spec (ofSize s m e) := by
  unfold ofSize
  split
  · trivial
  · exact h

theorem IsCanonical.isNumber {spec : Format} {x : UnpackedFloat} (h : IsCanonical spec x) :
    x ≠ .notANumber := by
  intro hnan
  rw [hnan] at h
  exact h

/-- Zero is a size too. -/
theorem IsCanonical.exists_size {spec : Format} {x : UnpackedFloat} (h : IsCanonical spec x) :
    ∃ s m e, Canonical spec m e ∧ value x = signed s (size m e) := by
  cases x with
  | finite s m e hm => exact ⟨s, m, e, h, value_finite s m e hm⟩
  | zero s =>
    refine ⟨.positive, 0, spec.minExponent, ⟨Nat.two_pow_pos _, le_refl _, .inr rfl⟩, ?_⟩
    simp [value, signed, size]
  | _ => cases h

/-- No number of a format lies strictly between a number and what it is rounded to. -/
def Rounds (spec : Format) (q : ℚ) (x : UnpackedFloat) : Prop :=
  IsCanonical spec x ∧ ∀ a, IsCanonical spec a →
    (value a ≤ q → value a ≤ value x) ∧ (q ≤ value a → value x ≤ value a)

namespace Rounds

variable {spec : Format} {q : ℚ} {x : UnpackedFloat}

theorem refl (h : IsCanonical spec x) : Rounds spec (value x) x :=
  ⟨h, fun _ _ => ⟨id, id⟩⟩

theorem of_beside {m n : Nat} {e f : Int} (s : Sign) (hn : Canonical spec n f)
    (h : Beside spec (size m e) (size n f)) : Rounds spec (signed s (size m e)) (ofSize s n f) := by
  have hm := size_nonneg m e
  have hn' := size_nonneg n f
  refine ⟨isCanonical_ofSize s hn, fun a ha => ?_⟩
  obtain ⟨t, k, g, hk, hvalue⟩ := ha.exists_size
  have hk' := size_nonneg k g
  obtain ⟨hlow, hhigh⟩ := h k g hk
  rw [hvalue, value_ofSize]
  cases s <;> cases t <;> simp only [signed, neg_le_neg_iff]
  · exact ⟨hhigh, hlow⟩
  · constructor <;> intro hle <;> grind
  · constructor <;> intro hle <;> grind
  · exact ⟨hlow, hhigh⟩

end Rounds

theorem round_rounds (spec : Format) (s : Sign) {m : Nat} (hm : 0 < m) (e : Int) :
    Rounds spec (signed s (size m e)) (UnpackedFloat.round spec s m e) := by
  obtain ⟨n, f, hcanonical, hbeside, hround⟩ := round_eq spec s hm e
  rw [hround]
  exact Rounds.of_beside s hcanonical hbeside

/-- Narrowing and widening. -/
theorem convert_rounds (target : Format) {x : UnpackedFloat} (h : x.isFinite = true) :
    Rounds target (value x) (convert target x) := by
  cases x with
  | finite s m e hm =>
    rw [value_finite]
    exact round_rounds target s hm e
  | zero s => exact Rounds.refl trivial
  | _ => cases h

theorem normalize_rounds (spec : Format) (n e : Int) (s : Sign) :
    Rounds spec (n * 2 ^ e) (UnpackedFloat.normalize spec n e s) := by
  unfold UnpackedFloat.normalize
  split
  · next hneg =>
    have hlt : n < 0 := compare_lt_iff_lt.mp hneg
    have hsize : (n * 2 ^ e : ℚ) = signed .negative (size (-n).toNat e) := by
      have hcast : (((-n).toNat : ℤ) : ℚ) = -n := by
        rw [Int.toNat_of_nonneg (by omega)]
        push_cast
        rfl
      rw [signed, size, ← Int.cast_natCast, hcast]
      ring
    rw [hsize]
    exact round_rounds spec _ (by omega) e
  · next heq =>
    have hzero : n = 0 := compare_eq_iff_eq.mp heq
    subst hzero
    have hvalue : ((0 : ℤ) * 2 ^ e : ℚ) = value (.zero s) := by simp [value]
    rw [hvalue]
    exact Rounds.refl trivial
  · next hpos =>
    have hgt : 0 < n := compare_gt_iff_gt.mp hpos
    have hsize : (n * 2 ^ e : ℚ) = signed .positive (size n.toNat e) := by
      have hcast : ((n.toNat : ℤ) : ℚ) = n := by rw [Int.toNat_of_nonneg hgt.le]
      rw [signed, size, ← Int.cast_natCast, hcast]
    rw [hsize]
    exact round_rounds spec _ (by omega) e

theorem value_neg (s : Sign) (m : Nat) (e : Int) (h : 0 < m) :
    value (.finite (-s) m e h) = -value (.finite s m e h) := by
  cases s
  · exact (neg_neg _).symm
  · rfl

/-- The value of a finite number over a smaller exponent. -/
theorem decreaseExponent_value (s : Sign) (m : Nat) (e f : Int) (h : 0 < m) (hf : f ≤ e) :
    (s.apply (decreaseExponent m e f).1 * 2 ^ f : ℚ) = value (.finite s m e h) := by
  have hshift : e = f + (e - f).toNat := by omega
  have hsize : size (decreaseExponent m e f).1 f = size m e := by
    conv_rhs => rw [hshift]
    rw [decreaseExponent, Nat.shiftLeft_eq, size_shift]
  cases s
  · rw [value, ← hsize, size, Sign.apply]
    push_cast
    ring
  · rw [value, ← hsize, size, Sign.apply]
    push_cast
    ring

theorem sub_rounds {spec : Format} {x y : UnpackedFloat} (hx : IsCanonical spec x)
    (hy : IsCanonical spec y) : Rounds spec (value x - value y) (x.sub spec y) := by
  cases x with
  | zero s =>
    cases y with
    | zero t =>
      have hzero : ∃ z, UnpackedFloat.sub spec (.zero s) (.zero t) = .zero z := by
        cases s <;> cases t <;> exact ⟨_, rfl⟩
      obtain ⟨z, hz⟩ := hzero
      have hvalue : value (.zero s) - value (.zero t) = value (.zero z) := by simp [value]
      rw [hz, hvalue]
      exact Rounds.refl trivial
    | finite t n f hn =>
      have hvalue : value (.zero s) - value (.finite t n f hn) = value (.finite (-t) n f hn) := by
        rw [value_neg, value_zero, zero_sub]
      rw [hvalue]
      exact Rounds.refl hy
    | _ => cases hy
  | finite s m e hm =>
    cases y with
    | zero t =>
      have hvalue : value (.finite s m e hm) - value (.zero t) = value (.finite s m e hm) :=
        sub_zero _
      rw [hvalue]
      exact Rounds.refl hx
    | finite t n f hn =>
      have hsub : UnpackedFloat.sub spec (.finite s m e hm) (.finite t n f hn) =
          UnpackedFloat.normalize spec (s.apply (decreaseExponent m e (min e f)).1 -
            t.apply (decreaseExponent n f (min e f)).1) (min e f) .positive := rfl
      have hrounds := normalize_rounds spec (s.apply (decreaseExponent m e (min e f)).1 -
        t.apply (decreaseExponent n f (min e f)).1) (min e f) .positive
      rw [Int.cast_sub, sub_mul, decreaseExponent_value s m e _ hm (min_le_left e f),
        decreaseExponent_value t n f _ hn (min_le_right e f)] at hrounds
      rw [hsub]
      exact hrounds
    | _ => cases hy
  | _ => cases hx

/-! ## The order of numbers -/

/-- The two sizes of finite numbers of one sign. -/
theorem sizes_swap (e₁ e₂ : Int) (m₁ m₂ : Nat) :
    ((compare e₁ e₂).then (compare m₁ m₂)).swap = (compare e₂ e₁).then (compare m₂ m₁) := by
  rw [Ordering.swap_then, ← Std.OrientedCmp.eq_swap, ← Std.OrientedCmp.eq_swap]

/-- Of two sizes of one format the exponents are compared first. -/
theorem isLE_sizes (e f : Int) (m n : Nat) :
    ((compare e f).then (compare m n)).isLE = true ↔ e < f ∨ e = f ∧ m ≤ n := by
  rcases lt_trichotomy e f with hlt | rfl | hgt
  · simp [compare_lt_iff_lt.mpr hlt, hlt]
  · simp [Nat.isLE_compare]
  · have hnot : ¬(e < f ∨ e = f ∧ m ≤ n) := by omega
    simp [compare_gt_iff_gt.mpr hgt, hnot]

/-- Numbers in the form of one format compare as the rational ones do. -/
theorem le_iff_value {spec : Format} {x y : UnpackedFloat} (hx : IsCanonical spec x)
    (hy : IsCanonical spec y) : x.le y = true ↔ value x ≤ value y := by
  cases x with
  | zero s =>
    cases y with
    | zero t => simp [UnpackedFloat.le, UnpackedFloat.compare]
    | finite t n f hn =>
      have hpos := size_pos hn f
      cases t <;> simp [UnpackedFloat.le, UnpackedFloat.compare, value, hpos, hpos.le]
    | _ => cases hy
  | finite s m e hm =>
    have hpos := size_pos hm e
    cases y with
    | zero t => cases s <;> simp [UnpackedFloat.le, UnpackedFloat.compare, value, hpos, hpos.le]
    | finite t n f hn =>
      have hpos' := size_pos hn f
      cases s <;> cases t
      · have hswap := isLE_sizes f e n m
        rw [← sizes_swap, ← Canonical.size_le_iff hy hx] at hswap
        simpa [UnpackedFloat.le, UnpackedFloat.compare, value] using hswap
      · have hle : -size m e ≤ size n f := by linarith
        simpa [UnpackedFloat.le, UnpackedFloat.compare, value] using hle
      · have hnot : ¬size m e ≤ -size n f := by linarith
        simpa [UnpackedFloat.le, UnpackedFloat.compare, value] using hnot
      · have hsizes := isLE_sizes e f m n
        rw [← Canonical.size_le_iff hx hy] at hsizes
        simpa [UnpackedFloat.le, UnpackedFloat.compare, value] using hsizes
    | _ => cases hy
  | _ => cases hx

end FloatType

end BitCodec
