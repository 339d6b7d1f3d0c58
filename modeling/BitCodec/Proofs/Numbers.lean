import BitCodec.Ranged
import BitCodec.Proofs.BitString

/-!
# Numbers as byte strings

The arithmetic behind the codes of integers: which high bytes of a number carry
nothing, so that a reader can fill them in again, and how many bits the offset of a
value in its range needs.
-/

namespace BitCodec

namespace Octets

/-- Reading back gives the number without the bytes it had no room for. -/
theorem ofLe_le (count number : Nat) : ofLe (le count number) = number % 256 ^ count := by
  induction count generalizing number with
  | zero => simp [le, ofLe, Nat.mod_one]
  | succ count ih =>
    simp only [le, ofLe, ih, UInt8.toNat_ofNat']
    rw [show (256 : Nat) ^ (count + 1) = 256 * 256 ^ count from Nat.pow_succ', Nat.mod_mul]

theorem ofBe_be (count number : Nat) : ofBe (be count number) = number % 256 ^ count := by
  simp [ofBe, be, ofLe_le]

/-- A number of so many bits fits into bytes that hold as many. -/
theorem lt_pow_bytes {number bits count : Nat} (h : number < 2 ^ bits) (hbits : bits ≤ 8 * count) :
    number < 256 ^ count := by
  have hpow : (256 : Nat) ^ count = 2 ^ (8 * count) := by rw [Nat.pow_mul]
  rw [hpow]
  exact Nat.lt_of_lt_of_le h (Nat.pow_le_pow_right (by decide) hbits)

theorem take_le {count width : Nat} (h : count ≤ width) (number : Nat) :
    (le width number).take count = le count number := by
  induction count generalizing width number with
  | zero => rfl
  | succ count ih =>
    obtain ⟨width, rfl⟩ : ∃ rest, width = rest + 1 := ⟨width - 1, by omega⟩
    rw [le, List.take_succ_cons, ih (by omega), le]

theorem ofLe_append (low high : List UInt8) :
    ofLe (low ++ high) = ofLe low + 256 ^ low.length * ofLe high := by
  induction low with
  | nil => simp [ofLe]
  | cons byte rest ih =>
    simp only [List.cons_append, ofLe, ih, List.length_cons]
    grind

theorem ofLe_zeros (count : Nat) : ofLe (List.replicate count 0) = 0 := by
  induction count with
  | zero => rfl
  | succ count ih => simp [List.replicate_succ, ofLe, ih]

theorem ofLe_lt (bytes : List UInt8) : ofLe bytes < 256 ^ bytes.length := by
  have hback := ofLe_le bytes.length (ofLe bytes)
  rw [le_ofLe] at hback
  rw [hback]
  exact Nat.mod_lt _ (Nat.pow_pos (by decide))

theorem le_mod (count number : Nat) : le count (number % 256 ^ count) = le count number := by
  have hback := le_ofLe (le count number)
  rwa [length_le, ofLe_le] at hback

theorem ofLe_ones (count : Nat) : ofLe (List.replicate count 0xFF) = 256 ^ count - 1 := by
  induction count with
  | zero => rfl
  | succ count ih =>
    have hpos : 0 < 256 ^ count := Nat.pow_pos (by decide)
    have hbyte : (0xFF : UInt8).toNat = 255 := rfl
    rw [List.replicate_succ, ofLe, ih, hbyte, Nat.pow_succ]
    omega

end Octets

/-! ## Bits that carry something -/

namespace IntType

theorem two_pow_bits (t : IntType) : 2 ^ t.bits = 256 ^ t.bytes := by
  rw [bits, Nat.pow_mul]

@[simp] theorem ofLe_toLe (t : IntType) (value : t.Value) : t.ofLe (t.toLe value) = value := by
  apply BitVec.eq_of_toNat_eq
  simp [ofLe, toLe, Octets.ofLe_le, ← two_pow_bits]

theorem toLe_ofLe {t : IntType} {bytes : List UInt8} (h : bytes.length = t.bytes) :
    t.toLe (t.ofLe bytes) = bytes := by
  have hlt := Octets.ofLe_lt bytes
  have hback := Octets.le_ofLe bytes
  rw [h] at hlt hback
  rw [toLe, ofLe, BitVec.toNat_ofNat, two_pow_bits, Nat.mod_eq_of_lt hlt, hback]

@[simp] theorem ofBe_toBe (t : IntType) (value : t.Value) : t.ofBe (t.toBe value) = value := by
  apply BitVec.eq_of_toNat_eq
  simp [ofBe, toBe, Octets.ofBe_be, ← two_pow_bits]

theorem significantBits_le {number count : Nat} (h : number < 2 ^ count) :
    significantBits number ≤ count := by
  unfold significantBits
  split
  · exact Nat.zero_le _
  · next hzero => exact (Nat.log2_lt hzero).mpr h

theorem lt_significantBits (number : Nat) : number < 2 ^ significantBits number := by
  unfold significantBits
  split
  · next hzero => omega
  · exact Nat.lt_log2_self

theorem significantBits_value_le (t : IntType) (value : t.Value) :
    significantBits value.toNat ≤ t.bits :=
  significantBits_le value.isLt

theorem lt_leadingZeros (t : IntType) (value : t.Value) :
    value.toNat < 2 ^ (t.bits - t.leadingZeros value) := by
  have hle := t.significantBits_value_le value
  have heq : t.bits - t.leadingZeros value = significantBits value.toNat := by
    unfold leadingZeros
    omega
  rw [heq]
  exact lt_significantBits _

theorem ofInt_toInt (t : IntType) (value : t.Value) :
    BitVec.ofInt t.bits (t.toInt value) = value := by
  unfold toInt
  split
  · exact BitVec.ofInt_toInt
  · apply BitVec.eq_of_toNat_eq
    simp

theorem toInt_eq (t : IntType) (value : t.Value) :
    t.toInt value = if t.signed ∧ 2 ^ t.bits ≤ 2 * value.toNat
      then (value.toNat : Int) - (2 ^ t.bits : Nat) else value.toNat := by
  unfold toInt
  cases t.signed with
  | false => simp
  | true =>
    simp only [if_true, true_and, BitVec.toInt_eq_toNat_cond]
    split
    · rw [if_neg (by omega)]
    · rw [if_pos (by omega)]

/-- What lies between two numbers of a type is a number of the type. -/
theorem toInt_ofInt {t : IntType} {low high : t.Value} {number : Int}
    (hlow : t.toInt low ≤ number) (hhigh : number ≤ t.toInt high) :
    t.toInt (BitVec.ofInt t.bits number) = number := by
  have hl := low.isLt
  have hh := high.isLt
  unfold toInt at hlow hhigh ⊢
  cases hsigned : t.signed with
  | false =>
    simp only [hsigned, Bool.false_eq_true, if_false] at hlow hhigh ⊢
    rw [BitVec.toNat_ofInt, Int.emod_eq_of_lt (by omega) (by omega)]
    omega
  | true =>
    simp only [hsigned, if_true] at hlow hhigh ⊢
    have hfirst := @BitVec.le_two_mul_toInt _ low
    have hlast := @BitVec.two_mul_toInt_lt _ high
    have hturn : ((2 ^ t.bits : Nat) : Int) = 2 ^ t.bits := by simp
    rw [BitVec.toInt_ofInt]
    apply Int.bmod_eq_of_le_mul_two <;> omega

/-- Numbers of one type are less than a whole turn apart. -/
theorem toInt_sub_lt (t : IntType) (low value : t.Value) :
    t.toInt value - t.toInt low < (2 ^ t.bits : Nat) := by
  have hlow := low.isLt
  have hvalue := value.isLt
  rw [toInt_eq, toInt_eq]
  cases t.signed with
  | false =>
    simp only [Bool.false_eq_true, false_and, if_false]
    omega
  | true =>
    simp only [true_and]
    split <;> split <;> omega

theorem ofInt_sub (t : IntType) (low value : t.Value) :
    BitVec.ofInt t.bits (t.toInt value - t.toInt low) = value - low := by
  have hsum := BitVec.ofInt_add (n := t.bits) (t.toInt value - t.toInt low) (t.toInt low)
  rw [Int.sub_add_cancel, ofInt_toInt, ofInt_toInt] at hsum
  exact (BitVec.sub_eq_iff_eq_add.mpr hsum).symm

/-- A difference between numbers of one type that is not negative is not
wrapped. -/
theorem toNat_sub {t : IntType} {low value : t.Value} (h : t.toInt low ≤ t.toInt value) :
    ((value - low).toNat : Int) = t.toInt value - t.toInt low := by
  have hlt := t.toInt_sub_lt low value
  rw [← ofInt_sub, BitVec.toNat_ofInt, Int.emod_eq_of_lt (by omega) hlt]
  omega

end IntType

theorem IntRange.bytesOfBits_le {t : IntType} (r : IntRange t) : bytesOfBits r.bits ≤ t.bytes := by
  unfold IntRange.bits widthBetween IntType.bits bytesOfBits
  omega

/-! ## Low bits of low bytes -/

namespace Bits

theorem inByte_ofNat_small {number count place : Nat} (hnumber : number < 2 ^ count)
    (hp : place < 8) (habove : place < 8 - count) : inByte (UInt8.ofNat number) place = false := by
  have hsmall : number < 2 ^ (7 - place) :=
    Nat.lt_of_lt_of_le hnumber (Nat.pow_le_pow_right (by decide) (by omega))
  rw [inByte_ofNat number hp]
  exact Nat.testBit_lt_two_pow hsmall

/-- A number of less than eight bits is the byte that its low bits make. -/
theorem byteOf_low {number count : Nat} (hcount : count ≤ 8) (hnumber : number < 2 ^ count) :
    byteOf true ((ofByte (UInt8.ofNat number)).drop (8 - count)) = UInt8.ofNat number := by
  have hlen : ((ofByte (UInt8.ofNat number)).drop (8 - count)).length = count := by
    rw [List.length_drop, length_ofByte]
    omega
  apply byte_ext
  intro place hp
  rw [inByte_byteOf_right (by omega), hlen]
  by_cases hplace : 8 - count ≤ place
  · have hback : 8 - count + (place - (8 - count)) = place := by omega
    simp [ofByte, hplace, hback, hp]
  · have hzero := inByte_ofNat_small hnumber hp (by omega)
    simp [hplace, hzero]

/-- Of a number that fits into so many bits, those bits are all there is to its low
bytes. -/
theorem packed_taken_le {width count number : Nat} (hwidth : bytesOfBits count ≤ width)
    (hnumber : number < 2 ^ count) :
    packed true (taken (Octets.le width number) count true) =
      Octets.le (bytesOfBits count) number := by
  induction hcount : count using Nat.strongRecOn generalizing count width number with
  | ind n ih =>
    subst hcount
    by_cases hzero : count = 0
    · subst hzero
      simp [bytesOfBits, Octets.le]
    obtain ⟨width, rfl⟩ : ∃ rest, width = rest + 1 := by
      unfold bytesOfBits at hwidth
      exact ⟨width - 1, by omega⟩
    by_cases h8 : 8 ≤ count
    · -- A whole byte, and the rest of the number behind it.
      obtain ⟨rest, rfl⟩ : ∃ rest, count = rest + 8 := ⟨count - 8, by omega⟩
      have hbytes : bytesOfBits (rest + 8) = bytesOfBits rest + 1 := by
        unfold bytesOfBits
        omega
      have hnext : number / 256 < 2 ^ rest := by
        rw [Nat.pow_add] at hnumber
        omega
      have hroom : bytesOfBits rest ≤ width := by omega
      have htail := ih rest (by omega) hroom hnext rfl
      have htake : (ofByte (UInt8.ofNat number) ++
          taken (Octets.le width (number / 256)) rest true).take 8 = ofByte (UInt8.ofNat number) :=
        List.take_left' (length_ofByte _)
      have hdrop : (ofByte (UInt8.ofNat number) ++
          taken (Octets.le width (number / 256)) rest true).drop 8 =
            taken (Octets.le width (number / 256)) rest true :=
        List.drop_left' (length_ofByte _)
      rw [Octets.le, taken, if_pos h8, Nat.add_sub_cancel, packed_byte true (by simp), htake, hdrop,
        htail, byteOf_ofByte, hbytes, Octets.le]
    · -- The partial byte at the end of the bits.
      have hbytes : bytesOfBits count = 1 := by
        unfold bytesOfBits
        omega
      have hpart : taken (Octets.le (width + 1) number) count true =
          (ofByte (UInt8.ofNat number)).drop (8 - count) := by
        rw [Octets.le, taken, if_neg h8, if_pos rfl]
      have hlen : ((ofByte (UInt8.ofNat number)).drop (8 - count)).length = count := by
        rw [List.length_drop, length_ofByte]
        omega
      rw [hpart, packed_part true (by omega) (by omega), hbytes, byteOf_low (by omega) hnumber]
      rfl

end Bits

/-! ## The sign of a byte string -/

namespace Mini

def signByte (negative : Bool) : UInt8 :=
  if negative then 0xFF else 0

theorem signBit_eq (byte : UInt8) : signBit byte = decide (128 ≤ byte.toNat) := by
  have hfirst : 0 < 8 := by decide
  have hplace := Bits.and_mask_ne_zero byte hfirst
  have hmsb : byte.toBitVec.msb = decide (128 ≤ byte.toNat) := BitVec.msb_eq_decide _
  rw [← hmsb]
  exact hplace

/-- The sign of a byte string is the highest bit of the number. -/
theorem sign_eq (bytes : List UInt8) :
    bytes.getLast?.any signBit = decide (256 ^ bytes.length ≤ 2 * Octets.ofLe bytes) := by
  induction bytes with
  | nil => rfl
  | cons byte rest ih =>
    have hbyte := byte.toNat_lt
    cases rest with
    | nil =>
      simp [signBit_eq, Octets.ofLe]
      omega
    | cons next rest =>
      rw [List.getLast?_cons_cons, ih]
      have hpow : 256 ^ (next :: rest).length = 2 * (128 * 256 ^ rest.length) := by
        rw [List.length_cons, Nat.pow_succ]
        omega
      have hlong : 256 ^ (byte :: next :: rest).length = 256 * (2 * (128 * 256 ^ rest.length)) := by
        rw [List.length_cons, Nat.pow_succ, hpow, Nat.mul_comm]
      have hofLe : Octets.ofLe (byte :: next :: rest) =
          byte.toNat + 256 * Octets.ofLe (next :: rest) := rfl
      rw [hlong, hpow, hofLe]
      apply decide_eq_decide.mpr
      omega

/-- What is dropped repeats the sign, and the sign can still be told from what is
left. -/
theorem dropSign_spec (negative : Bool) (be : List UInt8) (h : be.head?.any signBit = negative) :
    ∃ dropped, be = List.replicate dropped (signByte negative) ++ dropSign negative be ∧
      (dropSign negative be).head?.any signBit = negative := by
  induction be with
  | nil => exact ⟨0, rfl, h⟩
  | cons high rest ih =>
    cases rest with
    | nil =>
      unfold dropSign
      split
      · next hzero =>
        obtain ⟨hbyte, hsign⟩ := hzero
        have hpositive : negative = false := by simpa using hsign
        subst hpositive hbyte
        exact ⟨1, rfl, rfl⟩
      · exact ⟨0, rfl, h⟩
    | cons next rest =>
      have hdrop : dropSign negative (high :: next :: rest) =
          if high = signByte negative ∧ signBit next = negative
            then dropSign negative (next :: rest) else high :: next :: rest := rfl
      rw [hdrop]
      -- A byte is dropped only when the next one still shows the sign.
      by_cases hrepeats : high = signByte negative ∧ signBit next = negative
      · obtain ⟨dropped, hsplit, hsign⟩ := ih (by simpa using hrepeats.2)
        rw [if_pos hrepeats]
        refine ⟨dropped + 1, ?_, hsign⟩
        rw [List.replicate_succ, List.cons_append, ← hsplit, hrepeats.1]
      · rw [if_neg hrepeats]
        exact ⟨0, rfl, h⟩

/-- Dropping the bytes that repeat the sign and filling them in again gives the byte
string back. -/
theorem extendSign_signedBytes (le : List UInt8) :
    extendSign le.length (signedBytes le) = le ∧ (signedBytes le).length ≤ le.length := by
  have hsign : le.reverse.head?.any signBit = le.getLast?.any signBit := by
    rw [List.head?_reverse]
  obtain ⟨dropped, hsplit, hkept⟩ := dropSign_spec _ le.reverse hsign
  have hlen := congrArg List.length hsplit
  simp only [List.length_reverse, List.length_append, List.length_replicate] at hlen
  have hback := congrArg List.reverse hsplit
  rw [List.reverse_reverse, List.reverse_append, List.reverse_replicate] at hback
  refine ⟨?_, ?_⟩
  · unfold extendSign signedBytes
    rw [List.getLast?_reverse, hkept, List.length_reverse]
    have hcount : le.length - (dropSign (le.getLast?.any signBit) le.reverse).length = dropped := by
      omega
    rw [hcount]
    exact hback.symm
  · simp only [signedBytes, List.length_reverse]
    omega

/-- What is left of a string still shows its sign, so it is no longer than any other that
does. -/
theorem length_dropSign_le (negative : Bool) (count : Nat) (rest : List UInt8)
    (h : rest.head?.any signBit = negative) :
    (dropSign negative (List.replicate count (signByte negative) ++ rest)).length ≤
      rest.length := by
  induction count with
  | zero =>
    obtain ⟨dropped, hsplit, -⟩ := dropSign_spec negative rest h
    have hlen := congrArg List.length hsplit
    rw [List.length_append] at hlen
    exact Nat.le_of_add_left_le (Nat.le_of_eq hlen.symm)
  | succ count ih =>
    have hfirst : (List.replicate count (signByte negative) ++ rest).head?.any signBit =
        negative := by
      cases count with
      | zero => exact h
      | succ count => cases negative <;> rfl
    rw [List.replicate_succ, List.cons_append]
    cases htail : List.replicate count (signByte negative) ++ rest with
    | nil =>
      have hpositive : negative = false := by
        rw [htail] at hfirst
        exact hfirst.symm
      subst hpositive
      exact Nat.zero_le _
    | cons next more =>
      rw [htail] at hfirst ih
      have hnext : signBit next = negative := hfirst
      have hdrop : dropSign negative (signByte negative :: next :: more) =
          if signByte negative = signByte negative ∧ signBit next = negative
            then dropSign negative (next :: more) else signByte negative :: next :: more := rfl
      rw [hdrop, if_pos ⟨rfl, hnext⟩]
      exact ih

/-- No shorter string is filled up with its sign to the same bytes. -/
theorem length_signedBytes_le (width : Nat) (bytes : List UInt8) :
    (signedBytes (extendSign width bytes)).length ≤ bytes.length := by
  have hfill : (if bytes.getLast?.any signBit then 0xFF else 0) =
      signByte (bytes.getLast?.any signBit) := rfl
  have hrest : bytes.reverse.head?.any signBit = bytes.getLast?.any signBit := by
    rw [List.head?_reverse]
  have hsign : (extendSign width bytes).getLast?.any signBit = bytes.getLast?.any signBit := by
    rw [extendSign, hfill]
    cases width - bytes.length with
    | zero => rw [List.replicate_zero, List.append_nil]
    | succ count =>
      rw [List.replicate_succ', ← List.append_assoc, List.getLast?_concat]
      cases bytes.getLast?.any signBit <;> rfl
  have hdrop := length_dropSign_le _ (width - bytes.length) bytes.reverse hrest
  unfold signedBytes
  rw [hsign, List.length_reverse, extendSign, hfill, List.reverse_append, List.reverse_replicate]
  rwa [List.length_reverse] at hdrop

end Mini

end BitCodec
