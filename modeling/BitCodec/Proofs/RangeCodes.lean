import Mathlib.Order.Bounds.Defs
import BitCodec.Proofs.Codes

/-!
# Ranges have the narrowest codes

The code of a value in a range is its offset from the lower bound, in as many bits as the
widest offset needs.  The offset is computed and added back in arithmetic that wraps, and
compared as a number of the type, signed or not.  None of this shows: as whole numbers, the
offset that a string of bits carries is accepted exactly when it does not go beyond the upper
bound, and the value is the lower bound plus the offset.  So codes of the full width and
values in the range match one to one, and an offset that is left over is refused.
-/

namespace BitCodec

/-! ## Offsets as strings of bits -/

namespace Bits

/-- The low bits of a number, so many of them: byte by byte, the lowest byte first, and the
bits that do not make up a byte behind them. -/
def ofOffset : Nat → Nat → List Bool
  | width + 8, number => ofNumber 8 number ++ ofOffset width (number / 256)
  | width, number => ofNumber width number

/-- The number that a string of bits carries: byte by byte, the lowest byte first, and on top
the number that the bits behind the last whole byte stand for. -/
def toOffset : List Bool → Nat
  | a :: b :: c :: d :: e :: f :: g :: h :: rest =>
    toNumber [a, b, c, d, e, f, g, h] + 256 * toOffset rest
  | bits => toNumber bits

theorem ofOffset_byte (width number : Nat) :
    ofOffset (width + 8) number = ofNumber 8 number ++ ofOffset width (number / 256) := rfl

theorem ofOffset_part {width : Nat} (h : width < 8) (number : Nat) :
    ofOffset width number = ofNumber width number := by
  unfold ofOffset
  split
  · omega
  · rfl

theorem toOffset_byte {byte : List Bool} (h : byte.length = 8) (rest : List Bool) :
    toOffset (byte ++ rest) = toNumber byte + 256 * toOffset rest := by
  match byte, h with
  | [_, _, _, _, _, _, _, _], _ => rfl

theorem toOffset_part {bits : List Bool} (h : bits.length < 8) : toOffset bits = toNumber bits := by
  unfold toOffset
  split
  · simp only [List.length_cons] at h
    omega
  · rfl

/-- Strings of bits, eight at a time. -/
theorem bytewise {motive : List Bool → Prop} (part : ∀ bits, bits.length < 8 → motive bits)
    (byte : ∀ byte rest, byte.length = 8 → motive rest → motive (byte ++ rest))
    (bits : List Bool) : motive bits := by
  induction hlen : bits.length using Nat.strongRecOn generalizing bits with
  | ind n ih =>
    by_cases hshort : bits.length < 8
    · exact part bits hshort
    · have hfirst : (bits.take 8).length = 8 := by
        rw [List.length_take]
        omega
      have hrest : (bits.drop 8).length < n := by
        rw [List.length_drop]
        omega
      rw [← List.take_append_drop 8 bits]
      exact byte _ _ hfirst (ih _ hrest _ rfl)

@[simp] theorem length_ofOffset (width number : Nat) : (ofOffset width number).length = width := by
  induction width using Nat.strongRecOn generalizing number with
  | ind width ih =>
    by_cases hwidth : width < 8
    · rw [ofOffset_part hwidth, length_ofNumber]
    · obtain ⟨rest, rfl⟩ : ∃ rest, width = rest + 8 := ⟨width - 8, by omega⟩
      rw [ofOffset_byte, List.length_append, length_ofNumber, ih rest (by omega)]
      omega

theorem toOffset_lt (bits : List Bool) : toOffset bits < 2 ^ bits.length := by
  induction bits using bytewise with
  | part bits hlen =>
    rw [toOffset_part hlen]
    exact toNumber_lt bits
  | byte byte rest hbyte ih =>
    have hfirst := toNumber_lt byte
    rw [hbyte] at hfirst
    rw [toOffset_byte hbyte, List.length_append, hbyte, Nat.pow_add]
    omega

theorem toOffset_ofOffset {width number : Nat} (h : number < 2 ^ width) :
    toOffset (ofOffset width number) = number := by
  induction width using Nat.strongRecOn generalizing number with
  | ind width ih =>
    by_cases hwidth : width < 8
    · rw [ofOffset_part hwidth, toOffset_part (by simpa using hwidth), toNumber_ofNumber,
        Nat.mod_eq_of_lt h]
    · obtain ⟨rest, rfl⟩ : ∃ rest, width = rest + 8 := ⟨width - 8, by omega⟩
      have hhigh : number / 256 < 2 ^ rest := by
        rw [Nat.pow_add] at h
        omega
      rw [ofOffset_byte, toOffset_byte (by simp), toNumber_ofNumber, ih rest (by omega) hhigh]
      omega

theorem ofOffset_toOffset (bits : List Bool) : ofOffset bits.length (toOffset bits) = bits := by
  induction bits using bytewise with
  | part bits hlen => rw [ofOffset_part hlen, toOffset_part hlen, ofNumber_toNumber]
  | byte byte rest hbyte ih =>
    have hfirst := toNumber_lt byte
    rw [hbyte] at hfirst
    have hback := ofNumber_toNumber byte
    rw [hbyte] at hback
    have hlow : ofNumber 8 (toNumber byte + 256 * toOffset rest) = byte := by
      have hsame : UInt8.ofNat (toNumber byte + 256 * toOffset rest) =
          UInt8.ofNat (toNumber byte) := by
        apply UInt8.toNat_inj.mp
        simp only [UInt8.toNat_ofNat']
        omega
      rw [← ofByte_ofNat, hsame, ofByte_ofNat, hback]
    have hhigh : (toNumber byte + 256 * toOffset rest) / 256 = toOffset rest := by omega
    rw [toOffset_byte hbyte, List.length_append, hbyte, Nat.add_comm 8, ofOffset_byte, hlow, hhigh,
      ih]

/-- The bits that are taken off the bytes of a number, lowest byte first, are those of the
number. -/
theorem taken_le {width count : Nat} (h : bytesOfBits count ≤ width) (number : Nat) :
    taken (Octets.le width number) count true = ofOffset count number := by
  induction width generalizing count number with
  | zero =>
    have hzero : count = 0 := by
      unfold bytesOfBits at h
      omega
    subst hzero
    rw [taken_zero, ofOffset_part (by decide)]
    rfl
  | succ width ih =>
    rw [Octets.le, taken]
    by_cases hcount : 8 ≤ count
    · obtain ⟨rest, rfl⟩ : ∃ rest, count = rest + 8 := ⟨count - 8, by omega⟩
      have hroom : bytesOfBits rest ≤ width := by
        unfold bytesOfBits at h ⊢
        omega
      rw [if_pos hcount, Nat.add_sub_cancel, ih hroom, ofOffset_byte, ofByte_ofNat]
    · have hsplit := ofNumber_add (8 - count) count number
      have hlen : 8 - count + count = 8 := by omega
      rw [hlen] at hsplit
      rw [if_neg hcount, if_pos rfl, ofByte_ofNat, hsplit, ofOffset_part (by omega)]
      exact List.drop_left' (length_ofNumber _ _)

/-- Packed into bytes, the lowest first, a string of bits is the number that it carries. -/
theorem ofLe_packed (bits : List Bool) : Octets.ofLe (packed true bits) = toOffset bits := by
  have hnumber := toOffset_lt bits
  have hbits : bits =
      taken (Octets.le (bytesOfBits bits.length) (toOffset bits)) bits.length true := by
    rw [taken_le (Nat.le_refl _), ofOffset_toOffset]
  have hsmall : toOffset bits < 256 ^ bytesOfBits bits.length := by
    refine Octets.lt_pow_bytes hnumber ?_
    unfold bytesOfBits
    omega
  have hpacked := packed_taken_le (Nat.le_refl (bytesOfBits bits.length)) hnumber
  rw [← hbits] at hpacked
  rw [hpacked, Octets.ofLe_le, Nat.mod_eq_of_lt hsmall]

end Bits

namespace IntRange

variable {t : IntType}

/-! ## The values of a range -/

/-- The value lies between the bounds, as a number. -/
def Covers (r : IntRange t) (value : t.Value) : Prop :=
  t.toInt r.min ≤ t.toInt value ∧ t.toInt value ≤ t.toInt r.max

/-- How far apart the bounds are. -/
def span (r : IntRange t) : Nat :=
  (t.toInt r.max - t.toInt r.min).toNat

/-- How far a value is from the lower bound. -/
def offset (r : IntRange t) (value : t.Value) : Nat :=
  (t.toInt value - t.toInt r.min).toNat

/-- What is so far from the lower bound, in the wrapping arithmetic of the type. -/
def behind (r : IntRange t) (distance : Nat) : t.Value :=
  BitVec.ofNat t.bits distance + r.min

variable (r : IntRange t)

theorem contains_iff {value : t.Value} : r.contains value = true ↔ r.Covers value := by
  simp [contains, Covers, IntType.le]

theorem span_eq : (r.span : Int) = t.toInt r.max - t.toInt r.min := by
  have := r.ordered
  unfold span
  omega

theorem span_lt : r.span < 2 ^ t.bits := by
  have hlt := t.toInt_sub_lt r.min r.max
  have hspan := r.span_eq
  omega

variable {r} {value : t.Value}

theorem Covers.offset_eq (h : r.Covers value) :
    (r.offset value : Int) = t.toInt value - t.toInt r.min := by
  have := h.1
  unfold offset
  omega

theorem Covers.offset_le (h : r.Covers value) : r.offset value ≤ r.span := by
  have hoffset := h.offset_eq
  have hspan := r.span_eq
  have := h.2
  omega

theorem Covers.toNat_sub (h : r.Covers value) : (value - r.min).toNat = r.offset value := by
  have hsub := IntType.toNat_sub h.1
  have hoffset := h.offset_eq
  omega

/-- Up to the upper bound nothing wraps. -/
theorem toInt_behind {distance : Nat} (h : distance ≤ r.span) :
    t.toInt (r.behind distance) = t.toInt r.min + distance := by
  have hspan := r.span_eq
  have hsum : r.behind distance = BitVec.ofInt t.bits (t.toInt r.min + distance) := by
    rw [behind, BitVec.ofInt_add, IntType.ofInt_toInt, BitVec.ofInt_natCast, BitVec.add_comm]
  rw [hsum]
  have hlow : t.toInt r.min ≤ t.toInt r.min + distance := by omega
  have hhigh : t.toInt r.min + distance ≤ t.toInt r.max := by omega
  exact IntType.toInt_ofInt hlow hhigh

/-- An offset that wraps past the upper bound does not come back into the range. -/
theorem covers_behind_iff {distance : Nat} (h : distance < 2 ^ t.bits) :
    r.Covers (r.behind distance) ↔ distance ≤ r.span := by
  refine ⟨fun hcovers => ?_, fun hle => ?_⟩
  · have hback : r.behind distance - r.min = BitVec.ofNat t.bits distance :=
      BitVec.add_sub_cancel _ _
    have hoffset := hcovers.toNat_sub
    have hle := hcovers.offset_le
    rw [hback, BitVec.toNat_ofNat, Nat.mod_eq_of_lt h] at hoffset
    omega
  · have hnumber := toInt_behind hle
    have hspan := r.span_eq
    refine ⟨?_, ?_⟩ <;> omega

theorem behind_offset (h : r.Covers value) : r.behind (r.offset value) = value := by
  rw [behind, ← h.toNat_sub, BitVec.ofNat_toNat, BitVec.setWidth_eq, BitVec.sub_add_cancel]

/-- An offset that stands for a value in the range is the offset of the value. -/
theorem offset_behind {distance : Nat} (h : distance ≤ r.span) :
    r.offset (r.behind distance) = distance := by
  have hnumber := toInt_behind h
  unfold offset
  omega

/-! ## Their codes -/

theorem bits_eq (r : IntRange t) : r.bits = IntType.significantBits r.span := by
  have hspan : (r.max - r.min).toNat = r.span := by
    have hsub := IntType.toNat_sub r.ordered
    have hspan := r.span_eq
    omega
  have hle := t.significantBits_value_le (r.max - r.min)
  unfold bits widthBetween IntType.leadingZeros
  rw [← hspan]
  omega

/-- The width is the least that has a code for every offset. -/
theorem bits_le_iff (r : IntRange t) {width : Nat} : r.bits ≤ width ↔ r.span < 2 ^ width := by
  rw [bits_eq]
  refine ⟨fun hle => ?_, IntType.significantBits_le⟩
  exact Nat.lt_of_lt_of_le (IntType.lt_significantBits r.span)
    (Nat.pow_le_pow_right (by decide) hle)

theorem bits_le (r : IntRange t) : r.bits ≤ t.bits :=
  r.bits_le_iff.mpr r.span_lt

/-- The code of a value in the range: its offset, in as many bits as the range needs. -/
def code (r : IntRange t) (value : t.Value) : List Bool :=
  Bits.ofOffset r.bits (r.offset value)

@[simp] theorem length_code (r : IntRange t) (value : t.Value) : (r.code value).length = r.bits :=
  Bits.length_ofOffset _ _

theorem toOffset_code (h : r.Covers value) : Bits.toOffset (r.code value) = r.offset value := by
  have hspan := r.bits_le_iff.mp (Nat.le_refl r.bits)
  have hoffset := h.offset_le
  exact Bits.toOffset_ofOffset (by omega)

theorem offsetBits_eq (h : r.Covers value) : r.offsetBits value = r.code value := by
  rw [offsetBits, IntType.toLe, Bits.taken_le r.bytesOfBits_le, h.toNat_sub, code]

/-- A string of the full width is the code of a value exactly when it carries its offset. -/
theorem eq_code_iff (h : r.Covers value) {bits : List Bool} (hlen : bits.length = r.bits) :
    bits = r.code value ↔ Bits.toOffset bits = r.offset value := by
  refine ⟨fun heq => ?_, fun hoffset => ?_⟩
  · rw [heq, toOffset_code h]
  · rw [code, ← hoffset, ← hlen, Bits.ofOffset_toOffset]

theorem covers_behind_toOffset {bits : List Bool} (hlen : bits.length = r.bits) :
    r.Covers (r.behind (Bits.toOffset bits)) ↔ Bits.toOffset bits ≤ r.span := by
  have hbits := Bits.toOffset_lt bits
  rw [hlen] at hbits
  exact covers_behind_iff (Nat.lt_of_lt_of_le hbits (Nat.pow_le_pow_right (by decide) r.bits_le))

/-- A string of the full width is accepted when the offset that it carries stays within the
range, and is taken off the payload in any case. -/
theorem readOffset_run {p : Payload} {pos : Nat} {bits rest : List Bool} (hp : p.Sound)
    (hpos : pos ≤ p.bits) (hstring : p.string.drop pos = bits ++ rest)
    (hlen : bits.length = r.bits) :
    r.readOffset p pos =
      if Bits.toOffset bits ≤ r.span then
        ⟨.value (r.behind (Bits.toOffset bits)), pos + r.bits, []⟩
      else ⟨.failed (r.outOfRange (r.behind (Bits.toOffset bits))), pos + r.bits,
        [.valueRejected]⟩ := by
  have hroom : bytesOfBits bits.length ≤ (List.replicate t.bytes (0 : UInt8)).length := by
    rw [hlen, List.length_replicate]
    exact r.bytesOfBits_le
  have hread := Takes.readBits true hroom hp hpos hstring
  rw [hlen, Code.fixed, hlen] at hread
  have hoffset : t.ofLe (Bits.packed true bits ++
      (List.replicate t.bytes 0).drop (bytesOfBits r.bits)) =
        BitVec.ofNat t.bits (Bits.toOffset bits) := by
    rw [IntType.ofLe, Octets.ofLe_append, List.drop_replicate, Octets.ofLe_zeros, Nat.mul_zero,
      Nat.add_zero, Bits.ofLe_packed]
  have hinside := (contains_iff r).trans (covers_behind_toOffset hlen)
  unfold readOffset
  rw [Decoder.bind_value hread, hoffset]
  change (if r.contains (r.behind (Bits.toOffset bits)) = true then _ else _ :
    Decoder t.Value) p _ = _
  by_cases hle : Bits.toOffset bits ≤ r.span
  · rw [if_pos hle, if_pos (hinside.mpr hle)]
    rfl
  · rw [if_neg hle, if_neg fun h => hle (hinside.mp h)]
    rfl

theorem readOffset_short {p : Payload} {pos : Nat} (hp : p.Sound) (hpos : pos ≤ p.bits)
    (hleft : p.bits - pos < r.bits) : r.readOffset p pos = Decoder.short p pos r.bits := by
  have hroom : bytesOfBits r.bits ≤ (List.replicate t.bytes (0 : UInt8)).length := by
    rw [List.length_replicate]
    exact r.bytesOfBits_le
  have hread := Decoder.readBits_run true hp hpos hroom
  rw [if_neg (by omega)] at hread
  exact Decoder.bind_short hread

/-! ## Writing and reading -/

theorem bits_isLeast (r : IntRange t) :
    IsLeast {width : Nat | t.toInt r.max - t.toInt r.min < (2 ^ width : Nat)} r.bits := by
  have hspan := r.span_eq
  refine ⟨?_, fun width hwidth => ?_⟩
  · have hlt := r.bits_le_iff.mp (Nat.le_refl r.bits)
    change t.toInt r.max - t.toInt r.min < (2 ^ r.bits : Nat)
    omega
  · change t.toInt r.max - t.toInt r.min < (2 ^ width : Nat) at hwidth
    exact r.bits_le_iff.mpr (by omega)

theorem wireBits_false (h : r.Covers value) : r.wireBits value false = r.code value := by
  rw [wireBits, if_pos ((contains_iff r).mpr h), offsetBits_eq h]
  rfl

theorem wireBits_true (h : r.Covers value) : r.wireBits value true = false :: r.code value := by
  have hinside := (contains_iff r).mpr h
  rw [wireBits, if_pos hinside, offsetBits_eq h, hinside]
  rfl

theorem write_covered (h : r.Covers value) :
    Emits (r.write value false) () (.fixed (r.code value)) := by
  rw [← wireBits_false h]
  exact write_emits (.inr ((contains_iff r).mpr h))

theorem write_uncovered (h : ¬r.Covers value) (s : Stream) :
    r.write value false s = ⟨.failed (r.outOfRange value), s, []⟩ := by
  have houtside : r.contains value = false := by
    rwa [← Bool.not_eq_true, contains_iff]
  unfold IntRange.write
  rw [houtside]
  rfl

/-- In front of a string of the full width the reading is told by the offset that it carries. -/
theorem read_run {p : Payload} {pos : Nat} {bits rest : List Bool} (hp : p.Sound)
    (hpos : pos ≤ p.bits) (hstring : p.string.drop pos = bits ++ rest)
    (hlen : bits.length = r.bits) :
    (Bits.toOffset bits ≤ t.toInt r.max - t.toInt r.min → ∃ value : t.Value,
        r.read false p pos = ⟨.value value, pos + r.bits, []⟩ ∧
          t.toInt value = t.toInt r.min + Bits.toOffset bits) ∧
      (t.toInt r.max - t.toInt r.min < Bits.toOffset bits → ∃ value : t.Value,
        r.read false p pos = ⟨.failed (r.outOfRange value), pos + r.bits, [.valueRejected]⟩) := by
  have hrun := readOffset_run (r := r) hp hpos hstring hlen
  have hspan := r.span_eq
  refine ⟨fun hle => ?_, fun hlt => ?_⟩
  · have hinside : Bits.toOffset bits ≤ r.span := by omega
    rw [if_pos hinside] at hrun
    exact ⟨_, hrun, toInt_behind hinside⟩
  · rw [if_neg (by omega)] at hrun
    exact ⟨_, hrun⟩

/-- A value is read exactly where its code stands. -/
theorem read_value_iff {p : Payload} {pos : Nat} {bits rest : List Bool} (hp : p.Sound)
    (hpos : pos ≤ p.bits) (hstring : p.string.drop pos = bits ++ rest)
    (hlen : bits.length = r.bits) :
    (r.read false p pos).ending = .value value ↔ r.Covers value ∧ bits = r.code value := by
  have hrun : r.read false p pos = _ := readOffset_run hp hpos hstring hlen
  rw [hrun]
  refine ⟨fun hend => ?_, fun ⟨hcovers, hcode⟩ => ?_⟩
  · split at hend
    · next hle =>
      cases hend
      have hcovers := (covers_behind_toOffset hlen).mpr hle
      exact ⟨hcovers, (eq_code_iff hcovers hlen).mpr (offset_behind hle).symm⟩
    · cases hend
  · have hoffset := (eq_code_iff hcovers hlen).mp hcode
    rw [hoffset, if_pos hcovers.offset_le, behind_offset hcovers]

end IntRange

/-! ## The result -/

namespace Ranged

variable {t : IntType} {min max : t.Value}

/-- What is said about bounds in the wrong order. -/
def disordered (t : IntType) (min max : t.Value) : Failure :=
  .invalidRange s!"range maximum is below its minimum: [{t.text min}, {t.text max}]"

theorem between_disordered (h : t.toInt max < t.toInt min) :
    IntRange.between t min max = .error (disordered t min max) :=
  dif_neg (by omega)

theorem write_disordered (h : t.toInt max < t.toInt min) (value : t.Value) (escape : Bool)
    (s : Stream) :
    Ranged.write t value min max escape s = ⟨.failed (disordered t min max), s, []⟩ := by
  rw [Ranged.write, between_disordered h]
  rfl

theorem read_disordered (h : t.toInt max < t.toInt min) (escape : Bool) (p : Payload) (pos : Nat) :
    Ranged.read t min max escape p pos = ⟨.failed (disordered t min max), pos, []⟩ := by
  rw [Ranged.read, between_disordered h]
  rfl

/-- Of every integer type and every two numbers of it:

* Bounds in order are a range.  Its width is the least whose codes are enough for it.  A value
  in the range is written as its offset in exactly that width, any other is refused and
  nothing is written.
* From every string of that width the offset that it carries decides: up to the distance of
  the bounds it is added to the lower bound as a whole number, beyond it is refused.  So a
  value is read exactly in front of its code, and there is one for each value of the range
  only.  Fewer bits than the width are a short payload.
* Behind an escape bit a value of the range takes one bit more, and every value of the type is
  written and comes back.
* The calls that take the bounds do what those do that take the range.
* Bounds in the wrong order are refused by each of them, and nothing is written or read. -/
theorem codes_exact (t : IntType) (min max : t.Value) :
    (∀ h : t.toInt min ≤ t.toInt max,
      let r : IntRange t := ⟨min, max, h⟩
      IsLeast {width : Nat | t.toInt max - t.toInt min < (2 ^ width : Nat)} r.bits ∧
      (∀ value, r.Covers value →
        Emits (r.write value false) () (.fixed (r.code value)) ∧
          (r.code value).length = r.bits ∧
          Bits.toOffset (r.code value) = t.toInt value - t.toInt min) ∧
      (∀ value, ¬r.Covers value → ∀ s : Stream,
        r.write value false s = ⟨.failed (r.outOfRange value), s, []⟩) ∧
      (∀ (p : Payload) (pos : Nat), p.Sound → pos ≤ p.bits →
        (∀ bits rest, p.string.drop pos = bits ++ rest → bits.length = r.bits →
          (Bits.toOffset bits ≤ t.toInt max - t.toInt min → ∃ value : t.Value,
            r.read false p pos = ⟨.value value, pos + r.bits, []⟩ ∧
              t.toInt value = t.toInt min + Bits.toOffset bits) ∧
          (t.toInt max - t.toInt min < Bits.toOffset bits → ∃ value : t.Value,
            r.read false p pos =
              ⟨.failed (r.outOfRange value), pos + r.bits, [.valueRejected]⟩) ∧
          (∀ value, (r.read false p pos).ending = .value value ↔
            r.Covers value ∧ bits = r.code value)) ∧
        (p.bits - pos < r.bits → r.read false p pos = Decoder.short p pos r.bits)) ∧
      (∀ value, r.Covers value → r.wireBits value true = false :: r.code value) ∧
      (∀ value, Emits (r.write value true) () (.fixed (r.wireBits value true)) ∧
        Takes (r.read true) value (.fixed (r.wireBits value true))) ∧
      (∀ escape, Ranged.read t min max escape = r.read escape ∧
        ∀ value, Ranged.write t value min max escape = r.write value escape)) ∧
    (t.toInt max < t.toInt min →
      IntRange.between t min max = .error (disordered t min max) ∧
      ∀ escape : Bool,
        (∀ (value : t.Value) (s : Stream), Ranged.write t value min max escape s =
          ⟨.failed (disordered t min max), s, []⟩) ∧
        ∀ (p : Payload) (pos : Nat), Ranged.read t min max escape p pos =
          ⟨.failed (disordered t min max), pos, []⟩) := by
  refine ⟨fun h => ?_, fun h => ?_⟩
  · intro r
    have hbetween : IntRange.between t min max = .ok r := between_ok h
    refine ⟨r.bits_isLeast, ?_, ?_, ?_, ?_, ?_, ?_⟩
    · intro value hcovers
      refine ⟨IntRange.write_covered hcovers, r.length_code value, ?_⟩
      rw [IntRange.toOffset_code hcovers]
      exact hcovers.offset_eq
    · intro value hcovers s
      exact IntRange.write_uncovered hcovers s
    · intro p pos hp hpos
      refine ⟨fun bits rest hstring hlen => ?_, IntRange.readOffset_short hp hpos⟩
      obtain ⟨hvalue, hsurplus⟩ := IntRange.read_run (r := r) hp hpos hstring hlen
      exact ⟨hvalue, hsurplus, fun value => IntRange.read_value_iff hp hpos hstring hlen⟩
    · intro value hcovers
      exact IntRange.wireBits_true hcovers
    · intro value
      exact ⟨IntRange.write_emits (.inl rfl), IntRange.read_takes (.inl rfl)⟩
    · intro escape
      unfold Ranged.read Ranged.write
      rw [hbetween]
      exact ⟨rfl, fun _ => rfl⟩
  · exact ⟨between_disordered h, fun escape =>
      ⟨fun value s => write_disordered h value escape s,
        fun p pos => read_disordered h escape p pos⟩⟩

/-- From -100 to 100 the offsets of signed bytes take eight bits and wrap.  The last of them
is 200, and the next one, which would be 101, is refused; so are the bounds the other way
around. -/
theorem codes_exact_signed :
    (∃ value : IntType.i8.Value,
      Ranged.read .i8 156#8 100#8 false (Payload.ofBytes [200]) 0 = ⟨.value value, 8, []⟩ ∧
        IntType.i8.toInt value = 100) ∧
    (∃ e, Ranged.read .i8 156#8 100#8 false (Payload.ofBytes [201]) 0 =
      ⟨.failed e, 8, [.valueRejected]⟩) ∧
    Ranged.read .i8 100#8 156#8 false (Payload.ofBytes [200]) 0 =
      ⟨.failed (disordered .i8 100#8 156#8), 0, []⟩ := by
  have hordered : IntType.i8.toInt 156#8 ≤ IntType.i8.toInt 100#8 := by decide
  have hwidth : IntRange.bits (⟨156#8, 100#8, hordered⟩ : IntRange .i8) = 8 := by
    change widthBetween .i8 156#8 100#8 = 8
    decide +kernel
  obtain ⟨-, -, -, hread, -, -, hsame⟩ := (codes_exact .i8 156#8 100#8).1 hordered
  rw [hwidth] at hread
  have hlast := (hread (Payload.ofBytes [200]) 0 (Payload.ofBytes_sound _) (Nat.zero_le _)).1
    (Bits.ofByte 200) [] rfl rfl
  have hnext := (hread (Payload.ofBytes [201]) 0 (Payload.ofBytes_sound _) (Nat.zero_le _)).1
    (Bits.ofByte 201) [] rfl rfl
  rw [(hsame false).1]
  refine ⟨hlast.1 (by decide), ?_, ?_⟩
  · obtain ⟨value, hrun⟩ := hnext.2.1 (by decide)
    exact ⟨_, hrun⟩
  · exact (((codes_exact .i8 100#8 156#8).2 (by decide)).2 false).2 _ 0

end Ranged

end BitCodec
