import Mathlib.Order.Bounds.Defs
import BitCodec.Proofs.Packets

/-!
# Mini codes are the shortest

An integer can be sent with more bytes than it needs, and the reader takes that.  The strings
that it takes for a value are one for each number of low bytes whose extension, by zeros or by
the sign, is the value, and every byte makes a string longer.  The writer sends the least
number of bytes, so its string is the only shortest one.

The two forms differ only in how a byte string is extended to the width of the type, and
everything is said of both at once.
-/

namespace BitCodec

open Decoder Code

/-! ## Accepted strings -/

/-- Somewhere the reader takes exactly this string for the value. -/
def Accepts {α : Type} (body : Decoder α) (a : α) (bits : List Bool) : Prop :=
  ∃ (p : Payload) (pos : Nat) (rest : List Bool), p.Sound ∧ pos ≤ p.bits ∧
    p.string.drop pos = bits ++ rest ∧ body p pos = ⟨.value a, pos + bits.length, []⟩

namespace Accepts

variable {α : Type} {body : Decoder α} {a : α} {bits : List Bool}

theorem spelt {spells : α → List Bool → Prop} (h : Accepts body a bits)
    (hbody : Canonical body spells) : spells a bits := by
  obtain ⟨p, pos, rest, hp, hpos, hstring, hrun⟩ := h
  obtain ⟨taken, left, hsplit, hstate, htaken⟩ := hbody hp hpos (congrArg Trace.ending hrun)
  rw [hrun] at hstate
  have hlen : bits.length = taken.length := by
    simp only at hstate
    omega
  have hsame : bits = taken := List.append_inj_left (hstring.symm.trans hsplit) hlen
  rwa [hsame]

/-- What is written and taken everywhere is accepted. -/
theorem of_takes {writer : Encoder Unit} (hwriter : Emits writer () (fixed bits))
    (hbody : Takes body a (fixed bits)) : Accepts body a bits := by
  obtain ⟨s, effects, -, hgrown, hread⟩ := hwriter.comes_back hbody (Stream.withRoom_sound 0)
  have hend := hgrown.write_eq
  have hstring : s.payload.string = bits := by
    rw [Stream.payload_string, hgrown.string_eq]
    rfl
  refine ⟨s.payload, 0, [], hgrown.sound.payload, Nat.zero_le _, ?_, ?_⟩
  · rw [hstring, List.drop_zero, List.append_nil]
  · rw [hend] at hread
    exact hread

end Accepts

/-! ## Marked bytes -/

namespace Mini

theorem length_markedBits {width : Nat} {bytes : List UInt8} (h : bytes.length ≤ width) :
    (markedBits width bytes).length =
      9 * bytes.length + if bytes.length < width then 1 else 0 := by
  induction bytes generalizing width with
  | nil => by_cases hwidth : 0 < width <;> simp [markedBits, hwidth]
  | cons byte rest ih =>
    simp only [List.length_cons] at h ⊢
    have hfits : rest.length ≤ width - 1 := by omega
    have hrest := ih hfits
    rw [markedBits, List.length_cons, List.length_append, Bits.length_ofByte, hrest]
    split <;> split <;> omega

/-- The closing bit is never worth more than a byte. -/
theorem markedBits_lt {width : Nat} {short long : List UInt8} (hlong : long.length ≤ width)
    (h : short.length < long.length) :
    (markedBits width short).length < (markedBits width long).length := by
  rw [length_markedBits hlong, length_markedBits (by omega)]
  split <;> split <;> omega

theorem readByte_run {p : Payload} {pos : Nat} (hp : p.Sound) (hpos : pos ≤ p.bits) :
    readBits [0] 8 true p pos =
      if 8 ≤ p.bits - pos then
        ⟨.value [Bits.byteOf true (Bits.slice p.data pos 8)], pos + 8, []⟩
      else short p pos 8 := by
  have hroom : bytesOfBits 8 ≤ ([0] : List UInt8).length := by decide
  have hpacked : Bits.packed true (Bits.slice p.data pos 8) =
      [Bits.byteOf true (Bits.slice p.data pos 8)] :=
    Bits.packed_part true (by simp) (by simp)
  rw [readBits_run true hp hpos hroom, hpacked]
  rfl

theorem readByte_canonical :
    Canonical (readBits [0] 8 true) fun bytes bits =>
      ∃ byte, bytes = [byte] ∧ bits = Bits.ofByte byte := by
  refine (Canonical.of_taking fun hp hpos => readByte_run hp hpos).mono ?_
  rintro bytes bits ⟨hlen, p, pos, rfl, hbits⟩
  have hbyte := Bits.ofByte_byteOf true (Nat.le_of_eq hlen)
  rw [if_pos rfl, hlen] at hbyte
  rw [← hbits]
  exact ⟨Bits.byteOf true bits, rfl, hbyte.symm⟩

theorem readMarked_canonical (width : Nat) :
    Canonical (readMarked width) fun bytes bits =>
      bytes.length ≤ width ∧ bits = markedBits width bytes := by
  induction width with
  | zero =>
    refine (Canonical.pure []).mono ?_
    rintro bytes bits ⟨rfl, rfl⟩
    exact ⟨Nat.le_refl 0, rfl⟩
  | succ width ih =>
    refine Prim.readBit_canonical.completed fun marked => ?_
    refine Canonical.ite (fun hmarked => ?_) fun hclosed => ?_
    · refine (readByte_canonical.bind fun first => ih.map (first ++ ·)).mono ?_
      rintro bytes bits ⟨_, _, _, ⟨byte, rfl, rfl⟩, ⟨rest, rfl, hlen, rfl⟩, rfl⟩ mark rfl
      rw [hmarked]
      exact ⟨Nat.succ_le_succ hlen, rfl⟩
    · refine (Canonical.pure []).mono ?_
      rintro bytes bits ⟨rfl, rfl⟩ mark rfl
      rw [Bool.eq_false_iff.mpr hclosed]
      exact ⟨Nat.zero_le _, rfl⟩

/-- Reading marked bytes ends after at most `width` of them, with those bytes or where the
payload is short of a mark or of a byte. -/
theorem readMarked_ends (width : Nat) {p : Payload} {pos : Nat} (hp : p.Sound)
    (hpos : pos ≤ p.bits) :
    (∃ bytes, bytes.length ≤ width ∧ readMarked width p pos =
        ⟨.value bytes, pos + (9 * bytes.length + if bytes.length < width then 1 else 0), []⟩) ∨
      ∃ count < width, readMarked width p pos = short p (pos + 9 * count) 1 ∨
        readMarked width p pos = short p (pos + 9 * count + 1) 8 := by
  induction width generalizing pos with
  | zero => exact .inl ⟨[], Nat.le_refl 0, rfl⟩
  | succ width ih =>
    have hmark := readBit_run hp hpos
    unfold readMarked
    by_cases hleft : ¬1 ≤ p.bits - pos
    · rw [if_neg hleft] at hmark
      exact .inr ⟨0, Nat.succ_pos width, .inl (bind_short hmark)⟩
    rw [if_pos (by omega)] at hmark
    rw [bind_value hmark]
    cases Bits.bitAt p.data pos with
    | false => exact .inl ⟨[], Nat.zero_le _, rfl⟩
    | true =>
      have hbehind : pos + 1 ≤ p.bits := by omega
      have hbyte := readByte_run hp hbehind
      rw [if_pos rfl]
      by_cases hfull : ¬8 ≤ p.bits - (pos + 1)
      · rw [if_neg hfull] at hbyte
        exact .inr ⟨0, Nat.succ_pos width, .inr (bind_short hbyte)⟩
      rw [if_pos (by omega)] at hbyte
      rw [bind_value hbyte]
      have hrest : pos + 1 + 8 ≤ p.bits := by omega
      rcases ih hrest with ⟨bytes, hlen, hrun⟩ | ⟨count, hcount, hrun⟩
      · refine .inl ⟨Bits.byteOf true (Bits.slice p.data (pos + 1) 8) :: bytes,
          Nat.succ_le_succ hlen, ?_⟩
        have hend : pos + 1 + 8 + (9 * bytes.length + if bytes.length < width then 1 else 0) =
            pos + (9 * (bytes.length + 1) + if bytes.length + 1 < width + 1 then 1 else 0) := by
          simp only [Nat.add_lt_add_iff_right]
          omega
        rw [bind_value hrun, hend]
        rfl
      · have hmarkAt : pos + 1 + 8 + 9 * count = pos + 9 * (count + 1) := by omega
        rw [hmarkAt] at hrun
        exact .inr ⟨count + 1, Nat.succ_lt_succ hcount, hrun.imp bind_short bind_short⟩

/-! ## Extending a number to a wider type -/

/-- What the bytes that are not sent are: zero, or copies of the sign. -/
inductive Extension where
  | zeros
  | sign
  deriving DecidableEq, Repr

namespace Extension

/-- A narrow number at a width. -/
def widen (e : Extension) {narrow : Nat} (wide : Nat) (value : BitVec narrow) : BitVec wide :=
  match e with
  | zeros => value.setWidth wide
  | sign => value.signExtend wide

def write (e : Extension) (t : IntType) (value : t.Value) : Encoder Unit :=
  match e with
  | zeros => Mini.write (.int t) value
  | sign => writeSigned t value

def read (e : Extension) (t : IntType) : Decoder t.Value :=
  match e with
  | zeros => Mini.read (.int t)
  | sign => readSigned t

/-- The bytes that are sent for a value. -/
def sent (e : Extension) (t : IntType) (value : t.Value) : List UInt8 :=
  match e with
  | zeros => intBytes t value
  | sign => signedBytes (t.toLe value)

/-- The value that is made of the bytes that are sent. -/
def received (e : Extension) (t : IntType) (bytes : List UInt8) : t.Value :=
  match e with
  | zeros => t.ofLe bytes
  | sign => t.ofLe (extendSign t.bytes bytes)

def bits (e : Extension) (t : IntType) (value : t.Value) : List Bool :=
  markedBits t.bytes (e.sent t value)

/-- The low bytes of a value, so many of them, extend to the value. -/
def Suffice (e : Extension) (t : IntType) (value : t.Value) (count : Nat) : Prop :=
  e.widen t.bits (value.setWidth (8 * count)) = value

variable (e : Extension) (t : IntType) (value : t.Value)

theorem setWidth_widen {narrow wide : Nat} (h : narrow ≤ wide) (value : BitVec narrow) :
    (e.widen wide value).setWidth narrow = value := by
  apply BitVec.eq_of_getLsbD_eq
  intro i hi
  have hwide : i < wide := by omega
  cases e with
  | zeros => simp [widen, hi, hwide]
  | sign => simp [widen, BitVec.getElem_signExtend, hi, hwide]

theorem write_emits : Emits (e.write t value) () (fixed (e.bits t value)) := by
  cases e with
  | zeros => exact writeInt_emits t value
  | sign => exact writeSigned_emits t value

theorem read_takes : Takes (e.read t) value (fixed (e.bits t value)) := by
  cases e with
  | zeros => exact readInt_takes t value
  | sign => exact readSigned_takes t value

theorem length_sent_le : (e.sent t value).length ≤ t.bytes := by
  cases e with
  | zeros => exact length_intBytes_le t value
  | sign => exact (extendSign_toLe t value).2

theorem received_sent : e.received t (e.sent t value) = value := by
  cases e with
  | zeros => exact ofLe_intBytes t value
  | sign =>
    rw [received, sent, (extendSign_toLe t value).1, IntType.ofLe_toLe]

theorem read_eq :
    e.read t = readMarked t.bytes >>= fun bytes => pure (e.received t bytes) := by
  cases e <;> rfl

theorem read_canonical :
    Canonical (e.read t) fun value bits => ∃ bytes : List UInt8, bytes.length ≤ t.bytes ∧
      e.received t bytes = value ∧ bits = markedBits t.bytes bytes := by
  rw [read_eq]
  refine ((readMarked_canonical t.bytes).map (e.received t)).mono ?_
  rintro value bits ⟨bytes, hvalue, hlen, hbits⟩
  exact ⟨bytes, hlen, hvalue, hbits⟩

variable {e t value}

/-- The bytes are extended as the number that they make up is. -/
theorem received_eq {bytes : List UInt8} (h : bytes.length ≤ t.bytes) :
    e.received t bytes =
      e.widen t.bits (BitVec.ofNat (8 * bytes.length) (Octets.ofLe bytes)) := by
  have hlt := Octets.ofLe_lt bytes
  have hpow : 2 ^ (8 * bytes.length) = 256 ^ bytes.length := by rw [Nat.pow_mul]
  have hnumber : (BitVec.ofNat (8 * bytes.length) (Octets.ofLe bytes)).toNat =
      Octets.ofLe bytes := by
    rw [BitVec.toNat_ofNat, hpow, Nat.mod_eq_of_lt hlt]
  apply BitVec.eq_of_toNat_eq
  cases e with
  | zeros => rw [received, widen, IntType.ofLe, BitVec.toNat_ofNat, BitVec.toNat_setWidth, hnumber]
  | sign =>
    have hsign : (BitVec.ofNat (8 * bytes.length) (Octets.ofLe bytes)).msb =
        bytes.getLast?.any signBit := by
      rw [Bool.eq_iff_iff, sign_eq, BitVec.msb_eq_true_iff_two_mul_ge, hnumber, hpow,
        decide_eq_true_iff]
    have hwide : t.bits = 8 * bytes.length + 8 * (t.bytes - bytes.length) := by
      unfold IntType.bits
      omega
    have hrest : 2 ^ (8 * (t.bytes - bytes.length)) = 256 ^ (t.bytes - bytes.length) := by
      rw [Nat.pow_mul]
    rw [received, widen, BitVec.toNat_signExtend, hsign, BitVec.toNat_setWidth, hnumber,
      IntType.ofLe, extendSign, Octets.ofLe_append, BitVec.toNat_ofNat]
    cases bytes.getLast?.any signBit with
    | false => simp [Octets.ofLe_zeros]
    | true =>
      have hpos : 0 < 256 ^ (t.bytes - bytes.length) := Nat.pow_pos (by decide)
      simp only [if_true]
      rw [Octets.ofLe_ones, hwide, Nat.pow_add, hrest, hpow]
      generalize 256 ^ (t.bytes - bytes.length) = high at hpos ⊢
      have hle : 256 ^ bytes.length ≤ 256 ^ bytes.length * high := Nat.le_mul_of_pos_right _ hpos
      rw [Nat.mul_sub_one, Nat.mod_eq_of_lt (by omega), Nat.mod_eq_of_lt (by omega)]

/-- A value is received from its own low bytes, where they suffice, and from no others. -/
theorem received_eq_iff {bytes : List UInt8} (h : bytes.length ≤ t.bytes) :
    e.received t bytes = value ↔
      e.Suffice t value bytes.length ∧ bytes = (t.toLe value).take bytes.length := by
  have hpow : 2 ^ (8 * bytes.length) = 256 ^ bytes.length := by rw [Nat.pow_mul]
  have hwidth : 8 * bytes.length ≤ t.bits := by
    unfold IntType.bits
    omega
  have htake : (t.toLe value).take bytes.length = Octets.le bytes.length value.toNat :=
    Octets.take_le h value.toNat
  rw [received_eq h, htake]
  refine ⟨fun hvalue => ?_, fun ⟨hsuffice, hbytes⟩ => ?_⟩
  · have hlow : value.setWidth (8 * bytes.length) =
        BitVec.ofNat (8 * bytes.length) (Octets.ofLe bytes) := by
      rw [← hvalue, setWidth_widen e hwidth]
    have hnumber := congrArg BitVec.toNat hlow
    rw [BitVec.toNat_setWidth, BitVec.toNat_ofNat, hpow] at hnumber
    refine ⟨?_, ?_⟩
    · rw [Suffice, hlow, hvalue]
    · rw [← Octets.le_mod, hnumber, Octets.le_mod, Octets.le_ofLe]
  · have hnumber : Octets.ofLe bytes = value.toNat % 256 ^ bytes.length := by
      have hback := congrArg Octets.ofLe hbytes
      rwa [Octets.ofLe_le] at hback
    have hlow : BitVec.ofNat (8 * bytes.length) (Octets.ofLe bytes) =
        value.setWidth (8 * bytes.length) := by
      apply BitVec.eq_of_toNat_eq
      rw [BitVec.toNat_setWidth, BitVec.toNat_ofNat, hnumber, hpow, Nat.mod_mod]
    rw [hlow]
    exact hsuffice

end Extension

/-! ## The fewest bytes -/

theorem significantBytes_le_of_lt {t : IntType} {value : t.Value} {count : Nat}
    (h : value.toNat < 256 ^ count) : significantBytes t value ≤ count := by
  have hpow : 2 ^ (8 * count) = 256 ^ count := by rw [Nat.pow_mul]
  rw [← hpow] at h
  have hbits := IntType.significantBits_le h
  have htype := t.significantBits_value_le value
  unfold significantBytes IntType.leadingZeros IntType.bits at *
  omega

namespace Extension

variable {e : Extension} {t : IntType} {value : t.Value}

theorem received_take {count : Nat} (hcount : count ≤ t.bytes) (h : e.Suffice t value count) :
    e.received t ((t.toLe value).take count) = value := by
  have hlen : ((t.toLe value).take count).length = count := by
    rw [List.length_take, IntType.toLe, Octets.length_le]
    omega
  rw [received_eq_iff (by omega), hlen]
  exact ⟨h, rfl⟩

/-- The writer sends the least number of bytes that suffice. -/
theorem sent_isLeast (e : Extension) (t : IntType) (value : t.Value) :
    IsLeast {count | e.Suffice t value count} (e.sent t value).length := by
  have hsent := length_sent_le e t value
  refine ⟨((received_eq_iff hsent).mp (received_sent e t value)).1, fun count hcount => ?_⟩
  change e.Suffice t value count at hcount
  by_cases hwide : t.bytes ≤ count
  · omega
  cases e with
  | zeros =>
    have hnumber := congrArg BitVec.toNat hcount
    have hsmall : value.toNat % 2 ^ (8 * count) < 2 ^ (8 * count) :=
      Nat.mod_lt _ (Nat.two_pow_pos _)
    have hpow : 2 ^ (8 * count) = 256 ^ count := by rw [Nat.pow_mul]
    rw [widen, BitVec.toNat_setWidth, BitVec.toNat_setWidth] at hnumber
    have hle := Nat.mod_le (value.toNat % 2 ^ (8 * count)) (2 ^ t.bits)
    have hneeded : significantBytes t value ≤ count := significantBytes_le_of_lt (by omega)
    rw [sent, intBytes, List.length_take]
    omega
  | sign =>
    have hlen : ((t.toLe value).take count).length = count := by
      rw [List.length_take, IntType.toLe, Octets.length_le]
      omega
    have hfilled : (extendSign t.bytes ((t.toLe value).take count)).length = t.bytes := by
      rw [extendSign, List.length_append, List.length_replicate]
      omega
    have hreceived := congrArg t.toLe (received_take (by omega) hcount)
    rw [received, IntType.toLe_ofLe hfilled] at hreceived
    have hshort := length_signedBytes_le t.bytes ((t.toLe value).take count)
    rwa [hreceived, hlen] at hshort

/-- Only zero needs no byte. -/
theorem suffice_zero_iff (e : Extension) (t : IntType) (value : t.Value) :
    e.Suffice t value 0 ↔ value = 0 := by
  have hnone : value.setWidth (8 * 0) = 0#(8 * 0) := BitVec.eq_of_toNat_eq (by simp [Nat.mod_one])
  have hwiden : e.widen t.bits (0#(8 * 0)) = 0 := by
    cases e with
    | zeros => simp [widen]
    | sign => simp [widen, BitVec.signExtend_eq_setWidth_of_msb_false]
  rw [Suffice, hnone, hwiden]
  exact eq_comm

/-! ## The shortest string -/

theorem length_bits (e : Extension) (t : IntType) (value : t.Value) :
    (e.bits t value).length = 9 * (e.sent t value).length +
      if (e.sent t value).length < t.bytes then 1 else 0 :=
  length_markedBits (length_sent_le e t value)

theorem accepts_bits (e : Extension) (t : IntType) (value : t.Value) :
    Accepts (e.read t) value (e.bits t value) :=
  Accepts.of_takes (write_emits e t value) (read_takes e t value)

/-- Any other string sends more bytes. -/
theorem bits_shortest {bits : List Bool} (h : Accepts (e.read t) value bits)
    (hother : bits ≠ e.bits t value) : (e.bits t value).length < bits.length := by
  obtain ⟨bytes, hlen, hreceived, rfl⟩ := h.spelt (read_canonical e t)
  obtain ⟨hsuffice, hbytes⟩ := (received_eq_iff hlen).mp hreceived
  obtain ⟨-, hown⟩ := (received_eq_iff (length_sent_le e t value)).mp (received_sent e t value)
  have hleast := (sent_isLeast e t value).2 hsuffice
  have hlonger : (e.sent t value).length ≠ bytes.length := by
    intro hsame
    apply hother
    rw [bits, hown, hsame, ← hbytes]
  exact markedBits_lt hlen (by omega)

theorem bits_le {bits : List Bool} (h : Accepts (e.read t) value bits) :
    (e.bits t value).length ≤ bits.length := by
  by_cases hown : bits = e.bits t value
  · exact Nat.le_of_eq (congrArg List.length hown).symm
  · exact Nat.le_of_lt (bits_shortest h hown)

/-- What is taken on the way to a value is a string that is accepted for it. -/
theorem accepts_taken {p : Payload} {pos stop : Nat} (hp : p.Sound) (hpos : pos ≤ p.bits)
    (hrun : e.read t p pos = ⟨.value value, stop, []⟩) :
    Accepts (e.read t) value ((p.string.drop pos).take (stop - pos)) ∧
      ((p.string.drop pos).take (stop - pos)).length = stop - pos := by
  obtain ⟨bits, rest, hstring, hstate, -⟩ :=
    read_canonical e t hp hpos (congrArg Trace.ending hrun)
  rw [hrun] at hstate
  have hstop : stop - pos = bits.length := by
    simp only at hstate
    omega
  rw [hstring, hstop, List.take_left]
  refine ⟨⟨p, pos, rest, hp, hpos, hstring, ?_⟩, rfl⟩
  rw [hrun, ← hstate]

/-- Sent again a value takes the bits that it was read from exactly when no shorter string
is accepted for it. -/
theorem bits_eq_iff {bits : List Bool} (h : Accepts (e.read t) value bits) :
    e.bits t value = bits ↔
      ∀ other, Accepts (e.read t) value other → bits.length ≤ other.length := by
  refine ⟨fun hown other hother => ?_, fun hshortest => ?_⟩
  · rw [← hown]
    exact bits_le hother
  · by_cases hown : bits = e.bits t value
    · exact hown.symm
    · have hlonger := bits_shortest h hown
      have hshort := hshortest _ (accepts_bits e t value)
      omega

theorem read_ends (e : Extension) (t : IntType) {p : Payload} {pos : Nat} (hp : p.Sound)
    (hpos : pos ≤ p.bits) :
    (∃ value, ∃ count ≤ t.bytes, e.read t p pos =
        ⟨.value value, pos + (9 * count + if count < t.bytes then 1 else 0), []⟩) ∨
      ∃ count < t.bytes, e.read t p pos = short p (pos + 9 * count) 1 ∨
        e.read t p pos = short p (pos + 9 * count + 1) 8 := by
  rw [read_eq]
  rcases readMarked_ends t.bytes hp hpos with ⟨bytes, hlen, hrun⟩ | ⟨count, hcount, hrun⟩
  · exact .inl ⟨e.received t bytes, bytes.length, hlen, bind_value hrun⟩
  · exact .inr ⟨count, hcount, hrun.imp bind_short bind_short⟩

end Extension

/-- For every integer type, with the bytes that are left out filled in with zeros or with the
sign:

* The writer emits a string that the reader takes for the value.  It sends the least number of
  low bytes that extend to the value, none for zero only, and nine bits for each with a closing
  bit unless they are all.  Every other string that the reader accepts for the value is longer.
* So a value that was read, from whatever string, takes no more bits when it is sent again, and
  it takes the same ones exactly when no shorter string is accepted for it.
* The reader ends in front of every payload, after as many bytes as the type has at most, with
  a value or where a mark or a byte falls short. -/
theorem codes_shortest (e : Extension) (t : IntType) :
    (∀ value : t.Value,
      Emits (e.write t value) () (fixed (e.bits t value)) ∧
      Takes (e.read t) value (fixed (e.bits t value)) ∧
      (∃ count,
        IsLeast {k | e.widen t.bits (value.setWidth (8 * k)) = value} count ∧
        (count = 0 ↔ value = 0) ∧
        (e.bits t value).length = 9 * count + if count < t.bytes then 1 else 0) ∧
      Accepts (e.read t) value (e.bits t value) ∧
      ∀ bits, Accepts (e.read t) value bits → bits ≠ e.bits t value →
        (e.bits t value).length < bits.length) ∧
    ∀ (p : Payload) (pos : Nat), p.Sound → pos ≤ p.bits →
      (∀ value stop, e.read t p pos = ⟨.value value, stop, []⟩ →
        (e.bits t value).length ≤ stop - pos ∧
        (e.bits t value = (p.string.drop pos).take (stop - pos) ↔
          ∀ other, Accepts (e.read t) value other → stop - pos ≤ other.length)) ∧
      ((∃ value, ∃ count ≤ t.bytes, e.read t p pos =
          ⟨.value value, pos + (9 * count + if count < t.bytes then 1 else 0), []⟩) ∨
        ∃ count < t.bytes, e.read t p pos = short p (pos + 9 * count) 1 ∨
          e.read t p pos = short p (pos + 9 * count + 1) 8) := by
  refine ⟨fun value => ?_, fun p pos hp hpos => ⟨fun value stop hrun => ?_, ?_⟩⟩
  · have hleast := Extension.sent_isLeast e t value
    refine ⟨Extension.write_emits e t value, Extension.read_takes e t value,
      ⟨_, hleast, ?_, Extension.length_bits e t value⟩, Extension.accepts_bits e t value,
      fun bits => Extension.bits_shortest⟩
    rw [← Extension.suffice_zero_iff e t value]
    refine ⟨fun hzero => hzero ▸ hleast.1, fun hsuffice => ?_⟩
    exact Nat.le_zero.mp (hleast.2 hsuffice)
  · obtain ⟨haccepts, hlen⟩ := Extension.accepts_taken hp hpos hrun
    have hle := Extension.bits_le haccepts
    have hiff := Extension.bits_eq_iff haccepts
    rw [hlen] at hle hiff
    exact ⟨hle, hiff⟩
  · exact Extension.read_ends e t hp hpos

/-- A second byte that only repeats the sign of -128 is accepted, so it is read from eighteen
bits.  Ten are enough, and it is sent again as those. -/
theorem codes_shortest_overlong :
    Extension.sign.read .i16 (Payload.ofBytes [0xC0, 0x7F, 0xC0]) 0 =
        ⟨.value 0xFF80#16, 18, []⟩ ∧
      (Extension.sign.bits .i16 0xFF80#16).length = 10 ∧
      Accepts (Extension.sign.read .i16) 0xFF80#16 (Extension.sign.bits .i16 0xFF80#16) ∧
      Extension.sign.bits .i16 0xFF80#16 ≠
        ((Payload.ofBytes [0xC0, 0x7F, 0xC0]).string.drop 0).take (18 - 0) := by
  have hrun : Extension.sign.read .i16 (Payload.ofBytes [0xC0, 0x7F, 0xC0]) 0 =
      ⟨.value 0xFF80#16, 18, []⟩ := rfl
  have hten : (Extension.sign.bits .i16 0xFF80#16).length = 10 := rfl
  obtain ⟨hcodes, hreads⟩ := codes_shortest .sign .i16
  obtain ⟨-, -, -, haccepts, -⟩ := hcodes 0xFF80#16
  obtain ⟨hagain, -⟩ := hreads (Payload.ofBytes [0xC0, 0x7F, 0xC0]) 0
    (Payload.ofBytes_sound _) (Nat.zero_le _)
  obtain ⟨-, hsame⟩ := hagain _ _ hrun
  refine ⟨hrun, hten, haccepts, fun heq => ?_⟩
  have hshortest := hsame.mp heq _ haccepts
  omega

end Mini

end BitCodec
