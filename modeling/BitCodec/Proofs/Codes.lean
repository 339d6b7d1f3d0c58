import BitCodec.Block
import BitCodec.Codec
import BitCodec.Proofs.Numbers
import BitCodec.Proofs.Wire

/-!
# The codes of values

For every codec without loss the bits it puts on the wire, and the two halves of its
round trip: the writer emits them, and the reader takes them for the value.  An address
is taken for its octets and its port.
-/

namespace BitCodec

open Code

/-! ## What arrives -/

namespace SocketAddress

/-- What an address tells its receiver: the same octets and port in no flow and no scope. -/
def unscoped (a : SocketAddress) : SocketAddress :=
  new a.ip a.port

/-- The address fe80::1 on the seventh interface, with port 443. -/
def linkLocal : SocketAddress :=
  v6 0xfe800000000000000000000000000001#128 443 0 7

theorem unscoped_linkLocal_ne : linkLocal.unscoped ≠ linkLocal := by
  decide

end SocketAddress

/-- What arrives of a value whose code loses no bit of it. -/
def Prim.arrived : (t : Prim) → t.Value → t.Value
  | .int _, value => value
  | .bool, bit => bit
  | .float _, value => value
  | .u24, value => value
  | .address, a => a.unscoped

theorem Prim.arrived_eq {t : Prim} (h : t ≠ .address) (value : t.Value) :
    t.arrived value = value := by
  cases t with
  | address => exact absurd rfl h
  | _ => rfl

theorem Prim.arrived_of_direct {t : Prim} (h : t.direct = true) (value : t.Value) :
    t.arrived value = value := by
  cases t with
  | bool => rfl
  | _ => cases h

/-! ## The fixed form -/

namespace Prim

theorem writePattern_emits (count : Nat) {width : Nat} (value : BitVec width) :
    Emits (writePattern count value) () (fixed (Bits.ofNumber (8 * count) value.toNat)) := by
  have hlen : (Octets.be count value.toNat).length = count := Octets.length_be _ _
  have hemits := Emits.writeBytes (Octets.be count value.toNat)
  rwa [hlen, Bits.ofBytes_be] at hemits

theorem readPattern_takes (count : Nat) {width : Nat} (hwidth : width = 8 * count)
    (value : BitVec width) :
    Takes (readPattern count width) value (fixed (Bits.ofNumber (8 * count) value.toNat)) := by
  have hlen : (Bits.ofNumber (8 * count) value.toNat).length = 8 * count := Bits.length_ofNumber _ _
  have hbytes : bytesOfBits (8 * count) = count := by
    unfold bytesOfBits
    omega
  have hroom : bytesOfBits (Bits.ofNumber (8 * count) value.toNat).length ≤
      (List.replicate count (0 : UInt8)).length := by
    rw [hlen, hbytes]
    exact Nat.le_of_eq List.length_replicate.symm
  have hread := Takes.readBits true hroom
  have hfull : (List.replicate count (0 : UInt8)).length ≤ count :=
    Nat.le_of_eq List.length_replicate
  rw [hlen, hbytes, List.drop_of_length_le hfull, List.append_nil] at hread
  have hvalue : BitVec.ofNat width
      (Octets.ofBe (Bits.packed true (Bits.ofNumber (8 * count) value.toNat))) = value := by
    rw [Bits.ofBe_packed true (by simp [hlen]), Bits.toNumber_ofNumber, ← hwidth]
    simp
  have hmap := hread.map fun bytes => BitVec.ofNat width (Octets.ofBe bytes)
  rwa [hvalue] at hmap

def addressBits : SocketAddress → List Bool
  | .v4 octets port => Bits.ofNumber 8 v4Tag ++
    (Bits.ofNumber 32 (~~~octets).toNat ++ Bits.ofNumber 16 port.toNat)
  | .v6 octets port _ _ => Bits.ofNumber 8 v6Tag ++
    (Bits.ofNumber 128 octets.toNat ++ Bits.ofNumber 16 port.toNat)

def wireBits : (t : Prim) → t.Value → List Bool
  | .int t, value => Bits.ofNumber t.bits value.toNat
  | .bool, bit => [bit]
  | .float t, value => Bits.ofNumber t.bits value.toNat
  | .u24, value => Bits.ofNumber 24 value.toNat
  | .address, a => addressBits a

theorem writeAddress_emits (a : SocketAddress) :
    Emits (writeAddress a) () (fixed (addressBits a)) := by
  have hport : Emits (writePattern 2 a.port) () (fixed (Bits.ofNumber 16 a.port.toNat)) :=
    writePattern_emits 2 a.port
  cases a with
  | v4 octets port =>
    have htag : Emits (writePattern 1 (BitVec.ofNat 8 v4Tag)) ()
        (fixed (Bits.ofNumber 8 v4Tag)) := writePattern_emits 1 _
    have hoctets : Emits (writePattern 4 (~~~octets)) ()
        (fixed (Bits.ofNumber 32 (~~~octets).toNat)) := writePattern_emits 4 _
    rw [addressBits, ← fixed_followedBy_fixed, ← fixed_followedBy_fixed]
    exact htag.bind (hoctets.bind hport)
  | v6 octets port flow scope =>
    have htag : Emits (writePattern 1 (BitVec.ofNat 8 v6Tag)) ()
        (fixed (Bits.ofNumber 8 v6Tag)) := writePattern_emits 1 _
    have hoctets : Emits (writePattern 16 octets) ()
        (fixed (Bits.ofNumber 128 octets.toNat)) := writePattern_emits 16 _
    rw [addressBits, ← fixed_followedBy_fixed, ← fixed_followedBy_fixed]
    exact htag.bind (hoctets.bind hport)

theorem readAddress_takes (a : SocketAddress) :
    Takes readAddress a.unscoped (fixed (addressBits a)) := by
  have hport : Takes (readPattern 2 16) a.port (fixed (Bits.ofNumber 16 a.port.toNat)) :=
    readPattern_takes 2 rfl a.port
  refine Takes.rewinding ?_
  cases a with
  | v4 octets port =>
    have htag : Takes (readPattern 1 8) (BitVec.ofNat 8 v4Tag) (fixed (Bits.ofNumber 8 v4Tag)) :=
      readPattern_takes 1 rfl (BitVec.ofNat 8 v4Tag)
    have hoctets : Takes (readPattern 4 32) (~~~octets)
        (fixed (Bits.ofNumber 32 (~~~octets).toNat)) := readPattern_takes 4 rfl (~~~octets)
    rw [addressBits, ← fixed_followedBy_fixed, ← fixed_followedBy_fixed]
    refine htag.bind ?_
    have hfamily : (BitVec.ofNat 8 v4Tag).toNat = v4Tag := rfl
    dsimp only
    rw [if_pos hfamily]
    refine hoctets.bind ?_
    have hback : ~~~(~~~octets) = octets := BitVec.not_not
    rw [hback]
    exact hport.map (SocketAddress.new (.v4 octets))
  | v6 octets port flow scope =>
    have htag : Takes (readPattern 1 8) (BitVec.ofNat 8 v6Tag) (fixed (Bits.ofNumber 8 v6Tag)) :=
      readPattern_takes 1 rfl (BitVec.ofNat 8 v6Tag)
    have hoctets : Takes (readPattern 16 128) octets
        (fixed (Bits.ofNumber 128 octets.toNat)) := readPattern_takes 16 rfl octets
    rw [addressBits, ← fixed_followedBy_fixed, ← fixed_followedBy_fixed]
    refine htag.bind ?_
    have hother : ¬(BitVec.ofNat 8 v6Tag).toNat = v4Tag := by decide
    have hfamily : (BitVec.ofNat 8 v6Tag).toNat = v6Tag := rfl
    dsimp only
    rw [if_neg hother, if_pos hfamily]
    refine hoctets.bind ?_
    exact hport.map (SocketAddress.new (.v6 octets))

theorem write_emits (t : Prim) (value : t.Value) :
    Emits (t.write value) () (fixed (wireBits t value)) := by
  cases t with
  | int t => exact writePattern_emits t.bytes value
  | bool => exact Emits.writeBit value
  | float t => exact writePattern_emits t.bytes value
  | u24 => exact writePattern_emits 3 value
  | address => exact writeAddress_emits value

theorem read_takes (t : Prim) (value : t.Value) :
    Takes t.read (t.arrived value) (fixed (wireBits t value)) := by
  cases t with
  | int t => exact readPattern_takes t.bytes rfl value
  | bool => exact Takes.readBit value
  | float t => exact readPattern_takes t.bytes rfl value
  | u24 => exact readPattern_takes 3 rfl value
  | address => exact readAddress_takes value

end Prim

/-! ## Casts -/

namespace IntType

/-- The wire type has a value for the same number. -/
def Fits (wire t : IntType) (value : t.Value) : Prop :=
  ∃ narrowed : wire.Value, wire.toInt narrowed = t.toInt value

def castBits (wire t : IntType) (value : t.Value) : List Bool :=
  Prim.wireBits (.int wire) (BitVec.ofInt wire.bits (t.toInt value))

theorem writeCasted_emits {wire t : IntType} {value : t.Value} (h : Fits wire t value) :
    Emits (writeCasted wire t value) () (fixed (castBits wire t value)) := by
  obtain ⟨narrowed, hnumber⟩ := h
  unfold writeCasted castBits
  rw [← hnumber, ofInt?_toInt, ofInt_toInt]
  exact Prim.write_emits (.int wire) narrowed

theorem readCasted_takes {wire t : IntType} {value : t.Value} (h : Fits wire t value) :
    Takes (readCasted wire t) value (fixed (castBits wire t value)) := by
  obtain ⟨narrowed, hnumber⟩ := h
  have hread : Takes (Prim.read (.int wire)) narrowed
      (fixed (Prim.wireBits (.int wire) narrowed)) := Prim.read_takes (.int wire) narrowed
  unfold readCasted castBits
  rw [← hnumber, ofInt_toInt, ← followedBy_none (fixed _)]
  refine hread.bind ?_
  rw [hnumber, ofInt?_toInt]
  exact Takes.pure value

end IntType

/-! ## Mini codes -/

namespace Mini

/-- Bytes behind one bits, and a closing zero bit when they are fewer than
`width`. -/
def markedBits (width : Nat) : List UInt8 → List Bool
  | [] => if 0 < width then [false] else []
  | byte :: rest => true :: (Bits.ofByte byte ++ markedBits (width - 1) rest)

theorem sendMarked_emits (bytes : List UInt8) :
    Emits (sendMarked bytes) () (fixed (bytes.flatMap fun byte => true :: Bits.ofByte byte)) := by
  induction bytes with
  | nil => exact Emits.pure ()
  | cons byte rest ih =>
    have hbyte : Emits (Stream.writeBits [byte] 8 true) () (fixed (Bits.ofByte byte)) := by
      have hemits := Emits.writeBytes [byte]
      rwa [Bits.ofBytes_cons, Bits.ofBytes_nil, List.append_nil] at hemits
    have hcode : (byte :: rest).flatMap (fun byte => true :: Bits.ofByte byte) =
        [true] ++ (Bits.ofByte byte ++ rest.flatMap fun byte => true :: Bits.ofByte byte) := rfl
    rw [hcode, ← fixed_followedBy_fixed, ← fixed_followedBy_fixed]
    exact (Emits.writeBit true).bind (hbyte.bind ih)

theorem markedBits_eq {width : Nat} {bytes : List UInt8} (h : bytes.length ≤ width) :
    markedBits width bytes = (bytes.flatMap fun byte => true :: Bits.ofByte byte) ++
      if bytes.length < width then [false] else [] := by
  induction bytes generalizing width with
  | nil => rfl
  | cons byte rest ih =>
    simp only [List.length_cons] at h
    have hclosing : rest.length < width - 1 ↔ (byte :: rest).length < width := by
      simp only [List.length_cons]
      omega
    rw [markedBits, ih (by omega), List.flatMap_cons, List.append_assoc]
    simp only [hclosing, List.cons_append]

theorem writeMarked_emits {width : Nat} {bytes : List UInt8} (h : bytes.length ≤ width) :
    Emits (writeMarked width bytes) () (fixed (markedBits width bytes)) := by
  rw [markedBits_eq h, ← fixed_followedBy_fixed]
  refine (sendMarked_emits bytes).bind ?_
  by_cases hclosing : bytes.length < width
  · rw [if_pos hclosing, if_pos hclosing]
    exact Emits.writeBit false
  · rw [if_neg hclosing, if_neg hclosing]
    exact Emits.pure ()

theorem readMarked_takes {width : Nat} {bytes : List UInt8} (h : bytes.length ≤ width) :
    Takes (readMarked width) bytes (fixed (markedBits width bytes)) := by
  induction width generalizing bytes with
  | zero =>
    have : bytes = [] := List.length_eq_zero_iff.mp (by omega)
    subst this
    exact Takes.pure []
  | succ width ih =>
    cases bytes with
    | nil =>
      have hcode : markedBits (width + 1) [] = [false] ++ [] := rfl
      rw [hcode, ← fixed_followedBy_fixed]
      refine (Takes.readBit false).bind ?_
      exact Takes.pure []
    | cons byte rest =>
      have hlen : (Bits.ofByte byte).length = 8 := Bits.length_ofByte byte
      have hbyte : Takes (Decoder.readBits [0] 8 true) [byte] (fixed (Bits.ofByte byte)) := by
        have hroom : bytesOfBits (Bits.ofByte byte).length ≤ ([0] : List UInt8).length := by
          rw [hlen]
          decide
        have htakes := Takes.readBits true hroom
        have hpacked : Bits.packed true (Bits.ofByte byte) = [byte] := by
          rw [Bits.packed_part true (by omega) (by omega), Bits.byteOf_ofByte]
        rw [hpacked, hlen] at htakes
        exact htakes
      have hlength : rest.length ≤ width := by simpa using h
      have hrest := ih hlength
      have hcode : markedBits (width + 1) (byte :: rest) =
          [true] ++ (Bits.ofByte byte ++ markedBits width rest) := rfl
      rw [hcode, ← fixed_followedBy_fixed, ← fixed_followedBy_fixed]
      refine (Takes.readBit true).bind ?_
      rw [if_pos rfl]
      exact hbyte.bind (hrest.map fun more => [byte] ++ more)

/-! ### Integers -/

theorem significantBytes_le (t : IntType) (value : t.Value) : significantBytes t value ≤ t.bytes :=
  Nat.sub_le _ _

theorem lt_significantBytes (t : IntType) (value : t.Value) :
    value.toNat < 256 ^ significantBytes t value := by
  refine Octets.lt_pow_bytes (t.lt_leadingZeros value) ?_
  unfold significantBytes IntType.bits
  omega

def intBytes (t : IntType) (value : t.Value) : List UInt8 :=
  (t.toLe value).take (significantBytes t value)

theorem length_intBytes_le (t : IntType) (value : t.Value) :
    (intBytes t value).length ≤ t.bytes := by
  have := significantBytes_le t value
  simp only [intBytes, IntType.toLe, List.length_take, Octets.length_le]
  omega

theorem ofLe_intBytes (t : IntType) (value : t.Value) : t.ofLe (intBytes t value) = value := by
  apply BitVec.eq_of_toNat_eq
  rw [intBytes, IntType.toLe, Octets.take_le (significantBytes_le t value), IntType.ofLe,
    Octets.ofLe_le, Nat.mod_eq_of_lt (lt_significantBytes t value)]
  simp

def intBits (t : IntType) (value : t.Value) : List Bool :=
  markedBits t.bytes (intBytes t value)

theorem writeInt_emits (t : IntType) (value : t.Value) :
    Emits (writeInt t value) () (fixed (intBits t value)) :=
  writeMarked_emits (length_intBytes_le t value)

theorem readInt_takes (t : IntType) (value : t.Value) :
    Takes (readInt t) value (fixed (intBits t value)) := by
  have hread := (readMarked_takes (length_intBytes_le t value)).map t.ofLe
  rwa [ofLe_intBytes] at hread

def signedBits (t : IntType) (value : t.Value) : List Bool :=
  markedBits t.bytes (signedBytes (t.toLe value))

theorem extendSign_toLe (t : IntType) (value : t.Value) :
    extendSign t.bytes (signedBytes (t.toLe value)) = t.toLe value ∧
      (signedBytes (t.toLe value)).length ≤ t.bytes := by
  have hspec := extendSign_signedBytes (t.toLe value)
  have hlen : (t.toLe value).length = t.bytes := Octets.length_le _ _
  rwa [hlen] at hspec

theorem writeSigned_emits (t : IntType) (value : t.Value) :
    Emits (writeSigned t value) () (fixed (signedBits t value)) :=
  writeMarked_emits (extendSign_toLe t value).2

theorem readSigned_takes (t : IntType) (value : t.Value) :
    Takes (readSigned t) value (fixed (signedBits t value)) := by
  have hread := (readMarked_takes (extendSign_toLe t value).2).map
    fun bytes => t.ofLe (extendSign t.bytes bytes)
  rwa [(extendSign_toLe t value).1, IntType.ofLe_toLe] at hread

/-! ### Addresses and 24-bit numbers -/

def addressBits : SocketAddress → List Bool
  | .v4 octets port => intBits .u8 (BitVec.ofNat 8 v4Tag) ++
    (intBits .u32 (~~~octets) ++ intBits .u16 port)
  | .v6 octets port _ _ => intBits .u8 (BitVec.ofNat 8 v6Tag) ++
    (Bits.ofNumber 128 octets.toNat ++ intBits .u16 port)

theorem writeAddress_emits (a : SocketAddress) :
    Emits (writeAddress a) () (fixed (addressBits a)) := by
  have hport := writeInt_emits .u16 a.port
  cases a with
  | v4 octets port =>
    rw [addressBits, ← fixed_followedBy_fixed, ← fixed_followedBy_fixed]
    exact (writeInt_emits .u8 _).bind ((writeInt_emits .u32 (~~~octets)).bind hport)
  | v6 octets port flow scope =>
    have hoctets : Emits (Prim.writePattern 16 octets) ()
        (fixed (Bits.ofNumber 128 octets.toNat)) := Prim.writePattern_emits 16 octets
    rw [addressBits, ← fixed_followedBy_fixed, ← fixed_followedBy_fixed]
    exact (writeInt_emits .u8 _).bind (hoctets.bind hport)

theorem readAddress_takes (a : SocketAddress) :
    Takes readAddress a.unscoped (fixed (addressBits a)) := by
  have hport := readInt_takes .u16 a.port
  refine Takes.rewinding ?_
  cases a with
  | v4 octets port =>
    have htag := readInt_takes .u8 (BitVec.ofNat 8 v4Tag)
    have hfamily : BitVec.toNat (w := IntType.u8.bits) (BitVec.ofNat 8 v4Tag) = v4Tag := rfl
    have hback : (SocketAddress.v4 octets port).unscoped = .v4 (~~~(~~~octets)) port := by
      rw [BitVec.not_not]
      rfl
    rw [addressBits, ← fixed_followedBy_fixed, ← fixed_followedBy_fixed]
    refine htag.bind ?_
    dsimp only
    rw [if_pos hfamily]
    refine (readInt_takes .u32 (~~~octets)).bind ?_
    rw [hback]
    exact hport.map (SocketAddress.new (.v4 (~~~(~~~octets))))
  | v6 octets port flow scope =>
    have htag := readInt_takes .u8 (BitVec.ofNat 8 v6Tag)
    have hother : ¬BitVec.toNat (w := IntType.u8.bits) (BitVec.ofNat 8 v6Tag) = v4Tag := by
      decide
    have hfamily : BitVec.toNat (w := IntType.u8.bits) (BitVec.ofNat 8 v6Tag) = v6Tag := rfl
    have hoctets : Takes (Prim.readPattern 16 128) octets
        (fixed (Bits.ofNumber 128 octets.toNat)) := Prim.readPattern_takes 16 rfl octets
    rw [addressBits, ← fixed_followedBy_fixed, ← fixed_followedBy_fixed]
    refine htag.bind ?_
    dsimp only
    rw [if_neg hother, if_pos hfamily]
    refine hoctets.bind ?_
    exact hport.map (SocketAddress.new (.v6 octets))

def u24Bits (value : U24) : List Bool :=
  intBits .u32 (value.setWidth 32)

theorem readU24_takes (value : U24) : Takes readU24 value (fixed (u24Bits value)) := by
  have hnumber : BitVec.toNat (w := IntType.u32.bits) (value.setWidth 32) = value.toNat := by
    have hlt := value.isLt
    have hwide : (BitVec.setWidth 32 value).toNat = value.toNat := by
      rw [BitVec.toNat_setWidth, Nat.mod_eq_of_lt (by omega)]
    exact hwide
  have hfits : U24.ofNat? value.toNat = some value := by
    have := value.isLt
    unfold U24.ofNat? U24.max
    rw [if_pos (by omega)]
    simp
  unfold u24Bits
  rw [← followedBy_none (fixed _)]
  refine Takes.rewinding ((readInt_takes .u32 (value.setWidth 32)).bind ?_)
  rw [hnumber, hfits]
  exact Takes.pure value

/-! ### All lossless types -/

/-- The types whose mini code loses no more than the fixed form does; a float is rounded
to fixed point. -/
def Lossless (t : Prim) : Prop :=
  ∀ f, t ≠ .float f

def wireBits : (t : Prim) → t.Value → List Bool
  | .int t, value => intBits t value
  | .bool, bit => [bit]
  | .float _, _ => []
  | .u24, value => u24Bits value
  | .address, a => addressBits a

theorem write_emits {t : Prim} (h : Lossless t) (value : t.Value) :
    Emits (write t value) () (fixed (wireBits t value)) := by
  cases t with
  | int t => exact writeInt_emits t value
  | bool => exact Emits.writeBit value
  | float f => exact absurd rfl (h f)
  | u24 => exact writeInt_emits .u32 _
  | address => exact writeAddress_emits value

theorem read_takes {t : Prim} (h : Lossless t) (value : t.Value) :
    Takes (read t) (t.arrived value) (fixed (wireBits t value)) := by
  cases t with
  | int t => exact readInt_takes t value
  | bool => exact Takes.readBit value
  | float f => exact absurd rfl (h f)
  | u24 => exact readU24_takes value
  | address => exact readAddress_takes value

end Mini

/-! ## Ranges -/

namespace IntRange

variable {t : IntType} {r : IntRange t} {value : t.Value}

theorem le_of_contains (h : r.contains value = true) :
    t.toInt r.min ≤ t.toInt value ∧ t.toInt value ≤ t.toInt r.max := by
  simpa [contains, IntType.le] using h

theorem offset_lt (h : r.contains value = true) : (value - r.min).toNat < 2 ^ r.bits := by
  obtain ⟨hlow, hhigh⟩ := le_of_contains h
  have hoffset := IntType.toNat_sub hlow
  have hwidth := IntType.toNat_sub r.ordered
  have hbits : (r.max - r.min).toNat < 2 ^ r.bits := t.lt_leadingZeros (r.max - r.min)
  omega

def offsetBits (r : IntRange t) (value : t.Value) : List Bool :=
  Bits.taken (t.toLe (value - r.min)) r.bits true

theorem length_toLe (t : IntType) (value : t.Value) : (t.toLe value).length = t.bytes :=
  Octets.length_le _ _

theorem length_offsetBits (r : IntRange t) (value : t.Value) :
    (r.offsetBits value).length = r.bits :=
  Bits.length_taken true (by rw [length_toLe]; exact r.bytesOfBits_le)

/-- The offset that is read back, filled up with zero bytes. -/
theorem ofLe_offsetBits (h : r.contains value = true) :
    t.ofLe (Bits.packed true (r.offsetBits value) ++
      (List.replicate t.bytes 0).drop (bytesOfBits r.bits)) = value - r.min := by
  have hpacked := Bits.packed_taken_le r.bytesOfBits_le (offset_lt h)
  have hsmall : (value - r.min).toNat < 256 ^ bytesOfBits r.bits := by
    refine Octets.lt_pow_bytes (offset_lt h) ?_
    unfold bytesOfBits
    omega
  apply BitVec.eq_of_toNat_eq
  rw [offsetBits, IntType.toLe, hpacked, List.drop_replicate, IntType.ofLe, Octets.ofLe_append,
    Octets.ofLe_zeros, Octets.ofLe_le, Nat.mul_zero, Nat.add_zero, Nat.mod_eq_of_lt hsmall]
  simp

theorem readOffset_takes (h : r.contains value = true) :
    Takes r.readOffset value (fixed (r.offsetBits value)) := by
  have hroom : bytesOfBits (r.offsetBits value).length ≤
      (List.replicate t.bytes (0 : UInt8)).length := by
    rw [length_offsetBits, List.length_replicate]
    exact r.bytesOfBits_le
  have hread := Takes.readBits true hroom
  rw [length_offsetBits] at hread
  have hback : value - r.min + r.min = value := BitVec.sub_add_cancel _ _
  unfold readOffset
  rw [← followedBy_none (fixed _)]
  refine hread.bind ?_
  rw [ofLe_offsetBits h, hback, if_pos h]
  exact Takes.pure value

def wireBits (r : IntRange t) (value : t.Value) (escape : Bool) : List Bool :=
  (if escape then [!r.contains value] else []) ++
    if r.contains value then r.offsetBits value else Mini.intBits t value

theorem write_emits (h : escape = true ∨ r.contains value = true) :
    Emits (r.write value escape) () (fixed (r.wireBits value escape)) := by
  have hroom : bytesOfBits r.bits ≤ (t.toLe (value - r.min)).length := by
    rw [length_toLe]
    exact r.bytesOfBits_le
  -- Inside the range the offset follows, outside of it the full value does.
  have hoffset : Emits (Stream.writeBits (t.toLe (value - r.min)) r.bits true) ()
      (fixed (r.offsetBits value)) := Emits.writeBits true hroom
  have hfull : Emits (do
      Action.emit (.rangeEscaped (t.text value) (t.text r.min) (t.text r.max))
      Mini.writeInt t value : Encoder Unit) () (fixed (Mini.intBits t value)) := by
    rw [← none_followedBy (fixed _)]
    exact (Emits.emit _).bind (Mini.writeInt_emits t value)
  unfold IntRange.write wireBits
  rw [← fixed_followedBy_fixed]
  cases hinside : r.contains value with
  | true =>
    cases escape with
    | true => exact (Emits.writeBit false).bind hoffset
    | false => exact hoffset
  | false =>
    have hescape : escape = true := by simpa [hinside] using h
    subst hescape
    exact (Emits.writeBit true).bind hfull

theorem read_takes (h : escape = true ∨ r.contains value = true) :
    Takes (r.read escape) value (fixed (r.wireBits value escape)) := by
  unfold IntRange.read wireBits
  rw [← fixed_followedBy_fixed]
  cases hinside : r.contains value with
  | true =>
    have hoffset := readOffset_takes hinside
    cases escape with
    | true =>
      refine (Takes.readBit false).bind ?_
      exact hoffset
    | false => exact hoffset
  | false =>
    have hescape : escape = true := by simpa [hinside] using h
    subst hescape
    refine (Takes.readBit true).bind ?_
    exact Mini.readInt_takes t value

end IntRange

namespace Ranged

variable {t : IntType} {min max value : t.Value} {escape : Bool}

theorem between_ok (h : t.toInt min ≤ t.toInt max) :
    IntRange.between t min max = .ok ⟨min, max, h⟩ :=
  dif_pos h

def wireBits (t : IntType) (value min max : t.Value) (escape : Bool) : List Bool :=
  match IntRange.between t min max with
  | .ok r => r.wireBits value escape
  | .error _ => []

/-- The value can be sent: the bounds are in order, and it lies between them unless
an escape is allowed. -/
def Sendable (t : IntType) (value min max : t.Value) (escape : Bool) : Prop :=
  t.toInt min ≤ t.toInt max ∧
    (escape = true ∨ t.toInt min ≤ t.toInt value ∧ t.toInt value ≤ t.toInt max)

theorem contains_of_sendable (h : Sendable t value min max escape) :
    escape = true ∨ IntRange.contains ⟨min, max, h.1⟩ value = true := by
  refine h.2.imp_right fun hinside => ?_
  simpa [IntRange.contains, IntType.le] using hinside

theorem write_emits (h : Sendable t value min max escape) :
    Emits (write t value min max escape) () (fixed (wireBits t value min max escape)) := by
  unfold write wireBits
  rw [between_ok h.1]
  exact IntRange.write_emits (contains_of_sendable h)

theorem read_takes (h : Sendable t value min max escape) :
    Takes (read t min max escape) value (fixed (wireBits t value min max escape)) := by
  unfold read wireBits
  rw [between_ok h.1]
  exact IntRange.read_takes (contains_of_sendable h)

end Ranged

/-! ## Length-prefixed blocks -/

namespace Block

/-- The length as a mini code, and the block behind it. -/
def code (source : List UInt8) : Code :=
  (fixed (Mini.intBits .u32 (BitVec.ofNat 32 source.length))).followedBy (block source)

theorem write_emits {source : List UInt8} {max : Nat} (h : source.length ≤ max) :
    Emits (Block.write source max) source.length (code source) := by
  have hlength : min source.length max = source.length := Nat.min_eq_left h
  have hblock : Emits (Stream.writeAlignedBytes (source.take source.length)) () (block source) := by
    rw [List.take_length]
    exact Emits.writeAlignedBytes source
  unfold Block.write code
  rw [hlength]
  exact (Mini.writeInt_emits .u32 _).bind (hblock.map fun _ => source.length)

theorem read_takes {source : List UInt8} {max : Nat} (h : source.length ≤ max)
    (hlength : source.length < 2 ^ 32) : Takes (Block.read max) source (code source) := by
  have hnumber : BitVec.toNat (w := IntType.u32.bits) (BitVec.ofNat 32 source.length) =
      source.length := by
    have hmod : source.length % 2 ^ 32 = source.length := Nat.mod_eq_of_lt hlength
    exact hmod
  have hmax : ¬source.length > max := by omega
  unfold Block.read code
  refine (Mini.readInt_takes .u32 (BitVec.ofNat 32 source.length)).bind ?_
  dsimp only
  rw [hnumber, if_neg hmax]
  by_cases hempty : source = []
  · subst hempty
    exact Takes.pure []
  · have hsome : ¬source.length = 0 := fun hzero => hempty (List.length_eq_zero_iff.mp hzero)
    rw [if_neg hsome, ← padding_followedBy_block hempty]
    exact Takes.align.bind ((Takes.readAlignedBytes source).need (le_length_block source))

end Block

/-! ## Packets -/

/-- A packet is written to an empty stream of its own. -/
theorem Codec.toStream_run {α : Type} {c : Codec α} {value : α} {code : Code}
    (h : Emits (c.write value) () code) :
    ∃ s' effects, c.toStream value = ⟨.value (), s', effects⟩ ∧
      Stream.empty.Grown (code 0) s' := by
  have hempty : Stream.empty.Sound := Stream.withRoom_sound 0
  have hcreated : (Action.emit .streamCreated : Encoder Unit) Stream.empty =
      ⟨.value (), Stream.empty, [.streamCreated]⟩ := rfl
  obtain ⟨s', effects, hrun, hgrown⟩ := h hempty
  refine ⟨s', .streamCreated :: effects, ?_, hgrown⟩
  unfold Codec.toStream
  rw [Action.bind_trace hcreated, hrun]
  rfl

end BitCodec
