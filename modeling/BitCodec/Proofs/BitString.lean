import Mathlib.Algebra.Group.Nat.Defs
import BitCodec.Bits
import BitCodec.Cursor
import BitCodec.Octets

/-!
# Strings of bits

What bytes and buffers hold, as lists of booleans, most significant bit first.
`slice` cuts a string out of a buffer at any bit position.  The two functions
between a caller's bytes and a string, `taken` and `packed`, know where the bits
of a partial byte sit: at its low end (`right`) or at its high end.
-/

namespace BitCodec.Bits

/-! ## The bits of a byte -/

/-- The bit of a byte at a place counted from its high end. -/
def inByte (byte : UInt8) (place : Nat) : Bool :=
  byte.toBitVec.getMsbD place

theorem inByte_past {byte : UInt8} {place : Nat} (h : 8 ≤ place) : inByte byte place = false := by
  unfold inByte
  exact BitVec.getMsbD_of_ge _ _ h

@[simp] theorem inByte_zero (place : Nat) : inByte 0 place = false := by
  simp [inByte]

@[simp] theorem inByte_and (a b : UInt8) (place : Nat) :
    inByte (a &&& b) place = (inByte a place && inByte b place) := by
  simp [inByte]

@[simp] theorem inByte_or (a b : UInt8) (place : Nat) :
    inByte (a ||| b) place = (inByte a place || inByte b place) := by
  simp [inByte]

@[simp] theorem inByte_not (a : UInt8) (place : Nat) :
    inByte (~~~a) place = (decide (place < 8) && !inByte a place) := by
  simp [inByte]

theorem inByte_shiftLeft (a : UInt8) {count : Nat} (h : count < 8) (place : Nat) :
    inByte (a <<< UInt8.ofNat count) place = inByte a (place + count) := by
  simp [inByte, UInt8.toBitVec_shiftLeft, Nat.mod_eq_of_lt h]

theorem inByte_shiftRight (a : UInt8) {count : Nat} (h : count < 8) (place : Nat) :
    inByte (a >>> UInt8.ofNat count) place =
      (decide (place < 8) && decide (count ≤ place) && inByte a (place - count)) := by
  simp only [inByte, UInt8.toBitVec_shiftRight, UInt8.toBitVec_ofNat', BitVec.ushiftRight_eq']
  have height : (8 : BitVec 8).toNat = 8 := rfl
  have hcount : (BitVec.ofNat 8 count % 8).toNat = count := by
    rw [BitVec.toNat_umod, BitVec.toNat_ofNat, height]
    omega
  rw [BitVec.getMsbD_ushiftRight, hcount]
  by_cases hle : count ≤ place
  · simp [hle, Nat.not_lt.mpr hle]
  · simp [hle, Nat.not_le.mp hle]

theorem byte_ext {a b : UInt8} (h : ∀ place < 8, inByte a place = inByte b place) : a = b := by
  apply UInt8.toBitVec_inj.mp
  exact BitVec.eq_of_getMsbD_eq fun place hp => h place hp

theorem inByte_ones (place : Nat) : inByte 0xFF place = decide (place < 8) := by
  have h : (0xFF : UInt8) = ~~~0 := rfl
  rw [h, inByte_not]
  simp

theorem inByte_top (place : Nat) : inByte 0x80 place = decide (place = 0) := by
  by_cases h : place < 8
  · have all : ∀ i < 8, inByte 0x80 i = decide (i = 0) := by decide
    exact all place h
  · rw [inByte_past (by omega)]
    simp
    omega

theorem inByte_highMask {count : Nat} (h : count ≤ 8) (place : Nat) :
    inByte (highMask count) place = decide (place < count) := by
  by_cases hp : place < 8
  · have all : ∀ c ≤ 8, ∀ i < 8, inByte (highMask c) i = decide (i < c) := by decide
    exact all count h place hp
  · rw [inByte_past (by omega)]
    simp
    omega

/-- The mask of one place tests that place. -/
theorem and_mask_ne_zero (byte : UInt8) {place : Nat} (h : place < 8) :
    (byte &&& (0x80 : UInt8) >>> UInt8.ofNat place != 0) = inByte byte place := by
  have hbit : ∀ i < 8, inByte (byte &&& (0x80 : UInt8) >>> UInt8.ofNat place) i =
      (decide (i = place) && inByte byte i) := by
    intro i hi
    rw [inByte_and, inByte_shiftRight _ h, inByte_top]
    by_cases hip : i = place
    · subst hip; simp [hi]
    · have : ¬(place ≤ i ∧ i - place = 0) := by omega
      simp only [hip, decide_false, Bool.false_and]
      grind
  cases hb : inByte byte place with
  | false =>
    have hzero : byte &&& (0x80 : UInt8) >>> UInt8.ofNat place = 0 := by
      apply byte_ext
      intro i hi
      rw [hbit i hi]
      by_cases hip : i = place
      · subst hip; simp [hb]
      · simp [hip]
    simp [hzero]
  | true =>
    have hset := hbit place h
    simp only [decide_true, Bool.true_and, hb] at hset
    rw [bne_iff_ne]
    intro hzero
    rw [hzero] at hset
    simp at hset

def ofByte (byte : UInt8) : List Bool :=
  (List.range 8).map (inByte byte)

@[simp] theorem length_ofByte (byte : UInt8) : (ofByte byte).length = 8 := by
  simp [ofByte]

theorem getElem_ofByte (byte : UInt8) (i : Nat) (h : i < (ofByte byte).length) :
    (ofByte byte)[i] = inByte byte i := by
  simp [ofByte]

def ofBytes (bytes : List UInt8) : List Bool :=
  bytes.flatMap ofByte

@[simp] theorem ofBytes_nil : ofBytes [] = [] := rfl

@[simp] theorem ofBytes_cons (byte : UInt8) (rest : List UInt8) :
    ofBytes (byte :: rest) = ofByte byte ++ ofBytes rest := rfl

@[simp] theorem ofBytes_append (first second : List UInt8) :
    ofBytes (first ++ second) = ofBytes first ++ ofBytes second := by
  simp [ofBytes]

@[simp] theorem length_ofBytes (bytes : List UInt8) :
    (ofBytes bytes).length = 8 * bytes.length := by
  induction bytes with
  | nil => rfl
  | cons byte rest ih =>
    simp only [ofBytes_cons, List.length_append, length_ofByte, List.length_cons, ih]
    omega

/-! ## The bits of a buffer -/

/-- The bit of a buffer at a position; outside the buffer every bit is zero. -/
def bitAt (buffer : Array UInt8) (pos : Nat) : Bool :=
  inByte (buffer[pos / 8]?.getD 0) (pos % 8)

/-- The bits of a buffer from a position on, so many of them. -/
def slice (buffer : Array UInt8) (pos count : Nat) : List Bool :=
  (List.range count).map fun i => bitAt buffer (pos + i)

@[simp] theorem length_slice (buffer : Array UInt8) (pos count : Nat) :
    (slice buffer pos count).length = count := by
  simp [slice]

theorem getElem_slice (buffer : Array UInt8) (pos count i : Nat)
    (h : i < (slice buffer pos count).length) :
    (slice buffer pos count)[i] = bitAt buffer (pos + i) := by
  simp [slice]

@[simp] theorem slice_zero (buffer : Array UInt8) (pos : Nat) : slice buffer pos 0 = [] := rfl

@[simp] theorem slice_one (buffer : Array UInt8) (pos : Nat) :
    slice buffer pos 1 = [bitAt buffer pos] := rfl

theorem slice_add (buffer : Array UInt8) (pos m n : Nat) :
    slice buffer pos (m + n) = slice buffer pos m ++ slice buffer (pos + m) n := by
  simp only [slice, List.range_add, List.map_append, List.map_map, Nat.add_assoc]
  rfl

theorem slice_congr {a b : Array UInt8} {pos count : Nat}
    (h : ∀ i, pos ≤ i → i < pos + count → bitAt a i = bitAt b i) :
    slice a pos count = slice b pos count := by
  apply List.map_congr_left
  intro i hi
  have := List.mem_range.mp hi
  exact h (pos + i) (by omega) (by omega)

/-- Equal strings at the same position agree at every position in them. -/
theorem bitAt_of_slice {a b : Array UInt8} {pos count : Nat}
    (h : slice a pos count = slice b pos count) {i : Nat} (hlow : pos ≤ i)
    (hhigh : i < pos + count) :
    bitAt a i = bitAt b i := by
  have hget : (slice a pos count)[i - pos]? = (slice b pos count)[i - pos]? := by rw [h]
  have hi : i - pos < count := by omega
  have hback : pos + (i - pos) = i := by omega
  simpa [slice, hi, hback] using hget

theorem slice_part (buffer : Array UInt8) {pos count at_ n : Nat} (hlow : pos ≤ at_)
    (hhigh : at_ + n ≤ pos + count) :
    slice buffer at_ n = ((slice buffer pos count).drop (at_ - pos)).take n := by
  apply List.ext_getElem
  · simp
    omega
  · intro i h1 h2
    have hpos : pos + (at_ - pos + i) = at_ + i := by omega
    simp only [getElem_slice, List.getElem_take, List.getElem_drop, hpos]

theorem bitAt_eq_of_byte {a b : Array UInt8} {pos : Nat} (h : a[pos / 8]? = b[pos / 8]?) :
    bitAt a pos = bitAt b pos := by
  unfold bitAt
  rw [h]

theorem bitAt_extract {buffer : Array UInt8} {count i : Nat} (h : i < 8 * count) :
    bitAt (buffer.extract 0 count) i = bitAt buffer i := by
  apply bitAt_eq_of_byte
  rw [Array.getElem?_extract]
  by_cases hi : i / 8 < min count buffer.size
  · rw [if_pos (by omega), Nat.zero_add]
  · rw [if_neg (by omega), Array.getElem?_eq_none (by omega)]

theorem bitAt_eq_inByte {buffer : Array UInt8} {index place : Nat} {byte : UInt8}
    (h : buffer[index]? = some byte) (hp : place < 8) :
    bitAt buffer (8 * index + place) = inByte byte place := by
  have hdiv : (8 * index + place) / 8 = index := by omega
  have hmod : (8 * index + place) % 8 = place := by omega
  simp [bitAt, hdiv, hmod, h]

theorem buffer_ext {a b : Array UInt8} (hsize : a.size = b.size)
    (h : ∀ i < 8 * a.size, bitAt a i = bitAt b i) : a = b := by
  apply Array.ext hsize
  intro index ha hb
  apply byte_ext
  intro place hp
  have hbit := h (8 * index + place) (by omega)
  rwa [bitAt_eq_inByte (Array.getElem?_eq_getElem ha) hp,
    bitAt_eq_inByte (Array.getElem?_eq_getElem hb) hp] at hbit

theorem slice_byte {buffer : Array UInt8} {index : Nat} {byte : UInt8}
    (h : buffer[index]? = some byte) : slice buffer (8 * index) 8 = ofByte byte := by
  apply List.map_congr_left
  intro place hp
  exact bitAt_eq_inByte h (List.mem_range.mp hp)

theorem slice_toArray_cons (byte : UInt8) (rest : List UInt8) (pos count : Nat) :
    slice (byte :: rest).toArray (8 + pos) count = slice rest.toArray pos count := by
  apply List.map_congr_left
  intro i _
  have hdiv : (8 + pos + i) / 8 = (pos + i) / 8 + 1 := by omega
  have hmod : (8 + pos + i) % 8 = (pos + i) % 8 := by omega
  simp [bitAt, hdiv, hmod]

theorem slice_toArray (bytes : List UInt8) :
    slice bytes.toArray 0 (8 * bytes.length) = ofBytes bytes := by
  induction bytes with
  | nil => rfl
  | cons byte rest ih =>
    have hlen : 8 * (byte :: rest).length = 8 + 8 * rest.length := by
      rw [List.length_cons]
      omega
    have hget : (byte :: rest).toArray[0]? = some byte := rfl
    have hfirst : slice (byte :: rest).toArray 0 8 = ofByte byte := slice_byte hget
    rw [hlen, slice_add, hfirst, Nat.zero_add, ← Nat.add_zero 8, slice_toArray_cons, ih,
      ofBytes_cons]

/-! ## A caller's bytes -/

/-- The bits that so many bits of a caller's bytes stand for: those of the
whole bytes, then the low or the high ones of a partial byte. -/
def taken : List UInt8 → Nat → Bool → List Bool
  | [], _, _ => []
  | byte :: rest, count, right =>
    if 8 ≤ count then ofByte byte ++ taken rest (count - 8) right
    else if right then (ofByte byte).drop (8 - count)
    else (ofByte byte).take count

/-- The byte whose high bits these are, from a place on; the others are
zero. -/
def byteFrom (place : Nat) : List Bool → UInt8
  | [] => 0
  | bit :: rest =>
    (if bit then (0x80 : UInt8) >>> UInt8.ofNat place else 0) ||| byteFrom (place + 1) rest

/-- The byte that holds at most eight bits at its low or at its high end. -/
def byteOf (right : Bool) (bits : List Bool) : UInt8 :=
  byteFrom (if right then 8 - bits.length else 0) bits

/-- The bytes that hold a string of bits, the partial byte filled from its low
or from its high end. -/
def packed (right : Bool) (bits : List Bool) : List UInt8 :=
  (List.range (bytesOfBits bits.length)).map fun i => byteOf right ((bits.drop (8 * i)).take 8)

theorem length_taken {bytes : List UInt8} {count : Nat} (right : Bool)
    (h : bytesOfBits count ≤ bytes.length) : (taken bytes count right).length = count := by
  induction bytes generalizing count with
  | nil =>
    simp only [bytesOfBits, List.length_nil] at h
    simp only [taken, List.length_nil]
    omega
  | cons byte rest ih =>
    simp only [bytesOfBits, List.length_cons] at h
    unfold taken
    split
    · have hroom : bytesOfBits (count - 8) ≤ rest.length := by
        unfold bytesOfBits
        omega
      have hrest := ih hroom
      simp only [List.length_append, length_ofByte, hrest]
      omega
    · split
      · simp
        omega
      · simp
        omega

@[simp] theorem taken_zero (bytes : List UInt8) (right : Bool) : taken bytes 0 right = [] := by
  cases bytes with
  | nil => rfl
  | cons byte rest => cases right <;> simp [taken]

theorem taken_whole (bytes : List UInt8) (right : Bool) :
    taken bytes (8 * bytes.length) right = ofBytes bytes := by
  induction bytes with
  | nil => rfl
  | cons byte rest ih =>
    have hlen : 8 * (byte :: rest).length = 8 * rest.length + 8 := by
      rw [List.length_cons, Nat.mul_succ]
    have hmany : 8 ≤ 8 * (byte :: rest).length := by omega
    have hrest : 8 * (byte :: rest).length - 8 = 8 * rest.length := by omega
    rw [taken, if_pos hmany, hrest, ih, ofBytes_cons]

theorem inByte_byteFrom (bits : List Bool) (start place : Nat)
    (hfit : start + bits.length ≤ 8) :
    inByte (byteFrom start bits) place =
      (decide (start ≤ place) && bits[place - start]?.getD false) := by
  induction bits generalizing start with
  | nil => simp [byteFrom]
  | cons bit rest ih =>
    simp only [List.length_cons] at hfit
    have hstart : start < 8 := by omega
    have hhead : inByte (if bit then (0x80 : UInt8) >>> UInt8.ofNat start else 0) place =
        (bit && decide (place = start)) := by
      cases bit with
      | false => simp
      | true =>
        simp only [if_true, inByte_shiftRight _ hstart, inByte_top]
        grind
    rw [byteFrom, inByte_or, hhead, ih (start + 1) (by omega)]
    by_cases h : place = start
    · subst h
      have : ¬place + 1 ≤ place := by omega
      simp [this]
    · by_cases hlow : start ≤ place
      · obtain ⟨k, rfl⟩ : ∃ k, place = start + 1 + k := ⟨place - start - 1, by omega⟩
        have h1 : start + 1 + k - (start + 1) = k := by omega
        have h2 : start + 1 + k - start = k + 1 := by omega
        simp [h1, h2, h]
        omega
      · have h1 : ¬start + 1 ≤ place := by omega
        simp [h, hlow, h1]

@[simp] theorem length_packed (right : Bool) (bits : List Bool) :
    (packed right bits).length = bytesOfBits bits.length := by
  simp [packed]

theorem getElem_packed {bits : List Bool} {index : Nat} (right : Bool)
    (h : index < bytesOfBits bits.length) :
    (packed right bits)[index]? = some (byteOf right ((bits.drop (8 * index)).take 8)) := by
  simp [packed, h]

@[simp] theorem packed_nil (right : Bool) : packed right [] = [] := rfl

/-- A string of bits cut into groups of eight; the last one may be shorter. -/
def groups (bits : List Bool) : List (List Bool) :=
  (List.range (bytesOfBits bits.length)).map fun i => (bits.drop (8 * i)).take 8

@[simp] theorem groups_nil : groups [] = [] := rfl

theorem groups_cons {bits : List Bool} (h : bits ≠ []) :
    groups bits = bits.take 8 :: groups (bits.drop 8) := by
  have hlen := List.length_pos_iff.mpr h
  have hcount : bytesOfBits bits.length = bytesOfBits (bits.drop 8).length + 1 := by
    simp only [bytesOfBits, List.length_drop]
    omega
  unfold groups
  rw [hcount, List.range_succ_eq_map, List.map_cons, List.map_map, Nat.mul_zero, List.drop_zero]
  congr 1
  apply List.map_congr_left
  intro i _
  have hdrop : 8 * (i + 1) = 8 + 8 * i := by omega
  simp only [Function.comp_apply, List.drop_drop, Nat.succ_eq_add_one, hdrop]

/-- Every group makes a byte. -/
theorem packed_eq_groups (right : Bool) (bits : List Bool) :
    packed right bits = (groups bits).map (byteOf right) := by
  rw [packed, groups, List.map_map]
  rfl

/-- The first group makes the first byte; only the last group may be short of eight bits. -/
theorem packed_group (right : Bool) {first rest : List Bool} (h0 : 0 < first.length)
    (h8 : first.length ≤ 8) (hlast : first.length < 8 → rest = []) :
    packed right (first ++ rest) = byteOf right first :: packed right rest := by
  have hsome : first ++ rest ≠ [] := List.append_ne_nil_of_left_ne_nil (List.length_pos_iff.mp h0) _
  have hcut : (first ++ rest).take 8 = first ∧ (first ++ rest).drop 8 = rest := by
    rcases Nat.lt_or_eq_of_le h8 with hshort | hwhole
    · rw [hlast hshort, List.append_nil]
      exact ⟨List.take_of_length_le h8, List.drop_eq_nil_of_le h8⟩
    · exact ⟨List.take_left' hwhole, List.drop_left' hwhole⟩
  rw [packed_eq_groups, packed_eq_groups, groups_cons hsome, List.map_cons, hcut.1, hcut.2]

/-- Eight bits make the first byte, the rest is packed behind it. -/
theorem packed_byte (right : Bool) {bits : List Bool} (h : 8 ≤ bits.length) :
    packed right bits = byteOf right (bits.take 8) :: packed right (bits.drop 8) := by
  have hlen : (bits.take 8).length = 8 := by
    rw [List.length_take]
    omega
  have hnot : (bits.take 8).length < 8 → bits.drop 8 = [] := by
    intro hshort
    omega
  have hgroup := packed_group right (by omega) (by omega) hnot
  rwa [List.take_append_drop] at hgroup

theorem packed_part (right : Bool) {bits : List Bool} (h0 : 0 < bits.length)
    (h8 : bits.length ≤ 8) : packed right bits = [byteOf right bits] := by
  have hgroup := packed_group right h0 h8 fun _ => rfl
  rwa [List.append_nil, packed_nil] at hgroup

theorem inByte_byteOf_left {bits : List Bool} (h : bits.length ≤ 8) (place : Nat) :
    inByte (byteOf false bits) place = bits[place]?.getD false := by
  simp [byteOf, inByte_byteFrom bits 0 place (by omega)]

theorem inByte_byteOf_right {bits : List Bool} (h : bits.length ≤ 8) (place : Nat) :
    inByte (byteOf true bits) place =
      (decide (8 - bits.length ≤ place) && bits[place - (8 - bits.length)]?.getD false) := by
  simp [byteOf, inByte_byteFrom bits (8 - bits.length) place (by omega)]

theorem byteOf_ofByte (right : Bool) (byte : UInt8) : byteOf right (ofByte byte) = byte := by
  have hstart : byteOf right (ofByte byte) = byteFrom 0 (ofByte byte) := by
    cases right <;> simp [byteOf]
  rw [hstart]
  apply byte_ext
  intro place hp
  rw [inByte_byteFrom _ _ _ (by simp)]
  simp [ofByte, hp]

@[simp] theorem packed_ofBytes (right : Bool) (bytes : List UInt8) :
    packed right (ofBytes bytes) = bytes := by
  induction bytes with
  | nil => rfl
  | cons byte rest ih =>
    have htake : (ofByte byte ++ ofBytes rest).take 8 = ofByte byte :=
      List.take_left' (length_ofByte byte)
    have hdrop : (ofByte byte ++ ofBytes rest).drop 8 = ofBytes rest :=
      List.drop_left' (length_ofByte byte)
    rw [ofBytes_cons, packed_byte right (by simp), htake, hdrop, ih, byteOf_ofByte]

theorem ofByte_byteOf {bits : List Bool} (right : Bool) (h : bits.length ≤ 8) :
    (if right then (ofByte (byteOf right bits)).drop (8 - bits.length)
      else (ofByte (byteOf right bits)).take bits.length) = bits := by
  cases right with
  | true =>
    apply List.ext_getElem
    · simp
      omega
    · intro i h1 h2
      have hplace : 8 - bits.length + i - (8 - bits.length) = i := by omega
      simp [getElem_ofByte, inByte_byteOf_right h, hplace, h2]
  | false =>
    apply List.ext_getElem
    · simp
      omega
    · intro i h1 h2
      simp [getElem_ofByte, inByte_byteOf_left h, h2]

/-- What was packed is taken out again, whatever follows. -/
theorem taken_packed (right : Bool) (bits : List Bool) (rest : List UInt8) :
    taken (packed right bits ++ rest) bits.length right = bits := by
  induction hlen : bits.length using Nat.strongRecOn generalizing bits with
  | ind n ih =>
    subst hlen
    by_cases h8 : 8 ≤ bits.length
    · have hshort : (bits.drop 8).length < bits.length := by
        rw [List.length_drop]
        omega
      have htail := ih (bits.drop 8).length hshort (bits.drop 8) rfl
      have hfull := ofByte_byteOf right (List.length_take_le 8 bits)
      have hmin : min 8 bits.length = 8 := by omega
      have hbyte : ofByte (byteOf right (bits.take 8)) = bits.take 8 := by
        rw [List.length_take, hmin] at hfull
        cases right with
        | true => simpa using hfull
        | false => simpa [List.take_of_length_le] using hfull
      rw [List.length_drop] at htail
      rw [packed_byte right h8, List.cons_append, taken, if_pos h8, hbyte, htail,
        List.take_append_drop]
    · by_cases h0 : bits.length = 0
      · have : bits = [] := List.length_eq_zero_iff.mp h0
        subst this
        exact taken_zero _ _
      · rw [packed_part right (by omega) (by omega), List.cons_append, taken, if_neg h8]
        exact ofByte_byteOf right (by omega)

/-- A packed string used as a buffer holds its bits, and zeros behind them. -/
theorem bitAt_packed {bits : List Bool} {i : Nat} (h : i < 8 * bytesOfBits bits.length) :
    bitAt (packed false bits).toArray i = bits[i]?.getD false := by
  have hindex : i / 8 < bytesOfBits bits.length := by omega
  have hback : 8 * (i / 8) + i % 8 = i := by omega
  have hplace : i % 8 < 8 := Nat.mod_lt _ (by decide)
  rw [bitAt, List.getElem?_toArray, getElem_packed false hindex, Option.getD_some,
    inByte_byteOf_left (List.length_take_le 8 _)]
  simp [hplace, hback]

/-- A partial byte of a packed string is zero where it holds none of the bits that the whole
bytes leave over. -/
theorem inByte_packed_part {bits : List Bool} {right : Bool} {place : Nat}
    (hpart : 0 < bits.length % 8)
    (hplace : if right then place < 8 - bits.length % 8 else bits.length % 8 ≤ place) :
    inByte ((packed right bits)[bits.length / 8]?.getD 0) place = false := by
  have hindex : bits.length / 8 < bytesOfBits bits.length := by
    unfold bytesOfBits
    omega
  have hlen : (bits.drop (8 * (bits.length / 8))).length = bits.length % 8 := by
    rw [List.length_drop]
    omega
  have hshort : (bits.drop (8 * (bits.length / 8))).length ≤ 8 := by omega
  rw [getElem_packed right hindex, List.take_of_length_le hshort, Option.getD_some]
  cases right with
  | true =>
    have hbefore : ¬8 - bits.length % 8 ≤ place := by
      rw [if_pos rfl] at hplace
      omega
    rw [inByte_byteOf_right hshort, hlen, decide_eq_false hbefore, Bool.false_and]
  | false =>
    have hpast : bits.length % 8 ≤ place := by simpa using hplace
    rw [inByte_byteOf_left hshort, List.getElem?_eq_none (by rwa [hlen]), Option.getD_none]

/-! ## Numbers -/

/-- The low bits of a number, so many of them, the highest first. -/
def ofNumber (count number : Nat) : List Bool :=
  (List.range count).map fun i => number.testBit (count - 1 - i)

/-- The number that a string of bits stands for, the highest bit first. -/
def toNumber (bits : List Bool) : Nat :=
  bits.foldl (fun number bit => 2 * number + bit.toNat) 0

@[simp] theorem length_ofNumber (count number : Nat) : (ofNumber count number).length = count := by
  simp [ofNumber]

theorem ofNumber_add (high low number : Nat) :
    ofNumber (high + low) number = ofNumber high (number / 2 ^ low) ++ ofNumber low number := by
  simp only [ofNumber, List.range_add, List.map_append, List.map_map]
  congr 1
  · apply List.map_congr_left
    intro i hi
    have := List.mem_range.mp hi
    rw [Nat.testBit_div_two_pow]
    congr 1
    omega
  · apply List.map_congr_left
    intro i _
    simp only [Function.comp_apply]
    congr 1
    omega

theorem inByte_ofNat (number : Nat) {place : Nat} (hp : place < 8) :
    inByte (UInt8.ofNat number) place = number.testBit (7 - place) := by
  have hlow : 7 - place < 8 := by omega
  have hbit : (BitVec.ofNat 8 number).getLsbD (7 - place) = number.testBit (7 - place) := by
    rw [BitVec.getLsbD_ofNat, decide_eq_true hlow, Bool.true_and]
  simp [inByte, BitVec.getMsbD, UInt8.toBitVec_ofNat', hp, ← hbit]

theorem ofByte_ofNat (number : Nat) : ofByte (UInt8.ofNat number) = ofNumber 8 number :=
  List.map_congr_left fun _ hi => inByte_ofNat number (List.mem_range.mp hi)

theorem ofBytes_be (count number : Nat) :
    ofBytes (Octets.be count number) = ofNumber (8 * count) number := by
  induction count generalizing number with
  | zero => rfl
  | succ count ih =>
    have hbe : Octets.be (count + 1) number =
        Octets.be count (number / 256) ++ [UInt8.ofNat number] := by
      simp [Octets.be, Octets.le]
    have hcount : 8 * (count + 1) = 8 * count + 8 := by omega
    have hpow : 2 ^ 8 = 256 := rfl
    rw [hbe, ofBytes_append, ih, hcount, ofNumber_add, hpow, ofBytes_cons, ofBytes_nil,
      List.append_nil, ofByte_ofNat]

theorem foldl_toNumber (bits : List Bool) (start : Nat) :
    bits.foldl (fun number bit => 2 * number + bit.toNat) start =
      start * 2 ^ bits.length + toNumber bits := by
  induction bits generalizing start with
  | nil => simp [toNumber]
  | cons bit rest ih =>
    simp only [toNumber, List.foldl_cons, List.length_cons]
    rw [ih, ih (2 * 0 + bit.toNat)]
    grind

theorem toNumber_append (high low : List Bool) :
    toNumber (high ++ low) = toNumber high * 2 ^ low.length + toNumber low := by
  have hfold := foldl_toNumber low (toNumber high)
  rwa [toNumber, ← List.foldl_append] at hfold

/-- Bits that are read back give the number without the bits there was no room
for. -/
theorem toNumber_ofNumber (count number : Nat) :
    toNumber (ofNumber count number) = number % 2 ^ count := by
  induction count generalizing number with
  | zero => simp [ofNumber, toNumber, Nat.mod_one]
  | succ count ih =>
    have hlast : ofNumber 1 number = [number.testBit 0] := rfl
    rw [ofNumber_add, toNumber_append, ih, hlast, Nat.pow_one, Nat.pow_succ', Nat.mod_mul]
    have hbit : toNumber [number.testBit 0] = number % 2 := by
      have := Nat.mod_two_eq_zero_or_one number
      rcases this with h | h <;> simp [toNumber, Nat.testBit_zero, h]
    rw [hbit, List.length_singleton]
    omega

/-- Every string of bits is the form of the number it stands for. -/
theorem ofNumber_toNumber (bits : List Bool) : ofNumber bits.length (toNumber bits) = bits := by
  induction hrev : bits.reverse generalizing bits with
  | nil =>
    have : bits = [] := List.reverse_eq_nil_iff.mp hrev
    subst this
    rfl
  | cons bit rest ih =>
    obtain ⟨front, rfl⟩ : ∃ front, bits = front ++ [bit] :=
      ⟨rest.reverse, by rw [← List.reverse_reverse bits, hrev, List.reverse_cons]⟩
    have hfront : front.reverse = rest := by simpa using hrev
    have hlow : toNumber [bit] = bit.toNat := by simp [toNumber]
    have hnumber : toNumber (front ++ [bit]) = 2 * toNumber front + bit.toNat := by
      rw [toNumber_append, hlow, List.length_singleton]
      omega
    have hhigh : (2 * toNumber front + bit.toNat) / 2 = toNumber front := by
      have := bit.toNat_le
      omega
    have hlast : ofNumber 1 (2 * toNumber front + bit.toNat) = [bit] := by
      have hbit : (2 * toNumber front + bit.toNat).testBit 0 = bit := by
        cases bit <;> simp [Nat.testBit_zero]
      exact congrArg (fun b => [b]) hbit
    rw [hnumber, List.length_append, List.length_singleton, ofNumber_add, Nat.pow_one, hhigh,
      ih front hfront, hlast]

theorem toNumber_lt (bits : List Bool) : toNumber bits < 2 ^ bits.length := by
  have hback := toNumber_ofNumber bits.length (toNumber bits)
  rw [ofNumber_toNumber] at hback
  rw [hback]
  exact Nat.mod_lt _ (Nat.two_pow_pos _)

theorem toNumber_ofByte (byte : UInt8) : toNumber (ofByte byte) = byte.toNat := by
  have hback : UInt8.ofNat byte.toNat = byte := UInt8.ofNat_toNat
  rw [← hback, ofByte_ofNat, toNumber_ofNumber]
  simp

theorem toNumber_ofBytes (bytes : List UInt8) : toNumber (ofBytes bytes) = Octets.ofBe bytes := by
  induction hrev : bytes.reverse generalizing bytes with
  | nil =>
    have : bytes = [] := List.reverse_eq_nil_iff.mp hrev
    subst this
    rfl
  | cons byte rest ih =>
    obtain ⟨front, rfl⟩ : ∃ front, bytes = front ++ [byte] :=
      ⟨rest.reverse, by rw [← List.reverse_reverse bytes, hrev, List.reverse_cons]⟩
    have hfront : front.reverse = rest := by simpa using hrev
    rw [ofBytes_append, toNumber_append, ih front hfront]
    simp [toNumber_ofByte, Octets.ofBe, Octets.ofLe]
    omega

theorem ofBytes_packed (right : Bool) {bits : List Bool} (h : bits.length % 8 = 0) :
    ofBytes (packed right bits) = bits := by
  have htaken := taken_packed right bits []
  have hlen : bits.length = 8 * (packed right bits).length := by
    rw [length_packed, bytesOfBits]
    omega
  rwa [List.append_nil, hlen, taken_whole] at htaken

theorem ofBe_packed (right : Bool) {bits : List Bool} (h : bits.length % 8 = 0) :
    Octets.ofBe (packed right bits) = toNumber bits := by
  rw [← toNumber_ofBytes, ofBytes_packed right h]

end BitCodec.Bits
