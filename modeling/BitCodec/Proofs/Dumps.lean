import BitCodec.Proofs.ReadProgram
import BitCodec.Proofs.Shortcuts

/-!
# What the dumps show

The text of the bits is made of the written bits alone.  The two hexadecimal texts show
whole bytes of the source, so that the last digits may depend on bits behind the written
ones.  They do not where the rest of the last byte is zero, which a stream sees to and a
packet of whole bytes has no room to break; a packet with a count of bits of its own may
bring anything there.
-/

namespace BitCodec

namespace Hex

theorem digit_inj : ∀ a < 16, ∀ b < 16, digit a = digit b → a = b := by decide

theorem digits_inj {a b : List UInt8} (h : digits a = digits b) : a = b := by
  induction a generalizing b with
  | nil =>
    cases b with
    | nil => rfl
    | cons y b => cases h
  | cons x a ih =>
    cases b with
    | nil => cases h
    | cons y b =>
      obtain ⟨hhigh, hlow, hrest⟩ :
          digit (x.toNat / 16) = digit (y.toNat / 16) ∧
            digit (x.toNat % 16) = digit (y.toNat % 16) ∧ digits a = digits b := by
        simpa [digits] using h
      have hx := x.toNat_lt
      have hy := y.toNat_lt
      have hdiv := digit_inj _ (by omega) _ (by omega) hhigh
      have hmod := digit_inj _ (by omega) _ (by omega) hlow
      have hbyte : x.toNat = y.toNat := by omega
      rw [UInt8.toNat_inj.mp hbyte, ih hrest]

theorem encode_inj {a b : List UInt8} (h : encode a = encode b) : a = b :=
  digits_inj (String.ofList_injective h)

end Hex

/-! ## Texts -/

namespace Dump

open Decoder

def bitChar (bit : Bool) : Char :=
  if bit then '1' else '0'

/-- The groups of eight with one blank between two of them. -/
def bitString (bits : List Bool) : String :=
  " ".intercalate ((Bits.groups bits).map fun group => String.ofList (group.map bitChar))

/-- Inside a group no blank is set. -/
theorem grouped_inside {pos : Nat} {group : List Bool} (rest : List Bool) (hpos : pos % 8 ≠ 0)
    (hgroup : pos % 8 + group.length ≤ 8) :
    grouped pos (group ++ rest) = group.map bitChar ++ grouped (pos + group.length) rest := by
  induction group generalizing pos with
  | nil => rfl
  | cons bit group ih =>
    rw [List.length_cons] at hgroup
    have hnot : ¬(pos > 0 ∧ pos % 8 = 0) := fun h => hpos h.2
    have hrest : grouped (pos + 1) (group ++ rest) =
        group.map bitChar ++ grouped (pos + 1 + group.length) rest := by
      by_cases hend : (pos + 1) % 8 = 0
      · have hnone : group = [] := List.length_eq_zero_iff.mp (by omega)
        subst hnone
        rfl
      · exact ih hend (by omega)
    rw [List.cons_append, grouped, if_neg hnot, hrest, List.map_cons, List.cons_append,
      List.length_cons, Nat.add_assoc, Nat.add_comm 1, bitChar]

/-- A blank stands before every group but the first. -/
theorem grouped_group {pos : Nat} {bits : List Bool} (hpos : pos % 8 = 0) (hbits : bits ≠ []) :
    grouped pos bits = (if pos > 0 then [' '] else []) ++ (bits.take 8).map bitChar ++
      grouped (pos + 8) (bits.drop 8) := by
  obtain ⟨bit, rest, rfl⟩ := List.exists_cons_of_ne_nil hbits
  have hstart : (pos + 1) % 8 ≠ 0 := by omega
  have hlen : (pos + 1) % 8 + (rest.take 7).length ≤ 8 := by
    rw [List.length_take]
    omega
  have hinside := grouped_inside (rest.drop 7) hstart hlen
  rw [List.take_append_drop] at hinside
  have hnext : grouped (pos + 1 + (rest.take 7).length) (rest.drop 7) =
      grouped (pos + 8) (rest.drop 7) := by
    by_cases hfull : 7 ≤ rest.length
    · rw [List.length_take, Nat.min_eq_left hfull]
    · rw [List.drop_of_length_le (by omega)]
      rfl
  rw [grouped, hinside, hnext]
  simp only [hpos, and_true, List.take_succ_cons, List.drop_succ_cons, List.map_cons, bitChar]
  split <;> simp

@[simp] theorem bitString_nil : bitString [] = "" := by
  simp [bitString]

theorem bitString_cons {bits : List Bool} (h : bits ≠ []) :
    bitString bits = String.ofList ((bits.take 8).map bitChar) ++
      ((if bits.drop 8 ≠ [] then " " else "") ++ bitString (bits.drop 8)) := by
  by_cases hlast : bits.drop 8 = []
  · rw [hlast, bitString_nil, bitString, Bits.groups_cons h, hlast]
    simp
  · have hmore : (Bits.groups (bits.drop 8)).map
        (fun group => String.ofList (group.map bitChar)) ≠ [] := by
      rw [Bits.groups_cons hlast]
      exact List.cons_ne_nil _ _
    rw [bitString, Bits.groups_cons h, List.map_cons, String.intercalate_cons_of_ne_nil hmore,
      if_pos hlast, String.append_assoc, bitString]

theorem grouped_eq {pos : Nat} (bits : List Bool) (hpos : pos % 8 = 0) :
    String.ofList (grouped pos bits) =
      (if pos > 0 ∧ bits ≠ [] then " " else "") ++ bitString bits := by
  induction hlen : bits.length using Nat.strongRecOn generalizing pos bits with
  | ind n ih =>
    subst hlen
    by_cases hbits : bits = []
    · subst hbits
      simp [grouped]
    · have hshort : (bits.drop 8).length < bits.length := by
        have := List.length_pos_iff.mpr hbits
        rw [List.length_drop]
        omega
      have hrest := @ih _ hshort (pos + 8) (bits.drop 8) (by omega) rfl
      have hblank : pos + 8 > 0 ∧ bits.drop 8 ≠ [] ↔ bits.drop 8 ≠ [] :=
        and_iff_right (by omega)
      simp only [hblank] at hrest
      rw [grouped_group hpos hbits, String.ofList_append, String.ofList_append, hrest,
        bitString_cons hbits, String.append_assoc]
      simp only [hbits, ne_eq, not_false_eq_true, and_true]
      congr 1
      split <;> rfl

/-- Without its blanks the text is the bits. -/
theorem filter_grouped (pos : Nat) (bits : List Bool) :
    (grouped pos bits).filter (· != ' ') = bits.map bitChar := by
  induction bits generalizing pos with
  | nil => rfl
  | cons bit rest ih =>
    have hbit : (bitChar bit != ' ') = true := by cases bit <;> rfl
    have hchar : (if bit = true then '1' else '0') = bitChar bit := rfl
    unfold grouped
    simp only [hchar]
    split <;> simp [hbit, ih]

theorem grouped_bitString (bits : List Bool) :
    String.ofList (grouped 0 bits) = bitString bits := by
  rw [grouped_eq bits rfl]
  simp

theorem filter_bitString (bits : List Bool) :
    (bitString bits).toList.filter (· != ' ') = bits.map bitChar := by
  rw [← grouped_bitString, String.toList_ofList, filter_grouped]

end Dump

/-! ## Bytes -/

namespace Payload

/-- The rest of the last byte is zero. -/
def Clear (p : Payload) : Prop :=
  Bits.ClearFrom p.data p.bits

variable {p : Payload}

/-- The bytes are the packed bits exactly where nothing else is in them. -/
theorem Sound.bytes_eq_iff (hp : p.Sound) : p.bytes = Bits.packed false p.string ↔ p.Clear :=
  Array.toList_inj.trans (Bits.extract_eq_packed_iff hp)

theorem clear_of_whole (h : p.bits % 8 = 0) : p.Clear :=
  Bits.clearFrom_of_aligned h

end Payload

theorem Stream.Sound.clear_payload {s : Stream} (h : s.Sound) : s.payload.Clear := by
  intro i hlow hhigh
  have hextract : Bits.bitAt s.payload.data i = Bits.bitAt s.buffer i :=
    Bits.bitAt_extract hhigh
  rw [hextract]
  exact h.clear i hlow hhigh

/-! ## Sources -/

namespace Slot

variable {slot : Slot}

theorem Sound.bitText_eq (h : slot.Sound) :
    decoding Dump.bitText slot = ⟨.value (Dump.bitString slot.written), slot, []⟩ := by
  rw [decoding_run, Dump.bitText_run h.payload, withRead_self, Dump.grouped_bitString, written]

theorem Sound.hexFrom_eq (h : slot.Sound) {start : Nat}
    (hstart : start ≤ slot.payload.writtenBytes) :
    decoding (Dump.hexFrom start) slot =
      ⟨.value (Hex.encode (slot.payload.bytes.drop start)), slot, []⟩ := by
  rw [decoding_run, Dump.hexFrom_run h.payload hstart, withRead_self]

theorem Sound.hexText_eq (h : slot.Sound) :
    decoding Dump.hexText slot = ⟨.value (Hex.encode slot.payload.bytes), slot, []⟩ :=
  h.hexFrom_eq (Nat.zero_le _)

/-- The bytes before the one that holds the read position are left out. -/
theorem Sound.unreadHexText_eq (h : slot.Sound) :
    decoding Dump.unreadHexText slot =
      ⟨.value (Hex.encode (slot.payload.bytes.drop (slot.cursor.read / 8))), slot, []⟩ := by
  have hread := h.read_le
  have hstart : slot.cursor.read / 8 ≤ slot.payload.writtenBytes := by
    unfold Payload.writtenBytes bytesOfBits
    omega
  exact h.hexFrom_eq hstart

/-- The text shows bytes, and no two lists of bytes have one text. -/
theorem Sound.hexText_shows (h : slot.Sound) (bytes : List UInt8) :
    slot.hexText = .value (Hex.encode bytes) ↔ slot.payload.bytes = bytes := by
  rw [hexText, h.hexText_eq]
  constructor
  · intro hsame
    exact Hex.encode_inj (Ending.value.inj hsame)
  · intro hbytes
    rw [hbytes]

theorem Sound.hexText_iff (h : slot.Sound) :
    slot.hexText = .value (Hex.encode (Bits.packed false slot.written)) ↔ slot.payload.Clear := by
  rw [h.hexText_shows, ← h.payload.bytes_eq_iff, written]

/-- What the dumps of a source with any history show.

* The text of the bits has one blank between two groups of eight, and is the written bits
  without its blanks.
* The hexadecimal texts show the bytes with written bits, all of them or those from the
  one that holds the read position on.
* These are the written bits packed from the high end of each byte exactly where the rest
  of the last one is zero.  It is for streams, for views of them, and for everything that
  ends with a whole byte.
* Two such sources with the same written bits have the same hexadecimal text. -/
theorem dumps_show_written_bits (h : slot.Reached) :
    decoding Dump.bitText slot = ⟨.value (Dump.bitString slot.written), slot, []⟩ ∧
      (Dump.bitString slot.written).toList.filter (· != ' ') = slot.written.map Dump.bitChar ∧
      decoding Dump.hexText slot = ⟨.value (Hex.encode slot.payload.bytes), slot, []⟩ ∧
      decoding Dump.unreadHexText slot =
        ⟨.value (Hex.encode (slot.payload.bytes.drop (slot.cursor.read / 8))), slot, []⟩ ∧
      (slot.hexText = .value (Hex.encode (Bits.packed false slot.written)) ↔
        slot.payload.Clear) ∧
      (∀ s, slot.stream? = some s → slot.payload.Clear ∧ (packet s.view).payload.Clear) ∧
      (slot.payload.bits % 8 = 0 → slot.payload.Clear) ∧
      ∀ other : Slot, other.Reached → slot.payload.Clear → other.payload.Clear →
        slot.written = other.written → slot.hexText = other.hexText := by
  have hsound := h.sound
  refine ⟨hsound.bitText_eq, Dump.filter_bitString _, hsound.hexText_eq,
    hsound.unreadHexText_eq, hsound.hexText_iff, ?streams, Payload.clear_of_whole, ?same⟩
  case streams =>
    intro s hs
    have hclear := (hsound.stream hs).clear_payload
    cases slot with
    | packet r => cases hs
    | owned stream | pooled pool stream =>
      cases hs
      exact ⟨hclear, hclear⟩
  case same =>
    intro other hother hleft hright hbits
    rw [hsound.hexText_iff.mpr hleft, hother.sound.hexText_iff.mpr hright, hbits]

set_option maxRecDepth 20000 in
/-- A view of a stream of nine bits, and a packet with the same bits. -/
theorem dumps_show_written_bits_nine :
    let stream := ((WriteRequest.bits [0xA5, 0xFF] 9 false).run Stream.empty).state
    let slot := Slot.packet stream.view
    let other := Slot.packet (Reader.ofPayload ⟨#[0xA5, 0x80], 9, defaultReadLimit⟩)
    slot.Reached ∧ other.Reached ∧ slot.payload.Clear ∧ other.payload.Clear ∧
      slot.written = other.written ∧ slot.hexText = other.hexText ∧
      other.hexText = .value (Hex.encode [0xA5, 0x80]) := by
  intro stream slot other
  let history : List (String × SessionRequest) :=
    [("a", .make .empty), ("a", .write (.bits [0xA5, 0xFF] 9 false))]
  have hstream : (owned stream).Reached :=
    .held (show (Session.after history).slot? "a" = some (owned stream) from rfl)
  have hslot : slot.Reached := .viewed hstream rfl
  have hother : other.Reached :=
    .held (show (Session.after [("b", .receiveBits [0xA5, 0x80] 9)]).slot? "b" =
      some other from rfl)
  have hrest : ∀ i < 8 * bytesOfBits 9, 9 ≤ i → Bits.bitAt #[0xA5, 0x80] i = false := by decide
  have hright : other.payload.Clear := fun i hlow hhigh => hrest i hhigh hlow
  have hleft : slot.payload.Clear := (hstream.sound.stream rfl).clear_payload
  have hwritten : slot.written = other.written := by decide +kernel
  have hsame := (dumps_show_written_bits hslot).2.2.2.2.2.2.2 other hother hleft hright hwritten
  have htext : other.hexText = .value (Hex.encode [0xA5, 0x80]) :=
    (hother.sound.hexText_shows _).mpr (by decide)
  exact ⟨hslot, hother, hleft, hright, hwritten, hsame, htext⟩

/-- Two packets with the same three bits and other bits behind them in their only byte.
The text of one of them is not that of its bits. -/
theorem dumps_show_garbage :
    let slot := Slot.packet (Reader.ofPayload ⟨#[0xFF], 3, defaultReadLimit⟩)
    let other := Slot.packet (Reader.ofPayload ⟨#[0xE0], 3, defaultReadLimit⟩)
    slot.Reached ∧ other.Reached ∧ slot.written = other.written ∧
      slot.hexText ≠ other.hexText ∧
      slot.hexText ≠ .value (Hex.encode (Bits.packed false slot.written)) := by
  intro slot other
  have hslot : slot.Reached :=
    .held (show (Session.after [("a", .receiveBits [0xFF] 3)]).slot? "a" = some slot from rfl)
  have hother : other.Reached :=
    .held (show (Session.after [("b", .receiveBits [0xE0] 3)]).slot? "b" = some other from rfl)
  have hpacked : Bits.packed false slot.written = [0xE0] := by decide
  have hdiffer : slot.hexText ≠ .value (Hex.encode [0xE0]) := by
    rw [ne_eq, hslot.sound.hexText_shows]
    decide
  have hbytes : other.hexText = .value (Hex.encode [0xE0]) :=
    (hother.sound.hexText_shows _).mpr (by decide)
  exact ⟨hslot, hother, by decide, by rwa [hbytes], by rwa [hpacked]⟩

end Slot

end BitCodec
