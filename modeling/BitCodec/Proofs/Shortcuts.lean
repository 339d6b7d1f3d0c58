import BitCodec.Proofs.ReadProgram

/-!
# Shortcuts change nothing

Single bits, whole numbers at a byte boundary, aligned blocks and padding have operations of
their own beside the copy of bits.  On an arbitrary buffer they differ from it: a copy clears
the rest of the byte it ends in, a single bit keeps it.  On a sound stream that rest is clear,
so both are splices of the same string, and a splice is determined by its string.

Room is the other half.  Two operations that append one string in one step ask for it alike.
An aligned block and padding take a different number of steps than their long forms, but moving
to a byte boundary never grows a buffer of whole bytes.
-/

namespace BitCodec

open Decoder

namespace Stream

variable {s s₁ s₂ : Stream} {first second bits : List Bool} {body other : Encoder Unit}

/-! ## One string, one trace -/

/-- The string decides the whole trace: the buffer with all of its bytes, the positions, and
what an observer sees of growth. -/
theorem Appends.unique (h : Appends body s bits) (hother : Appends other s bits) :
    body s = other s := by
  obtain ⟨t, hrun, hext⟩ := h
  obtain ⟨u, hrun', hext'⟩ := hother
  rw [hrun, hrun', hext.unique hext']

namespace Extended

/-- A string that finds room leaves the capacity as it was, so that the next one asks for room
as both together do. -/
theorem growth_eq (h : s.Extended first s₁)
    (hroom : s.cursor.write + first.length ≤ 8 * s.capacity) (count : Nat) :
    s₁.growth count = s.growth (first.length + count) ∧
      (s₁.roomFor count).buffer.size = (s.roomFor (first.length + count)).buffer.size := by
  have hcapacity : s₁.capacity = s.capacity := by
    rw [h.capacity_eq, (roomFor_of_room hroom).1]
  have hspilled : s₁.isSpilled = s.isSpilled := by rw [isSpilled, hcapacity, isSpilled]
  have hbuffer : s₁.buffer.size = s.buffer.size := hcapacity
  unfold growth roomFor
  rw [h.cursor_eq, hcapacity, hspilled]
  simp only [Nat.add_assoc]
  refine ⟨trivial, ?_⟩
  split
  · simp only [Array.size_append, hbuffer]
  · exact hbuffer

theorem append (h : s.Extended first s₁) (h' : s₁.Extended second s₂)
    (hroom : s.cursor.write + first.length ≤ 8 * s.capacity) :
    s.Extended (first ++ second) s₂ := by
  have hsplice := h.splice
  rw [(roomFor_of_room hroom).1] at hsplice
  -- The first string in the room that both together get.
  have hmid : Bits.Spliced (s.roomFor (first.length + second.length)).buffer s.cursor.write first
      (s₁.roomFor second.length).buffer := by
    refine ⟨(h.growth_eq hroom second.length).2, ?_, ?_, ?_, ?_, ?_⟩
    · intro i hi
      rw [roomFor_bitAt, roomFor_bitAt, hsplice.before i hi]
    · refine (Bits.slice_congr fun i _ _ => ?_).trans hsplice.inside
      rw [roomFor_bitAt]
    · intro hfirst i hlow hhigh
      rw [roomFor_bitAt, hsplice.tail hfirst i hlow hhigh]
    · intro i hi
      rw [roomFor_bitAt, roomFor_bitAt, hsplice.after i hi]
    · intro hfirst
      refine Bits.buffer_ext (h.growth_eq hroom second.length).2 fun i _ => ?_
      rw [roomFor_bitAt, roomFor_bitAt, hsplice.empty hfirst]
  have hsecond := h'.splice
  rw [h.cursor_eq] at hsecond
  refine ⟨?_, ?_, h'.limit_eq.trans h.limit_eq⟩
  · rw [List.length_append]
    exact hmid.append hsecond
  · rw [h'.cursor_eq, h.cursor_eq, List.length_append, Nat.add_assoc]

end Extended

/-- Two steps append what one step appends when the first of them finds room. -/
theorem Appends.bind (h : Appends body s first)
    (hroom : s.cursor.write + first.length ≤ 8 * s.capacity)
    (hother : ∀ s₁, s.Extended first s₁ → Appends other s₁ second) :
    Appends (body >>= fun _ => other) s (first ++ second) := by
  obtain ⟨s₁, hrun, hext⟩ := h
  obtain ⟨s₂, hrun', hext'⟩ := hother s₁ hext
  refine ⟨s₂, ?_, hext.append hext' hroom⟩
  rw [Action.bind_trace hrun, hrun', (roomFor_of_room hroom).2, List.nil_append,
    (hext.growth_eq hroom second.length).1, List.length_append]

/-! ## Writing -/

theorem Sound.alignUp_le_capacity (h : s.Sound) : alignUp s.cursor.write ≤ 8 * s.capacity := by
  have := h.write_le
  unfold alignUp
  omega

/-- The bit that a copy of one bit takes from the front of a byte string. -/
theorem taken_one (byte : UInt8) (rest : List UInt8) (right : Bool) :
    Bits.taken (byte :: rest) 1 right = [byte.toNat.testBit (if right then 0 else 7)] := by
  have hbyte : Bits.ofByte byte = Bits.ofNumber 8 byte.toNat := by
    rw [← Bits.ofByte_ofNat, UInt8.ofNat_toNat]
  unfold Bits.taken
  rw [if_neg (by omega), hbyte]
  cases right <;> rfl

theorem writeBits_one (h : s.Sound) (byte : UInt8) (rest : List UInt8) (right : Bool) :
    writeBits (byte :: rest) 1 right s =
      writeBit (byte.toNat.testBit (if right then 0 else 7)) s := by
  have hcopy : Appends (writeBits (byte :: rest) 1 right) s (Bits.taken (byte :: rest) 1 right) :=
    writeBits_run h right (Nat.le_add_left 1 rest.length)
  rw [taken_one] at hcopy
  exact hcopy.unique (writeBit_run h _)

theorem writeAligned_eq (h : s.Sound) (haligned : s.cursor.write % 8 = 0) (t : IntType)
    (v : t.Value) : writeAligned t.bytes v.toNat s = Prim.write (.int t) v s := by
  have hlen : (Octets.be t.bytes v.toNat).length = t.bytes := Octets.length_be t.bytes v.toNat
  have hsome : Octets.be t.bytes v.toNat ≠ [] := by
    rw [← List.length_pos_iff, hlen]
    cases t <;> decide
  have hcopy := writeBytes_run h (Octets.be t.bytes v.toNat)
  unfold writeBytes at hcopy
  rw [hlen] at hcopy
  exact (writeWhole_run h hsome haligned).unique hcopy

theorem writeAlignedBytes_eq (h : s.Sound) {source : List UInt8} (hsource : source ≠ []) :
    writeAlignedBytes source s = (align >>= fun _ => writeBytes source) s := by
  obtain ⟨s₁, hrun, hext⟩ := align_run h
  have hsound := hext.sound h
  have hempty : ¬source.isEmpty = true := by simpa using hsource
  have hblock := setBytes_run hsound hsource hext.aligned
  unfold writeAlignedBytes
  rw [if_neg hempty, Action.bind_trace hrun, Action.bind_trace hrun,
    hblock.unique (writeBytes_run hsound source)]

/-- Zero bits up to a byte boundary and zero bytes from there on make the padding. -/
theorem padding_zeros {pos bytes : Nat} (h : pos < 8 * bytes) :
    padding pos ++ Bits.ofBytes (List.replicate (bytes - bytesOfBits pos) 0) =
      List.replicate (8 * bytes - pos) false := by
  have hcount : alignUp pos - pos + 8 * (bytes - bytesOfBits pos) = 8 * bytes - pos := by
    unfold alignUp bytesOfBits
    omega
  rw [padding, Bits.ofBytes_zeros, List.replicate_append_replicate, hcount]

theorem padTo_eq (h : s.Sound) {bytes : Nat} (hword : 8 * bytes < 2 ^ 64) :
    padTo bytes s =
      if s.cursor.write < 8 * bytes then
        (align >>= fun _ =>
          writeBytes (List.replicate (bytes - s.cursor.writtenBytes) 0)) s
      else ⟨.value (), s, []⟩ := by
  have htarget : bitsOfBytes bytes = 8 * bytes := Nat.mod_eq_of_lt hword
  have hpad := padTo_run h bytes
  rw [htarget] at hpad
  split
  · next hmore =>
    have hroom : s.cursor.write + (padding s.cursor.write).length ≤ 8 * s.capacity := by
      rw [add_padding]
      exact h.alignUp_le_capacity
    have hsteps := (align_run h).bind hroom fun _ hext =>
      writeBytes_run (hext.sound h) (List.replicate (bytes - s.cursor.writtenBytes) 0)
    rw [Cursor.writtenBytes, padding_zeros hmore] at hsteps
    exact hpad.unique hsteps
  · next henough =>
    have hnone : 8 * bytes - s.cursor.write = 0 := by omega
    rw [hnone] at hpad
    have hstill : Appends (pure ()) s [] := h.appends_nil rfl
    exact hpad.unique hstill

end Stream

/-! ## Reading -/

namespace Decoder

variable {p : Payload} {pos : Nat}

theorem packed_one (bit right : Bool) :
    Bits.packed right [bit] = [if bit then if right then 1 else 128 else 0] := by
  cases bit <;> cases right <;> decide

theorem readBits_one (hp : p.Sound) (hpos : pos ≤ p.bits) (byte : UInt8) (rest : List UInt8)
    (right : Bool) :
    readBits (byte :: rest) 1 right p pos =
      (readBit >>= fun bit =>
        pure ((if bit then if right then 1 else 128 else 0) :: rest)) p pos := by
  have hdestination : bytesOfBits 1 ≤ (byte :: rest).length := Nat.le_add_left 1 rest.length
  have hbit := readBit_run hp hpos
  rw [readBits_run right hp hpos hdestination]
  split
  · next hroom =>
    rw [if_pos hroom] at hbit
    rw [bind_value hbit, Bits.slice_one, packed_one]
    rfl
  · next hroom =>
    rw [if_neg hroom] at hbit
    exact (bind_short hbit).symm

theorem readAligned_eq (hp : p.Sound) (hpos : pos ≤ p.bits) (haligned : pos % 8 = 0)
    (t : IntType) :
    (readAligned t.bytes >>= fun number => pure (BitVec.ofNat t.bits number)) p pos =
      Prim.read (.int t) p pos := by
  have hwhole := readAligned_run t.bytes hp hpos haligned
  have hbytes := readBytes_run t.bytes hp hpos
  unfold readBytes fillBytes at hbytes
  rw [List.length_replicate] at hbytes
  show _ = Prim.readPattern t.bytes t.bits p pos
  unfold Prim.readPattern
  by_cases hroom : 8 * t.bytes ≤ p.bits - pos
  · rw [if_pos hroom] at hwhole hbytes
    rw [bind_value hwhole, bind_value hbytes, Bits.ofBe_packed true (by simp)]
  · rw [if_neg hroom] at hwhole hbytes
    rw [bind_short hwhole, bind_short hbytes]

/-- A block is there or not for both ways of reading it; where it is not, the one gives back the
position and the other stays at the byte boundary. -/
theorem readAlignedBytes_eq (hp : p.Sound) {count : Nat} (hcount : 0 < count) :
    (readAlignedBytes count p pos).ending = ((align >>= fun _ => readBytes count) p pos).ending ∧
    (readAlignedBytes count p pos).effects =
      ((align >>= fun _ => readBytes count) p pos).effects ∧
    ((∃ bytes, (readAlignedBytes count p pos).ending = .value bytes ∧
        readAlignedBytes count p pos = (align >>= fun _ => readBytes count) p pos) ∨
      ∃ e, (readAlignedBytes count p pos).ending = .failed e ∧
        (readAlignedBytes count p pos).state = pos ∧
        ((align >>= fun _ => readBytes count) p pos).state = boundary p pos) := by
  have hsteps : (align >>= fun _ => readBytes count) p pos = readBytes count p (boundary p pos) :=
    bind_value (align_run p pos)
  rw [hsteps, readAlignedBytes_run hcount hp, readBytes_run count hp (boundary_le p pos)]
  by_cases hroom : 8 * count ≤ p.bits - boundary p pos
  · have hstart := boundary_aligned hcount hroom
    rw [if_pos hroom, if_pos hroom, hstart]
    exact ⟨rfl, rfl, .inl ⟨_, rfl, rfl⟩⟩
  · rw [if_neg hroom, if_neg hroom]
    exact ⟨rfl, rfl, .inr ⟨_, rfl, rfl, rfl⟩⟩

end Decoder

/-! ## The result -/

namespace Slot

theorem withRead_self (slot : Slot) : slot.withRead slot.cursor.read = slot := by
  cases slot <;> rfl

/-- On every stream and every source that a history can lead to, each shortcut is its long form.

* Writing: the traces are equal, so the streams agree in every byte of their buffers, in both
  positions and in the cap, and every counter sees the same growth.  One bit is a copy of one
  bit out of any byte string; a number at a byte boundary is a plain number; an aligned block
  is a move to the boundary and its bytes; padding is a move to the boundary and zero bytes, or
  nothing at all where enough bytes are written.
* Reading: one bit, and a number at a byte boundary, end alike and leave the source alike.  An
  aligned block is there exactly when its bytes are there behind a move to the boundary, and
  then the two leave the source alike; where it is not, both fail alike, and only the long form
  has moved. -/
theorem shortcuts_agree {slot : Slot} (hslot : slot.Reached) :
    (∀ s, slot.stream? = some s →
      (∀ (byte : UInt8) (rest : List UInt8) (right : Bool),
        Stream.writeBits (byte :: rest) 1 right s =
          Stream.writeBit (byte.toNat.testBit (if right then 0 else 7)) s) ∧
      (s.cursor.writeAligned = true → ∀ (t : IntType) (v : t.Value),
        Stream.writeAligned t.bytes v.toNat s = Prim.write (.int t) v s) ∧
      (∀ source : List UInt8, source ≠ [] →
        Stream.writeAlignedBytes source s =
          (Stream.align >>= fun _ => Stream.writeBytes source) s) ∧
      (∀ bytes : Nat, 8 * bytes < 2 ^ 64 →
        Stream.padTo bytes s =
          if s.cursor.write < 8 * bytes then
            (Stream.align >>= fun _ =>
              Stream.writeBytes (List.replicate (bytes - s.cursor.writtenBytes) 0)) s
          else ⟨.value (), s, []⟩)) ∧
    (∀ (byte : UInt8) (rest : List UInt8) (right : Bool),
      Slot.decoding (readBits (byte :: rest) 1 right) slot =
        Slot.decoding (readBit >>= fun bit =>
          pure ((if bit then if right then 1 else 128 else 0) :: rest)) slot) ∧
    (slot.cursor.readAligned = true → ∀ t : IntType,
      Slot.decoding (readAligned t.bytes >>= fun number =>
          pure (BitVec.ofNat t.bits number : t.Value)) slot =
        Slot.decoding (Prim.read (.int t)) slot) ∧
    (∀ count : Nat, 0 < count →
      let short := Slot.decoding (readAlignedBytes count) slot
      let long := Slot.decoding (Decoder.align >>= fun _ => readBytes count) slot
      short.ending = long.ending ∧ short.effects = long.effects ∧
        ((∃ bytes, short.ending = .value bytes ∧ short = long) ∨
          ∃ e, short.ending = .failed e ∧ short.state = slot ∧
            long.state = slot.withRead (boundary slot.payload slot.cursor.read))) := by
  have hsound := hslot.sound
  have hpayload := hsound.payload
  have hread := hsound.read_le
  refine ⟨fun s hs => ?_, fun byte rest right => ?_, fun haligned t => ?_, fun count hcount => ?_⟩
  · have hstream := hsound.stream hs
    refine ⟨Stream.writeBits_one hstream, fun haligned t v => ?_, fun source hsource => ?_,
      fun bytes hword => Stream.padTo_eq hstream hword⟩
    · exact Stream.writeAligned_eq hstream (by simpa [Cursor.writeAligned] using haligned) t v
    · exact Stream.writeAlignedBytes_eq hstream hsource
  · rw [decoding_run, decoding_run, readBits_one hpayload hread]
  · have hboundary : slot.cursor.read % 8 = 0 := by simpa [Cursor.readAligned] using haligned
    rw [decoding_run, decoding_run, readAligned_eq hpayload hread hboundary]
  · obtain ⟨hending, heffects, hstate⟩ := readAlignedBytes_eq hpayload hcount
    simp only [decoding_run]
    refine ⟨hending, heffects, ?_⟩
    rcases hstate with ⟨bytes, hvalue, hsame⟩ | ⟨e, hfailed, hstill, hmoved⟩
    · exact .inl ⟨bytes, hvalue, by rw [hsame]⟩
    · exact .inr ⟨e, hfailed, by rw [hstill, withRead_self], by rw [hmoved]⟩

set_option maxRecDepth 20000 in
/-- One bit is written over three old bytes: a copy of one bit, an aligned block and padding
leave the same buffer as their long forms, and where a byte is asked for both ways of reading
it fail.  Behind one byte a number of two bytes is the same at the boundary as anywhere. -/
theorem shortcuts_agree_over_old_bytes :
    let old := ((WriteRequest.bytes [0xFF, 0xFF, 0xFF]).run Stream.empty).state
    let s := ((WriteRequest.bit true).run ((WriteRequest.rewind .both).run old).state).state
    let t := Stream.ofBytes [0x80]
    (Slot.owned s).Reached ∧ (Slot.owned t).Reached ∧
      s.cursor = ⟨1, 0⟩ ∧ s.buffer[1]? = some 0xFF ∧
      Stream.writeBits [0xA5, 7] 1 true s = Stream.writeBit true s ∧
      Stream.writeAlignedBytes [7] s = (Stream.align >>= fun _ => Stream.writeBytes [7]) s ∧
      Stream.padTo 3 s = (Stream.align >>= fun _ => Stream.writeBytes [0, 0]) s ∧
      Stream.writeAligned 2 0x1234 t = Prim.write (.int .u16) 0x1234#16 t ∧
      (Slot.decoding (readAlignedBytes 1) (.owned s)).ending =
        (Slot.decoding (Decoder.align >>= fun _ => readBytes 1) (.owned s)).ending := by
  intro old s t
  let history : List (String × SessionRequest) :=
    [("a", .make .empty), ("a", .write (.bytes [0xFF, 0xFF, 0xFF])),
      ("a", .write (.rewind .both)), ("a", .write (.bit true))]
  have hs : (Slot.owned s).Reached :=
    .held (show (Session.after history).slot? "a" = some (.owned s) from rfl)
  have ht : (Slot.owned t).Reached :=
    .held (show (Session.after [("b", .make (.ofBytes [0x80]))]).slot? "b" = some (.owned t) from
      rfl)
  obtain ⟨hwrites, -, -, hblock⟩ := shortcuts_agree hs
  obtain ⟨hbit, -, haligned, hpad⟩ := hwrites s rfl
  obtain ⟨hnumbers, -⟩ := shortcuts_agree ht
  obtain ⟨-, hnumber, -⟩ := hnumbers t rfl
  have hcursor : s.cursor = ⟨1, 0⟩ := by decide +kernel
  have hboundary : t.cursor.writeAligned = true := by decide +kernel
  have hzeros := hpad 3 (by decide)
  rw [hcursor, if_pos (by decide)] at hzeros
  exact ⟨hs, ht, hcursor, by decide +kernel, hbit 0xA5 [7] true, haligned [7] (by decide),
    hzeros, hnumber hboundary .u16 0x1234#16, (hblock 1 Nat.one_pos).1⟩

end Slot

end BitCodec
