import BitCodec.Proofs.ReadProgram
import BitCodec.Proofs.Shortcuts

/-!
# Counts of bytes

Two calls are given a number of bytes and work on bits: passing over bytes, and padding
up to a length.  Both turn the one into the other with the same word arithmetic, so a
count is taken as its eightfold below `2 ^ 64`.  `Slot.Counts` says what either call does
with a count that is taken as so many bits; it holds of every source with any history, at
every position.  From `2 ^ 61` on the two counts differ.
-/

namespace BitCodec

namespace Slot

def unread (slot : Slot) : Nat :=
  slot.payload.bits - slot.cursor.read

/-- A number of bytes is taken as so many bits. -/
structure Counts (slot : Slot) (bytes bits : Nat) : Prop where
  passes : bits ≤ slot.unread →
    decoding (Decoder.skipBytes bytes) slot =
      ⟨.value (), slot.withRead (slot.cursor.read + bits), []⟩
  refuses : slot.unread < bits →
    decoding (Decoder.skipBytes bytes) slot =
      ⟨.failed (.insufficientPayload bits slot.unread), slot,
        [.payloadShort bits slot.unread slot.cursor.read]⟩
  pads : ∀ {s : Stream}, slot.stream? = some s →
    ∃ s' effects, Stream.padTo bytes s = ⟨.value (), s', effects⟩ ∧
      s.Grown (List.replicate (bits - s.cursor.write) false) s'

variable {slot : Slot} {bytes : Nat}

/-- The bits a count is taken as are those of the machine word. -/
theorem Sound.counts (h : slot.Sound) (bytes : Nat) : slot.Counts bytes (bitsOfBytes bytes) := by
  have hskip := Decoder.skip_run (bitsOfBytes bytes) h.read_le
  refine ⟨?passes, ?refuses, ?pads⟩
  case passes =>
    intro hroom
    have hfits : bitsOfBytes bytes ≤ slot.payload.bits - slot.cursor.read := hroom
    rw [if_pos hfits] at hskip
    rw [decoding_run, Decoder.skipBytes, hskip]
  case refuses =>
    intro hshort
    have hnot : ¬bitsOfBytes bytes ≤ slot.payload.bits - slot.cursor.read := by
      unfold unread at hshort
      omega
    rw [if_neg hnot] at hskip
    rw [decoding_run, Decoder.skipBytes, hskip]
    simp only [Decoder.short, withRead_self, unread]
  case pads =>
    intro s hs
    have hsound := h.stream hs
    obtain ⟨s', hrun, hgrown⟩ := Stream.padTo_run hsound bytes
    exact ⟨s', _, hrun, hgrown.grown hsound⟩

/-- Passing over bytes succeeds exactly where there are so many bits. -/
theorem Counts.value_iff {bits : Nat} (h : slot.Counts bytes bits) :
    (decoding (Decoder.skipBytes bytes) slot).ending = .value () ↔ bits ≤ slot.unread := by
  constructor
  · intro hvalue
    rcases Nat.lt_or_ge slot.unread bits with hshort | hroom
    · rw [h.refuses hshort] at hvalue
      cases hvalue
    · exact hroom
  · intro hroom
    rw [h.passes hroom]

/-- Behind the padding there are as many bits, and as many bytes, as were asked for. -/
theorem Counts.filled {bits : Nat} (h : slot.Counts bytes bits) {s s' : Stream}
    {effects : List Effect} (hs : slot.stream? = some s)
    (hrun : Stream.padTo bytes s = ⟨.value (), s', effects⟩) :
    bytesOfBits bits ≤ s'.cursor.writtenBytes := by
  obtain ⟨out, effects', hout, hgrown⟩ := h.pads hs
  have hsame : s' = out := congrArg Trace.state (hrun.symm.trans hout)
  have hwrite := hgrown.write_eq
  rw [List.length_replicate] at hwrite
  rw [hsame, Cursor.writtenBytes, hwrite, bytesOfBits, bytesOfBits]
  omega

/-- Every source with any history takes a count of bytes as that many bits of the machine
word.  Below `2 ^ 64` these are the bits of the bytes: passing over them succeeds where
they are all there and moves by all of them, and what padding leaves is as long as was
asked for. -/
theorem byte_counts (h : slot.Reached) (bytes : Nat) :
    slot.Counts bytes (8 * bytes % 2 ^ 64) ∧
      (8 * bytes < 2 ^ 64 →
        slot.Counts bytes (8 * bytes) ∧
        ((decoding (Decoder.skipBytes bytes) slot).ending = .value () ↔
          8 * bytes ≤ slot.unread) ∧
        ∀ s s' effects, slot.stream? = some s →
          Stream.padTo bytes s = ⟨.value (), s', effects⟩ → bytes ≤ s'.cursor.writtenBytes) := by
  have hcounts := h.sound.counts bytes
  rw [Stream.bitsOfBytes_eq] at hcounts
  refine ⟨hcounts, fun hword => ?_⟩
  rw [Nat.mod_eq_of_lt hword] at hcounts
  refine ⟨hcounts, hcounts.value_iff, fun s s' effects hs hrun => ?_⟩
  have hfilled := hcounts.filled hs hrun
  have hbytes : bytesOfBits (8 * bytes) = bytes := by
    unfold bytesOfBits
    omega
  rwa [hbytes] at hfilled

/-- A stream of two bytes, three of whose bits are read: one byte, and one byte and
`2 ^ 61` others, are eight bits. -/
theorem byte_counts_unaligned :
    let slot := Slot.owned { Stream.ofBytes [0xAB, 0xCD] with cursor := ⟨16, 3⟩ }
    slot.Reached ∧ slot.Counts (2 ^ 61 + 1) 8 ∧ slot.Counts 1 8 ∧
      ((decoding (Decoder.skipBytes 1) slot).ending = .value () ↔ 8 ≤ slot.unread) := by
  intro slot
  have hheld : (Slot.owned (Stream.ofBytes [0xAB, 0xCD])).Reached :=
    .held (show (Session.after [("a", .make (.ofBytes [0xAB, 0xCD]))]).slot? "a" = some _ from rfl)
  have hreached : slot.Reached := .read (.skip 3) hheld
  obtain ⟨hcounts, hvalue, -⟩ := (byte_counts hreached 1).2 (by decide)
  exact ⟨hreached, (byte_counts hreached (2 ^ 61 + 1)).1, hcounts, hvalue⟩

/-- The eightfold of `2 ^ 61` is lost in the word: on an empty stream so many bytes are
passed over, and padding up to them leaves nothing written. -/
theorem byte_counts_lost :
    let slot := Slot.owned Stream.empty
    slot.Reached ∧ 2 ^ 61 < 2 ^ 64 ∧ slot.unread < 8 * 2 ^ 61 ∧
      (decoding (Decoder.skipBytes (2 ^ 61)) slot).ending = .value () ∧
      (Stream.padTo (2 ^ 61) Stream.empty).ending = .value () ∧
      (Stream.padTo (2 ^ 61) Stream.empty).state.cursor.writtenBytes = 0 :=
  ⟨reached_empty, by decide, by decide, rfl, rfl, rfl⟩

end Slot

end BitCodec
