import BitCodec.Proofs.ShortestCodes

/-!
# Blocks keep their limits

The length of a block comes from whoever wrote the payload.  Reading compares it with the
reader's own maximum first, skips the padding only in front of bytes, as the writer adds it
only there, and takes the bytes only when the payload has all of them.  One equation says what
becomes of any payload: which of the four outcomes, and where the position is left.
-/

namespace BitCodec

open Decoder Code

/-! ## Whole bytes -/

theorem Bits.getBytes_toList {data : Array UInt8} {index count : Nat}
    (h : index + count ≤ data.size) :
    getBytes data index count = some ((data.toList.drop index).take count) := by
  induction count generalizing index with
  | zero => rfl
  | succ count ih =>
    have hindex : index < data.size := by omega
    have hdrop : data.toList.drop index = data[index] :: data.toList.drop (index + 1) := by
      rw [List.drop_eq_getElem_cons (by simpa using hindex), Array.getElem_toList]
    rw [getBytes, Array.getElem?_eq_getElem hindex, ih (by omega), hdrop]
    rfl

/-- The bits from a byte boundary on are those of the bytes there. -/
theorem Payload.packed_slice {p : Payload} {start count : Nat} (hp : p.Sound)
    (haligned : start % 8 = 0) (h : start + 8 * count ≤ p.bits) :
    Bits.packed true (Bits.slice p.data start (8 * count)) =
      (p.data.toList.drop (start / 8)).take count := by
  have hsize : start / 8 + count ≤ p.data.size := by
    unfold Payload.Sound at hp
    omega
  have hbits := getBytes_run hp haligned h
  rw [Bits.getBytes_toList hsize] at hbits
  exact (Option.some.inj hbits).symm

namespace Block

/-! ## Writing -/

/-- A length prefix, and unless it is zero the bytes behind zero bits up to a byte boundary. -/
def bitsFrom (start : Nat) (bytes : List UInt8) : List Bool :=
  let prefixBits := Mini.intBits .u32 (BitVec.ofNat 32 bytes.length)
  let stop := start + prefixBits.length
  prefixBits ++ if bytes = [] then [] else
    List.replicate (alignUp stop - stop) false ++ Bits.ofBytes bytes

theorem code_eq (bytes : List UInt8) : code bytes = fun start => bitsFrom start bytes := by
  funext start
  unfold code bitsFrom followedBy block
  by_cases hempty : bytes = []
  · simp [hempty, Code.none, fixed]
  · simp only [if_neg hempty]
    rfl

/-- What goes beyond the maximum is cut off before anything is written. -/
theorem write_take (source : List UInt8) (max : Nat) :
    Block.write source max = Block.write (source.take (min source.length max)) max := by
  have hlen : min (source.take (min source.length max)).length max = min source.length max := by
    rw [List.length_take]
    omega
  have htake : (source.take (min source.length max)).take (min source.length max) =
      source.take (min source.length max) := by
    rw [List.take_take, Nat.min_self]
  unfold Block.write
  dsimp only
  rw [hlen, htake]

theorem write_truncates (source : List UInt8) (max : Nat) :
    Emits (Block.write source max) (min source.length max)
      (code (source.take (min source.length max))) := by
  have hlen : (source.take (min source.length max)).length = min source.length max := by
    rw [List.length_take]
    omega
  have hfits : (source.take (min source.length max)).length ≤ max := by omega
  have hemits := write_emits hfits
  rwa [hlen, ← write_take] at hemits

/-! ## Reading -/

/-- What becomes of a block once its length was read. -/
theorem read_run {p : Payload} {pos stop : Nat} {length : IntType.u32.Value}
    (hp : p.Sound) (hlength : Mini.readInt .u32 p pos = ⟨.value length, stop, []⟩) (max : Nat) :
    Block.read max p pos =
      if length.toNat > max then ⟨.failed (.lengthLimitExceeded length.toNat max), stop, []⟩
      else if length.toNat = 0 then ⟨.value [], stop, []⟩
      else if alignUp stop + 8 * length.toNat ≤ p.bits then
        ⟨.value ((p.data.toList.drop (alignUp stop / 8)).take length.toNat),
          alignUp stop + 8 * length.toNat, []⟩
      else short p (boundary p stop) (8 * length.toNat) := by
  unfold Block.read
  rw [bind_value hlength]
  by_cases hlimit : length.toNat > max
  · rw [if_pos hlimit, if_pos hlimit]
    rfl
  by_cases hempty : length.toNat = 0
  · rw [if_neg hlimit, if_neg hlimit, if_pos hempty, if_pos hempty]
    rfl
  have hroom : 8 * length.toNat ≤ p.bits - boundary p stop ↔
      alignUp stop + 8 * length.toNat ≤ p.bits := by
    unfold boundary
    omega
  rw [if_neg hlimit, if_neg hlimit, if_neg hempty, if_neg hempty,
    alignedBlock_run (Nat.pos_of_ne_zero hempty) hp]
  by_cases hfits : alignUp stop + 8 * length.toNat ≤ p.bits
  · have hmod : alignUp stop % 8 = 0 := by simp [alignUp]
    rw [if_pos (hroom.mpr hfits), if_pos hfits, Payload.packed_slice hp hmod hfits]
  · rw [if_neg fun h => hfits (hroom.mp h), if_neg hfits]

theorem read_short {p : Payload} {pos bits : Nat} {place : Nat}
    (hlength : Mini.readInt .u32 p pos = short p place bits) (max : Nat) :
    Block.read max p pos = short p place bits :=
  bind_short hlength

/-- Reading the length ends inside the payload, with a number or with a short payload. -/
theorem length_ends {p : Payload} {pos : Nat} (hp : p.Sound) (hpos : pos ≤ p.bits) :
    (∃ (length : IntType.u32.Value) (stop : Nat), pos ≤ stop ∧ stop ≤ p.bits ∧
        Mini.readInt .u32 p pos = ⟨.value length, stop, []⟩) ∨
      ∃ place bits, Mini.readInt .u32 p pos = short p place bits := by
  rcases Mini.Extension.zeros.read_ends .u32 hp hpos with
    ⟨length, count, -, hrun⟩ | ⟨count, -, hrun | hrun⟩
  · have hstop := (Mini.Extension.zeros.read_canonical .u32).stays hp hpos hrun
    exact .inl ⟨length, _, Nat.le_add_right _ _, hstop, hrun⟩
  · exact .inr ⟨_, _, hrun⟩
  · exact .inr ⟨_, _, hrun⟩

/-- A block that is read is within the maximum, and all of it lies in the payload. -/
theorem length_read_le {p : Payload} {pos max stop : Nat} {block : List UInt8}
    {effects : List Effect} (hp : p.Sound) (hpos : pos ≤ p.bits)
    (hread : Block.read max p pos = ⟨.value block, stop, effects⟩) :
    block.length ≤ max ∧ pos + 8 * block.length ≤ stop ∧ stop ≤ p.bits := by
  rcases length_ends hp hpos with ⟨length, behind, hle, hbehind, hrun⟩ | ⟨place, bits, hrun⟩
  · have hup := (Stream.alignUp_le behind).1
    rw [read_run hp hrun max] at hread
    split at hread
    · cases hread
    · next hlimit =>
      split at hread
      · cases hread
        exact ⟨Nat.zero_le _, hle, hbehind⟩
      · split at hread
        · next hfits =>
          cases hread
          rw [List.length_take]
          refine ⟨?_, ?_, hfits⟩ <;> omega
        · cases hread
  · rw [read_short hrun max] at hread
    cases hread

/-- Under any maximum that it does not exceed, a block that was cut off comes back. -/
theorem takes_truncated (source : List UInt8) (written : BitVec 32) {max : Nat}
    (h : min source.length written.toNat ≤ max) :
    Takes (Block.read max) (source.take (min source.length written.toNat))
      (code (source.take (min source.length written.toNat))) := by
  have hlen : (source.take (min source.length written.toNat)).length =
      min source.length written.toNat := by
    rw [List.length_take]
    omega
  have hword := written.isLt
  exact read_takes (by omega) (by omega)

/-! ## The result -/

/-- Wherever a block is written and whatever a payload holds:

* The writer gives back how many bytes it sends, at most its maximum, and appends what the mini
  writer does for their number and, unless it is zero, the zero bits up to a byte boundary and
  the bytes.
* The reader ends as the length does where that falls short.  Otherwise it refuses exactly the
  lengths above its maximum, stops behind the length of an empty block, takes the bytes from
  the next byte boundary where the payload has all of them, and finds it too short elsewhere.
* So no block is longer than the maximum or reaches beyond the payload, and the cap of the
  payload is one such maximum.
* What was written under one maximum is read under every other that it does not exceed,
  wherever it stands and whatever follows. -/
theorem bounded_on_every_payload :
    (∀ length : IntType.u32.Value,
      Emits (Mini.write (.int .u32) length) () (fixed (Mini.intBits .u32 length))) ∧
    (∀ (source : List UInt8) (max : BitVec 32) (s : Stream), s.Sound →
      ∃ s' effects,
        Block.write source max.toNat s =
          ⟨.value (min source.length max.toNat), s', effects⟩ ∧
        s.Grown (bitsFrom s.cursor.write (source.take (min source.length max.toNat))) s') ∧
    (∀ (p : Payload) (pos max : Nat), p.Sound → pos ≤ p.bits →
      (∃ (length : IntType.u32.Value) (stop : Nat), stop ≤ p.bits ∧
        Mini.read (.int .u32) p pos = ⟨.value length, stop, []⟩ ∧
        Block.read max p pos =
          if length.toNat > max then
            ⟨.failed (.lengthLimitExceeded length.toNat max), stop, []⟩
          else if length.toNat = 0 then ⟨.value [], stop, []⟩
          else if alignUp stop + 8 * length.toNat ≤ p.bits then
            ⟨.value ((p.data.toList.drop (alignUp stop / 8)).take length.toNat),
              alignUp stop + 8 * length.toNat, []⟩
          else short p (min (alignUp stop) p.bits) (8 * length.toNat)) ∨
      ∃ place bits, Mini.read (.int .u32) p pos = short p place bits ∧
        Block.read max p pos = short p place bits) ∧
    (∀ (p : Payload) (pos max stop : Nat) (block : List UInt8) (effects : List Effect),
      p.Sound → pos ≤ p.bits → Block.read max p pos = ⟨.value block, stop, effects⟩ →
      block.length ≤ max ∧ pos + 8 * block.length ≤ stop ∧ stop ≤ p.bits) ∧
    (∀ (p : Payload) (pos : Nat), Block.readLimited p pos = Block.read p.limit p pos) ∧
    (∀ (source : List UInt8) (written : BitVec 32) (max : Nat),
      min source.length written.toNat ≤ max →
      Takes (Block.read max) (source.take (min source.length written.toNat))
          (fun start => bitsFrom start (source.take (min source.length written.toNat))) ∧
        ∀ s : Stream, s.Sound → ∃ s' effects,
          Block.write source written.toNat s =
            ⟨.value (min source.length written.toNat), s', effects⟩ ∧
          Block.read max s'.payload s.cursor.write =
            ⟨.value (source.take (min source.length written.toNat)), s'.cursor.write, []⟩) := by
  refine ⟨Mini.writeInt_emits .u32, ?_, ?_, ?_, fun _ _ => rfl, ?_⟩
  · intro source max s hs
    have hemits := write_truncates source max.toNat
    rw [code_eq] at hemits
    exact hemits hs
  · intro p pos max hp hpos
    rcases length_ends hp hpos with ⟨length, stop, -, hstop, hrun⟩ | ⟨place, bits, hrun⟩
    · exact .inl ⟨length, stop, hstop, hrun, read_run hp hrun max⟩
    · exact .inr ⟨place, bits, hrun, read_short hrun max⟩
  · intro p pos max stop block effects hp hpos hread
    exact length_read_le hp hpos hread
  · intro source written max hmax
    have htakes := takes_truncated source written hmax
    refine ⟨code_eq _ ▸ htakes, fun s hs => ?_⟩
    obtain ⟨s', effects, hwrite, -, hread⟩ :=
      (write_truncates source written.toNat).comes_back htakes hs
    exact ⟨s', effects, hwrite, hread⟩

/-- Of three bytes two are written under a maximum of two and come back.  One bit short of them
the payload is refused where the bytes begin, and under a maximum of one at the length. -/
theorem bounded_on_every_payload_two :
    (∃ s' effects,
      Block.write [0xAA, 0xBB, 0xCC] (2#32).toNat Stream.empty = ⟨.value 2, s', effects⟩ ∧
        Block.read 2 s'.payload 0 = ⟨.value [0xAA, 0xBB], s'.cursor.write, []⟩) ∧
    ∃ p : Payload, p.data = #[0x81, 0x00, 0xAA, 0xBB] ∧ p.bits = 31 ∧
      Block.read 2 p 0 = short p 16 16 ∧
      Block.read 1 p 0 = ⟨.failed (.lengthLimitExceeded 2 1), 10, []⟩ := by
  obtain ⟨-, -, hread, -, -, hback⟩ := bounded_on_every_payload
  refine ⟨?_, ⟨#[0x81, 0x00, 0xAA, 0xBB], 31, 12⟩, rfl, rfl, ?_⟩
  · obtain ⟨-, hcomesBack⟩ := hback [0xAA, 0xBB, 0xCC] 2#32 2 (by decide)
    exact hcomesBack Stream.empty (Stream.withRoom_sound 0)
  · have hsound : Payload.Sound ⟨#[0x81, 0x00, 0xAA, 0xBB], 31, 12⟩ := by
      unfold Payload.Sound
      decide
    have hlength : Mini.read (.int .u32) ⟨#[0x81, 0x00, 0xAA, 0xBB], 31, 12⟩ 0 =
        ⟨.value 2#32, 10, []⟩ := rfl
    refine ⟨?_, ?_⟩
    · obtain ⟨_, _, -, hrun, hblock⟩ | ⟨_, _, hrun, -⟩ := hread _ 0 2 hsound (Nat.zero_le _)
      · cases hlength.symm.trans hrun
        exact hblock
      · cases hlength.symm.trans hrun
    · obtain ⟨_, _, -, hrun, hblock⟩ | ⟨_, _, hrun, -⟩ := hread _ 0 1 hsound (Nat.zero_le _)
      · cases hlength.symm.trans hrun
        exact hblock
      · cases hlength.symm.trans hrun

end Block

end BitCodec
