import BitCodec.Proofs.Copying
import BitCodec.Proofs.Runs

/-!
# What the reading operations do

A sound payload has bytes for all of its written bits.  From a position inside it
every basic reading operation is described by one equation: the bits it takes off
the string of written bits, or `short`, the outcome of asking for more than is
left.
-/

namespace BitCodec

/-! ## Payloads -/

namespace Payload

def string (p : Payload) : List Bool :=
  Bits.slice p.data 0 p.bits

@[simp] theorem length_string (p : Payload) : p.string.length = p.bits := by
  simp [string]

/-- There are bytes for all written bits. -/
def Sound (p : Payload) : Prop :=
  p.bits ≤ 8 * p.data.size

theorem slice_eq {p : Payload} {pos count : Nat} (h : pos + count ≤ p.bits) :
    Bits.slice p.data pos count = (p.string.drop pos).take count := by
  have hend : pos + count ≤ 0 + p.bits := by omega
  rw [string, Bits.slice_part p.data (Nat.zero_le pos) hend, Nat.sub_zero]

theorem ofBytes_sound (data : List UInt8) : (ofBytes data).Sound := by
  simp [Sound, ofBytes]

theorem ofBits_sound {data : List UInt8} {bits : Nat} {p : Payload} (h : ofBits data bits = .ok p) :
    p.Sound := by
  unfold ofBits at h
  split at h
  · cases h
  · cases h
    simp only [Sound, bytesOfBits, List.size_toArray, List.length_take]
    omega

end Payload

namespace Decoder

variable {α β : Type}

/-- Nothing was moved, the failure gives the figures, and an observer saw a
short payload. -/
def short (p : Payload) (pos bits : Nat) : Trace Nat α :=
  ⟨.failed (.insufficientPayload bits (p.bits - pos)), pos,
    [.payloadShort bits (p.bits - pos) pos]⟩

variable {body : Decoder α} {next : α → Decoder β} {p : Payload} {pos pos' : Nat} {a : α}

theorem bind_trace {effects : List Effect} (h : body p pos = ⟨.value a, pos', effects⟩) :
    (body >>= next) p pos =
      ⟨(next a p pos').ending, (next a p pos').state, effects ++ (next a p pos').effects⟩ :=
  Action.bind_trace h

theorem bind_value (h : body p pos = ⟨.value a, pos', []⟩) :
    (body >>= next) p pos = next a p pos' :=
  Action.bind_value h

theorem bind_failed {e : Failure} {effects : List Effect}
    (h : body p pos = ⟨.failed e, pos', effects⟩) :
    (body >>= next) p pos = ⟨.failed e, pos', effects⟩ :=
  Action.bind_failed h

theorem bind_broken {b : Breach} {effects : List Effect}
    (h : body p pos = ⟨.broken b, pos', effects⟩) :
    (body >>= next) p pos = ⟨.broken b, pos', effects⟩ :=
  Action.bind_broken h

theorem bind_short {bits : Nat} (h : body p pos = short p pos' bits) :
    (body >>= next) p pos = short p pos' bits :=
  bind_failed h

/-! ## Looking and moving -/

theorem payload_run (p : Payload) (pos : Nat) : payload p pos = ⟨.value p, pos, []⟩ := rfl

theorem position_run (p : Payload) (pos : Nat) : position p pos = ⟨.value pos, pos, []⟩ := rfl

theorem pure_run (a : α) (p : Payload) (pos : Nat) :
    (pure a : Decoder α) p pos = ⟨.value a, pos, []⟩ := rfl

theorem demand_run {kept : Bool} (h : kept = true) (b : Breach) (p : Payload) (pos : Nat) :
    demand kept b p pos = ⟨.value (), pos, []⟩ :=
  Action.demand_true h b

theorem inBounds_run (a : α) (p : Payload) (pos : Nat) :
    inBounds (some a) p pos = ⟨.value a, pos, []⟩ := rfl

theorem available_run (h : pos ≤ p.bits) : available p pos = ⟨.value (p.bits - pos), pos, []⟩ := by
  unfold available
  rw [bind_value (payload_run p pos), bind_value (position_run p pos),
    bind_value (demand_run (decide_eq_true h) .bounds p pos)]
  rfl

theorem need_run (bits : Nat) (h : pos ≤ p.bits) :
    need bits p pos = if bits ≤ p.bits - pos then ⟨.value (), pos, []⟩ else short p pos bits := by
  unfold need
  rw [bind_value (available_run h)]
  by_cases hbits : bits ≤ p.bits - pos
  · have hnot : ¬bits > p.bits - pos := by omega
    rw [if_neg hnot, if_pos hbits]
    rfl
  · have hmore : bits > p.bits - pos := by omega
    rw [if_pos hmore, if_neg hbits]
    rfl

theorem advance_run {bits : Nat} (h : pos + bits ≤ p.bits) :
    advance bits p pos = ⟨.value (), pos + bits, []⟩ := by
  unfold advance
  rw [bind_value (payload_run p pos), bind_value (position_run p pos),
    bind_value (demand_run (decide_eq_true h) .bounds p pos)]
  rfl

theorem skip_run (bits : Nat) (h : pos ≤ p.bits) :
    skip bits p pos =
      if bits ≤ p.bits - pos then ⟨.value (), pos + bits, []⟩ else short p pos bits := by
  unfold skip
  have hneed := need_run bits h
  by_cases hbits : bits ≤ p.bits - pos
  · rw [if_pos hbits] at hneed ⊢
    rw [bind_value hneed, advance_run (by omega)]
  · rw [if_neg hbits] at hneed ⊢
    exact bind_short hneed

/-- Where a block at the next byte boundary begins; never past the end. -/
def boundary (p : Payload) (pos : Nat) : Nat :=
  min (alignUp pos) p.bits

theorem boundary_le (p : Payload) (pos : Nat) : boundary p pos ≤ p.bits :=
  Nat.min_le_right _ _

theorem align_run (p : Payload) (pos : Nat) : align p pos = ⟨.value (), boundary p pos, []⟩ := rfl

/-! ## Taking bits -/

theorem readBits_run {destination : List UInt8} {bits : Nat} (right : Bool) (hp : p.Sound)
    (h : pos ≤ p.bits) (hroom : bytesOfBits bits ≤ destination.length) :
    readBits destination bits right p pos =
      if bits ≤ p.bits - pos then
        ⟨.value (Bits.packed right (Bits.slice p.data pos bits) ++
          destination.drop (bytesOfBits bits)), pos + bits, []⟩
      else short p pos bits := by
  unfold readBits
  rw [bind_value (demand_run (decide_eq_true hroom) _ p pos)]
  by_cases hzero : bits = 0
  · subst hzero
    rw [if_pos rfl, if_pos (Nat.zero_le _)]
    simp [pure_run, bytesOfBits]
  rw [if_neg hzero]
  have hneed := need_run bits h
  by_cases hbits : bits ≤ p.bits - pos
  · unfold Payload.Sound at hp
    rw [if_pos hbits] at hneed ⊢
    rw [bind_value hneed, bind_value (payload_run p pos), bind_value (position_run p pos),
      Bits.copyOut_eq right hroom (by omega), bind_value (inBounds_run _ p pos),
      bind_value (advance_run (by omega)), pure_run]
  · rw [if_neg hbits] at hneed ⊢
    exact bind_short hneed

theorem readBytes_run (count : Nat) (hp : p.Sound) (h : pos ≤ p.bits) :
    readBytes count p pos =
      if 8 * count ≤ p.bits - pos then
        ⟨.value (Bits.packed true (Bits.slice p.data pos (8 * count))), pos + 8 * count, []⟩
      else short p pos (8 * count) := by
  have hlen : (List.replicate count (0 : UInt8)).length = count := List.length_replicate
  have hroom : bytesOfBits (8 * count) = count := by
    unfold bytesOfBits
    omega
  have hdestination : bytesOfBits (8 * count) ≤ (List.replicate count (0 : UInt8)).length := by
    omega
  have hrun := readBits_run true hp h hdestination
  rw [hroom, List.drop_of_length_le (by omega), List.append_nil] at hrun
  rw [readBytes, fillBytes, hlen, hrun]

theorem readBit_run (hp : p.Sound) (h : pos ≤ p.bits) :
    readBit p pos =
      if 1 ≤ p.bits - pos then ⟨.value (Bits.bitAt p.data pos), pos + 1, []⟩
      else short p pos 1 := by
  unfold readBit
  have hneed := need_run 1 h
  by_cases hbits : 1 ≤ p.bits - pos
  · unfold Payload.Sound at hp
    rw [if_pos hbits] at hneed ⊢
    rw [bind_value hneed, bind_value (payload_run p pos), bind_value (position_run p pos),
      Bits.getBit_eq (by omega), bind_value (inBounds_run _ p pos),
      bind_value (advance_run (by omega)), pure_run]
  · rw [if_neg hbits] at hneed ⊢
    exact bind_short hneed

theorem getBytes_run {count : Nat} (hp : p.Sound) (haligned : pos % 8 = 0)
    (h : pos + 8 * count ≤ p.bits) :
    Bits.getBytes p.data (pos / 8) count =
      some (Bits.packed true (Bits.slice p.data pos (8 * count))) := by
  have hback : 8 * (pos / 8) = pos := by omega
  unfold Payload.Sound at hp
  rw [Bits.getBytes_eq (by omega), hback]

theorem readWhole_run (count : Nat) (hp : p.Sound) (h : pos ≤ p.bits) (haligned : pos % 8 = 0) :
    readWhole count p pos =
      if 8 * count ≤ p.bits - pos then
        ⟨.value (Bits.packed true (Bits.slice p.data pos (8 * count))), pos + 8 * count, []⟩
      else short p pos (8 * count) := by
  unfold readWhole
  rw [bind_value (position_run p pos), bind_value (demand_run (by simpa using haligned) _ p pos)]
  have hneed := need_run (8 * count) h
  by_cases hbits : 8 * count ≤ p.bits - pos
  · rw [if_pos hbits] at hneed ⊢
    rw [bind_value hneed, bind_value (payload_run p pos), getBytes_run hp haligned (by omega),
      bind_value (inBounds_run _ p pos), bind_value (advance_run (by omega)), pure_run]
  · rw [if_neg hbits] at hneed ⊢
    exact bind_short hneed

theorem readAligned_run (count : Nat) (hp : p.Sound) (h : pos ≤ p.bits) (haligned : pos % 8 = 0) :
    readAligned count p pos =
      if 8 * count ≤ p.bits - pos then
        ⟨.value (Bits.toNumber (Bits.slice p.data pos (8 * count))), pos + 8 * count, []⟩
      else short p pos (8 * count) := by
  have hrun := readWhole_run count hp h haligned
  unfold readAligned
  split
  · next hbits =>
    rw [if_pos hbits] at hrun
    rw [bind_value hrun, Bits.ofBe_packed true (by simp), pure_run]
  · next hbits =>
    rw [if_neg hbits] at hrun
    exact bind_short hrun

theorem readWhole_unaligned (count : Nat) (haligned : ¬pos % 8 = 0) :
    readWhole count p pos = ⟨.broken .unalignedRead, pos, []⟩ := by
  unfold readWhole
  have hdemand : demand (pos % 8 == 0) .unalignedRead p pos =
      ⟨.broken .unalignedRead, pos, []⟩ := by
    have : (pos % 8 == 0) = false := by simpa using haligned
    rw [this]
    rfl
  rw [bind_value (position_run p pos), bind_broken hdemand]

theorem rewinding_value (h : body p pos = ⟨.value a, pos', []⟩) :
    rewinding body p pos = ⟨.value a, pos', []⟩ := by
  simp only [rewinding, Action.rewinding, h]

theorem rewinding_failed {e : Failure} {effects : List Effect}
    (h : body p pos = ⟨.failed e, pos', effects⟩) :
    rewinding body p pos = ⟨.failed e, pos, effects⟩ := by
  simp only [rewinding, Action.rewinding, h]

/-- A whole byte behind the boundary shows that it was not cut short. -/
theorem boundary_aligned {count : Nat} (h : 0 < count)
    (hbits : 8 * count ≤ p.bits - boundary p pos) :
    boundary p pos = alignUp pos := by
  unfold boundary at hbits ⊢
  omega

theorem readAlignedBytes_run {count : Nat} (hcount : 0 < count) (hp : p.Sound) :
    readAlignedBytes count p pos =
      if 8 * count ≤ p.bits - boundary p pos then
        ⟨.value (Bits.packed true (Bits.slice p.data (alignUp pos) (8 * count))),
          alignUp pos + 8 * count, []⟩
      else ⟨.failed (.insufficientPayload (8 * count) (p.bits - boundary p pos)), pos,
        [.payloadShort (8 * count) (p.bits - boundary p pos) (boundary p pos)]⟩ := by
  unfold readAlignedBytes
  rw [if_neg (by omega)]
  have hneed := need_run (8 * count) (boundary_le p pos)
  by_cases hbits : 8 * count ≤ p.bits - boundary p pos
  · have hstart := boundary_aligned hcount hbits
    have hfit : alignUp pos + 8 * count ≤ p.bits := by
      have := boundary_le p pos
      omega
    rw [if_pos hbits] at hneed ⊢
    apply rewinding_value
    rw [bind_value (align_run p pos), bind_value hneed, bind_value (payload_run p _),
      bind_value (position_run p _), hstart,
      getBytes_run hp (by simp [alignUp]) hfit, bind_value (inBounds_run _ p _),
      bind_value (advance_run hfit), pure_run]
  · rw [if_neg hbits] at hneed ⊢
    exact rewinding_failed ((bind_value (align_run p pos)).trans (bind_failed hneed))

/-- Moving to the boundary first and asking for the bytes there leaves the position at the
boundary when they are not all there. -/
theorem alignedBlock_run {count : Nat} (hcount : 0 < count) (hp : p.Sound) :
    (align >>= fun _ => need (8 * count) >>= fun _ => readAlignedBytes count) p pos =
      if 8 * count ≤ p.bits - boundary p pos then
        ⟨.value (Bits.packed true (Bits.slice p.data (alignUp pos) (8 * count))),
          alignUp pos + 8 * count, []⟩
      else short p (boundary p pos) (8 * count) := by
  have hneed := need_run (8 * count) (boundary_le p pos)
  rw [bind_value (align_run p pos)]
  by_cases hroom : 8 * count ≤ p.bits - boundary p pos
  · have hstart := boundary_aligned hcount hroom
    have htwice : alignUp (alignUp pos) = alignUp pos := by
      unfold alignUp
      omega
    have hstill : boundary p (alignUp pos) = boundary p pos := by
      rw [boundary, boundary, htwice]
    rw [if_pos hroom] at hneed ⊢
    rw [bind_value hneed, hstart, readAlignedBytes_run hcount hp, hstill, if_pos hroom, htwice]
  · rw [if_neg hroom] at hneed ⊢
    exact bind_short hneed

end Decoder

end BitCodec
