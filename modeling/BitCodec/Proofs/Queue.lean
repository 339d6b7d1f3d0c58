import BitCodec.Proofs.History

/-!
# A stream is a queue of bits

`BitQueue` is what a stream means: the bits written so far and how many of them are
read.  It has no buffer, so there is nothing stale in it and nothing to grow.

Every basic call on a sound stream answers what the queue answers and leaves the
queue's next state behind.  Runs follow by induction: whatever the calls and their
order, a stream and a queue cannot be told apart.
-/

namespace BitCodec

/-! ## The queue -/

/-- Every bit that was written, and how many of them are read. -/
structure BitQueue where
  bits : List Bool
  read : Nat
  deriving DecidableEq, Repr

/-- The basic calls, as far as they write, read or move whole bits. -/
inductive BitCall where
  | writeBit (bit : Bool)
  | writeBits (source : List UInt8) (count : Nat) (right : Bool)
  | writeBytes (source : List UInt8)
  | writeAligned (t : IntType) (v : t.Value)
  | alignWrite
  | writeAlignedBytes (source : List UInt8)
  | padTo (bytes : Nat)
  | ensure (bits : Nat)
  | rewind (how : Cursor.Rewind)
  | skip (bits : Nat)
  | alignRead
  | readBit
  | readBits (destination : List UInt8) (count : Nat) (right : Bool)
  | readBytes (count : Nat)
  | readAligned (t : IntType)
  | readAlignedBytes (count : Nat)

namespace BitQueue

def empty : BitQueue :=
  ⟨[], 0⟩

def push (q : BitQueue) (bits : List Bool) : BitQueue :=
  { q with bits := q.bits ++ bits }

def left (q : BitQueue) : Nat :=
  q.bits.length - q.read

def window (q : BitQueue) (pos count : Nat) : List Bool :=
  (q.bits.drop pos).take count

/-- Take the next bits, or say what is missing and change nothing. -/
def take (q : BitQueue) (count : Nat) (answer : List Bool → Answer) : Ending Answer × BitQueue :=
  if count ≤ q.left then
    (.value (answer (q.window q.read count)), { q with read := q.read + count })
  else (.failed (.insufficientPayload count q.left), q)

/-- The next byte boundary, or the end if that comes first. -/
def boundary (q : BitQueue) : Nat :=
  min (alignUp q.read) q.bits.length

/-- Take a block of whole bytes from the next byte boundary, or say what is
missing behind the boundary and change nothing.  An empty block does not move to
the boundary. -/
def takeBlock (q : BitQueue) (count : Nat) : Ending Answer × BitQueue :=
  if count = 0 then (.value (.octets []), q)
  else if 8 * count ≤ q.bits.length - q.boundary then
    (.value (.octets (Bits.packed true (q.window (alignUp q.read) (8 * count)))),
      { q with read := alignUp q.read + 8 * count })
  else (.failed (.insufficientPayload (8 * count) (q.bits.length - q.boundary)), q)

def gap (q : BitQueue) : List Bool :=
  List.replicate (alignUp q.bits.length - q.bits.length) false

/-- What a call answers and leaves behind.  Asking for room leaves everything as it is; it is
answered when the end of that room can be counted. -/
def step (q : BitQueue) : BitCall → Ending Answer × BitQueue
  | .writeBit bit => (.value .nothing, q.push [bit])
  | .writeBits source count right => (.value .nothing, q.push (Bits.taken source count right))
  | .writeBytes source => (.value .nothing, q.push (Bits.ofBytes source))
  | .writeAligned t v => (.value .nothing, q.push (Bits.ofNumber t.bits v.toNat))
  | .alignWrite => (.value .nothing, q.push q.gap)
  | .writeAlignedBytes source =>
    (.value .nothing, if source = [] then q else q.push (q.gap ++ Bits.ofBytes source))
  | .padTo bytes =>
    (.value .nothing, q.push (List.replicate (8 * bytes - q.bits.length) false))
  | .ensure bits =>
    (if roundable (q.bits.length + bits) then .value .nothing else .broken .overflow, q)
  | .rewind .both | .rewind .write => (.value .nothing, empty)
  | .rewind .read => (.value .nothing, { q with read := 0 })
  | .skip bits => q.take bits fun _ => .nothing
  | .alignRead => (.value .nothing, { q with read := q.boundary })
  | .readBit => q.take 1 fun bits => .flag (bits.headD false)
  | .readBits destination count right => q.take count fun bits =>
    .octets (Bits.packed right bits ++ destination.drop (bytesOfBits count))
  | .readBytes count => q.take (8 * count) fun bits => .octets (Bits.packed true bits)
  | .readAligned t => q.take t.bits fun bits =>
    .value (.int t) (BitVec.ofNat t.bits (Bits.toNumber bits))
  | .readAlignedBytes count => q.takeBlock count

/-- Whether a call keeps the contracts that are checked before it is carried
out. -/
def accepts (q : BitQueue) : BitCall → Bool
  | .writeBits source count _ => bytesOfBits count ≤ source.length
  | .writeAligned _ _ => q.bits.length % 8 = 0
  | .padTo bytes => 8 * bytes < 2 ^ 64
  | .ensure bits => bits > 0
  | .readBits destination count _ => bytesOfBits count ≤ destination.length
  | .readAligned _ => q.read % 8 = 0
  | _ => true

/-- What calls answer one after another, and the queue after each of them. -/
def run (q : BitQueue) : List BitCall → List (Ending Answer × BitQueue)
  | [] => []
  | call :: rest => q.step call :: (q.step call).2.run rest

/-- Whether all of the calls keep their contracts, each when its turn comes. -/
def acceptsAll (q : BitQueue) : List BitCall → Bool
  | [] => true
  | call :: rest => q.accepts call && (q.step call).2.acceptsAll rest

def start : Making → BitQueue
  | .ofBytes data => ⟨Bits.ofBytes data, 0⟩
  | _ => empty

end BitQueue

/-! ## The stream -/

namespace BitCall

def perform : BitCall → Action Stream Answer
  | writeBit bit => (WriteRequest.bit bit).run
  | writeBits source count right => (WriteRequest.bits source count right).run
  | writeBytes source => (WriteRequest.bytes source).run
  | writeAligned t v => (WriteRequest.aligned t v).run
  | alignWrite => WriteRequest.align.run
  | writeAlignedBytes source => (WriteRequest.alignedBytes source).run
  | padTo bytes => (WriteRequest.padTo bytes).run
  | ensure bits => (WriteRequest.ensure bits).run
  | rewind how => (WriteRequest.rewind how).run
  | skip bits => Stream.decoding (ReadRequest.skip bits).run
  | alignRead => Stream.decoding ReadRequest.align.run
  | readBit => Stream.decoding ReadRequest.bit.run
  | readBits destination count right =>
    Stream.decoding (ReadRequest.bits destination count right).run
  | readBytes count => Stream.decoding (ReadRequest.bytes count).run
  | readAligned t => Stream.decoding (ReadRequest.aligned t).run
  | readAlignedBytes count => Stream.decoding (ReadRequest.alignedBytes count).run

/-- Carry calls out one after another, whatever each of them ends with. -/
def performAll : List BitCall → Stream → List (Trace Stream Answer)
  | [], _ => []
  | call :: rest, s => call.perform s :: performAll rest (call.perform s).state

end BitCall

namespace Stream

def queue (s : Stream) : BitQueue :=
  ⟨s.string, s.cursor.read⟩

/-- The stream did what the queue does, and is sound. -/
structure Follows (t : Trace Stream Answer) (outcome : Ending Answer × BitQueue) : Prop where
  sound : t.state.Sound
  ending_eq : t.ending = outcome.1
  queue_eq : t.state.queue = outcome.2

section Calls

variable {s : Stream}

theorem Grown.queue_eq {s' : Stream} {bits : List Bool} (h : s.Grown bits s') :
    s'.queue = s.queue.push bits := by
  rw [queue, queue, h.string_eq, h.read_eq]
  rfl

theorem follows_push {body : Encoder Unit} {s' : Stream} {effects : List Effect}
    {bits : List Bool} (hrun : body s = ⟨.value (), s', effects⟩) (h : s.Grown bits s') :
    Follows ((do body; pure Answer.nothing : Encoder Answer) s)
      (.value .nothing, s.queue.push bits) := by
  rw [Action.bind_trace hrun]
  exact ⟨h.sound, rfl, h.queue_eq⟩

theorem follows_append {body : Encoder Unit} {bits : List Bool} (hs : s.Sound)
    (h : Appends body s bits) :
    Follows ((do body; pure Answer.nothing : Encoder Answer) s)
      (.value .nothing, s.queue.push bits) := by
  obtain ⟨s', hrun, hext⟩ := h
  exact follows_push hrun (hext.grown hs)

theorem follows_keep {body : Encoder Unit} {s' : Stream} {effects : List Effect}
    {q : BitQueue} (hrun : body s = ⟨.value (), s', effects⟩) (hs : s'.Sound) (hq : s'.queue = q) :
    Follows ((do body; pure Answer.nothing : Encoder Answer) s) (.value .nothing, q) := by
  rw [Action.bind_trace hrun]
  exact ⟨hs, rfl, hq⟩

/-- Reading calls move the read position and nothing else. -/
theorem follows_read {body : Decoder Answer} {ending : Ending Answer} {pos : Nat}
    {effects : List Effect} (hs : s.Sound)
    (hrun : body s.payload s.cursor.read = ⟨ending, pos, effects⟩) (hpos : pos ≤ s.cursor.write) :
    Follows (decoding body s) (ending, { s.queue with read := pos }) := by
  unfold decoding Action.onPart
  rw [hrun]
  exact ⟨hs.withRead hpos, rfl, rfl⟩

@[simp] theorem queue_left (s : Stream) : s.queue.left = s.cursor.write - s.cursor.read := by
  simp [BitQueue.left, queue]

theorem queue_window {pos count : Nat} (h : pos + count ≤ s.cursor.write) :
    s.queue.window pos count = Bits.slice s.payload.data pos count := by
  rw [Payload.slice_eq (p := s.payload) h, payload_string]
  rfl

@[simp] theorem queue_boundary (s : Stream) :
    s.queue.boundary = Decoder.boundary s.payload s.cursor.read := by
  simp [BitQueue.boundary, Decoder.boundary, queue]

theorem queue_gap (s : Stream) : s.queue.gap = padding s.cursor.write := by
  simp [BitQueue.gap, padding, queue]

/-- Taking bits, for an operation that takes bits or falls short. -/
theorem follows_take {α : Type} {body : Decoder α} {a : α} {count : Nat} (f : α → Answer)
    (answer : List Bool → Answer) (hs : s.Sound)
    (hrun : body s.payload s.cursor.read =
      if count ≤ s.payload.bits - s.cursor.read then ⟨.value a, s.cursor.read + count, []⟩
      else Decoder.short s.payload s.cursor.read count)
    (hanswer : f a = answer (Bits.slice s.payload.data s.cursor.read count)) :
    Follows (decoding (do pure (f (← body))) s) (s.queue.take count answer) := by
  have hread := hs.read_le
  unfold BitQueue.take
  rw [queue_left]
  by_cases hcount : count ≤ s.cursor.write - s.cursor.read
  · have hroom : s.cursor.read + count ≤ s.cursor.write := by omega
    have hposition : s.queue.read = s.cursor.read := rfl
    rw [payload_bits, if_pos hcount] at hrun
    rw [if_pos hcount, hposition, queue_window hroom, ← hanswer]
    exact follows_read hs (Decoder.bind_value hrun) (by omega)
  · rw [payload_bits, if_neg hcount] at hrun
    rw [if_neg hcount]
    exact follows_read hs (Decoder.bind_short hrun) hread

end Calls

/-! ## One call -/

theorem follows_rewind {s : Stream} (hs : s.Sound) (how : Cursor.Rewind) :
    Follows ((BitCall.rewind how).perform s) (s.queue.step (.rewind how)) := by
  have hrun : Stream.rewind how s =
      ⟨.value (), { s with cursor := s.cursor.rewind how }, []⟩ := rfl
  have hsound := hs.rewind how
  cases how with
  | both => exact follows_keep hrun hsound rfl
  | write => exact follows_keep hrun hsound rfl
  | read => exact follows_keep hrun hsound rfl

theorem follows_writeAlignedBytes {s : Stream} (hs : s.Sound) (source : List UInt8) :
    Follows ((BitCall.writeAlignedBytes source).perform s)
      (s.queue.step (.writeAlignedBytes source)) := by
  by_cases hempty : source = []
  · subst hempty
    have hrun : Stream.writeAlignedBytes [] s = ⟨.value (), s, []⟩ := rfl
    exact follows_keep hrun hs rfl
  · obtain ⟨s', effects, hrun, hgrown⟩ := writeAlignedBytes_run hs hempty
    simp only [BitQueue.step, if_neg hempty, queue_gap]
    exact follows_push hrun hgrown

theorem follows_readAlignedBytes {s : Stream} (hs : s.Sound) (count : Nat) :
    Follows ((BitCall.readAlignedBytes count).perform s) (s.queue.takeBlock count) := by
  have hread := hs.read_le
  unfold BitQueue.takeBlock
  by_cases hzero : count = 0
  · subst hzero
    exact follows_read hs rfl hread
  · have hcount : 0 < count := by omega
    have hrun : Decoder.readAlignedBytes count s.payload s.cursor.read = _ :=
      Decoder.readAlignedBytes_run hcount hs.payload
    rw [payload_bits] at hrun
    have hlen : s.queue.bits.length = s.cursor.write := by simp [queue]
    have hstart : alignUp s.queue.read = alignUp s.cursor.read := rfl
    rw [if_neg hzero, queue_boundary, hlen, hstart]
    by_cases hbits : 8 * count ≤ s.cursor.write - Decoder.boundary s.payload s.cursor.read
    · have hstart : Decoder.boundary s.payload s.cursor.read = alignUp s.cursor.read :=
        Decoder.boundary_aligned hcount hbits
      have hfit : alignUp s.cursor.read + 8 * count ≤ s.cursor.write := by
        have hle : Decoder.boundary s.payload s.cursor.read ≤ s.cursor.write :=
          Decoder.boundary_le _ _
        omega
      rw [if_pos hbits] at hrun
      rw [if_pos hbits, queue_window hfit]
      exact follows_read hs (Decoder.bind_value hrun) hfit
    · rw [if_neg hbits] at hrun
      rw [if_neg hbits]
      exact follows_read hs (Decoder.bind_failed hrun) hread

/-- Room that is asked for is no bit of the queue, whether it can be counted or not. -/
theorem follows_ensure {s : Stream} (hs : s.Sound) {bits : Nat} (hsome : 0 < bits) :
    Follows ((BitCall.ensure bits).perform s) (s.queue.step (.ensure bits)) := by
  have hend : s.queue.bits.length + bits = s.cursor.write + bits := by rw [queue, length_string]
  simp only [BitQueue.step, hend]
  rcases ensure_cases s bits with ⟨_, hword, hrun⟩ | ⟨_, hword, hrun⟩ | ⟨hnone, _⟩
  · rw [if_pos hword]
    refine follows_keep hrun (hs.roomFor bits) ?_
    rw [queue, roomFor_string, roomFor_cursor]
    rfl
  · rw [if_neg (Bool.eq_false_iff.mp hword)]
    have hstopped : (WriteRequest.ensure bits).run s = ⟨.broken .overflow, s, []⟩ :=
      Action.bind_broken hrun
    rw [BitCall.perform, hstopped]
    exact ⟨hs, rfl, rfl⟩
  · omega

/-- A call that keeps its contracts does to a stream what it does to the queue. -/
theorem follows_step {s : Stream} (hs : s.Sound) {call : BitCall}
    (haccepts : s.queue.accepts call = true) :
    Follows (call.perform s) (s.queue.step call) := by
  have hread := hs.read_le
  cases call with
  | writeBit bit => exact follows_append hs (writeBit_run hs bit)
  | writeBits source count right =>
    exact follows_append hs (writeBits_run hs right (of_decide_eq_true haccepts))
  | writeBytes source => exact follows_append hs (writeBytes_run hs source)
  | writeAligned t v =>
    have haligned : s.cursor.write % 8 = 0 := by
      simpa [BitQueue.accepts, queue] using haccepts
    have hsome : Octets.be t.bytes v.toNat ≠ [] := by
      rw [← List.length_pos_iff, Octets.length_be]
      cases t <;> decide
    have happends := writeWhole_run hs hsome haligned
    rw [Bits.ofBytes_be] at happends
    exact follows_append hs happends
  | alignWrite =>
    simp only [BitQueue.step, queue_gap]
    exact follows_append hs (align_run hs)
  | writeAlignedBytes source => exact follows_writeAlignedBytes hs source
  | padTo bytes =>
    have htarget : bitsOfBytes bytes = 8 * bytes := by
      rw [bitsOfBytes_eq]
      exact Nat.mod_eq_of_lt (of_decide_eq_true haccepts)
    have happends := padTo_run hs bytes
    rw [htarget, ← length_string] at happends
    exact follows_append hs happends
  | ensure bits => exact follows_ensure hs (of_decide_eq_true haccepts)
  | rewind how => exact follows_rewind hs how
  | skip bits =>
    simp only [BitQueue.step]
    exact follows_take (fun _ => .nothing) _ hs (Decoder.skip_run bits hread) rfl
  | alignRead =>
    simp only [BitQueue.step, queue_boundary]
    exact follows_read hs (Decoder.bind_value (Decoder.align_run _ _)) (Decoder.boundary_le _ _)
  | readBit =>
    simp only [BitQueue.step]
    exact follows_take .flag _ hs (Decoder.readBit_run hs.payload hread) rfl
  | readBits destination count right =>
    simp only [BitQueue.step]
    exact follows_take .octets _ hs
      (Decoder.readBits_run right hs.payload hread (of_decide_eq_true haccepts)) rfl
  | readBytes count =>
    simp only [BitQueue.step]
    exact follows_take .octets _ hs (Decoder.readBytes_run count hs.payload hread) rfl
  | readAligned t =>
    have haligned : s.cursor.read % 8 = 0 := of_decide_eq_true haccepts
    simp only [BitQueue.step]
    exact follows_take (fun number => .value (.int t) (BitVec.ofNat t.bits number)) _ hs
      (Decoder.readAligned_run t.bytes hs.payload hread haligned) rfl
  | readAlignedBytes count => exact follows_readAlignedBytes hs count

/-! ## Runs of calls -/

theorem performAll_follows {s : Stream} (hs : s.Sound) (calls : List BitCall)
    (haccepts : s.queue.acceptsAll calls = true) :
    (BitCall.performAll calls s).map (fun t => (t.ending, t.state.queue, t.state.written)) =
      (s.queue.run calls).map (fun o => (o.1, o.2, Bits.packed false o.2.bits)) := by
  induction calls generalizing s with
  | nil => rfl
  | cons call rest ih =>
    simp only [BitQueue.acceptsAll, Bool.and_eq_true] at haccepts
    have hstep := follows_step hs haccepts.1
    have hrest := haccepts.2
    rw [← hstep.queue_eq] at hrest
    have hwritten : (call.perform s).state.written =
        Bits.packed false (s.queue.step call).2.bits := by
      rw [hstep.sound.written_eq, ← hstep.queue_eq]
      rfl
    simp only [BitCall.performAll, BitQueue.run, List.map_cons]
    rw [ih hstep.sound hrest, hstep.ending_eq, hwritten, hstep.queue_eq]

theorem made_queue (how : Making) : how.stream.queue = BitQueue.start how := by
  cases how with
  | empty | withRoom bytes | sized reserve limit => rfl
  | ofBytes data =>
    rw [Making.stream, queue, ofBytes_string]
    rfl

/-- Whatever calls are made in whatever order, a new stream answers each of them as
the queue does, means what the queue holds after each of them, and shows the bits
of the queue packed into bytes with zeros behind the last one. -/
theorem run_follows_queue (how : Making) (calls : List BitCall)
    (haccepts : (BitQueue.start how).acceptsAll calls = true) :
    (BitCall.performAll calls how.stream).map
        (fun t => (t.ending, t.state.queue, t.state.written)) =
      ((BitQueue.start how).run calls).map
        (fun o => (o.1, o.2, Bits.packed false o.2.bits)) := by
  rw [← made_queue how] at haccepts ⊢
  exact performAll_follows how.stream_sound calls haccepts

/-- A run over a rewind: the second message starts on stale bytes. -/
theorem run_follows_queue_rewound :
    let calls : List BitCall := [.writeBits [0xFF, 0x07] 11 true, .readBits [0] 5 false,
      .rewind .both, .writeBit true, .writeAlignedBytes [0xAB], .alignRead, .readAligned .u8,
      .readBit]
    BitQueue.empty.acceptsAll calls = true ∧
      (BitCall.performAll calls Making.empty.stream).map
          (fun t => (t.ending, t.state.queue, t.state.written)) =
        (BitQueue.empty.run calls).map (fun o => (o.1, o.2, Bits.packed false o.2.bits)) :=
  ⟨by decide, run_follows_queue .empty _ (by decide)⟩

/-- Room for nearly as many bits as a word can count: the contract allows to ask for it, and the
call stops instead of answering.  Where sums are not checked it answers, and the byte that was
written is cut off. -/
theorem huge_room_breaks :
    let calls : List BitCall := [.writeBytes [1], .ensure (2 ^ 64 - 11)]
    let unchecked := ensureUnchecked (2 ^ 64 - 11)
      ((BitCall.writeBytes [1]).perform Making.empty.stream).state
    BitQueue.empty.acceptsAll calls = true ∧
      (BitCall.performAll calls Making.empty.stream).map (fun t => t.ending) =
        [.value .nothing, .broken .overflow] ∧
      unchecked.ending = .value () ∧ unchecked.state.cursor.write = 8 ∧
      unchecked.state.buffer = #[] := by
  intro calls unchecked
  have haccepts : BitQueue.empty.acceptsAll calls = true := by decide
  have hends : (BitQueue.empty.run calls).map Prod.fst = [.value .nothing, .broken .overflow] := by
    simp [calls, BitQueue.run, BitQueue.step, BitQueue.push, BitQueue.empty, roundable, wordEnd]
  have hrun := congrArg (List.map Prod.fst)
    (performAll_follows Making.empty.stream_sound calls haccepts)
  rw [List.map_map, List.map_map] at hrun
  exact ⟨haccepts, hrun.trans hends, by decide +kernel, by decide +kernel, by decide +kernel⟩

end Stream

end BitCodec
