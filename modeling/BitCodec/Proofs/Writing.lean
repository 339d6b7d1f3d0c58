import BitCodec.Proofs.Reading

/-!
# What the writing operations do

A stream is sound when its positions and its buffer are in order and the byte that
is being written holds zeros behind the write position.  The last part is what
makes the ways of writing agree: a single bit keeps the rest of its byte, a copy
clears it.

Every basic writing operation ends in a stream that is `Extended` by the bits of
its argument, and grows the buffer by the same rule.
-/

namespace BitCodec

namespace Stream

/-! ## Sound streams -/

def string (s : Stream) : List Bool :=
  Bits.slice s.buffer 0 s.cursor.write

@[simp] theorem length_string (s : Stream) : s.string.length = s.cursor.write := by
  simp [string]

/-- The positions are in order, the buffer holds the written bits, and behind
them the last byte is clear. -/
structure Sound (s : Stream) : Prop where
  read_le : s.cursor.read ≤ s.cursor.write
  write_le : s.cursor.write ≤ 8 * s.capacity
  inline_le : inlineBytes ≤ s.capacity
  clear : Bits.ClearFrom s.buffer s.cursor.write

@[simp] theorem payload_bits (s : Stream) : s.payload.bits = s.cursor.write := rfl

@[simp] theorem payload_string (s : Stream) : s.payload.string = s.string := by
  refine Bits.slice_congr fun i _ hi => Bits.bitAt_extract ?_
  simp only [payload_bits] at hi
  unfold Cursor.writtenBytes bytesOfBits
  omega

theorem Sound.payload {s : Stream} (h : s.Sound) : s.payload.Sound := by
  have hwrite := h.write_le
  unfold capacity at hwrite
  simp only [Payload.Sound, Stream.payload, Cursor.writtenBytes, bytesOfBits, Array.size_extract]
  omega

/-- The written bytes are the written bits, packed with zeros behind them. -/
theorem Sound.written_eq {s : Stream} (h : s.Sound) : s.written = Bits.packed false s.string :=
  congrArg Array.toList ((Bits.extract_eq_packed_iff h.write_le).mpr h.clear)

/-! ## Making streams -/

theorem withRoom_sound (bytes : Nat) : (withRoom bytes).Sound := by
  refine ⟨Nat.le_refl _, Nat.zero_le _, ?_, Bits.clearFrom_of_aligned rfl⟩
  simp only [capacity, withRoom, Array.size_replicate]
  omega

theorem ofBytes_sound (data : List UInt8) : (ofBytes data).Sound := by
  have hcapacity : (ofBytes data).capacity = data.length + (inlineBytes - data.length) := by
    rw [capacity, ofBytes, Array.size_append, Array.size_replicate, List.size_toArray]
  have hwrite : (ofBytes data).cursor.write = 8 * data.length := rfl
  refine ⟨Nat.zero_le _, ?_, ?_, Bits.clearFrom_of_aligned ?_⟩
  · rw [hwrite, hcapacity]
    omega
  · rw [hcapacity]
    omega
  · rw [hwrite]
    exact Nat.mul_mod_right 8 _

theorem ofBytes_string (data : List UInt8) : (ofBytes data).string = Bits.ofBytes data := by
  rw [← Bits.slice_toArray]
  refine Bits.slice_congr fun i _ hi => ?_
  have hindex : i / 8 < data.length := by
    simp only [ofBytes, Cursor.written] at hi
    omega
  apply Bits.bitAt_eq_of_byte
  simp [ofBytes, Array.getElem?_append_left, hindex]

theorem Sound.withLimit {s : Stream} (h : s.Sound) (limit : Nat) : (s.withLimit limit).Sound :=
  ⟨h.read_le, h.write_le, h.inline_le, h.clear⟩

theorem Sound.withRead {s : Stream} (h : s.Sound) {read : Nat} (hread : read ≤ s.cursor.write) :
    Sound { s with cursor := { s.cursor with read := read } } :=
  ⟨hread, h.write_le, h.inline_le, h.clear⟩

theorem Sound.rewind {s : Stream} (h : s.Sound) (how : Cursor.Rewind) :
    Sound { s with cursor := s.cursor.rewind how } := by
  have hstart : Sound { s with cursor := Cursor.start } :=
    ⟨Nat.le_refl _, Nat.zero_le _, h.inline_le, Bits.clearFrom_of_aligned rfl⟩
  cases how with
  | both => exact hstart
  | write => exact hstart
  | read => exact h.withRead (Nat.zero_le _)

/-! ## Room -/

/-- The stream with room for more bits: as it is, or with a larger buffer. -/
def roomFor (s : Stream) (bits : Nat) : Stream :=
  if s.cursor.write + bits > 8 * s.capacity then
    { s with buffer := s.buffer ++
        Array.replicate (2 * bytesOfBits (s.cursor.write + bits) - s.capacity) 0 }
  else s

/-- What an observer sees of making room. -/
def growth (s : Stream) (bits : Nat) : List Effect :=
  if s.cursor.write + bits > 8 * s.capacity then
    let size := 2 * bytesOfBits (s.cursor.write + bits)
    [.bufferGrown s.capacity size (!s.isSpilled && size > inlineBytes)]
  else []

theorem current_run (s : Stream) : (Action.current : Encoder Stream) s = ⟨.value s, s, []⟩ := rfl

theorem demand_some (s : Stream) {bits : Nat} (h : 0 < bits) :
    (Action.demand (decide (bits > 0)) .zeroGrowth : Encoder Unit) s = ⟨.value (), s, []⟩ :=
  Action.demand_true (decide_eq_true h) _

theorem makeRoom_run (s : Stream) {bits : Nat} (h : 0 < bits) :
    makeRoom bits s = ⟨.value (), s.roomFor bits, s.growth bits⟩ := by
  unfold makeRoom
  rw [Action.bind_value (demand_some s h), Action.bind_value (current_run s)]
  by_cases hmore : s.cursor.write + bits > 8 * s.capacity
  · simp only [roomFor, growth, if_pos hmore]
    rfl
  · simp only [roomFor, growth, if_neg hmore]
    rfl

/-- Room that a word can count is made as for bits at hand. -/
theorem ensure_run (s : Stream) {bits : Nat} (h : 0 < bits)
    (hword : roundable (s.cursor.write + bits) = true) : ensure bits s = makeRoom bits s := by
  unfold ensure
  rw [Action.bind_value (demand_some s h), Action.bind_value (current_run s),
    Action.bind_value (Action.demand_true hword _)]

/-- Room that no word can count is refused, and nothing is touched. -/
theorem ensure_overflow (s : Stream) {bits : Nat} (h : 0 < bits)
    (hword : roundable (s.cursor.write + bits) = false) :
    ensure bits s = ⟨.broken .overflow, s, []⟩ := by
  unfold ensure
  rw [Action.bind_value (demand_some s h), Action.bind_value (current_run s)]
  refine Action.bind_broken ?_
  rw [hword]
  rfl

/-- Room that is asked for outright is made or refused, and a refusal touches nothing. -/
theorem ensure_cases (s : Stream) (bits : Nat) :
    (0 < bits ∧ roundable (s.cursor.write + bits) = true ∧
      ensure bits s = ⟨.value (), s.roomFor bits, s.growth bits⟩) ∨
    (0 < bits ∧ roundable (s.cursor.write + bits) = false ∧
      ensure bits s = ⟨.broken .overflow, s, []⟩) ∨
    (bits = 0 ∧ ensure bits s = ⟨.broken .zeroGrowth, s, []⟩) := by
  rcases Nat.eq_zero_or_pos bits with hnone | hsome
  · subst hnone
    exact .inr (.inr ⟨rfl, rfl⟩)
  · cases hword : roundable (s.cursor.write + bits) with
    | true => exact .inl ⟨hsome, rfl, (ensure_run s hsome hword).trans (makeRoom_run s hsome)⟩
    | false => exact .inr (.inl ⟨hsome, rfl, ensure_overflow s hsome hword⟩)

/-- Making room in a build that does not check sums: past the end of a word they go on from zero,
and a buffer that comes out smaller is cut off. -/
def ensureUnchecked (bits : Nat) : Encoder Unit := do
  Action.demand (bits > 0) .zeroGrowth
  let s ← Action.current
  let required := (s.cursor.write + bits) % wordEnd
  if required > 8 * s.capacity then
    let size := 2 * ((required + 7) % wordEnd / 8)
    Action.become { s with
      buffer := s.buffer.extract 0 size ++ Array.replicate (size - s.capacity) 0 }
    Action.emit (.bufferGrown s.capacity size (!s.isSpilled && size > inlineBytes))

section Room

variable (s : Stream) (bits : Nat)

@[simp] theorem roomFor_cursor : (s.roomFor bits).cursor = s.cursor := by
  unfold roomFor
  split <;> rfl

@[simp] theorem roomFor_limit : (s.roomFor bits).limit = s.limit := by
  unfold roomFor
  split <;> rfl

/-- New room is all zeros, as is everything outside a buffer. -/
theorem roomFor_bitAt (i : Nat) : Bits.bitAt (s.roomFor bits).buffer i = Bits.bitAt s.buffer i := by
  unfold roomFor
  split
  · unfold Bits.bitAt
    simp only
    by_cases hi : i / 8 < s.buffer.size
    · rw [Array.getElem?_append_left hi]
    · have hpast : s.buffer[i / 8]? = none := Array.getElem?_eq_none (by omega)
      rw [Array.getElem?_append_right (by omega), hpast, Array.getElem?_replicate]
      split <;> rfl
  · rfl

theorem roomFor_room : s.cursor.write + bits ≤ 8 * (s.roomFor bits).capacity := by
  unfold roomFor
  split
  · simp only [capacity, Array.size_append, Array.size_replicate, bytesOfBits]
    omega
  · omega

theorem capacity_le_roomFor : s.capacity ≤ (s.roomFor bits).capacity := by
  unfold roomFor
  split
  · simp [capacity]
  · exact Nat.le_refl _

theorem roomFor_string : (s.roomFor bits).string = s.string := by
  unfold string
  rw [roomFor_cursor]
  exact Bits.slice_congr fun i _ _ => roomFor_bitAt s bits i

end Room

theorem Sound.roomFor {s : Stream} (h : s.Sound) (bits : Nat) : (s.roomFor bits).Sound := by
  have hroom := roomFor_room s bits
  refine ⟨?_, ?_, Nat.le_trans h.inline_le (capacity_le_roomFor s bits), ?_⟩
  · simpa using h.read_le
  · rw [roomFor_cursor]
    omega
  · rw [roomFor_cursor]
    intro i hlow hhigh
    rw [roomFor_bitAt]
    exact h.clear i hlow hhigh

theorem roomFor_of_room {s : Stream} {bits : Nat} (h : s.cursor.write + bits ≤ 8 * s.capacity) :
    s.roomFor bits = s ∧ s.growth bits = [] := by
  have hfits : ¬s.cursor.write + bits > 8 * s.capacity := by omega
  unfold roomFor growth
  rw [if_neg hfits, if_neg hfits]
  exact ⟨rfl, rfl⟩

theorem Sound.roomFor_zero {s : Stream} (h : s.Sound) : s.roomFor 0 = s :=
  (roomFor_of_room h.write_le).1

theorem Sound.growth_zero {s : Stream} (h : s.Sound) : s.growth 0 = [] :=
  (roomFor_of_room h.write_le).2

/-! ## Extensions -/

/-- One stream is another with bits put behind its write position, in a buffer
with room for them. -/
structure Extended (s : Stream) (bits : List Bool) (s' : Stream) : Prop where
  splice : Bits.Spliced (s.roomFor bits.length).buffer s.cursor.write bits s'.buffer
  cursor_eq : s'.cursor = ⟨s.cursor.write + bits.length, s.cursor.read⟩
  limit_eq : s'.limit = s.limit

namespace Extended

variable {s s' other : Stream} {bits : List Bool}

theorem refl (h : s.Sound) : s.Extended [] s := by
  refine ⟨?_, rfl, rfl⟩
  rw [List.length_nil, h.roomFor_zero]
  exact Bits.Spliced.refl _ _

theorem string_eq (h : s.Extended bits s') : s'.string = s.string ++ bits := by
  have hslice := h.splice.slice_eq
  have hbefore : Bits.slice (s.roomFor bits.length).buffer 0 s.cursor.write = s.string := by
    rw [← roomFor_string s bits.length, string, roomFor_cursor]
  rw [hbefore] at hslice
  rw [string, h.cursor_eq]
  exact hslice

theorem capacity_eq (h : s.Extended bits s') : s'.capacity = (s.roomFor bits.length).capacity :=
  h.splice.size_eq

theorem sound (h : s.Extended bits s') (hs : s.Sound) : s'.Sound := by
  have hroom := hs.roomFor bits.length
  refine ⟨?_, ?_, ?_, ?_⟩
  · rw [h.cursor_eq]
    exact Nat.le_trans hs.read_le (Nat.le_add_right _ _)
  · rw [h.cursor_eq, h.capacity_eq]
    exact roomFor_room s bits.length
  · rw [h.capacity_eq]
    exact hroom.inline_le
  · rw [h.cursor_eq]
    have hclear := hroom.clear
    rw [roomFor_cursor] at hclear
    exact h.splice.clearFrom hclear

theorem unique (h : s.Extended bits s') (hother : s.Extended bits other) : s' = other := by
  have hbuffer := h.splice.unique hother.splice
  have hcursor := h.cursor_eq.trans hother.cursor_eq.symm
  have hlimit := h.limit_eq.trans hother.limit_eq.symm
  cases s'
  cases other
  simp_all

end Extended

/-- Making room and changing the buffer, when the change is a splice wherever
there is room and the last byte is clear. -/
theorem makeRoom_put_run {s : Stream} (h : s.Sound) {bits : List Bool}
    (change : Array UInt8 → Nat → Option (Array UInt8)) (hbits : bits ≠ [])
    (hchange : ∀ buffer, s.cursor.write + bits.length ≤ 8 * buffer.size →
      Bits.ClearFrom buffer s.cursor.write →
        ∃ out, change buffer s.cursor.write = some out ∧
          Bits.Spliced buffer s.cursor.write bits out) :
    ∃ s', (do makeRoom bits.length; put bits.length change : Encoder Unit) s =
      ⟨.value (), s', s.growth bits.length⟩ ∧ s.Extended bits s' := by
  have hlen : 0 < bits.length := List.length_pos_iff.mpr hbits
  have hroom := roomFor_room s bits.length
  have hclear := (h.roomFor bits.length).clear
  rw [roomFor_cursor] at hclear
  -- Growing moves no bit, so the change sees the same clear byte in the larger buffer.
  obtain ⟨out, hout, hsplice⟩ := hchange (s.roomFor bits.length).buffer hroom hclear
  refine ⟨⟨out, ⟨s.cursor.write + bits.length, s.cursor.read⟩, s.limit⟩, ?_, ⟨hsplice, rfl, rfl⟩⟩
  have hput : put bits.length change (s.roomFor bits.length) =
      ⟨.value (), ⟨out, ⟨s.cursor.write + bits.length, s.cursor.read⟩, s.limit⟩, []⟩ := by
    have hbuffer : (Action.inBounds (change (s.roomFor bits.length).buffer
        (s.roomFor bits.length).cursor.write) : Encoder (Array UInt8)) (s.roomFor bits.length) =
        ⟨.value out, s.roomFor bits.length, []⟩ := by
      rw [roomFor_cursor, hout]
      rfl
    unfold put
    rw [Action.bind_value (current_run _), Action.bind_value hbuffer]
    simp only [Action.become, roomFor_cursor, roomFor_limit]
  rw [Action.bind_trace (makeRoom_run s hlen), hput, List.append_nil]

/-! ## Writing bits -/

/-- The operation ends with nothing to say and appends these bits; its buffer
grows as one step. -/
def Appends (body : Encoder Unit) (s : Stream) (bits : List Bool) : Prop :=
  ∃ s', body s = ⟨.value (), s', s.growth bits.length⟩ ∧ s.Extended bits s'

theorem Sound.appends_nil {s : Stream} (h : s.Sound) {body : Encoder Unit}
    (hrun : body s = ⟨.value (), s, []⟩) : Appends body s [] := by
  refine ⟨s, ?_, Extended.refl h⟩
  rw [hrun, List.length_nil, h.growth_zero]

section Writing

variable {s : Stream}

theorem writeBits_run (h : s.Sound) {source : List UInt8} {bits : Nat} (right : Bool)
    (hsource : bytesOfBits bits ≤ source.length) :
    Appends (writeBits source bits right) s (Bits.taken source bits right) := by
  have hlen := Bits.length_taken right hsource
  have hdemand : (Action.demand (decide (bytesOfBits bits ≤ source.length))
      (Breach.forCount bits (.sourceTooShort source.length bits)) : Encoder Unit) s =
        ⟨.value (), s, []⟩ :=
    Action.demand_true (decide_eq_true hsource) _
  unfold writeBits
  by_cases hbits : bits = 0
  · subst hbits
    rw [Bits.taken_zero]
    refine h.appends_nil ?_
    rw [Action.bind_value hdemand]
    rfl
  · have hsome : Bits.taken source bits right ≠ [] := by
      rw [← List.length_pos_iff, hlen]
      omega
    obtain ⟨s', hrun, hext⟩ := makeRoom_put_run h
      (fun buffer pos => Bits.copyIn buffer pos source bits right) hsome
      (fun buffer hroom _ => Bits.copyIn_spliced right hsource (hlen ▸ hroom))
    refine ⟨s', ?_, hext⟩
    rw [Action.bind_value hdemand, if_pos (by omega), ← hrun, hlen]

theorem writeBytes_run (h : s.Sound) (source : List UInt8) :
    Appends (writeBytes source) s (Bits.ofBytes source) := by
  rw [← Bits.taken_whole source true]
  exact writeBits_run h true (by unfold bytesOfBits; omega)

theorem writeBit_run (h : s.Sound) (bit : Bool) : Appends (writeBit bit) s [bit] :=
  makeRoom_put_run h _ (List.cons_ne_nil bit []) fun _ hroom hclear =>
    Bits.putBit_spliced bit hroom hclear

/-- The zero bits up to the next byte boundary. -/
def padding (pos : Nat) : List Bool :=
  List.replicate (alignUp pos - pos) false

@[simp] theorem length_padding (pos : Nat) : (padding pos).length = alignUp pos - pos := by
  simp [padding]

theorem alignUp_le (pos : Nat) : pos ≤ alignUp pos ∧ alignUp pos < pos + 8 := by
  unfold alignUp
  omega

theorem add_padding (pos : Nat) : pos + (padding pos).length = alignUp pos := by
  have := alignUp_le pos
  rw [length_padding]
  omega

theorem align_run (h : s.Sound) : Appends align s (padding s.cursor.write) := by
  have hle := alignUp_le s.cursor.write
  unfold align
  by_cases hgap : alignUp s.cursor.write - s.cursor.write = 0
  · have hnone : padding s.cursor.write = [] := by rw [padding, hgap]; rfl
    rw [hnone]
    refine h.appends_nil ?_
    rw [Action.bind_value (current_run s), hgap]
    rfl
  · have hlen := length_padding s.cursor.write
    have hsome : padding s.cursor.write ≠ [] := by
      rw [← List.length_pos_iff, hlen]
      omega
    obtain ⟨s', hrun, hext⟩ := makeRoom_put_run h
      (fun buffer pos => Bits.copyIn buffer pos [0] (alignUp s.cursor.write - s.cursor.write) true)
      hsome
      (fun buffer hroom _ => by
        rw [padding, ← Bits.taken_zeros true (by omega)]
        refine Bits.copyIn_spliced true ?_ (hlen ▸ hroom)
        simp only [bytesOfBits, List.length_singleton]
        omega)
    have hgap : alignUp s.cursor.write - s.cursor.write > 0 := by omega
    refine ⟨s', ?_, hext⟩
    rw [Action.bind_value (current_run s), ← hrun, hlen]
    simp only [hgap, if_true]

/-- Behind the padding the write position stands at a byte boundary. -/
theorem Extended.aligned {s' : Stream} (h : s.Extended (padding s.cursor.write) s') :
    s'.cursor.write % 8 = 0 := by
  have hwrite : s'.cursor.write = s.cursor.write + (padding s.cursor.write).length := by
    rw [h.cursor_eq]
  rw [hwrite, add_padding, alignUp]
  omega

theorem setBytes_run (h : s.Sound) {source : List UInt8} (hsource : source ≠ [])
    (haligned : s.cursor.write % 8 = 0) :
    Appends (do
      makeRoom (8 * source.length)
      put (8 * source.length) fun buffer pos => Bits.setBytes buffer (pos / 8) source)
      s (Bits.ofBytes source) := by
  have hlen := Bits.length_ofBytes source
  have hback : 8 * (s.cursor.write / 8) = s.cursor.write := by omega
  have hsome : Bits.ofBytes source ≠ [] := by
    have := List.length_pos_iff.mpr hsource
    rw [← List.length_pos_iff, hlen]
    omega
  rw [← hlen]
  refine makeRoom_put_run h _ hsome fun buffer hroom _ => ?_
  have hfit : s.cursor.write / 8 + source.length ≤ buffer.size := by omega
  have hsplice := Bits.setBytes_spliced hfit
  rwa [hback] at hsplice

/-- An aligned block is the padding and then the bytes, and its buffer may grow twice. -/
theorem writeAlignedBytes_steps (h : s.Sound) {source : List UInt8} (hsource : source ≠ []) :
    ∃ s₁ s₂, writeAlignedBytes source s = ⟨.value (), s₂,
        s.growth (padding s.cursor.write).length ++ s₁.growth (Bits.ofBytes source).length⟩ ∧
      s.Extended (padding s.cursor.write) s₁ ∧ s₁.Extended (Bits.ofBytes source) s₂ := by
  obtain ⟨s₁, hrun₁, hext₁⟩ := align_run h
  obtain ⟨s₂, hrun₂, hext₂⟩ := setBytes_run (hext₁.sound h) hsource hext₁.aligned
  have hempty : ¬source.isEmpty = true := by simpa using hsource
  refine ⟨s₁, s₂, ?_, hext₁, hext₂⟩
  unfold writeAlignedBytes
  rw [if_neg hempty, Action.bind_trace hrun₁, hrun₂]

theorem demand_aligned (haligned : s.cursor.write % 8 = 0) :
    (Action.demand s.cursor.writeAligned .unalignedWrite : Encoder Unit) s = ⟨.value (), s, []⟩ :=
  Action.demand_true (by simpa [Cursor.writeAligned] using haligned) _

theorem writeWhole_run (h : s.Sound) {source : List UInt8} (hsource : source ≠ [])
    (haligned : s.cursor.write % 8 = 0) :
    Appends (writeWhole source) s (Bits.ofBytes source) := by
  obtain ⟨s', hrun, hext⟩ := setBytes_run h hsource haligned
  refine ⟨s', ?_, hext⟩
  unfold writeWhole
  rw [Action.bind_value (current_run s), Action.bind_value (demand_aligned haligned), hrun]

theorem bitsOfBytes_eq (bytes : Nat) : bitsOfBytes bytes = 8 * bytes % 2 ^ 64 :=
  rfl

theorem bitsOfBytes_mod (bytes : Nat) : bitsOfBytes bytes % 8 = 0 := by
  rw [bitsOfBytes_eq]
  omega

/-- The shift leaves room for rounding up, so padding is never refused. -/
theorem bitsOfBytes_roundable (bytes : Nat) : roundable (bitsOfBytes bytes) = true := by
  rw [roundable, bitsOfBytes_eq, decide_eq_true_iff, show wordEnd = 2 ^ 64 from rfl]
  omega

theorem padTo_makeRoom (bytes : Nat) : padTo bytes = (do
    let s ← Action.current
    if bitsOfBytes bytes > s.cursor.write then
      makeRoom (bitsOfBytes bytes - s.cursor.write)
      put (bitsOfBytes bytes - s.cursor.write) fun buffer pos =>
        zeroFill buffer pos (bitsOfBytes bytes)) := by
  funext s
  unfold padTo
  rw [Action.bind_value (current_run s), Action.bind_value (current_run s)]
  by_cases hmore : bitsOfBytes bytes > s.cursor.write
  · have hend : s.cursor.write + (bitsOfBytes bytes - s.cursor.write) = bitsOfBytes bytes := by
      omega
    have hword : roundable (s.cursor.write + (bitsOfBytes bytes - s.cursor.write)) = true := by
      rw [hend]
      exact bitsOfBytes_roundable bytes
    simp only [if_pos hmore, Action.bind_apply, Action.andThen, ensure_run s (by omega) hword]
  · rw [if_neg hmore, if_neg hmore]

/-- Padding up to a byte count, as far as a 64-bit count of bits goes. -/
theorem padTo_run (h : s.Sound) (bytes : Nat) :
    Appends (padTo bytes) s (List.replicate (bitsOfBytes bytes - s.cursor.write) false) := by
  have htarget := bitsOfBytes_mod bytes
  rw [padTo_makeRoom]
  by_cases hmore : s.cursor.write < bitsOfBytes bytes
  · have hlen : (List.replicate (bitsOfBytes bytes - s.cursor.write) false).length =
        bitsOfBytes bytes - s.cursor.write := List.length_replicate
    have hsome : List.replicate (bitsOfBytes bytes - s.cursor.write) false ≠ [] := by
      rw [← List.length_pos_iff, hlen]
      omega
    obtain ⟨s', hrun, hext⟩ := makeRoom_put_run h
      (fun buffer pos => zeroFill buffer pos (bitsOfBytes bytes)) hsome
      (fun buffer hroom _ => Bits.zeroFill_spliced hmore htarget (by omega))
    refine ⟨s', ?_, hext⟩
    rw [Action.bind_value (current_run s), if_pos hmore, ← hrun, hlen]
  · have hnone : bitsOfBytes bytes - s.cursor.write = 0 := by omega
    rw [hnone]
    refine h.appends_nil ?_
    rw [Action.bind_value (current_run s), if_neg hmore]
    rfl

/-! ### Broken contracts -/

theorem writeBits_short {source : List UInt8} {bits : Nat} (right : Bool)
    (h : ¬bytesOfBits bits ≤ source.length) (s : Stream) :
    writeBits source bits right s =
      ⟨.broken (Breach.forCount bits (.sourceTooShort source.length bits)), s, []⟩ := by
  unfold writeBits
  refine Action.bind_broken ?_
  simp [Action.demand, h, Action.breach]

theorem writeWhole_unaligned (source : List UInt8) (h : ¬s.cursor.write % 8 = 0) :
    writeWhole source s = ⟨.broken .unalignedWrite, s, []⟩ := by
  have hunaligned : s.cursor.writeAligned = false := by simpa [Cursor.writeAligned] using h
  unfold writeWhole
  rw [Action.bind_value (current_run s), hunaligned]
  rfl

/-- No bytes at all ask for no room at all. -/
theorem writeWhole_nil (h : s.cursor.write % 8 = 0) :
    writeWhole [] s = ⟨.broken .zeroGrowth, s, []⟩ := by
  unfold writeWhole
  rw [Action.bind_value (current_run s), Action.bind_value (demand_aligned h)]
  exact Action.bind_broken rfl

end Writing

/-! ## Streams that hold more -/

/-- The same stream with more bits behind the written ones, whatever became of
the buffer. -/
structure Grown (s : Stream) (bits : List Bool) (s' : Stream) : Prop where
  sound : s'.Sound
  string_eq : s'.string = s.string ++ bits
  read_eq : s'.cursor.read = s.cursor.read
  limit_eq : s'.limit = s.limit

namespace Grown

variable {s s' s'' : Stream} {first second : List Bool}

theorem refl (h : s.Sound) : s.Grown [] s :=
  ⟨h, (List.append_nil _).symm, rfl, rfl⟩

theorem trans (h1 : s.Grown first s') (h2 : s'.Grown second s'') :
    s.Grown (first ++ second) s'' := by
  refine ⟨h2.sound, ?_, h2.read_eq.trans h1.read_eq, h2.limit_eq.trans h1.limit_eq⟩
  rw [h2.string_eq, h1.string_eq, List.append_assoc]

theorem write_eq (h : s.Grown first s') :
    s'.cursor.write = s.cursor.write + first.length := by
  rw [← length_string s', h.string_eq, List.length_append, length_string]

end Grown

theorem Sound.grown_roomFor {s : Stream} (h : s.Sound) (bits : Nat) :
    s.Grown [] (s.roomFor bits) := by
  refine ⟨h.roomFor bits, ?_, ?_, roomFor_limit s bits⟩
  · rw [roomFor_string, List.append_nil]
  · rw [roomFor_cursor]

theorem Extended.grown {s s' : Stream} {bits : List Bool} (h : s.Extended bits s')
    (hs : s.Sound) : s.Grown bits s' :=
  ⟨h.sound hs, h.string_eq, by rw [h.cursor_eq], h.limit_eq⟩

theorem writeAlignedBytes_run {s : Stream} (h : s.Sound) {source : List UInt8}
    (hsource : source ≠ []) :
    ∃ s' effects, writeAlignedBytes source s = ⟨.value (), s', effects⟩ ∧
      s.Grown (padding s.cursor.write ++ Bits.ofBytes source) s' := by
  obtain ⟨s₁, s₂, hrun, hpadding, hblock⟩ := writeAlignedBytes_steps h hsource
  exact ⟨s₂, _, hrun, (hpadding.grown h).trans (hblock.grown (hpadding.sound h))⟩

end Stream

end BitCodec
