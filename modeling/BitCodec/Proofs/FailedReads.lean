import BitCodec.Proofs.Atomic
import BitCodec.Proofs.Effects
import BitCodec.Proofs.ReadProgram

/-!
# How failed reads are counted

The counter of failed reads follows how reads end.  A value adds nothing to it, however
many inner reads were needed for it; a payload that is too short adds one, and so does a
value outside its range.  No read moves any other counter, and over a program of reads the
counter grows by the reads that failed so.

Moving bits to another stream is a read of its source.  What it writes may grow a buffer,
which other counters see.

Not every value that is refused is outside a range that was asked for.  A number that its
type cannot hold is refused with the same failure and is not counted: casted reads and the
mini code of a 24-bit number do that.
-/

namespace BitCodec

/-! ## What an end adds to the counter -/

/-- The failed reads that a failure counts for, when values out of range are refused `unseen`
or not. -/
def Failure.failedReads (unseen : Bool) : Failure → Nat
  | .insufficientPayload _ _ => 1
  | .outOfRange _ _ _ => if unseen then 0 else 1
  | _ => 0

/-- The failed reads that an operation with this end counts for. -/
def Ending.failedReads {α : Type} (unseen : Bool) : Ending α → Nat
  | .failed e => e.failedReads unseen
  | .value _ | .broken _ => 0

namespace Counters

/-- The totals with so many more failed reads. -/
def withFailedReads (c : Counters) (count : Nat) : Counters :=
  { c with decodeErrors := c.decodeErrors + UInt64.ofNat count }

@[simp] theorem withFailedReads_zero (c : Counters) : c.withFailedReads 0 = c := by
  simp [withFailedReads]

theorem withFailedReads_add (c : Counters) (first second : Nat) :
    c.withFailedReads (first + second) = (c.withFailedReads first).withFailedReads second := by
  simp [withFailedReads, UInt64.ofNat_add, UInt64.add_assoc]

theorem foldl_tallies {α : Type} (c : Counters) (unseen : Bool) (ending : Ending α) :
    (ending.tallies unseen).foldl add c = c.withFailedReads (ending.failedReads unseen) := by
  cases ending with
  | value a => exact c.withFailedReads_zero.symm
  | broken b => exact c.withFailedReads_zero.symm
  | failed e =>
    cases e with
    | insufficientPayload requested available => rfl
    | outOfRange value min max =>
      cases unseen with
      | true => exact c.withFailedReads_zero.symm
      | false => rfl
    | _ => exact c.withFailedReads_zero.symm

/-- Growing buffers and values sent in full are no failed reads. -/
theorem observe_writing (c : Counters) {effects : List Effect}
    (h : ∀ effect ∈ effects, effect.ofWriting) :
    (c.observe effects).decodeErrors = c.decodeErrors := by
  induction effects generalizing c with
  | nil => rfl
  | cons effect rest ih =>
    have hstep : c.observe (effect :: rest) = (c.observe [effect]).observe rest :=
      c.observe_append [effect] rest
    have hone : (c.observe [effect]).decodeErrors = c.decodeErrors := by
      have hwriting := h effect List.mem_cons_self
      cases effect with
      | bufferGrown before after spilled => cases spilled <;> rfl
      | rangeEscaped value min max => rfl
      | _ => exact hwriting.elim
    rw [hstep, ih _ fun other hother => h other (List.mem_cons_of_mem _ hother), hone]

end Counters

/-! ## Readers -/

/-- A reader moves the counter of failed reads by what its end says, and no other. -/
theorem Decoder.Reports.observed {α : Type} {unseen : Bool} {body : Decoder α}
    (h : Reports unseen body) (p : Payload) (pos : Nat) (c : Counters) :
    c.observe (body p pos).effects =
      c.withFailedReads ((body p pos).ending.failedReads unseen) := by
  rw [Counters.observe, h p pos, Counters.foldl_tallies]

/-! ## Actions that also write -/

/-- The action moves the counter of failed reads by what its end says, whatever else it
counts. -/
def Action.CountsReads {σ α : Type} (unseen : Bool) (body : Action σ α) : Prop :=
  ∀ s (c : Counters), (c.observe (body s).effects).decodeErrors =
    c.decodeErrors + UInt64.ofNat ((body s).ending.failedReads unseen)

namespace Action.CountsReads

variable {σ τ α β : Type} {unseen : Bool} {body : Action σ α} {next : α → Action σ β}

protected theorem pure (a : α) : CountsReads unseen (pure a : Action σ α) :=
  fun _ _ => (UInt64.add_zero _).symm

protected theorem bind (h : CountsReads unseen body) (hnext : ∀ a, CountsReads unseen (next a)) :
    CountsReads unseen (body >>= next) := by
  intro s c
  have hfirst := h s c
  rcases hrun : body s with ⟨ending, s', effects⟩
  rw [hrun] at hfirst
  cases ending with
  | value a =>
    -- A value has counted nothing, so the rest alone decides.
    have hnone : (c.observe effects).decodeErrors = c.decodeErrors :=
      hfirst.trans (UInt64.add_zero _)
    rw [bind_trace hrun, Counters.observe_append, hnext a s', hnone]
  | failed e =>
    rw [bind_failed hrun]
    exact hfirst
  | broken b =>
    rw [bind_broken hrun]
    exact hfirst

protected theorem ite {condition : Prop} [Decidable condition] {other : Action σ α}
    (h : CountsReads unseen body) (hother : CountsReads unseen other) :
    CountsReads unseen (if condition then body else other) := by
  split
  · exact h
  · exact hother

protected theorem onPart {part : τ → σ} {replace : τ → σ → τ}
    (h : CountsReads unseen body) : CountsReads unseen (onPart part replace body) :=
  fun s => h (part s)

theorem of_reports {body : Decoder α} (h : Decoder.Reports unseen body) (p : Payload) :
    CountsReads unseen (body p) := by
  intro pos c
  rw [h.observed p pos c]
  rfl

/-- Writing that cannot fail counts no failed reads. -/
theorem of_writing (hshows : Shows Effect.ofWriting body) (hunfailing : Unfailing body) :
    CountsReads unseen body := by
  intro s c
  have hend : (body s).ending.failedReads unseen = 0 := by
    cases hending : (body s).ending with
    | failed e => exact absurd hending (@hunfailing s e)
    | value a => rfl
    | broken b => rfl
  rw [c.observe_writing (hshows s), hend]
  exact (UInt64.add_zero _).symm

end Action.CountsReads

namespace Stream

open BitCodec.Action (CountsReads)

theorem moveFrom_countsReads (source : Payload) (bits : Nat) :
    CountsReads false (moveFrom source bits) := by
  have hneed : Decoder.Reports false (Decoder.need bits) := .need bits
  have hread : Decoder.Reports false
    (Decoder.readBits (List.replicate (bytesOfBits bits) 0) bits false) := .readBits _ _ _
  refine (CountsReads.of_reports hneed source).onPart.bind fun _ => ?_
  refine CountsReads.ite ?_ (CountsReads.pure ())
  refine (CountsReads.of_reports hread source).onPart.bind fun moved => ?_
  exact (CountsReads.of_writing (Assembled.writeBits moved bits false).shows
    (writeBits_unfailing moved bits false)).onPart

theorem moveAll_countsReads (source : Payload) : CountsReads false (moveAll source) := by
  have havailable : Decoder.Reports false Decoder.available := .available
  exact (CountsReads.of_reports havailable source).onPart.bind fun bits =>
    moveFrom_countsReads source bits

end Stream

/-! ## Programs -/

namespace ReadProgram

/-- What an observer sees of a program, request by request. -/
def effects : ReadProgram → Slot → List Effect
  | finish, _ => []
  | ask request next, slot =>
    let t := Slot.decoding request.run slot
    t.effects ++ (next t.ending).effects t.state

/-- The requests of a program that end in a failed read that is counted. -/
def failedReads : ReadProgram → Slot → Nat
  | finish, _ => 0
  | ask request next, slot =>
    let t := Slot.decoding request.run slot
    t.ending.failedReads request.unseen + (next t.ending).failedReads t.state

theorem effects_observed (program : ReadProgram) (slot : Slot) (c : Counters) :
    c.observe (program.effects slot) = c.withFailedReads (program.failedReads slot) := by
  induction program generalizing slot c with
  | finish => exact c.withFailedReads_zero.symm
  | ask request next ih =>
    have hfirst := request.run_reports.observed slot.payload slot.cursor.read c
    simp only [effects, failedReads, Slot.decoding_run]
    rw [Counters.observe_append, hfirst, ih, Counters.withFailedReads_add]

end ReadProgram

/-! ## The result -/

/-- Whatever a source holds: every request to read, a number read in its range, every field
that is received and every move of bits out of the source add to the counter of failed reads
what their end says, which is one for a payload that is too short, one for a value out of
range unless the request refuses it unseen, and nothing for a value or any other end.  No
reading moves another counter, and a program of readings moves this one by the number of its
readings that failed so. -/
theorem Slot.failed_reads_counted (slot : Slot) (c : Counters) :
    (∀ request : ReadRequest, c.observe (decoding request.run slot).effects =
      c.withFailedReads ((decoding request.run slot).ending.failedReads request.unseen)) ∧
    (∀ (t : IntType) (r : IntRange t) (escape : Bool),
      c.observe (decoding (r.read escape) slot).effects =
        c.withFailedReads ((decoding (r.read escape) slot).ending.failedReads false)) ∧
    (∀ (s : Stream) (field : Field), c.observe (field.transfer .decode s).effects =
      c.withFailedReads ((field.transfer .decode s).ending.failedReads field.unseen)) ∧
    (∀ (taker : Stream) (bits : Nat),
      let t := Stream.moveFrom slot.payload bits (taker, slot.cursor.read)
      (c.observe t.effects).decodeErrors =
        c.decodeErrors + UInt64.ofNat (t.ending.failedReads false)) ∧
    (∀ taker : Stream,
      let t := Stream.moveAll slot.payload (taker, slot.cursor.read)
      (c.observe t.effects).decodeErrors =
        c.decodeErrors + UInt64.ofNat (t.ending.failedReads false)) ∧
    (∀ program : ReadProgram,
      c.observe (program.effects slot) = c.withFailedReads (program.failedReads slot)) := by
  refine ⟨?_, ?_, ?_, ?_, ?_, ?_⟩
  · exact fun request => request.run_reports.observed slot.payload slot.cursor.read c
  · exact fun t r escape => (r.read_reports escape).observed slot.payload slot.cursor.read c
  · intro s field
    rw [Field.transfer_decode]
    exact field.reading_reports.observed s.payload s.cursor.read c
  · exact fun taker bits =>
      Stream.moveFrom_countsReads slot.payload bits (taker, slot.cursor.read) c
  · exact fun taker => Stream.moveAll_countsReads slot.payload (taker, slot.cursor.read) c
  · exact fun program => program.effects_observed slot c

/-- A number of more than 24 bits, a number too large for the type it is read as, and an
offset beyond its range fail alike; only the last one is counted. -/
theorem Slot.oversized_numbers_uncounted :
    let wide : Slot := .packet (Reader.ofPayload (Payload.ofBytes [0x80, 0x40, 0x20, 0x10, 0x10]))
    let surplus : Slot := .packet (Reader.ofPayload (Payload.ofBytes [0xFF]))
    let c : Counters := {}
    (decoding (Mini.read .u24) wide).ending =
        .failed (.outOfRange "16777216" "0" "16777215") ∧
      c.observe (decoding (Mini.read .u24) wide).effects = c ∧
      (decoding (IntType.readCasted .u16 .u8) wide).ending =
        .failed (.outOfRange "32832" "u8" "u8") ∧
      c.observe (decoding (IntType.readCasted .u16 .u8) wide).effects = c ∧
      (decoding (Ranged.read .u8 0#8 4#8 false) surplus).ending =
        .failed (.outOfRange "7" "0" "4") ∧
      c.observe (decoding (Ranged.read .u8 0#8 4#8 false) surplus).effects =
        { c with decodeErrors := 1 } :=
  ⟨rfl, rfl, rfl, rfl, rfl, rfl⟩

end BitCodec
