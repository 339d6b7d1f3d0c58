import BitCodec.Proofs.Effects
import BitCodec.Proofs.History

/-!
# What the holder of a stream can do with it

A holder writes, reads, transfers fields, looks at the stream through a view, hands out
its bytes, moves bits in from another source or out to another stream, sets the cap, or
puts another stream in its place.  A call is one of these as data.  The streams and
sources of others that it brings along are sound, as those of every program are.

Whatever a holder does and however it ends, the stream stays sound, no pool is seen to
hand out anything, and the cap is the one it was or one that the holder has put.
-/

namespace BitCodec

/-- Move so many bits of a payload to a stream, or all of them. -/
def Stream.moveSome (source : Payload) : Option Nat → Action (Stream × Nat) Unit
  | some bits => moveFrom source bits
  | none => moveAll source

inductive Call where
  | write (request : WriteRequest)
  | read (request : ReadRequest)
  | transfer (direction : Direction) (field : Field)
  | view (requests : List ReadRequest)
  | handOver
  | fill (giver : {slot : Slot // slot.Sound}) (bits : Option Nat)
  | drain (taker : {s : Stream // s.Sound}) (bits : Option Nat)
  | setLimit (limit : Nat)
  | assign (s : {s : Stream // s.Sound})

/-- What a call answers.  A move answers how it ended, and what became of the other
side. -/
inductive Reply where
  | plain (answer : Answer)
  | transferred (after : Answer) (changed : Option Bool)
  | viewed (steps : List (Ending Answer × Cursor)) (limit : Nat)
  | filled (ending : Ending Unit) (giver : Nat)
  | drained (ending : Ending Unit) (taker : Stream)

namespace Call

def run : Call → Action Stream Reply
  | write request => do pure (.plain (← request.run))
  | read request => do pure (.plain (← Stream.decoding request.run))
  | transfer direction field => do
    let (after, changed) ← field.transfer direction
    pure (.transferred after changed)
  | view requests => do
    let s ← Action.current
    let steps ← Action.onPart (fun _ => s.view) (fun s _ => s) (Session.lookThrough requests)
    pure (.viewed steps s.limit)
  | handOver => do
    let s ← Action.current
    let bytes ← s.handOver
    pure (.plain (.octets bytes))
  | fill giver bits => fun s =>
    let t := Stream.moveSome giver.1.payload bits (s, giver.1.cursor.read)
    { ending := .value (.filled t.ending t.state.2), state := t.state.1, effects := t.effects }
  | drain taker bits => fun s =>
    let t := Stream.moveSome s.payload bits (taker.1, s.cursor.read)
    { ending := .value (.drained t.ending t.state.1)
      state := { s with cursor := { s.cursor with read := t.state.2 } }
      effects := t.effects }
  | setLimit limit => do
    let s ← Action.current
    Action.become (s.withLimit limit)
    pure (.plain .nothing)
  | assign s => do
    Action.become s.1
    pure (.plain .nothing)

theorem write_run (request : WriteRequest) (s : Stream) :
    (write request).run s =
      ⟨(request.run s).ending.map .plain, (request.run s).state, (request.run s).effects⟩ :=
  Action.map_run request.run Reply.plain s

theorem read_run (request : ReadRequest) (s : Stream) :
    (read request).run s =
      ⟨(Stream.decoding request.run s).ending.map .plain,
        (Stream.decoding request.run s).state, (Stream.decoding request.run s).effects⟩ :=
  Action.map_run (Stream.decoding request.run) Reply.plain s

/-- A view is taken of the stream as it is and leaves it so. -/
theorem view_run (requests : List ReadRequest) (s : Stream) :
    (view requests).run s =
      ⟨(Session.lookThrough requests s.view).ending.map (.viewed · s.limit), s,
        (Session.lookThrough requests s.view).effects⟩ :=
  Action.map_run (Action.onPart (fun _ => s.view) (fun s _ => s) (Session.lookThrough requests))
    (fun steps => Reply.viewed steps s.limit) s

/-- The cap after a call to a stream under this one. -/
def cap : Call → Nat → Nat
  | setLimit limit, _ => limit
  | assign s, _ => s.1.limit
  | _, before => before

end Call

/-! ## What becomes of the stream -/

namespace Stream

/-- A sound stream goes on as a sound stream under the same cap. -/
def Remains (s s' : Stream) : Prop :=
  s.Sound → s'.Sound ∧ s'.limit = s.limit

theorem remains_course : Action.Course Remains := by
  refine ⟨fun s hs => ⟨hs, rfl⟩, ?_⟩
  intro a b c hab hbc ha
  obtain ⟨hb, hlimit⟩ := hab ha
  obtain ⟨hc, hlater⟩ := hbc hb
  exact ⟨hc, hlater.trans hlimit⟩

theorem appending_remains {α : Type} {body : Encoder α} (h : Appending body) :
    Action.Respects Remains body := by
  intro s hs
  obtain ⟨bits, hgrown⟩ := h s hs
  exact ⟨hgrown.sound, hgrown.limit_eq⟩

theorem write_remains (request : WriteRequest) : Action.Respects Remains request.run := by
  by_cases h : ∃ how, request = .rewind how
  · obtain ⟨how, rfl⟩ := h
    exact fun s hs => ⟨hs.rewind how, rfl⟩
  · exact appending_remains (WriteRequest.run_appending fun how heq => h ⟨how, heq⟩)

theorem transfer_remains (direction : Direction) (field : Field) :
    Action.Respects Remains (field.transfer direction) := by
  cases direction with
  | encode =>
    rw [Field.transfer_encode]
    exact appending_remains (field.writing_assembled.map _).appending
  | decode =>
    rw [Field.transfer_decode]
    exact fun s hs => ⟨decoding_sound field.reading_guarded hs, rfl⟩

def RemainsBeside (a b : Stream × Nat) : Prop :=
  a.1.Remains b.1

theorem remainsBeside_course : Action.Course RemainsBeside :=
  ⟨fun _ => remains_course.refl _, fun hab hbc => remains_course.trans hab hbc⟩

theorem fromSource_remains {α : Type} (source : Payload) (body : Decoder α) :
    Action.Respects RemainsBeside (fromSource source body) :=
  fun _ hs => ⟨hs, rfl⟩

theorem moveFrom_remains (source : Payload) (bits : Nat) :
    Action.Respects RemainsBeside (moveFrom source bits) := by
  refine (fromSource_remains source _).bind remainsBeside_course fun _ => ?_
  refine Action.Respects.ite (fun _ => ?_) fun _ => Action.Respects.pure remainsBeside_course ()
  refine (fromSource_remains source _).bind remainsBeside_course fun moved pair => ?_
  exact appending_remains (Appending.writeBits moved bits false) pair.1

theorem moveSome_remains (source : Payload) (bits : Option Nat) :
    Action.Respects RemainsBeside (moveSome source bits) := by
  cases bits with
  | some bits => exact moveFrom_remains source bits
  | none =>
    exact (fromSource_remains source _).bind remainsBeside_course fun bits =>
      moveFrom_remains source bits

theorem moveSome_lasts {source : Payload} (hsource : source.Sound) (bits : Option Nat) :
    Action.Respects (MoveLasts source) (moveSome source bits) := by
  cases bits with
  | some bits => exact moveFrom_lasts hsource bits
  | none => exact moveAll_lasts hsource

end Stream

namespace Call

open BitCodec.Stream (Remains remains_course)

/-- A call that puts no other cap and no other stream leaves a sound stream under its
cap. -/
theorem run_remains {call : Call} (h : ∀ before, call.cap before = before) :
    Action.Respects Remains call.run := by
  have hanswer : ∀ {α : Type} {body : Encoder α} (f : α → Reply), Action.Respects Remains body →
      Action.Respects Remains (body >>= fun a => pure (f a)) := fun f hbody =>
    hbody.bind remains_course fun a => Action.Respects.pure remains_course (f a)
  cases call with
  | write request => exact hanswer _ (Stream.write_remains request)
  | read request =>
    exact hanswer _ fun s hs => ⟨hs.withRead (request.run_stays hs.payload hs.read_le), rfl⟩
  | transfer direction field => exact hanswer _ (Stream.transfer_remains direction field)
  | view requests =>
    refine (Action.Respects.current remains_course).bind remains_course fun s => ?_
    exact hanswer _ (Action.Respects.of_still remains_course fun _ => rfl)
  | handOver =>
    refine (Action.Respects.current remains_course).bind remains_course fun s => ?_
    exact hanswer _ (Action.Respects.of_still remains_course fun _ => rfl)
  | fill giver bits => exact fun s => Stream.moveSome_remains giver.1.payload bits (s, _)
  | drain taker bits =>
    intro s hs
    exact ⟨hs.withRead (Stream.moveSome_lasts hs.payload bits _ ⟨taker.2, hs.read_le⟩).2, rfl⟩
  | setLimit limit => exact fun s hs => ⟨hs.withLimit limit, h s.limit⟩
  | assign other => exact fun s _ => ⟨other.2, h s.limit⟩

theorem run_keeps (call : Call) {s : Stream} (hs : s.Sound) :
    (call.run s).state.Sound ∧ (call.run s).state.limit = call.cap s.limit := by
  cases call with
  | setLimit limit => exact ⟨hs.withLimit limit, rfl⟩
  | assign other => exact ⟨other.2, rfl⟩
  | _ => exact run_remains (fun _ => rfl) s hs

end Call

/-! ## What an observer sees -/

namespace Call

open BitCodec.Action (Shows)

/-- What an observer of a call sees is no hit of a pool. -/
def Quiet (effect : Effect) : Prop :=
  effect ≠ .poolHit

theorem quiet_of_writing {effect : Effect} (h : effect.ofWriting) : Quiet effect := by
  rintro rfl
  exact h

theorem quiet_of_reading {effect : Effect} (h : effect.ofReading) : Quiet effect := by
  rintro rfl
  exact h

theorem writing_quiet {α : Type} {body : Encoder α} (h : Assembled body) : Shows Quiet body :=
  fun s effect heffect => quiet_of_writing (h.shows s effect heffect)

theorem reading_quiet {α : Type} {unseen : Bool} {body : Decoder α}
    (h : Decoder.Reports unseen body) (p : Payload) : Shows Quiet (body p) :=
  fun pos effect heffect => quiet_of_reading (h.shows p pos effect heffect)

theorem write_quiet (request : WriteRequest) : Shows Quiet request.run := by
  by_cases hrewind : ∃ how, request = .rewind how
  · obtain ⟨how, rfl⟩ := hrewind
    exact Shows.of_still fun _ => rfl
  · cases hlooks : request.looks with
    | false =>
      by_cases hensure : ∃ bits, request = .ensure bits
      · obtain ⟨bits, rfl⟩ := hensure
        have hquiet : Shows Quiet (Stream.ensure bits) := fun s effect heffect =>
          quiet_of_writing (Stream.ensure_shows bits s effect heffect)
        exact hquiet.map _
      · exact writing_quiet (WriteRequest.run_assembled hlooks (fun how h => hrewind ⟨how, h⟩)
          fun bits h => hensure ⟨bits, h⟩)
    | true =>
      cases request with
      | capacityBits | isSpilled | written => exact Shows.of_still fun _ => rfl
      | _ => cases hlooks

theorem decoding_quiet {α : Type} {unseen : Bool} {body : Decoder α}
    (h : Decoder.Reports unseen body) : Shows Quiet (Stream.decoding body) :=
  fun s => reading_quiet h s.payload s.cursor.read

theorem transfer_quiet (direction : Direction) (field : Field) :
    Shows Quiet (field.transfer direction) := by
  cases direction with
  | encode =>
    rw [Field.transfer_encode]
    exact writing_quiet (field.writing_assembled.map _)
  | decode =>
    rw [Field.transfer_decode]
    exact decoding_quiet field.reading_reports

theorem lookThrough_shows (requests : List ReadRequest) :
    Shows Effect.ofReading (Session.lookThrough requests) := by
  induction requests with
  | nil => exact Shows.pure []
  | cons request rest ih =>
    intro r effect heffect
    rcases List.mem_append.mp heffect with hfirst | hrest
    · exact request.run_reports.shows r.payload r.read effect hfirst
    · exact ih _ effect hrest

theorem moveFrom_quiet (source : Payload) (bits : Nat) :
    Shows Quiet (Stream.moveFrom source bits) := by
  have hneed : Decoder.Reports false (Decoder.need bits) := .need bits
  have hread : Decoder.Reports false
    (Decoder.readBits (List.replicate (bytesOfBits bits) 0) bits false) := .readBits _ _ _
  refine (reading_quiet hneed source).onPart.bind fun _ => Shows.ite ?_ (Shows.pure ())
  refine (reading_quiet hread source).onPart.bind fun moved => ?_
  exact (writing_quiet (.writeBits moved bits false)).onPart

theorem moveSome_quiet (source : Payload) (bits : Option Nat) :
    Shows Quiet (Stream.moveSome source bits) := by
  cases bits with
  | some bits => exact moveFrom_quiet source bits
  | none =>
    have havailable : Decoder.Reports false Decoder.available := .available
    exact (reading_quiet havailable source).onPart.bind fun bits => moveFrom_quiet source bits

theorem run_quiet (call : Call) : Shows Quiet call.run := by
  cases call with
  | write request => exact (write_quiet request).map _
  | read request => exact (decoding_quiet request.run_reports).map _
  | transfer direction field => exact (transfer_quiet direction field).map _
  | view requests =>
    intro s effect heffect
    rw [view_run] at heffect
    exact quiet_of_reading (lookThrough_shows requests s.view effect heffect)
  | handOver =>
    refine Shows.current.bind fun s => Shows.map ?_ _
    exact (Shows.emit nofun).map _
  | fill giver bits => exact fun s => moveSome_quiet giver.1.payload bits (s, _)
  | drain taker bits => exact fun s => moveSome_quiet s.payload bits (taker.1, _)
  | setLimit limit => exact Shows.current.bind fun _ => (Shows.become _).map _
  | assign s => exact (Shows.become _).map _

end Call

end BitCodec
