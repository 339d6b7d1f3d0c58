import BitCodec.Proofs.Calls

/-!
# Streams that cannot be told apart

Twins are sound streams with the same written bits, the same read position and the same
cap.  Their buffers may differ in size and in all that lies behind the written bits.

A call is answered by both twins alike and leaves twins behind, and an observer sees a
difference at most in buffers that grow.  Readers see one and the same payload.  Writers
are put together from a few operations and look at nothing, so it is enough that these
do the same to both.  The exceptions are the two questions about the buffer itself.
-/

namespace BitCodec

/-! ## Runs that cannot be told apart -/

def Effect.isGrowth : Effect → Bool
  | .bufferGrown _ _ _ => true
  | _ => false

/-- What an observer sees who does not look at buffers. -/
def Trace.lasting {σ α : Type} (t : Trace σ α) : List Effect :=
  t.effects.filter (!·.isGrowth)

/-- Two runs that end alike in related states and show the same, but for buffers. -/
structure Trace.Likewise {σ α : Type} (R : σ → σ → Prop) (t u : Trace σ α) : Prop where
  ending_eq : t.ending = u.ending
  state : R t.state u.state
  lasting_eq : t.lasting = u.lasting

theorem Trace.Likewise.bind {σ α β : Type} {R : σ → σ → Prop} {body : Action σ α}
    {next : α → Action σ β} {s s' : σ} (h : (body s).Likewise R (body s'))
    (hnext : ∀ a, (next a (body s).state).Likewise R (next a (body s').state)) :
    ((body >>= next) s).Likewise R ((body >>= next) s') := by
  obtain ⟨hending, hstate, hlasting⟩ := h
  rcases hrun : body s with ⟨ending, t, effects⟩
  rcases hrun' : body s' with ⟨ending', t', effects'⟩
  rw [hrun, hrun'] at hending hstate hlasting hnext
  have hsame : ending = ending' := hending
  subst hsame
  cases ending with
  | value a =>
    obtain ⟨hlast, hafter, hrest⟩ := hnext a
    rw [Action.bind_trace hrun, Action.bind_trace hrun']
    refine ⟨hlast, hafter, ?_⟩
    unfold Trace.lasting at hlasting hrest ⊢
    rw [List.filter_append, List.filter_append, hlasting, hrest]
  | failed e =>
    rw [Action.bind_failed hrun, Action.bind_failed hrun']
    exact ⟨rfl, hstate, hlasting⟩
  | broken b =>
    rw [Action.bind_broken hrun, Action.bind_broken hrun']
    exact ⟨rfl, hstate, hlasting⟩

/-- Related states make no difference to the action. -/
def Action.Blind {σ α : Type} (R : σ → σ → Prop) (body : Action σ α) : Prop :=
  ∀ ⦃s s' : σ⦄, R s s' → (body s).Likewise R (body s')

namespace Action.Blind

variable {σ τ α β : Type} {R : σ → σ → Prop} {body : Action σ α}

/-- An action that leaves the state as it is and does not look at it. -/
theorem of_still {ending : Ending α} {effects : List Effect}
    (h : ∀ s, body s = ⟨ending, s, effects⟩) : Blind R body := by
  intro s s' hs
  rw [h, h]
  exact ⟨rfl, hs, rfl⟩

protected theorem pure (a : α) : Blind R (pure a : Action σ α) :=
  of_still fun _ => rfl

protected theorem bind {next : α → Action σ β} (h : Blind R body)
    (hnext : ∀ a, Blind R (next a)) : Blind R (body >>= next) :=
  fun _ _ hs => Trace.Likewise.bind (h hs) fun a => hnext a (h hs).state

protected theorem map (h : Blind R body) (f : α → β) :
    Blind R (body >>= fun a => pure (f a)) :=
  h.bind fun a => Blind.pure (f a)

protected theorem ite {condition : Prop} [Decidable condition] {other : Action σ α}
    (h : Blind R body) (hother : Blind R other) :
    Blind R (if condition then body else other) := by
  split
  · exact h
  · exact hother

end Action.Blind

open BitCodec.Action (Blind)

/-! ## Twins -/

namespace Stream

structure Twin (a b : Stream) : Prop where
  left : a.Sound
  right : b.Sound
  string_eq : a.string = b.string
  read_eq : a.cursor.read = b.cursor.read
  limit_eq : a.limit = b.limit

namespace Twin

variable {a b a' b' : Stream} {bits : List Bool}

theorem refl (h : a.Sound) : Twin a a :=
  ⟨h, h, rfl, rfl, rfl⟩

theorem write_eq (h : Twin a b) : a.cursor.write = b.cursor.write := by
  rw [← length_string a, h.string_eq, length_string]

theorem cursor_eq (h : Twin a b) : a.cursor = b.cursor := by
  have hwrite := h.write_eq
  have hread := h.read_eq
  cases hcursor : a.cursor
  cases hcursor' : b.cursor
  simp_all

theorem written_eq (h : Twin a b) : a.written = b.written := by
  rw [h.left.written_eq, h.right.written_eq, h.string_eq]

/-- What there is to be read is the same: no byte behind the written ones is in it, and
the open byte is clear behind the last bit. -/
theorem payload_eq (h : Twin a b) : a.payload = b.payload := by
  have hdata : a.payload.data = b.payload.data := Array.toList_inj.mp h.written_eq
  have hbits : a.payload.bits = b.payload.bits := h.write_eq
  have hlimit : a.payload.limit = b.payload.limit := h.limit_eq
  cases hpayload : a.payload
  cases hpayload' : b.payload
  simp_all

theorem grown (h : Twin a b) (ha : a.Grown bits a') (hb : b.Grown bits b') : Twin a' b' := by
  refine ⟨ha.sound, hb.sound, ?_, ?_, ?_⟩
  · rw [ha.string_eq, hb.string_eq, h.string_eq]
  · rw [ha.read_eq, hb.read_eq, h.read_eq]
  · rw [ha.limit_eq, hb.limit_eq, h.limit_eq]

theorem withRead (h : Twin a b) {pos : Nat} (hpos : pos ≤ a.cursor.write) :
    Twin { a with cursor := { a.cursor with read := pos } }
      { b with cursor := { b.cursor with read := pos } } :=
  ⟨h.left.withRead hpos, h.right.withRead (h.write_eq ▸ hpos), h.string_eq, rfl, h.limit_eq⟩

theorem rewind (h : Twin a b) (how : Cursor.Rewind) :
    Twin { a with cursor := a.cursor.rewind how } { b with cursor := b.cursor.rewind how } := by
  have hstart : Twin { a with cursor := Cursor.start } { b with cursor := Cursor.start } :=
    ⟨h.left.rewind .both, h.right.rewind .both, rfl, rfl, h.limit_eq⟩
  cases how with
  | both => exact hstart
  | write => exact hstart
  | read => exact h.withRead (Nat.zero_le _)

theorem withLimit (h : Twin a b) (limit : Nat) : Twin (a.withLimit limit) (b.withLimit limit) :=
  ⟨h.left.withLimit limit, h.right.withLimit limit, h.string_eq, h.read_eq, rfl⟩

/-- Reading does the same to both. -/
theorem decoding {α : Type} {body : Decoder α} (h : Twin a b)
    (hstays : (body a.payload a.cursor.read).state ≤ a.cursor.write) :
    (Stream.decoding body a).Likewise Twin (Stream.decoding body b) := by
  have hrun : ∀ s : Stream, Stream.decoding body s =
      ⟨(body s.payload s.cursor.read).ending,
        { s with cursor := { s.cursor with read := (body s.payload s.cursor.read).state } },
        (body s.payload s.cursor.read).effects⟩ := fun _ => rfl
  rw [hrun, hrun, ← h.payload_eq, ← h.read_eq]
  exact ⟨rfl, h.withRead hstays, rfl⟩

end Twin

/-! ## Writing -/

theorem lasting_growth {σ α : Type} {ending : Ending α} {state : σ} (s : Stream) (bits : Nat) :
    (⟨ending, state, s.growth bits⟩ : Trace σ α).lasting = [] := by
  unfold Trace.lasting growth
  split <;> rfl

theorem likewise_growth {α : Type} {ending : Ending α} {a b a' b' : Stream} {bits bits' : Nat}
    (h : Twin a' b') :
    (⟨ending, a', a.growth bits⟩ : Trace Stream α).Likewise Twin ⟨ending, b', b.growth bits'⟩ :=
  ⟨rfl, h, (lasting_growth a bits).trans (lasting_growth b bits').symm⟩

/-- An operation that appends the same bits to both. -/
theorem Twin.appends {a b : Stream} {body other : Encoder Unit} {bits : List Bool} (h : Twin a b)
    (ha : Appends body a bits) (hb : Appends other b bits) :
    (body a).Likewise Twin (other b) := by
  obtain ⟨a', hrun, hext⟩ := ha
  obtain ⟨b', hrun', hext'⟩ := hb
  rw [hrun, hrun']
  exact likewise_growth (h.grown (hext.grown h.left) (hext'.grown h.right))

theorem ensure_blind (bits : Nat) : Blind Twin (ensure bits) := by
  intro a b h
  have hwrite := h.write_eq
  -- Twins have written the same bits, so either both can count the room or neither can.
  rcases Nat.eq_zero_or_pos bits with hnone | hsome
  · subst hnone
    exact ⟨rfl, h, rfl⟩
  · cases hword : roundable (a.cursor.write + bits) with
    | true =>
      rw [ensure_run a hsome hword, ensure_run b hsome (hwrite ▸ hword), makeRoom_run a hsome,
        makeRoom_run b hsome]
      exact likewise_growth (h.grown (h.left.grown_roomFor bits) (h.right.grown_roomFor bits))
    | false =>
      rw [ensure_overflow a hsome hword, ensure_overflow b hsome (hwrite ▸ hword)]
      exact ⟨rfl, h, rfl⟩

theorem writeBits_blind (source : List UInt8) (bits : Nat) (right : Bool) :
    Blind Twin (writeBits source bits right) := by
  by_cases hsource : bytesOfBits bits ≤ source.length
  · exact fun a b h =>
      h.appends (writeBits_run h.left right hsource) (writeBits_run h.right right hsource)
  · exact Blind.of_still (writeBits_short right hsource)

theorem writeBit_blind (bit : Bool) : Blind Twin (writeBit bit) :=
  fun _ _ h => h.appends (writeBit_run h.left bit) (writeBit_run h.right bit)

theorem align_blind : Blind Twin align := by
  intro a b h
  have hpadding := align_run h.right
  rw [← h.write_eq] at hpadding
  exact h.appends (align_run h.left) hpadding

theorem padTo_blind (bytes : Nat) : Blind Twin (padTo bytes) := by
  intro a b h
  have hzeros := padTo_run h.right bytes
  rw [← h.write_eq] at hzeros
  exact h.appends (padTo_run h.left bytes) hzeros

theorem writeWhole_blind (source : List UInt8) : Blind Twin (writeWhole source) := by
  intro a b h
  by_cases haligned : a.cursor.write % 8 = 0
  · have haligned' : b.cursor.write % 8 = 0 := h.write_eq ▸ haligned
    by_cases hsource : source = []
    · subst hsource
      rw [writeWhole_nil haligned, writeWhole_nil haligned']
      exact ⟨rfl, h, rfl⟩
    · exact h.appends (writeWhole_run h.left hsource haligned)
        (writeWhole_run h.right hsource haligned')
  · have haligned' : ¬b.cursor.write % 8 = 0 := h.write_eq ▸ haligned
    rw [writeWhole_unaligned source haligned, writeWhole_unaligned source haligned']
    exact ⟨rfl, h, rfl⟩

/-- The padding brings both to a byte boundary, and the bytes go behind it. -/
theorem writeAlignedBytes_blind (source : List UInt8) : Blind Twin (writeAlignedBytes source) := by
  by_cases hsource : source = []
  · subst hsource
    exact Blind.pure ()
  · intro a b h
    have haligned : ∀ {s : Stream}, s.Sound → (align s).state.cursor.write % 8 = 0 := by
      intro s hs
      obtain ⟨s', hrun, hext⟩ := align_run hs
      rw [hrun]
      exact hext.aligned
    have hempty : ¬source.isEmpty = true := by simpa using hsource
    have hpadded := align_blind h
    unfold writeAlignedBytes
    rw [if_neg hempty]
    exact hpadded.bind fun _ => hpadded.state.appends
      (setBytes_run hpadded.state.left hsource (haligned h.left))
      (setBytes_run hpadded.state.right hsource (haligned h.right))

end Stream

/-- What is put together from operations that do the same to twins does the same to
twins. -/
theorem Assembled.blind {α : Type} {body : Encoder α} (h : Assembled body) :
    Blind Stream.Twin body := by
  induction h with
  | pure a => exact Blind.pure a
  | fail e => exact Blind.of_still fun _ => rfl
  | escaped value min max => exact Blind.of_still fun _ => rfl
  | writeBits source bits right => exact Stream.writeBits_blind source bits right
  | writeBit bit => exact Stream.writeBit_blind bit
  | align => exact Stream.align_blind
  | padTo bytes => exact Stream.padTo_blind bytes
  | writeWhole _ => exact Stream.writeWhole_blind _
  | writeAlignedBytes source => exact Stream.writeAlignedBytes_blind source
  | bind _ _ hbody hnext => exact hbody.bind hnext

/-! ## Calls -/

namespace Stream

/-- Twins with the same position in a payload that bits are moved out of. -/
def TwinBeside (a b : Stream × Nat) : Prop :=
  Twin a.1 b.1 ∧ a.2 = b.2

theorem fromSource_blind {α : Type} (source : Payload) (body : Decoder α) :
    Blind TwinBeside (fromSource source body) := by
  rintro ⟨a, pos⟩ ⟨b, _⟩ ⟨h, rfl⟩
  exact ⟨rfl, ⟨h, rfl⟩, rfl⟩

theorem beside_blind {α : Type} {body : Encoder α} (h : Blind Twin body) :
    Blind TwinBeside (Action.beside body) := by
  rintro ⟨a, pos⟩ ⟨b, _⟩ ⟨hab, rfl⟩
  obtain ⟨hending, hstate, hlasting⟩ := h hab
  exact ⟨hending, ⟨hstate, rfl⟩, hlasting⟩

theorem moveFrom_blind (source : Payload) (bits : Nat) :
    Blind TwinBeside (moveFrom source bits) := by
  refine (fromSource_blind source _).bind fun _ => Blind.ite ?_ (Blind.pure ())
  refine (fromSource_blind source _).bind fun moved => ?_
  exact beside_blind (writeBits_blind moved bits false)

theorem moveSome_blind (source : Payload) (bits : Option Nat) :
    Blind TwinBeside (moveSome source bits) := by
  cases bits with
  | some bits => exact moveFrom_blind source bits
  | none => exact (fromSource_blind source _).bind fun bits => moveFrom_blind source bits

end Stream

namespace Call

open BitCodec.Stream (Twin)

/-- Whether a call asks about the buffer itself. -/
def measures : Call → Bool
  | .write .capacityBits | .write .isSpilled => true
  | _ => false

theorem write_blind {request : WriteRequest} (h : (Call.write request).measures = false) :
    Blind Twin request.run := by
  by_cases hrewind : ∃ how, request = .rewind how
  · obtain ⟨how, rfl⟩ := hrewind
    exact fun _ _ hab => ⟨rfl, hab.rewind how, rfl⟩
  · cases hlooks : request.looks with
    | false =>
      by_cases hensure : ∃ bits, request = .ensure bits
      · obtain ⟨bits, rfl⟩ := hensure
        exact (Stream.ensure_blind bits).map _
      · exact (WriteRequest.run_assembled hlooks (fun how h => hrewind ⟨how, h⟩)
          fun bits h => hensure ⟨bits, h⟩).blind
    | true =>
      cases request with
      | written =>
        intro a b hab
        have hrun : ∀ s, WriteRequest.written.run s = ⟨.value (.octets s.written), s, []⟩ :=
          fun _ => rfl
        rw [hrun, hrun, hab.written_eq]
        exact ⟨rfl, hab, rfl⟩
      | capacityBits | isSpilled => cases h
      | _ => cases hlooks

theorem transfer_blind (direction : Direction) (field : Field) :
    Blind Twin (field.transfer direction) := by
  cases direction with
  | encode =>
    rw [Field.transfer_encode]
    exact (field.writing_assembled.map _).blind
  | decode =>
    rw [Field.transfer_decode]
    exact fun _ _ h => h.decoding (field.reading_guarded.stays h.left.payload h.left.read_le)

theorem view_blind (requests : List ReadRequest) : Blind Twin (view requests).run := by
  intro a b h
  have hview : a.view = b.view := congrArg Reader.ofPayload h.payload_eq
  rw [view_run, view_run, hview, h.limit_eq]
  exact ⟨rfl, h, rfl⟩

theorem handOver_blind : Blind Twin handOver.run := by
  intro a b h
  have hrun : ∀ s, handOver.run s =
      ⟨.value (.plain (.octets s.written)), s, [.bytesEncoded s.cursor.writtenBytes]⟩ :=
    fun _ => rfl
  rw [hrun, hrun, h.written_eq, h.cursor_eq]
  exact ⟨rfl, h, rfl⟩

theorem fill_blind (giver : {slot : Slot // slot.Sound}) (bits : Option Nat) :
    Blind Twin (fill giver bits).run := by
  intro a b h
  have hpair : Stream.TwinBeside (a, giver.1.cursor.read) (b, giver.1.cursor.read) := ⟨h, rfl⟩
  obtain ⟨hending, ⟨hstate, hpos⟩, hlasting⟩ := Stream.moveSome_blind giver.1.payload bits hpair
  exact ⟨congrArg Ending.value (congrArg₂ Reply.filled hending hpos), hstate, hlasting⟩

theorem drain_blind (taker : {s : Stream // s.Sound}) (bits : Option Nat) :
    Blind Twin (drain taker bits).run := by
  intro a b h
  have hrun : ∀ s : Stream, (drain taker bits).run s =
      let t := Stream.moveSome s.payload bits (taker.1, s.cursor.read)
      ⟨.value (.drained t.ending t.state.1),
        { s with cursor := { s.cursor with read := t.state.2 } }, t.effects⟩ := fun _ => rfl
  have hstays := Stream.moveSome_lasts h.left.payload bits (taker.1, a.cursor.read)
    ⟨taker.2, h.left.read_le⟩
  rw [hrun, hrun, ← h.payload_eq, ← h.read_eq]
  exact ⟨rfl, h.withRead hstays.2, rfl⟩

/-- Both twins answer a call alike, and are twins after it. -/
theorem run_blind {call : Call} (h : call.measures = false) : Blind Twin call.run := by
  cases call with
  | write request => exact (write_blind h).map _
  | read request =>
    refine Blind.map (fun _ _ hab => hab.decoding ?_) _
    exact request.run_stays hab.left.payload hab.left.read_le
  | transfer direction field => exact (transfer_blind direction field).map _
  | view requests => exact view_blind requests
  | handOver => exact handOver_blind
  | fill giver bits => exact fill_blind giver bits
  | drain taker bits => exact drain_blind taker bits
  | setLimit limit => exact fun _ _ hab => ⟨rfl, hab.withLimit limit, rfl⟩
  | assign s => exact fun _ _ _ => ⟨rfl, Stream.Twin.refl s.2, rfl⟩

end Call

/-! ## Programs -/

/-- A program makes one call after another and may let every reply decide how it goes
on. -/
inductive CallProgram where
  | finish
  | ask (call : Call) (next : Ending Reply → CallProgram)

/-- What a program sees of a call: how it ended, what the stream then shows, and what an
observer saw who does not look at buffers. -/
structure Sight where
  ending : Ending Reply
  written : List UInt8
  cursor : Cursor
  limit : Nat
  lasting : List Effect

namespace CallProgram

/-- Every call that the program can come to. -/
def All (kept : Call → Prop) : CallProgram → Prop
  | finish => True
  | ask call next => kept call ∧ ∀ ending, (next ending).All kept

def observe : CallProgram → Stream → List Sight
  | finish, _ => []
  | ask call next, s =>
    let t := call.run s
    ⟨t.ending, t.state.written, t.state.cursor, t.state.limit, t.lasting⟩ ::
      (next t.ending).observe t.state

/-- No program that leaves the buffer alone can tell twins apart. -/
theorem observe_twins {a b : Stream} (h : a.Twin b) {program : CallProgram}
    (hprogram : program.All (·.measures = false)) : program.observe a = program.observe b := by
  induction program generalizing a b with
  | finish => rfl
  | ask call next ih =>
    obtain ⟨hcall, hnext⟩ := hprogram
    obtain ⟨hending, hstate, hlasting⟩ := call.run_blind hcall h
    simp only [observe]
    rw [hending, hstate.written_eq, hstate.cursor_eq, hstate.limit_eq, hlasting,
      ih _ hstate (hnext _)]

end CallProgram

end BitCodec
