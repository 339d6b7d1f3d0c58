import BitCodec.Proofs.History

/-!
# Programs that read

A program asks one request after another and may let every answer decide how it goes
on.  What it observes of a source is how each request ended, what became of the
destination it was given, and where the read position is afterwards.

Two results hold of every program on every source that a history can lead to.  No
request stops on anything but a contract about its own arguments, so bytes from
outside cannot break a decoder.  And sources with the same written bits, the same
position and the same cap cannot be told apart, whatever else their bytes hold.
-/

namespace BitCodec

/-! ## Sources -/

/-- Sources of bits: slots of sessions with any history, views of their streams, and
both after any requests to read. -/
inductive Slot.Reached : Slot → Prop where
  | held {history : List (String × SessionRequest)} {name : String} {slot : Slot} :
    (Session.after history).slot? name = some slot → Reached slot
  | viewed {slot : Slot} {stream : Stream} :
    Reached slot → slot.stream? = some stream → Reached (.packet stream.view)
  | read {slot : Slot} (request : ReadRequest) :
    Reached slot → Reached (Slot.decoding request.run slot).state

theorem Slot.reached_empty : (Slot.owned Stream.empty).Reached :=
  .held (show (Session.after [("a", .make .empty)]).slot? "a" = some _ from rfl)

theorem Slot.Reached.sound {slot : Slot} (h : slot.Reached) : slot.Sound := by
  induction h with
  | held hslot => exact (Session.after_sound _).held hslot
  | viewed _ hstream ih => exact packet_sound (ih.stream hstream).payload
  | read request _ ih => exact ih.read request

def Slot.written (slot : Slot) : List Bool :=
  slot.payload.string

/-! ## Programs -/

inductive ReadProgram where
  | finish
  | ask (request : ReadRequest) (next : Ending Answer → ReadProgram)

/-- What a program sees of one request. -/
structure Observation where
  ending : Ending Answer
  destination : Option Answer
  read : Nat

namespace ReadRequest

/-- What the destination of a request holds after it, for a request that has one.
One that did not end with a value left it as it was. -/
def destination? (request : ReadRequest) (p : Payload) (pos : Nat) : Option Answer :=
  match request with
  | .bits destination _ _ =>
    match (request.run p pos).ending with
    | .value (.octets filled) => some (.octets filled)
    | _ => some (.octets destination)
  | .valueInto t destination =>
    some (.value t (Action.store (t.read p) (pos, destination)).state.2)
  | .changed form t destination =>
    some (.value t (Changed.read form t p (pos, destination)).state.2)
  | _ => none

/-- Whether a request keeps to what it demands of its caller: it brings a
destination that is large enough, and relies on no alignment and no end. -/
def admissible : ReadRequest → Bool
  | .bits destination count _ => bytesOfBits count ≤ destination.length
  | .aligned _ | .assertConsumed => false
  | _ => true

theorem not_breaks {request : ReadRequest} (h : request.admissible = true) (b : Breach) :
    ¬request.breaks b := by
  cases request with
  | bits destination count right =>
    intro hbreaks
    exact hbreaks.1 (of_decide_eq_true h)
  | aligned t => cases h
  | assertConsumed => cases h
  | _ => exact fun hbreaks => hbreaks

theorem destination?_alike (request : ReadRequest) {p q : Payload} {pos : Nat} (hpq : p.Alike q)
    (hpos : pos ≤ p.bits) : request.destination? p pos = request.destination? q pos := by
  cases request with
  | bits destination count right =>
    have hraw : (ReadRequest.bits destination count right).raw = false := rfl
    simp only [destination?, (run_guarded hraw).alike hpq hpos]
  | valueInto t destination =>
    have hguarded : Decoder.Guarded (fun _ => False) t.read := t.read_guarded
    simp only [destination?, Action.store, hguarded.alike hpq hpos]
  | changed form t destination =>
    have hguarded : Decoder.Guarded (fun _ => False) (Changed.received form t destination) :=
      Changed.received_guarded form t destination
    simp only [destination?, Changed.read_run, hguarded.alike hpq hpos]
  | _ => rfl

end ReadRequest

namespace ReadProgram

/-- Every request that the program can come to. -/
def All (kept : ReadRequest → Prop) : ReadProgram → Prop
  | finish => True
  | ask request next => kept request ∧ ∀ ending, (next ending).All kept

/-- What the program sees of a source, request by request. -/
def observe : ReadProgram → Slot → List Observation
  | finish, _ => []
  | ask request next, slot =>
    let t := Slot.decoding request.run slot
    ⟨t.ending, request.destination? slot.payload slot.cursor.read, t.state.cursor.read⟩ ::
      (next t.ending).observe t.state

/-- On a sound source every request of an admissible program has a value or a failure
caused by data, and leaves the position inside the written bits. -/
theorem observe_contained {slot : Slot} (h : slot.Sound) {program : ReadProgram}
    (hprogram : program.All (·.admissible = true)) :
    ∀ o ∈ program.observe slot, (∀ b, o.ending ≠ .broken b) ∧ o.read ≤ slot.payload.bits := by
  induction program generalizing slot with
  | finish =>
    intro o ho
    cases ho
  | ask request next ih =>
    obtain ⟨hrequest, hnext⟩ := hprogram
    intro o ho
    cases ho with
    | head =>
      refine ⟨fun b hend => ?_, ?_⟩
      · exact request.not_breaks hrequest b (request.run_keeps h.payload h.read_le hend)
      · simp only [Slot.decoding_run, Slot.withRead_read]
        exact request.run_stays h.payload h.read_le
    | tail _ ho =>
      have hrest := ih _ (h.read request) (hnext _) o ho
      rwa [Slot.decoding_run, Slot.withRead_payload] at hrest

theorem observe_alike {x y : Slot} (hx : x.Sound) (halike : x.payload.Alike y.payload)
    (hread : x.cursor.read = y.cursor.read) {program : ReadProgram}
    (hprogram : program.All (·.raw = false)) : program.observe x = program.observe y := by
  induction program generalizing x y with
  | finish => rfl
  | ask request next ih =>
    obtain ⟨hrequest, hnext⟩ := hprogram
    have hrun : request.run x.payload x.cursor.read = request.run y.payload y.cursor.read := by
      rw [← hread]
      exact (ReadRequest.run_guarded hrequest).alike halike hx.read_le
    have hdestination : request.destination? x.payload x.cursor.read =
        request.destination? y.payload y.cursor.read := by
      rw [← hread]
      exact request.destination?_alike halike hx.read_le
    simp only [observe, Slot.decoding_run, Slot.withRead_read, hrun, hdestination]
    congr 1
    -- Reading moves the two positions alike, so the rest of the program starts alike.
    refine ih _ ?_ ?_ ?_ (hnext _)
    · have hsound := hx.read request
      rwa [Slot.decoding_run, hrun] at hsound
    · rwa [Slot.withRead_payload, Slot.withRead_payload]
    · rw [Slot.withRead_read, Slot.withRead_read]

/-! ## The two results -/

/-- Whatever bytes come in and whatever is asked of them, every request ends with a
value or with a failure caused by data, and the position never leaves the written
bits. -/
theorem no_request_breaks {slot : Slot} (h : slot.Reached) {program : ReadProgram}
    (hprogram : program.All (·.admissible = true)) :
    ∀ o ∈ program.observe slot, (∀ b, o.ending ≠ .broken b) ∧ o.read ≤ slot.payload.bits :=
  observe_contained h.sound hprogram

/-- A packet of eleven bits, and a program that runs into its end in the middle of an
address. -/
theorem no_request_breaks_packet :
    let slot : Slot := .packet (Reader.ofPayload ⟨#[0xFF, 0xE0], 11, 5⟩)
    let program : ReadProgram := .ask (.mini .address) fun _ =>
      .ask (.bits [0, 0] 9 true) fun _ => .ask (.ranged .i8 100#8 3#8 true) fun _ => .finish
    slot.Reached ∧ program.All (·.admissible = true) ∧
      ∀ o ∈ program.observe slot, (∀ b, o.ending ≠ .broken b) ∧ o.read ≤ slot.payload.bits := by
  intro slot program
  let history : List (String × SessionRequest) :=
    [("a", .receiveBits [0xFF, 0xE0] 11), ("a", .withLimit 5)]
  have hreached : slot.Reached :=
    .held (show (Session.after history).slot? "a" = some slot from rfl)
  have hprogram : program.All (·.admissible = true) :=
    ⟨rfl, fun _ => ⟨rfl, fun _ => ⟨rfl, fun _ => trivial⟩⟩⟩
  exact ⟨hreached, hprogram, no_request_breaks hreached hprogram⟩

/-- What a program observes depends on the written bits, the position and the cap
only. -/
theorem only_written_bits_seen {x y : Slot} (hx : x.Reached) (hy : y.Reached)
    (hbits : x.written = y.written) (hread : x.cursor.read = y.cursor.read)
    (hlimit : x.payload.limit = y.payload.limit) {program : ReadProgram}
    (hprogram : program.All (·.raw = false)) : program.observe x = program.observe y :=
  observe_alike hx.sound ⟨hx.sound.payload, hy.sound.payload, hbits, hlimit⟩ hread hprogram

/-- Two packets of eleven equal bits with different garbage behind them, and a program
whose second request depends on how the first one ended. -/
theorem only_written_bits_seen_garbage :
    let x : Slot := .packet (Reader.ofPayload ⟨#[0xAB, 0xFF], 11, defaultReadLimit⟩)
    let y : Slot := .packet (Reader.ofPayload ⟨#[0xAB, 0xE1], 11, defaultReadLimit⟩)
    let program : ReadProgram := .ask (.bits [0, 0] 9 true) fun
      | .value _ => .ask (.mini (.int .u8)) fun _ => .finish
      | _ => .finish
    x.Reached ∧ y.Reached ∧ x.written = y.written ∧ program.All (·.raw = false) ∧
      program.observe x = program.observe y := by
  intro x y program
  let history : List (String × SessionRequest) :=
    [("a", .receiveBits [0xAB, 0xFF] 11), ("b", .receiveBits [0xAB, 0xE1, 0x77] 11)]
  have hx : x.Reached := .held (show (Session.after history).slot? "a" = some x from rfl)
  have hy : y.Reached := .held (show (Session.after history).slot? "b" = some y from rfl)
  have hwritten : x.written = y.written := by decide
  have hprogram : program.All (·.raw = false) := by
    refine ⟨rfl, fun ending => ?_⟩
    cases ending with
    | value a => exact ⟨rfl, fun _ => trivial⟩
    | failed e => trivial
    | broken b => trivial
  exact ⟨hx, hy, hwritten, hprogram, only_written_bits_seen hx hy hwritten rfl rfl hprogram⟩

end ReadProgram

end BitCodec
