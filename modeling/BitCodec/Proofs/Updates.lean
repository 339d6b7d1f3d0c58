import BitCodec.Proofs.ChangedCodes
import BitCodec.Proofs.Cutting
import BitCodec.Proofs.Floats

/-!
# Updates keep both sides in step

A sender sends one value after another, each against the one before it.  The receiver
holds one value and updates it from the stream, at its own pace.

The invariant of such a link is that the unread bits are the codes of the updates on
their way, and that what the receiver holds stands for the last update it took.  The
sender compares what it sent and not what arrived, so an update that it finds unchanged
must be one that the same held value stands for: the mini code of a float is settled by
the float itself and not by what the receiver made of the one before.
-/

namespace BitCodec

open Code (fixed)

/-! ## What stands for a value -/

/-- A packet with nothing but the value gives this back. -/
def Codec.Delivers {α : Type} (c : Codec α) (value arrived : α) : Prop :=
  (c.ofPacket (c.toStream value).state.written).ending = .value arrived

/-- The two halves of a codec meet in a packet: its bits are followed by less than a byte
of padding. -/
theorem Codec.delivers {α : Type} {c : Codec α} {value arrived : α} {bits : List Bool}
    (hwrite : Emits (c.write value) () (fixed bits))
    (hread : Takes c.read arrived (fixed bits)) : c.Delivers value arrived := by
  obtain ⟨s', effects, hsend, hgrown⟩ := Codec.toStream_run hwrite
  obtain ⟨hcut, hshort⟩ := hgrown.sound.written_packet
  obtain ⟨rest, hrest⟩ := hcut.string_append
  have hbits : s'.string = bits := hgrown.string_eq
  have hend : s'.cursor.write = bits.length := by rw [← hbits, Stream.length_string]
  rw [Stream.payload_string, hbits] at hrest
  have htake : c.read (Payload.ofBytes s'.written) 0 = ⟨.value arrived, 0 + bits.length, []⟩ :=
    hread (Payload.ofBytes_sound _) (Nat.zero_le _) hrest
  have hinside : 0 + bits.length ≤ (Payload.ofBytes s'.written).bits := by
    rw [Nat.zero_add, ← hend]
    exact hcut.bits_le
  have hpadding : ¬(Payload.ofBytes s'.written).bits - (0 + bits.length) ≥ 8 := by omega
  unfold Codec.Delivers Codec.ofPacket Codec.readWhole
  rw [hsend, Decoder.bind_value htake, Decoder.bind_value (Decoder.available_run hinside)]
  simp only [if_neg hpadding]
  rfl

/-- What the receiver may hold for a value.  For a float in its fixed form that is the
value or, for a zero, the zero of the other sign; for a float in its mini code it is what
a packet with the value gives back.  For all others it is the value, of an address the
octets and the port. -/
def Form.Holds : Form → (t : Prim) → t.Value → t.Value → Prop
  | .plain, .float t, value, held => held = value ∨ t.IsZero held ∧ t.IsZero value
  | .mini, .float t, value, held => (Codec.mini (.float t)).Delivers value held
  | _, t, value, held => held = t.arrived value

namespace Mini

theorem quantized_zero {t : FloatType} {value : t.Value} (h : t.IsZero value) :
    quantized t value = quantized t 0 := by
  rcases h with rfl | rfl
  · rfl
  · cases t with
    | f32 => decide +kernel
    | f64 => decide +kernel

/-- Both zeros have the same mini code, so floats that compare as equal arrive as one. -/
theorem quantized_of_same {t : FloatType} {a b : t.Value} (h : t.same a b = true) :
    quantized t a = quantized t b := by
  rcases FloatType.eq_of_same h with rfl | ⟨ha, hb⟩
  · rfl
  · rw [quantized_zero ha, quantized_zero hb]

theorem delivers_quantized {t : FloatType} {value : t.Value}
    (h : check (.float t) value = .ok ()) :
    (Codec.mini (.float t)).Delivers value (quantized t value) :=
  Codec.delivers (writeFloat_emits h) (readFloat_takes h)

end Mini

namespace Form

variable {form : Form} {t : Prim} {value last held : t.Value}

theorem holds_arrived (h : form.check t value = .ok ()) :
    form.Holds t value (form.arrived t value) := by
  cases form with
  | plain =>
    cases t with
    | float f => exact .inl rfl
    | int _ | bool | u24 | address => rfl
  | mini =>
    cases t with
    | float f => exact Mini.delivers_quantized h
    | int _ | bool | u24 | address => rfl

/-- What is held for the last value stands for one that the sender finds unchanged. -/
theorem Holds.of_same (h : form.Holds t last held) (hlast : form.check t last = .ok ())
    (hvalue : form.check t value = .ok ()) (hsame : t.same value last = true) :
    form.Holds t value held := by
  cases t with
  | float f =>
    cases form with
    | plain =>
      rcases FloatType.eq_of_same hsame with rfl | ⟨hzero, hlastZero⟩
      · exact h
      · rcases h with rfl | ⟨hheld, -⟩
        · exact .inr ⟨hlastZero, hzero⟩
        · exact .inr ⟨hheld, hzero⟩
    | mini =>
      have hdelivered : Ending.value (Mini.quantized f last) = Ending.value held :=
        (Mini.delivers_quantized hlast).symm.trans h
      rw [← Mini.quantized_of_same hsame] at hdelivered
      exact (Mini.delivers_quantized hvalue).trans hdelivered
  | int _ | bool | u24 | address =>
    have heq : value = last := eq_of_beq hsame
    rw [heq]
    exact h

end Form

/-! ## Links -/

/-- A stream that one side sends updates on and the other takes them from. -/
structure Link (t : Prim) where
  stream : Stream
  /-- The updates that were sent. -/
  sent : List t.Value
  /-- How many of them were taken. -/
  taken : Nat
  /-- What the receiver holds. -/
  held : t.Value

/-- Both sides can update by calls of their own or by a transfer.  A transfer that
receives is given a last value too, which it has no use for. -/
inductive Link.Move (t : Prim) where
  | write (value : t.Value)
  | encode (value : t.Value)
  | read
  | decode (last : t.Value)

namespace Link

variable {t : Prim}

/-- Nothing was sent before the first update, so it is always sent in full. -/
def writing (form : Form) (l : Link t) (value : t.Value) : Encoder Unit :=
  match l.sent.getLast? with
  | none => Changed.writeAlways form t value
  | some last => Changed.write form t value last

def encoding (form : Form) (l : Link t) (value : t.Value) : Encoder Unit :=
  match l.sent.getLast? with
  | none => Changed.writeAlways form t value
  | some last => do
    let _ ← (Field.changed form t value last).transfer .encode

def send (l : Link t) (value : t.Value) (body : Encoder Unit) : Ending Unit × Link t :=
  let u := body l.stream
  (u.ending, { l with stream := u.state, sent := l.sent ++ [value] })

/-- Take the next update.  When none is on its way nothing happens. -/
def take (l : Link t) (body : Action (Stream × t.Value) Bool) : Ending Unit × Link t :=
  if l.taken < l.sent.length then
    let u := body (l.stream, l.held)
    (u.ending.map fun _ => (),
      { l with stream := u.state.1, taken := l.taken + 1, held := u.state.2 })
  else (.value (), l)

def step (form : Form) (l : Link t) : Move t → Ending Unit × Link t
  | .write value => l.send value (l.writing form value)
  | .encode value => l.send value (l.encoding form value)
  | .read => l.take (Changed.receive form t)
  | .decode last => l.take (Changed.transfer form t last .decode)

/-- What happens move by move: how each one ended, and the link behind it. -/
def run (form : Form) (l : Link t) : List (Move t) → List (Ending Unit × Link t)
  | [] => []
  | move :: rest => l.step form move :: (l.step form move).2.run form rest

/-- The form has a code for the value, when one is sent. -/
def Move.Accepted (form : Form) : Move t → Prop
  | write value | encode value => form.check t value = .ok ()
  | read | decode _ => True

/-- What both sides can rely on: behind the update that was taken last its value is held,
every bit is read when every update is taken, and an update that changes nothing costs
one bit. -/
structure InSync (form : Form) (l : Link t) : Prop where
  holds : ∀ i value, l.taken = i + 1 → l.sent[i]? = some value → form.Holds t value l.held
  consumed : l.taken = l.sent.length → l.stream.cursor.read = l.stream.cursor.write
  one_bit : ∀ last value, l.sent.getLast? = some last → t.same value last = true →
    t.direct = false → ∀ move ∈ [Move.write value, Move.encode value],
      (l.step form move).2.stream.cursor.write = l.stream.cursor.write + 1

/-! ## The codes of updates -/

/-- The sender finds the value unchanged. -/
def repeats (t : Prim) (value : t.Value) (last : Option t.Value) : Bool :=
  last.any (t.same value)

/-- The codes of updates, the first of which is sent against this one. -/
def updateBits (form : Form) (t : Prim) : Option t.Value → List t.Value → List Bool
  | _, [] => []
  | last, value :: rest =>
    Changed.wireBits form t value (repeats t value last) ++ updateBits form t (some value) rest

theorem updateBits_append (form : Form) (t : Prim) (last : Option t.Value)
    (values : List t.Value) (value : t.Value) :
    updateBits form t last (values ++ [value]) = updateBits form t last values ++
      Changed.wireBits form t value (repeats t value (values.getLast?.or last)) := by
  induction values generalizing last with
  | nil => exact List.append_nil _
  | cons first rest ih =>
    have hlast : (first :: rest).getLast?.or last = rest.getLast?.or (some first) := by
      rw [List.getLast?_cons]
      cases rest.getLast? <;> rfl
    rw [List.cons_append, updateBits, updateBits, ih, List.append_assoc, hlast]

theorem writing_emits {form : Form} {l : Link t} {value : t.Value}
    (h : form.check t value = .ok ()) :
    Emits (l.writing form value) ()
      (fixed (Changed.wireBits form t value (repeats t value l.sent.getLast?))) := by
  unfold writing repeats
  cases l.sent.getLast? with
  | none => exact Changed.writeAlways_emits h
  | some last => exact Changed.write_emits h

/-- A transfer sends the same as a call. -/
theorem encoding_state (form : Form) (l : Link t) (value : t.Value) (s : Stream) :
    (l.encoding form value s).state = (l.writing form value s).state := by
  unfold encoding writing
  cases l.sent.getLast? with
  | none => rfl
  | some last =>
    dsimp only
    rw [Action.map_run, Changed.field_encode]

theorem encoding_emits {form : Form} {l : Link t} {value : t.Value}
    (h : form.check t value = .ok ()) :
    Emits (l.encoding form value) ()
      (fixed (Changed.wireBits form t value (repeats t value l.sent.getLast?))) := by
  unfold encoding repeats
  cases l.sent.getLast? with
  | none => exact Changed.writeAlways_emits h
  | some last => exact (Changed.field_encode_emits (Changed.write_emits h)).map fun _ => ()

/-! ## The invariant -/

/-- Some updates were taken and the others are on their way. -/
structure Carries (form : Form) (l : Link t) (past pending : List t.Value) : Prop where
  sent_eq : l.sent = past ++ pending
  taken_eq : l.taken = past.length
  accepted : ∀ value ∈ l.sent, form.check t value = .ok ()
  sound : l.stream.Sound
  unread_eq : l.stream.unread = updateBits form t past.getLast? pending
  holds : ∀ value, past.getLast? = some value → form.Holds t value l.held

section Invariant

variable {form : Form} {l : Link t} {past pending : List t.Value} {value : t.Value}

theorem Carries.send (h : l.Carries form past pending) (hvalue : form.check t value = .ok ())
    {body : Encoder Unit}
    (hbody : Emits body ()
      (fixed (Changed.wireBits form t value (repeats t value l.sent.getLast?)))) :
    (l.send value body).1 = .value () ∧
      (l.send value body).2.Carries form past (pending ++ [value]) := by
  obtain ⟨s', effects, hrun, hgrown⟩ := hbody h.sound
  have hlast : l.sent.getLast? = pending.getLast?.or past.getLast? := by
    rw [h.sent_eq, List.getLast?_append]
  unfold Link.send
  rw [hrun]
  refine ⟨rfl, ?_, h.taken_eq, ?_, hgrown.sound, ?_, h.holds⟩
  · rw [h.sent_eq, List.append_assoc]
  · intro other hother
    rcases List.mem_append.mp hother with hold | hnew
    · exact h.accepted other hold
    · rw [List.mem_singleton.mp hnew]
      exact hvalue
  -- The last update sent is the last one on its way, if any is, or the last one taken.
  · rw [updateBits_append, ← h.unread_eq, ← hlast]
    exact hgrown.unread_eq h.sound

/-- The next update is taken off the unread bits, and what is held then stands for it. -/
theorem Carries.take (h : l.Carries form past (value :: pending)) :
    (l.take (Changed.receive form t)).1 = .value () ∧
      (l.take (Changed.receive form t)).2.Carries form (past ++ [value]) pending := by
  have hsome : l.taken < l.sent.length := by
    rw [h.sent_eq, h.taken_eq, List.length_append, List.length_cons]
    omega
  have hvalue : form.check t value = .ok () :=
    h.accepted value (by rw [h.sent_eq]; exact List.mem_append_right _ (.head _))
  have htakes := Changed.received_takes hvalue (repeats t value past.getLast?) l.held
  have hunread := h.unread_eq
  have hrun := Changed.receive_run htakes h.sound hunread
  have hnow : form.Holds t value
      (Changed.updated form t value (repeats t value past.getLast?) l.held).2 := by
    unfold Changed.updated
    by_cases hdirect : t.direct = true
    · rw [if_pos hdirect]
      exact Form.holds_arrived hvalue
    · rw [if_neg hdirect]
      cases hrepeated : repeats t value past.getLast? with
      | false => exact Form.holds_arrived hvalue
      -- What is held stays, and it stood for the update that this one repeats.
      | true =>
        obtain ⟨last, hlast, hsame⟩ := (Option.any_eq_true _ _).mp hrepeated
        have hlastOk : form.check t last = .ok () := by
          refine h.accepted last ?_
          rw [h.sent_eq]
          exact List.mem_append_left _ (List.mem_of_getLast? hlast)
        exact (h.holds last hlast).of_same hlastOk hvalue hsame
  unfold Link.take
  rw [if_pos hsome, hrun]
  refine ⟨rfl, ?_, ?_, h.accepted, Stream.readOn_sound h.sound hunread, ?_, ?_⟩
  · rw [h.sent_eq, List.append_assoc]
    rfl
  · rw [h.taken_eq, List.length_append]
    rfl
  · rw [List.getLast?_append]
    exact Stream.readOn_unread hunread
  · intro other hother
    rw [List.getLast?_append] at hother
    cases hother
    exact hnow

theorem take_none {body : Action (Stream × t.Value) Bool} (h : l.Carries form past []) :
    l.take body = (.value (), l) := by
  have hnone : ¬l.taken < l.sent.length := by
    rw [h.sent_eq, h.taken_eq, List.append_nil]
    exact Nat.lt_irrefl _
  exact if_neg hnone

/-- One move keeps the invariant. -/
theorem Carries.step (h : l.Carries form past pending) {move : Move t}
    (hmove : move.Accepted form) :
    (l.step form move).1 = .value () ∧
      ∃ past pending, (l.step form move).2.Carries form past pending := by
  have htake : (l.take (Changed.receive form t)).1 = .value () ∧
      ∃ past pending, (l.take (Changed.receive form t)).2.Carries form past pending := by
    cases pending with
    | nil =>
      rw [take_none h]
      exact ⟨rfl, past, [], h⟩
    | cons value pending => exact h.take.imp_right fun hrest => ⟨_, _, hrest⟩
  cases move with
  | write value => exact (h.send hmove (writing_emits hmove)).imp_right fun hsent => ⟨_, _, hsent⟩
  | encode value =>
    exact (h.send hmove (encoding_emits hmove)).imp_right fun hsent => ⟨_, _, hsent⟩
  | read => exact htake
  | decode last => exact htake

theorem Carries.inSync (h : l.Carries form past pending) : l.InSync form where
  holds i value htaken hvalue := by
    refine h.holds value ?_
    have hlength : past.length = i + 1 := h.taken_eq.symm.trans htaken
    rw [h.sent_eq, List.getElem?_append_left (by omega)] at hvalue
    rw [List.getLast?_eq_getElem?, hlength, Nat.add_sub_cancel, hvalue]
  consumed hall := by
    rw [h.sent_eq, h.taken_eq, List.length_append] at hall
    have hnone : pending = [] := List.length_eq_zero_iff.mp (by omega)
    have hunread := h.unread_eq
    rw [hnone] at hunread
    have hlength := Stream.length_unread h.sound
    rw [hunread] at hlength
    exact hlength
  one_bit last value hlast hsame hdirect move hmove := by
    obtain ⟨s', effects, hrun, hgrown⟩ := Emits.writeBit false h.sound
    have hgrowth : s'.cursor.write = l.stream.cursor.write + 1 := hgrown.write_eq
    have hwriting : (l.writing form value l.stream).state = s' := by
      unfold writing
      rw [hlast]
      dsimp only
      rw [Changed.write_same form hsame hdirect, hrun]
    have hencoding := (encoding_state form l value l.stream).trans hwriting
    rw [← hgrowth]
    rcases List.mem_pair.mp hmove with rfl | rfl
    · exact congrArg (fun s => s.cursor.write) hwriting
    · exact congrArg (fun s => s.cursor.write) hencoding

/-- So does a run, whatever the order of the moves is. -/
theorem Carries.run (h : l.Carries form past pending) {moves : List (Move t)}
    (hmoves : ∀ move ∈ moves, move.Accepted form) :
    ∀ o ∈ l.run form moves, o.1 = .value () ∧
      ∃ past pending, o.2.Carries form past pending := by
  induction moves generalizing l past pending with
  | nil => exact fun o ho => nomatch ho
  | cons move rest ih =>
    have hstep := h.step (hmoves move (.head _))
    intro o ho
    rcases List.mem_cons.mp ho with rfl | hlater
    · exact hstep
    · obtain ⟨-, past, pending, hcarries⟩ := hstep
      exact ih hcarries (fun later hmem => hmoves later (.tail _ hmem)) o hlater

theorem carries_nothing {s : Stream} (hs : s.Sound) (hread : s.cursor.read = s.cursor.write)
    (held : t.Value) : (Link.mk s [] 0 held).Carries form [] [] := by
  refine ⟨rfl, rfl, fun _ hvalue => (nomatch hvalue), hs, ?_, fun _ hvalue => (nomatch hvalue)⟩
  have hlen := Stream.length_unread hs
  exact List.length_eq_zero_iff.mp (by omega : s.unread.length = 0)

end Invariant

/-- Whatever was done with a stream before, when all of it is read, updates can be sent
and taken in any order.  Every move succeeds, and sender and receiver stay in step: what
is held stands for the update that was taken last, all is read when all is taken, and an
update that changes nothing costs one bit. -/
theorem run_keeps_in_sync {slot : Slot} (hslot : slot.Reached) {s : Stream}
    (hstream : slot.stream? = some s) (hread : s.cursor.read = s.cursor.write) (form : Form)
    {t : Prim} (held : t.Value) {moves : List (Move t)}
    (hmoves : ∀ move ∈ moves, move.Accepted form) :
    ∀ o ∈ (Link.mk s [] 0 held).run form moves, o.1 = .value () ∧ o.2.InSync form := by
  have hcarries : (Link.mk s [] 0 held).Carries form [] [] :=
    carries_nothing (hslot.sound.stream hstream) hread held
  intro o ho
  obtain ⟨hended, past, pending, hlater⟩ := hcarries.run hmoves o ho
  exact ⟨hended, hlater.inSync⟩

/-- Floats in their mini code, by both means: a half twice, and both zeros. -/
theorem run_keeps_in_sync_zeros :
    let moves : List (Move (.float .f32)) :=
      [.write 0x3f000000#32, .encode 0x3f000000#32, .read, .write 0x80000000#32,
        .decode 0x3f000000#32, .encode 0#32, .read, .read]
    (Slot.owned Stream.empty).Reached ∧ (∀ move ∈ moves, move.Accepted .mini) ∧
      ∀ o ∈ (Link.mk Stream.empty [] 0 0x3f800000#32).run .mini moves,
        o.1 = .value () ∧ o.2.InSync .mini := by
  intro moves
  have hmoves : ∀ move ∈ moves, move.Accepted .mini := by
    simp only [moves, List.forall_mem_cons]
    exact ⟨rfl, rfl, trivial, rfl, trivial, rfl, trivial, trivial, fun _ h => nomatch h⟩
  exact ⟨Slot.reached_empty, hmoves,
    run_keeps_in_sync Slot.reached_empty rfl rfl .mini 0x3f800000#32 hmoves⟩

/-- An address on one interface is held on none once its update is taken, even where it was held
before. -/
theorem run_unscopes_address :
    let moves : List (Move .address) := [.write .linkLocal, .read]
    ∃ o ∈ (Link.mk Stream.empty [] 0 SocketAddress.linkLocal).run .plain moves,
      o.2.taken = 1 ∧ o.2.sent[0]? = some .linkLocal ∧ o.2.held ≠ .linkLocal := by
  intro moves
  exact ⟨_, .tail _ (.head _), rfl, rfl, by decide +kernel⟩

end Link

end BitCodec
