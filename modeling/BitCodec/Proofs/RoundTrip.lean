import BitCodec.Proofs.Codes
import BitCodec.Proofs.ReadProgram

/-!
# Messages come back as they were sent

An item is a field of a message with the value that is sent, and with what the
receiver's variable holds before.  It can be sent and received by calls of its own or
by a transfer that serves both directions.

A channel is a stream together with the items that were sent and not received yet.  Its
invariant is that the unread bits are the codes of those items, one behind another from
the read position on.  Sending adds a code at the end and receiving takes one off the
front, so sends and receives can come in any order that makes sense.
-/

namespace BitCodec

/-! ## Items -/

inductive Item where
  | value (t : Prim) (v held : t.Value)
  | casted (wire t : IntType) (v held : t.Value)
  | mini (t : Prim) (v held : t.Value)
  | miniSigned (t : IntType) (v : t.Value)
  | ranged (t : IntType) (min max v held : t.Value) (escape : Bool)
  | inRange (t : IntType) (r : IntRange t) (v : t.Value) (escape : Bool)
  | bits (source held : List UInt8) (count : Nat) (right : Bool)
  | alignedBytes (source : List UInt8)
  | block (source : List UInt8) (writeMax readMax : BitVec 32)
  | align

/-- By a call of its own, or by a transfer for items that have one. -/
inductive Means where
  | call
  | transfer
  deriving DecidableEq, Repr

namespace Item

def writing : Item → Encoder Unit
  | value t v _ => t.write v
  | casted wire t v _ => IntType.writeCasted wire t v
  | mini t v _ => Mini.write t v
  | miniSigned t v => Mini.writeSigned t v
  | ranged t min max v _ escape => Ranged.write t v min max escape
  | inRange _ r v escape => r.write v escape
  | bits source _ count right => Stream.writeBits source count right
  | alignedBytes source => Stream.writeAlignedBytes source
  | block source writeMax _ => do let _ ← Block.write source writeMax.toNat
  | align => Stream.align

def reading : Item → Decoder Answer
  | value t _ _ => do pure (.value t (← t.read))
  | casted wire t _ _ => do pure (.value (.int t) (← IntType.readCasted wire t))
  | mini t _ _ => do pure (.value t (← Mini.read t))
  | miniSigned t _ => do pure (.value (.int t) (← Mini.readSigned t))
  | ranged t min max _ _ escape => do pure (.value (.int t) (← Ranged.read t min max escape))
  | inRange t r _ escape => do pure (.value (.int t) (← r.read escape))
  | bits _ held count right => do pure (.octets (← Decoder.readBits held count right))
  | alignedBytes source => do pure (.octets (← Decoder.readAlignedBytes source.length))
  | block _ _ readMax => do pure (.octets (← Block.read readMax.toNat))
  | align => do Decoder.align; pure .nothing

/-- The field that is transferred: the value on the sending side, and what is held on
the receiving side.  Bits are transferred from the low end only. -/
def field? : Direction → Item → Option Field
  | .encode, value t v _ => some (.plain t v)
  | .decode, value t _ held => some (.plain t held)
  | .encode, casted wire t v _ => some (.casted wire t v)
  | .decode, casted wire t _ held => some (.casted wire t held)
  | .encode, mini t v _ => some (.mini t v)
  | .decode, mini t _ held => some (.mini t held)
  | .encode, ranged t min max v _ escape => some (.ranged t v min max escape)
  | .decode, ranged t min max _ held escape => some (.ranged t held min max escape)
  | .encode, bits source _ count true => some (.bits source count)
  | .decode, bits _ held count true => some (.bits held count)
  | _, _ => none

def send (means : Means) (item : Item) : Encoder Unit :=
  match means, item.field? .encode with
  | .transfer, some field => do
    let _ ← field.transfer .encode
  | _, _ => item.writing

def receive (means : Means) (item : Item) : Encoder Answer :=
  match means, item.field? .decode with
  | .transfer, some field => do
    let (after, _) ← field.transfer .decode
    pure after
  | _, _ => Stream.decoding item.reading

/-- What receiving must give: the value, or the bytes with the bits sent in them.  Of an
address these are the octets and the port. -/
def answer : Item → Answer
  | value t v _ => .value t (t.arrived v)
  | casted _ t v _ => .value (.int t) v
  | mini t v _ => .value t (t.arrived v)
  | miniSigned t v => .value (.int t) v
  | ranged t _ _ v _ _ => .value (.int t) v
  | inRange t _ v _ => .value (.int t) v
  | bits source held count right =>
    .octets (Bits.packed right (Bits.taken source count right) ++ held.drop (bytesOfBits count))
  | alignedBytes source => .octets source
  | block source _ _ => .octets source
  | align => .nothing

/-- The item can be sent without loss: a casted value fits the wire type, a mini value
is no float, a ranged value lies between bounds that are in order or may escape them,
there are bytes for the bits, and a block is within both maxima. -/
def Lossless : Item → Prop
  | casted wire t v _ => IntType.Fits wire t v
  | mini t _ _ => Mini.Lossless t
  | ranged t min max v _ escape => Ranged.Sendable t v min max escape
  | inRange _ r v escape => escape = true ∨ r.contains v = true
  | bits source held count _ =>
    bytesOfBits count ≤ source.length ∧ bytesOfBits count ≤ held.length
  | block source writeMax readMax =>
    source.length ≤ writeMax.toNat ∧ source.length ≤ readMax.toNat
  | _ => True

def code : Item → Code
  | value t v _ => .fixed (Prim.wireBits t v)
  | casted wire t v _ => .fixed (IntType.castBits wire t v)
  | mini t v _ => .fixed (Mini.wireBits t v)
  | miniSigned t v => .fixed (Mini.signedBits t v)
  | ranged t min max v _ escape => .fixed (Ranged.wireBits t v min max escape)
  | inRange _ r v escape => .fixed (r.wireBits v escape)
  | bits source _ count right => .fixed (Bits.taken source count right)
  | alignedBytes source => .block source
  | block source _ _ => Block.code source
  | align => .padding

theorem writing_emits {item : Item} (h : item.Lossless) : Emits item.writing () item.code := by
  cases item with
  | value t v held => exact t.write_emits v
  | casted wire t v held => exact IntType.writeCasted_emits h
  | mini t v held => exact Mini.write_emits h v
  | miniSigned t v => exact Mini.writeSigned_emits t v
  | ranged t min max v held escape => exact Ranged.write_emits h
  | inRange t r v escape => exact IntRange.write_emits h
  | bits source held count right => exact Emits.writeBits right h.1
  | alignedBytes source => exact Emits.writeAlignedBytes source
  | block source writeMax readMax => exact (Block.write_emits h.1).map fun _ => ()
  | align => exact Emits.align

/-- Bits are read back from where they came from, whichever end it is. -/
theorem readBits_takes {source held : List UInt8} {count : Nat} (right : Bool)
    (hsource : bytesOfBits count ≤ source.length) (hheld : bytesOfBits count ≤ held.length) :
    Takes (Decoder.readBits held count right)
      (Bits.packed right (Bits.taken source count right) ++ held.drop (bytesOfBits count))
      (.fixed (Bits.taken source count right)) := by
  have hlen := Bits.length_taken right hsource
  have hroom : bytesOfBits (Bits.taken source count right).length ≤ held.length := by
    rw [hlen]
    exact hheld
  have hread := Takes.readBits right hroom
  rwa [hlen] at hread

theorem reading_takes {item : Item} (h : item.Lossless) :
    Takes item.reading item.answer item.code := by
  cases item with
  | value t v held => exact (t.read_takes v).map (Answer.value t)
  | casted wire t v held => exact (IntType.readCasted_takes h).map (Answer.value (.int t))
  | mini t v held => exact (Mini.read_takes h v).map (Answer.value t)
  | miniSigned t v => exact (Mini.readSigned_takes t v).map (Answer.value (.int t))
  | ranged t min max v held escape => exact (Ranged.read_takes h).map (Answer.value (.int t))
  | inRange t r v escape => exact (IntRange.read_takes h).map (Answer.value (.int t))
  | bits source held count right =>
    exact (readBits_takes right h.1 h.2).map Answer.octets
  | alignedBytes source => exact (Takes.readAlignedBytes source).map Answer.octets
  | block source writeMax readMax =>
    have hlength : source.length < 2 ^ 32 := Nat.lt_of_le_of_lt h.2 readMax.isLt
    exact (Block.read_takes h.2 hlength).map Answer.octets
  | align => exact Takes.align.map fun _ => Answer.nothing

end Item

/-! ## Transfers -/

namespace Stream

def unread (s : Stream) : List Bool :=
  s.string.drop s.cursor.read

def readOn (s : Stream) (count : Nat) : Stream :=
  { s with cursor := { s.cursor with read := s.cursor.read + count } }

variable {s s' : Stream} {bits rest : List Bool}

theorem length_unread (hs : s.Sound) : s.cursor.read + s.unread.length = s.cursor.write := by
  have := hs.read_le
  rw [unread, List.length_drop, length_string]
  omega

/-- New bits come behind the unread ones. -/
theorem Grown.unread_eq (h : s.Grown bits s') (hs : s.Sound) : s'.unread = s.unread ++ bits := by
  have hread := hs.read_le
  rw [unread, h.string_eq, h.read_eq, List.drop_append_of_le_length]
  · rfl
  · rw [length_string]
    exact hread

theorem readOn_sound (hs : s.Sound) (h : s.unread = bits ++ rest) :
    (s.readOn bits.length).Sound := by
  have hlen := length_unread hs
  rw [h, List.length_append] at hlen
  exact hs.withRead (by omega)

theorem readOn_unread (h : s.unread = bits ++ rest) : (s.readOn bits.length).unread = rest := by
  have hdrop : (s.readOn bits.length).unread = s.unread.drop bits.length := by
    rw [unread, unread, List.drop_drop]
    rfl
  rw [hdrop, h, List.drop_left]

end Stream

/-- In front of the code, the operation gives the answer and moves the read position
behind the code; it changes nothing else. -/
def Receives {α : Type} (body : Encoder α) (a : α) (code : Code) : Prop :=
  ∀ ⦃s : Stream⦄ ⦃rest : List Bool⦄, s.Sound → s.unread = code s.cursor.read ++ rest →
    body s = ⟨.value a, s.readOn (code s.cursor.read).length, []⟩

theorem Takes.receives {α : Type} {body : Decoder α} {a : α} {code : Code}
    (h : Takes body a code) : Receives (Stream.decoding body) a code := by
  intro s rest hs hstring
  rw [Stream.unread, ← Stream.payload_string] at hstring
  have hrun := h hs.payload hs.read_le hstring
  unfold Stream.decoding Action.onPart
  rw [hrun]
  rfl

namespace Field

variable {α : Type} {c : Codec α} {v : α} {code : Code}

theorem along_emits (h : Emits (c.write v) () code) (answer : α → Answer) :
    Emits (along c .encode v answer) (answer v, none) code := by
  intro s hs
  obtain ⟨s', effects, hrun, hgrown⟩ := h hs
  refine ⟨s', effects, ?_, hgrown⟩
  rw [along_encode, hrun]
  rfl

theorem along_receives (h : Takes c.read v code) (held : α) (answer : α → Answer) :
    Receives (along c .decode held answer) (answer v, none) code := by
  intro s rest hs hstring
  have hreceive : c.transfer .decode (s, held) =
      ⟨.value (), (s.readOn (code s.cursor.read).length, v), []⟩ := by
    unfold Codec.transfer Action.store
    simp only [h.receives hs hstring]
  have hrun := exchange_run held (c.transfer .decode)
    (fun u => (answer u.2, (none : Option Bool))) s
  rw [hreceive] at hrun
  exact hrun

end Field

theorem Receives.bind {α β : Type} {body : Encoder α} {next : α → Encoder β} {a : α} {b : β}
    {first second : Code} (h : Receives body a first) (hnext : Receives (next a) b second) :
    Receives (body >>= next) b (first.followedBy second) := by
  intro s rest hs hunread
  rw [Code.followedBy, List.append_assoc] at hunread
  have hrun := hnext (Stream.readOn_sound hs hunread) (Stream.readOn_unread hunread)
  rw [Action.bind_value (h hs hunread), hrun, Code.followedBy, List.length_append]
  simp only [Stream.readOn, Nat.add_assoc]

theorem Receives.map {α β : Type} {body : Encoder α} {a : α} {code : Code}
    (h : Receives body a code) (f : α → β) :
    Receives (body >>= fun a => pure (f a)) (f a) code := by
  intro s rest hs hstring
  rw [Action.bind_value (h hs hstring)]
  rfl

namespace Item

/-- However an item is sent, its code is what the stream is grown by. -/
theorem send_emits {item : Item} (h : item.Lossless) (means : Means) :
    Emits (item.send means) () item.code := by
  -- An item without a transfer is sent by its call whatever the means.
  have hcall : Emits (item.send .call) () item.code := writing_emits h
  cases means with
  | call => exact hcall
  | transfer =>
    cases item with
    | value t v held =>
      exact (Field.along_emits (c := Codec.plain t) (t.write_emits v) (.value t)).map fun _ => ()
    | casted wire t v held =>
      exact (Field.along_emits (c := Codec.casted wire t) (IntType.writeCasted_emits h)
        (.value (.int t))).map fun _ => ()
    | mini t v held =>
      exact (Field.along_emits (c := Codec.mini t) (Mini.write_emits h v) (.value t)).map
        fun _ => ()
    | ranged t min max v held escape =>
      exact (Field.along_emits (c := Codec.ranged t min max escape) (Ranged.write_emits h)
        (.value (.int t))).map fun _ => ()
    | bits source held count right =>
      cases right with
      | false => exact hcall
      | true =>
        have hbits := Field.along_emits (c := Field.bitsCodec source count)
          (Emits.writeBits true h.1) .octets
        rw [← Field.transfer_bits] at hbits
        exact hbits.map fun _ => ()
    | miniSigned t v => exact hcall
    | inRange t r v escape => exact hcall
    | alignedBytes source => exact hcall
    | block source writeMax readMax => exact hcall
    | align => exact hcall

/-- However an item is received, in front of its code it gives the answer. -/
theorem receive_receives {item : Item} (h : item.Lossless) (means : Means) :
    Receives (item.receive means) item.answer item.code := by
  have hcall : Receives (item.receive .call) item.answer item.code := (reading_takes h).receives
  cases means with
  | call => exact hcall
  | transfer =>
    cases item with
    | value t v held =>
      exact (Field.along_receives (c := Codec.plain t) (t.read_takes v) held
        (.value t)).map Prod.fst
    | casted wire t v held =>
      exact (Field.along_receives (c := Codec.casted wire t) (IntType.readCasted_takes h) held
        (.value (.int t))).map Prod.fst
    | mini t v held =>
      exact (Field.along_receives (c := Codec.mini t) (Mini.read_takes h v) held
        (.value t)).map Prod.fst
    | ranged t min max v held escape =>
      exact (Field.along_receives (c := Codec.ranged t min max escape) (Ranged.read_takes h) held
        (.value (.int t))).map Prod.fst
    | bits source held count right =>
      cases right with
      | false => exact hcall
      | true =>
        have hbits := Field.along_receives (c := Field.bitsCodec held count)
          (readBits_takes true h.1 h.2) held .octets
        rw [← Field.transfer_bits] at hbits
        exact hbits.map Prod.fst
    | miniSigned t v => exact hcall
    | inRange t r v escape => exact hcall
    | alignedBytes source => exact hcall
    | block source writeMax readMax => exact hcall
    | align => exact hcall

end Item

/-! ## Channels -/

/-- A stream, and the items that were sent on it and not received yet. -/
structure Channel where
  stream : Stream
  pending : List Item

inductive Turn where
  | send (means : Means) (item : Item)
  | receive (means : Means)

namespace Channel

/-- Send an item, or receive the one that was sent first.  When nothing is pending
there is nothing to receive and nothing happens. -/
def step (c : Channel) : Turn → Ending (Option Answer) × Channel
  | .send means item =>
    let t := item.send means c.stream
    (t.ending.map fun _ => none, ⟨t.state, c.pending ++ [item]⟩)
  | .receive means =>
    match c.pending with
    | [] => (.value none, c)
    | item :: rest =>
      let t := item.receive means c.stream
      (t.ending.map some, ⟨t.state, rest⟩)

/-- What happens turn by turn: how each one ended, and the channel behind it. -/
def run (c : Channel) : List Turn → List (Ending (Option Answer) × Channel)
  | [] => []
  | turn :: rest => c.step turn :: (c.step turn).2.run rest

end Channel

def Turn.Lossless : Turn → Prop
  | .send _ item => item.Lossless
  | .receive _ => True

/-- What a turn must answer, given the items that are pending, and the items that are
pending behind it: a receive gives the value of the item that was sent first. -/
def Turn.due : List Item → Turn → Option Answer × List Item
  | pending, .send _ item => (none, pending ++ [item])
  | [], .receive _ => (none, [])
  | item :: pending, .receive _ => (some item.answer, pending)

def promised : List Item → List Turn → List (Option Answer)
  | _, [] => []
  | pending, turn :: rest => (turn.due pending).1 :: promised (turn.due pending).2 rest

def codes : List Item → Code
  | [] => .none
  | item :: rest => item.code.followedBy (codes rest)

theorem codes_append (items : List Item) (item : Item) (pos : Nat) :
    codes (items ++ [item]) pos =
      codes items pos ++ item.code (pos + (codes items pos).length) := by
  induction items generalizing pos with
  | nil => exact List.append_nil _
  | cons first rest ih =>
    simp only [List.cons_append, codes, Code.followedBy, ih, List.append_assoc, List.length_append,
      Nat.add_assoc]

namespace Channel

/-- The unread bits are the codes of what is pending. -/
structure Carries (c : Channel) : Prop where
  sound : c.stream.Sound
  lossless : ∀ item ∈ c.pending, item.Lossless
  unread_eq : c.stream.unread = codes c.pending c.stream.cursor.read

theorem Carries.consumed {c : Channel} (h : c.Carries) (hnone : c.pending = []) :
    c.stream.cursor.read = c.stream.cursor.write := by
  have hunread := h.unread_eq
  rw [hnone] at hunread
  have hlen := Stream.length_unread h.sound
  rw [hunread] at hlen
  exact hlen

theorem Carries.send {c : Channel} (h : c.Carries) (means : Means) {item : Item}
    (hitem : item.Lossless) :
    (c.step (.send means item)).1 = .value none ∧ (c.step (.send means item)).2.Carries := by
  obtain ⟨s', effects, hrun, hgrown⟩ := Item.send_emits hitem means h.sound
  simp only [step, hrun]
  refine ⟨rfl, hgrown.sound, ?_, ?_⟩
  · intro other hother
    rcases List.mem_append.mp hother with hold | hnew
    · exact h.lossless other hold
    · rw [List.mem_singleton.mp hnew]
      exact hitem
  -- The unread bits end at the write position, so the new code begins in the right phase.
  · rw [hgrown.unread_eq h.sound, hgrown.read_eq, codes_append, ← h.unread_eq,
      Stream.length_unread h.sound]

theorem Carries.receive {s : Stream} {item : Item} {rest : List Item}
    (h : (Channel.mk s (item :: rest)).Carries) (means : Means) :
    step ⟨s, item :: rest⟩ (.receive means) =
        (.value (some item.answer), ⟨s.readOn (item.code s.cursor.read).length, rest⟩) ∧
      (Channel.mk (s.readOn (item.code s.cursor.read).length) rest).Carries := by
  have hitem := h.lossless item (.head _)
  have hsound : s.Sound := h.sound
  have hunread : s.unread = item.code s.cursor.read ++
      codes rest (s.cursor.read + (item.code s.cursor.read).length) := h.unread_eq
  have hrun := Item.receive_receives hitem means hsound hunread
  refine ⟨?_, Stream.readOn_sound hsound hunread, ?_, Stream.readOn_unread hunread⟩
  · simp only [step, hrun]
    rfl
  · exact fun other hother => h.lossless other (.tail _ hother)

/-- A turn succeeds, answers what is due and keeps the invariant. -/
theorem Carries.step {c : Channel} (h : c.Carries) {turn : Turn} (hturn : turn.Lossless) :
    (c.step turn).1 = .value (turn.due c.pending).1 ∧
      (c.step turn).2.pending = (turn.due c.pending).2 ∧ (c.step turn).2.Carries := by
  cases turn with
  | send means item =>
    obtain ⟨hanswer, hcarries⟩ := h.send means hturn
    exact ⟨hanswer, rfl, hcarries⟩
  | receive means =>
    obtain ⟨s, pending⟩ := c
    cases pending with
    | nil => exact ⟨rfl, rfl, h⟩
    | cons item rest =>
      obtain ⟨hstep, hcarries⟩ := h.receive means
      rw [hstep]
      exact ⟨rfl, rfl, hcarries⟩

/-- So does a run, whatever the order of the turns is. -/
theorem Carries.run {c : Channel} (h : c.Carries) {turns : List Turn}
    (hturns : ∀ turn ∈ turns, turn.Lossless) :
    (c.run turns).map Prod.fst = (promised c.pending turns).map .value ∧
      ∀ o ∈ c.run turns, o.2.Carries := by
  induction turns generalizing c with
  | nil => exact ⟨rfl, fun o ho => nomatch ho⟩
  | cons turn rest ih =>
    obtain ⟨hanswer, hpending, hcarries⟩ := h.step (hturns turn (.head _))
    obtain ⟨hended, hlasts⟩ := ih hcarries fun later hmem => hturns later (.tail _ hmem)
    refine ⟨?_, ?_⟩
    · rw [Channel.run, promised, List.map_cons, List.map_cons, hanswer, hended, hpending]
    · intro o ho
      rcases List.mem_cons.mp ho with hfirst | hlater
      · rw [hfirst]
        exact hcarries
      · exact hlasts o hlater

theorem carries_consumed {s : Stream} (hs : s.Sound) (hread : s.cursor.read = s.cursor.write) :
    (Channel.mk s []).Carries := by
  refine ⟨hs, fun item hitem => (nomatch hitem), ?_⟩
  have hlen := Stream.length_unread hs
  have hnone : s.unread.length = 0 := by omega
  exact List.length_eq_zero_iff.mp hnone

/-- A message that is sent as a whole and then received, field by field. -/
def message (fields : List Item) (sending receiving : Means) : List Turn :=
  fields.map (.send sending) ++ fields.map fun _ => .receive receiving

theorem promised_receives (fields : List Item) (receiving : Means) :
    promised fields (fields.map fun _ => .receive receiving) =
      fields.map fun field => some field.answer := by
  induction fields with
  | nil => rfl
  | cons field rest ih => simp only [List.map_cons, promised, Turn.due, ih]

theorem promised_sends (pending fields : List Item) (sending : Means) (turns : List Turn) :
    promised pending (fields.map (.send sending) ++ turns) =
      List.replicate fields.length none ++ promised (pending ++ fields) turns := by
  induction fields generalizing pending with
  | nil => simp
  | cons field rest ih =>
    simp only [List.map_cons, List.cons_append, promised, Turn.due, ih, List.append_assoc,
      List.length_cons, List.replicate_succ, List.nil_append]

/-- Whatever was done with a stream before, when all of it is read, the fields of a
message come back as they were sent, one after another. -/
theorem message_comes_back {slot : Slot} (hslot : slot.Reached) {s : Stream}
    (hstream : slot.stream? = some s) (hread : s.cursor.read = s.cursor.write)
    {fields : List Item} (hfields : ∀ field ∈ fields, field.Lossless) (sending receiving : Means) :
    ((Channel.mk s []).run (message fields sending receiving)).map Prod.fst =
      List.replicate fields.length (.value none) ++
        fields.map fun field => .value (some field.answer) := by
  have hturns : ∀ turn ∈ message fields sending receiving, turn.Lossless := by
    intro turn hturn
    rcases List.mem_append.mp hturn with hsend | hreceive
    · obtain ⟨field, hfield, rfl⟩ := List.mem_map.mp hsend
      exact hfields field hfield
    · obtain ⟨field, -, rfl⟩ := List.mem_map.mp hreceive
      trivial
  have hcarries := carries_consumed (hslot.sound.stream hstream) hread
  rw [(hcarries.run hturns).1, message, promised_sends, List.nil_append, promised_receives]
  simp only [List.map_append, List.map_replicate, List.map_map, Function.comp_def]

/-- Whatever was done with a stream before, when all of it is read, items can be sent
and received in any order: every call succeeds, every receive gives the item that was
sent first, and once nothing is pending the stream is consumed. -/
theorem run_delivers {slot : Slot} (hslot : slot.Reached) {s : Stream}
    (hstream : slot.stream? = some s) (hread : s.cursor.read = s.cursor.write)
    {turns : List Turn} (hturns : ∀ turn ∈ turns, turn.Lossless) :
    ((Channel.mk s []).run turns).map Prod.fst = (promised [] turns).map .value ∧
      ∀ o ∈ (Channel.mk s []).run turns, o.2.pending = [] →
        o.2.stream.cursor.read = o.2.stream.cursor.write := by
  have hcarries := carries_consumed (hslot.sound.stream hstream) hread
  obtain ⟨hanswers, hlasts⟩ := hcarries.run hturns
  exact ⟨hanswers, fun o ho => (hlasts o ho).consumed⟩

/-- Two receives between the sends, by both means, with an escape and an aligned block. -/
theorem run_delivers_interleaved :
    let turns : List Turn :=
      [.send .transfer (.ranged .u8 3 10 7 0 false), .send .call (.mini (.int .u16) 300 0),
        .receive .call, .send .call (.alignedBytes [1, 2, 3]), .receive .transfer,
        .send .call (.ranged .u8 3 10 200 0 true), .receive .call, .receive .transfer]
    (Slot.owned Stream.empty).Reached ∧ (∀ turn ∈ turns, turn.Lossless) ∧
      ((Channel.mk Stream.empty []).run turns).map Prod.fst = (promised [] turns).map .value ∧
      ∀ o ∈ (Channel.mk Stream.empty []).run turns, o.2.pending = [] →
        o.2.stream.cursor.read = o.2.stream.cursor.write := by
  intro turns
  have hreached : (Slot.owned Stream.empty).Reached :=
    .held (show (Session.after [("a", .make .empty)]).slot? "a" = some _ from rfl)
  have hturns : ∀ turn ∈ turns, turn.Lossless := by
    simp [turns, Turn.Lossless, Item.Lossless, Ranged.Sendable, Mini.Lossless]
    decide
  exact ⟨hreached, hturns, run_delivers hreached rfl rfl hturns⟩

/-- An escape does not stand in for bounds that are in order: the sender refuses the
range, whatever the value. -/
theorem swapped_bounds_refused :
    ((Item.ranged .u8 10 3 5 0 true).send .call Stream.empty).ending ≠ .value () := by
  have hrefused : ((Item.ranged .u8 10 3 5 0 true).send .call Stream.empty).ending =
      .failed (.invalidRange "range maximum is below its minimum: [10, 3]") := rfl
  rw [hrefused]
  exact nofun

end Channel

end BitCodec
