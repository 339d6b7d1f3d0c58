import BitCodec.Proofs.Reports

/-!
# Transfers are reading or writing

A transfer carries its field beside the stream.  Seen from outside that is no more than
one of two things: sending writes the field and gives it back, and receiving reads what
is given back instead.  What holds of every writer or of every reader so holds of every
transfer.
-/

namespace BitCodec

open Decoder

namespace Stream

/-- A sound stream goes on as a sound stream. -/
def Lasts (s s' : Stream) : Prop :=
  s.Sound → s'.Sound

/-- Reading moves the read position to a place inside the written bits. -/
theorem decoding_sound {α : Type} {allowed : Breach → Prop} {body : Decoder α}
    (h : Guarded allowed body) {s : Stream} (hs : s.Sound) : (decoding body s).state.Sound :=
  hs.withRead (h.stays hs.payload hs.read_le)

end Stream

/-! ## Sending -/

namespace Field

variable {α β : Type}

/-- A transfer runs with its field beside the stream; what is left of both decides what the
caller makes of it. -/
theorem exchange_run {γ : Type} (field : β) (body : Action (Stream × β) α) (f : α × β → γ)
    (s : Stream) :
    (exchange field body >>= fun u => pure (f u)) s =
      ⟨(body (s, field)).ending.map fun a => f (a, (body (s, field)).state.2),
        (body (s, field)).state.1, (body (s, field)).effects⟩ := by
  rcases hrun : body (s, field) with ⟨ending, ⟨s', after⟩, effects⟩
  have hexchange : exchange field body s = ⟨ending.map (·, after), s', effects⟩ := by
    simp only [exchange, hrun]
  rw [Action.map_run, hexchange]
  cases ending <;> rfl

/-- Sending by a transfer is writing, and the field is kept. -/
theorem along_encode (c : Codec α) (v : α) (answer : α → Answer) (s : Stream) :
    along c .encode v answer s =
      ⟨(c.write v s).ending.map fun _ => (answer v, none), (c.write v s).state,
        (c.write v s).effects⟩ := by
  exact exchange_run v (c.transfer .encode) (fun u => (answer u.2, none)) s

/-- Bits as a codec, for a receiver that holds these bytes. -/
def bitsCodec (held : List UInt8) (count : Nat) : Codec (List UInt8) :=
  ⟨fun bytes => Stream.writeBits bytes count true, Decoder.readBits held count true⟩

theorem transfer_bits (direction : Direction) (source : List UInt8) (count : Nat) :
    (Field.bits source count).transfer direction =
      along (bitsCodec source count) direction source .octets := by
  have hsame : exchange source (transferBits count direction) =
      exchange source ((bitsCodec source count).transfer direction) := by
    funext s
    have hcurrent : (Action.current : Action (Stream × List UInt8) _) (s, source) =
        ⟨.value (s, source), (s, source), []⟩ := rfl
    have hbody : transferBits count direction (s, source) =
        (bitsCodec source count).transfer direction (s, source) := by
      cases direction with
      | encode => rfl
      | decode => exact Action.bind_value hcurrent
    unfold exchange
    rw [hbody]
  have htransfer : (Field.bits source count).transfer direction =
      (exchange source (transferBits count direction) >>= fun u => pure (.octets u.2, none)) := rfl
  rw [htransfer, hsame]
  rfl

end Field

namespace Changed

/-- Sending by a transfer is writing; the field is kept and the flag goes with it. -/
theorem transfer_encode (form : Form) (t : Prim) (value last : t.Value) (s : Stream) :
    transfer form t last .encode (s, value) =
      ⟨(write form t value last s).ending.map fun _ => t.direct || !t.same value last,
        ((write form t value last s).state, value), (write form t value last s).effects⟩ :=
  Action.map_run (Action.beside (write form t value last))
    (fun _ => t.direct || !t.same value last) (s, value)

theorem field_encode (form : Form) (t : Prim) (value last : t.Value) (s : Stream) :
    (Field.changed form t value last).transfer .encode s =
      ⟨(write form t value last s).ending.map fun _ =>
          (.value t value, some (t.direct || !t.same value last)),
        (write form t value last s).state, (write form t value last s).effects⟩ := by
  have hrun := Field.exchange_run value (transfer form t last .encode)
    (fun u => (Answer.value t u.2, some u.1)) s
  rw [transfer_encode] at hrun
  refine hrun.trans ?_
  cases (write form t value last s).ending <;> rfl

end Changed

namespace Field

/-- What sending a field writes. -/
def writing : Field → Encoder Unit
  | plain t v => t.write v
  | mini t v => Mini.write t v
  | changed form t v last => Changed.write form t v last
  | casted wire t v => IntType.writeCasted wire t v
  | ranged t v min max escape => Ranged.write t v min max escape
  | rangedFloat t v min max => Ranged.writeFloat t v min max
  | unitVector t v => (Codec.unitVector t).write v
  | vector t v => (Codec.vector t).write v
  | rotation t q => (Codec.rotation t).write q
  | matrix t m => (Codec.matrix t).write m
  | bits bytes count => Stream.writeBits bytes count true

/-- What the sender of a field is given back. -/
def sent : Field → Answer × Option Bool
  | plain t v | mini t v => (.value t v, none)
  | changed _ t v last => (.value t v, some (t.direct || !t.same v last))
  | casted _ t v | ranged t v _ _ _ => (.value (.int t) v, none)
  | rangedFloat t v _ _ => (.value (.float t) v, none)
  | unitVector t v | vector t v => (.vector t v, none)
  | rotation t q => (.rotation t q, none)
  | matrix t m => (.matrix t m, none)
  | bits bytes _ => (.octets bytes, none)

theorem transfer_encode (field : Field) :
    field.transfer .encode = field.writing >>= fun _ => pure field.sent := by
  funext s
  rw [Action.map_run]
  cases field with
  | changed form t v last => exact Changed.field_encode form t v last s
  | bits bytes count =>
    rw [transfer_bits]
    exact along_encode (bitsCodec bytes count) bytes .octets s
  | plain t v => exact along_encode (Codec.plain t) v _ s
  | mini t v => exact along_encode (Codec.mini t) v _ s
  | casted wire t v => exact along_encode (Codec.casted wire t) v _ s
  | ranged t v min max escape => exact along_encode (Codec.ranged t min max escape) v _ s
  | rangedFloat t v min max => exact along_encode (Codec.rangedFloat t min max) v _ s
  | unitVector t v => exact along_encode (Codec.unitVector t) v _ s
  | vector t v => exact along_encode (Codec.vector t) v _ s
  | rotation t q => exact along_encode (Codec.rotation t) q _ s
  | matrix t m => exact along_encode (Codec.matrix t) m _ s

theorem writing_assembled (field : Field) : Assembled field.writing := by
  cases field with
  | plain t v => exact t.write_assembled v
  | mini t v => exact Mini.write_assembled t v
  | changed form t v last => exact Changed.write_assembled form t v last
  | casted wire t v => exact IntType.writeCasted_assembled wire t v
  | ranged t v min max escape => exact Ranged.write_assembled t v min max escape
  | rangedFloat t v min max => exact Ranged.writeNumber_assembled _ _ _
  | unitVector t v => exact Geometry.writeUnitVector_assembled _
  | vector t v => exact Geometry.writeVector_assembled t _
  | rotation t q => exact Geometry.writeRotation_assembled _
  | matrix t m => exact Geometry.writeMatrix_assembled _
  | bits bytes count => exact .writeBits bytes count true

/-! ## Receiving -/

/-- Receiving by a transfer is reading; what the field held does not matter. -/
theorem along_decode {α : Type} (c : Codec α) (held : α) (answer : α → Answer) :
    along c .decode held answer = Stream.decoding (do pure (answer (← c.read), none)) := by
  funext s
  refine (exchange_run held (c.transfer .decode) (fun u => (answer u.2, none)) s).trans ?_
  have hmap : (do pure (answer (← c.read), (none : Option Bool)) : Decoder (Answer × Option Bool))
      s.payload s.cursor.read = _ := Action.map_run (c.read s.payload) _ s.cursor.read
  rcases hrun : c.read s.payload s.cursor.read with ⟨ending, pos, effects⟩
  rw [hrun] at hmap
  simp only [Codec.transfer, Action.store, Stream.decoding, Action.onPart, hrun, hmap]
  cases ending <;> rfl

/-- What receiving a field reads and gives back. -/
def reading : Field → Decoder (Answer × Option Bool)
  | plain t _ => do pure (.value t (← t.read), none)
  | mini t _ => do pure (.value t (← Mini.read t), none)
  | changed form t v _ => do
    let (flag, now) ← Changed.received form t v
    pure (.value t now, some flag)
  | casted wire t _ => do pure (.value (.int t) (← IntType.readCasted wire t), none)
  | ranged t _ min max escape => do
    pure (.value (.int t) (← Ranged.read t min max escape), none)
  | rangedFloat t _ min max => do pure (.value (.float t) (← Ranged.readFloat t min max), none)
  | unitVector t _ => do pure (.vector t (← (Codec.unitVector t).read), none)
  | vector t _ => do pure (.vector t (← (Codec.vector t).read), none)
  | rotation t _ => do pure (.rotation t (← (Codec.rotation t).read), none)
  | matrix t _ => do pure (.matrix t (← (Codec.matrix t).read), none)
  | bits bytes count => do pure (.octets (← Decoder.readBits bytes count true), none)

theorem changed_decode (form : Form) (t : Prim) (held last : t.Value) :
    (Field.changed form t held last).transfer .decode =
      Stream.decoding (Field.changed form t held last).reading := by
  funext s
  refine (exchange_run held (Changed.receive form t)
    (fun u => (Answer.value t u.2, some u.1)) s).trans ?_
  have hmap : (Field.changed form t held last).reading s.payload s.cursor.read = _ :=
    Action.map_run (Changed.received form t held s.payload) _ s.cursor.read
  unfold Changed.receive Stream.decoding Action.onPart
  rw [hmap, Changed.read_run]
  unfold outcome
  rcases Changed.received form t held s.payload s.cursor.read with ⟨ending, pos, effects⟩
  cases ending <;> rfl

theorem transfer_decode (field : Field) :
    field.transfer .decode = Stream.decoding field.reading := by
  cases field with
  | changed form t v last => exact changed_decode form t v last
  | bits bytes count =>
    rw [transfer_bits]
    exact along_decode (bitsCodec bytes count) bytes .octets
  | plain t v => exact along_decode (Codec.plain t) v _
  | mini t v => exact along_decode (Codec.mini t) v _
  | casted wire t v => exact along_decode (Codec.casted wire t) v _
  | ranged t v min max escape => exact along_decode (Codec.ranged t min max escape) v _
  | rangedFloat t v min max => exact along_decode (Codec.rangedFloat t min max) v _
  | unitVector t v => exact along_decode (Codec.unitVector t) v _
  | vector t v => exact along_decode (Codec.vector t) v _
  | rotation t q => exact along_decode (Codec.rotation t) q _
  | matrix t m => exact along_decode (Codec.matrix t) m _

/-- The one contract that receiving a field can break: the destination of raw bits is long
enough for them. -/
def breaks : Field → Breach → Prop
  | bits bytes count, b => b = Breach.forCount count (.destinationTooShort bytes.length count)
  | _, _ => False

theorem reading_guarded (field : Field) : Guarded field.breaks field.reading := by
  cases field with
  | plain t v => exact t.read_guarded.map _
  | mini t v => exact (Mini.read_guarded t).map _
  | changed form t v last => exact (Changed.received_guarded form t v).map _
  | casted wire t v => exact (IntType.readCasted_guarded wire t).map _
  | ranged t v min max escape => exact (Ranged.read_guarded t min max escape).map _
  | rangedFloat t v min max => exact (Ranged.readFloat_guarded t min max).map _
  | unitVector t v => exact (Geometry.readUnitVector_guarded.map _).map _
  | vector t v => exact ((Geometry.readVector_guarded t).map _).map _
  | rotation t q => exact (Geometry.readRotation_guarded.map _).map _
  | matrix t m => exact (Geometry.readMatrix_guarded.map _).map _
  | bits bytes count =>
    have hread : Guarded (bits bytes count).breaks (Decoder.readBits bytes count true) :=
      Guarded.readBits true fun _ => rfl
    exact hread.map _

/-- Whether a field refuses values without a report when it is received. -/
def unseen : Field → Bool
  | casted _ _ _ => true
  | mini t _ => t == .u24
  | changed form t _ _ => form.unseen t
  | _ => false

theorem reading_reports (field : Field) : Reports field.unseen field.reading := by
  cases field with
  | plain t v => exact t.read_reports.map _
  | mini t v => exact (Mini.read_reports t).map _
  | changed form t v last => exact (Changed.received_reports form t v).map _
  | casted wire t v => exact (IntType.readCasted_reports wire t).map _
  | ranged t v min max escape => exact (Ranged.read_reports t min max escape).map _
  | rangedFloat t v min max => exact ((Ranged.readNumber_reports _ _).map _).map _
  | unitVector t v => exact (Geometry.readUnitVector_reports.map _).map _
  | vector t v => exact ((Geometry.readVector_reports t).map _).map _
  | rotation t q => exact (Geometry.readRotation_reports.map _).map _
  | matrix t m => exact ((Geometry.readRotation_reports.map _).map _).map _
  | bits bytes count => exact (Reports.readBits bytes count true).map _

/-! ## Both ways -/

theorem transfer_lasts (direction : Direction) (field : Field) :
    Action.Respects Stream.Lasts (field.transfer direction) := by
  cases direction with
  | encode =>
    rw [transfer_encode]
    exact fun s hs => ((field.writing_assembled.map _).appending s).sound hs
  | decode =>
    rw [transfer_decode]
    exact fun s hs => Stream.decoding_sound field.reading_guarded hs

end Field

end BitCodec
