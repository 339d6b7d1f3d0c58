import BitCodec.Session
import BitCodec.Proofs.Transfers

/-!
# Sessions stay sound

A session is sound when every slot and every waiting stream of a pool is.  Every
request keeps it so, whatever it is given, however it ends, and whichever slots it
touches.  What a slot can hold after any history is therefore sound: the bytes are
there, the positions are in order, and nothing stale lies behind the last bit.
-/

namespace BitCodec

open Decoder

/-! ## Slots -/

namespace Slot

def Sound : Slot → Prop
  | owned s => s.Sound
  | packet r => r.payload.Sound ∧ r.read ≤ r.payload.bits
  | pooled _ s => s.Sound

variable {slot : Slot}

theorem Sound.payload (h : slot.Sound) : slot.payload.Sound := by
  cases slot with
  | owned s => exact Stream.Sound.payload h
  | packet r => exact h.1
  | pooled pool s => exact Stream.Sound.payload h

theorem Sound.read_le (h : slot.Sound) : slot.cursor.read ≤ slot.payload.bits := by
  cases slot with
  | owned s => exact Stream.Sound.read_le h
  | packet r => exact h.2
  | pooled pool s => exact Stream.Sound.read_le h

theorem Sound.stream {s : Stream} (h : slot.Sound) (hs : slot.stream? = some s) : s.Sound := by
  cases slot with
  | packet r => cases hs
  | owned s | pooled pool s =>
    cases hs
    exact h

theorem Sound.withStream (h : slot.Sound) {s : Stream} (hs : s.Sound) :
    (slot.withStream s).Sound := by
  cases slot with
  | packet r => exact h
  | owned s | pooled pool s => exact hs

theorem Sound.withRead (h : slot.Sound) {read : Nat} (hread : read ≤ slot.payload.bits) :
    (slot.withRead read).Sound := by
  cases slot with
  | owned s => exact Stream.Sound.withRead h hread
  | packet r => exact ⟨h.1, hread⟩
  | pooled pool s => exact Stream.Sound.withRead h hread

theorem Sound.withLimit {capped : Slot} {limit : Nat} (h : slot.Sound)
    (hcapped : slot.withLimit? limit = some capped) : capped.Sound := by
  cases slot with
  | owned s =>
    cases hcapped
    exact Stream.Sound.withLimit h limit
  | packet r =>
    cases hcapped
    exact h
  | pooled pool s => cases hcapped

@[simp] theorem withRead_payload (slot : Slot) (read : Nat) :
    (slot.withRead read).payload = slot.payload := by
  cases slot <;> rfl

@[simp] theorem withRead_read (slot : Slot) (read : Nat) :
    (slot.withRead read).cursor.read = read := by
  cases slot <;> rfl

theorem decoding_run {α : Type} (body : Decoder α) (slot : Slot) :
    decoding body slot =
      ⟨(body slot.payload slot.cursor.read).ending,
        slot.withRead (body slot.payload slot.cursor.read).state,
        (body slot.payload slot.cursor.read).effects⟩ := rfl

theorem Sound.read (h : slot.Sound) (request : ReadRequest) :
    (decoding request.run slot).state.Sound :=
  h.withRead (request.run_stays h.payload h.read_le)

theorem packet_sound {p : Payload} (h : p.Sound) : (packet (Reader.ofPayload p)).Sound :=
  ⟨h, Nat.zero_le _⟩

end Slot

/-! ## Moving bits -/

namespace Stream

def MoveSound (source : Payload) (pair : Stream × Nat) : Prop :=
  pair.1.Sound ∧ pair.2 ≤ source.bits

def MoveLasts (source : Payload) (a b : Stream × Nat) : Prop :=
  MoveSound source a → MoveSound source b

theorem moveLasts_course (source : Payload) : Action.Course (MoveLasts source) :=
  ⟨fun _ h => h, fun hab hbc ha => hbc (hab ha)⟩

theorem fromSource_lasts {α : Type} {allowed : Breach → Prop} {source : Payload}
    (hsource : source.Sound) {body : Decoder α} (h : Guarded allowed body) :
    Action.Respects (MoveLasts source) (fromSource source body) :=
  fun _ hpair => ⟨hpair.1, h.stays hsource hpair.2⟩

theorem moveFrom_lasts {source : Payload} (hsource : source.Sound) (bits : Nat) :
    Action.Respects (MoveLasts source) (moveFrom source bits) := by
  have hcourse := moveLasts_course source
  have hneed : Guarded (fun _ => True) (Decoder.need bits) := Guarded.need bits
  have hread : Guarded (fun _ => True)
      (Decoder.readBits (List.replicate (bytesOfBits bits) 0) bits false) :=
    Guarded.readBits false fun _ => trivial
  refine (fromSource_lasts hsource hneed).bind hcourse fun _ => ?_
  refine Action.Respects.ite (fun _ => ?_) fun _ => Action.Respects.pure hcourse ()
  refine (fromSource_lasts hsource hread).bind hcourse fun moved => ?_
  exact fun pair hpair => ⟨(Appending.writeBits moved bits false pair.1).sound hpair.1, hpair.2⟩

theorem moveAll_lasts {source : Payload} (hsource : source.Sound) :
    Action.Respects (MoveLasts source) (moveAll source) := by
  have havailable : Guarded (fun _ => True) Decoder.available := Guarded.available
  exact (fromSource_lasts hsource havailable).bind (moveLasts_course source) fun bits =>
    moveFrom_lasts hsource bits

end Stream

/-! ## Making streams and pools -/

theorem Making.stream_sound (how : Making) : how.stream.Sound := by
  cases how with
  | empty => exact Stream.withRoom_sound 0
  | withRoom bytes => exact Stream.withRoom_sound bytes
  | sized reserve limit => exact (Stream.withRoom_sound reserve).withLimit limit
  | ofBytes data => exact Stream.ofBytes_sound data

namespace Pool

def Sound (pool : Pool) : Prop :=
  ∀ s ∈ pool.waiting, s.Sound

theorem make_run {σ : Type} (size : Nat) (state : σ) :
    ∃ pool effects, (make size : Action σ Pool) state = ⟨.value pool, state, effects⟩ ∧
      pool.Sound := by
  induction size with
  | zero => exact ⟨⟨[]⟩, [], rfl, fun s hs => nomatch hs⟩
  | succ size ih =>
    obtain ⟨pool, effects, hrun, hpool⟩ := ih
    refine ⟨⟨Stream.empty :: pool.waiting⟩, .streamCreated :: (effects ++ []), ?_, ?_⟩
    · unfold make
      have hcreate : (Stream.create Stream.empty : Action σ Stream) state =
          ⟨.value Stream.empty, state, [.streamCreated]⟩ := rfl
      rw [Action.bind_trace hcreate, Action.bind_trace hrun]
      rfl
    · intro s hs
      cases hs with
      | head => exact Stream.withRoom_sound 0
      | tail _ hs => exact hpool s hs

theorem acquire_run {pool : Pool} (h : pool.Sound) :
    ∃ s rest effects, acquire pool = ⟨.value s, rest, effects⟩ ∧ s.Sound ∧ rest.Sound := by
  obtain ⟨waiting⟩ := pool
  cases waiting with
  | nil => exact ⟨Stream.empty, ⟨[]⟩, _, rfl, Stream.withRoom_sound 0, h⟩
  | cons s rest =>
    exact ⟨s, ⟨rest⟩, _, rfl, h s (.head _), fun other hother => h other (.tail _ hother)⟩

theorem Sound.release {pool : Pool} (h : pool.Sound) {s : Stream} (hs : s.Sound) :
    (pool.release s).Sound := by
  unfold Pool.release
  split
  · exact h
  · intro other hother
    cases hother with
    | head => exact hs.rewind .both
    | tail _ hother => exact h other hother

end Pool

/-! ## Sessions -/

namespace Session

structure Sound (s : Session) : Prop where
  slots : ∀ entry ∈ s.slots, entry.2.Sound
  pools : ∀ pool ∈ s.pools, pool.Sound

/-- The session after a request; one that makes no sense changes nothing. -/
def next (s : Session) (name : String) (request : SessionRequest) : Session :=
  match s.run? name request with
  | some action => (action s).state
  | none => s

/-- The session after requests to slots, one after another. -/
def after (history : List (String × SessionRequest)) : Session :=
  history.foldl (fun s entry => s.next entry.1 entry.2) {}

theorem mem_of_lookup {slots : List (String × Slot)} {name : String} {slot : Slot}
    (h : slots.lookup name = some slot) : ∃ entry ∈ slots, entry.2 = slot := by
  induction slots with
  | nil => cases h
  | cons entry rest ih =>
    rw [List.lookup_cons] at h
    split at h
    · exact ⟨entry, .head _, Option.some.inj h⟩
    · obtain ⟨found, hfound, hslot⟩ := ih h
      exact ⟨found, .tail _ hfound, hslot⟩

theorem mem_insert {slots : List (String × Slot)} {name : String} {slot : Slot}
    {entry : String × Slot} (h : entry ∈ insert name slot slots) :
    entry = (name, slot) ∨ entry ∈ slots := by
  induction slots with
  | nil => exact .inl (List.mem_singleton.mp h)
  | cons first rest ih =>
    unfold insert at h
    split at h
    · cases h with
      | head => exact .inl rfl
      | tail _ h => exact .inr (.tail _ h)
    · split at h
      · cases h with
        | head => exact .inl rfl
        | tail _ h => exact .inr h
      · cases h with
        | head => exact .inr (.head _)
        | tail _ h => exact (ih h).imp_right (.tail _)

namespace Sound

variable {s : Session} {name : String} {slot : Slot}

theorem held (h : s.Sound) (hslot : s.slot? name = some slot) : slot.Sound := by
  obtain ⟨entry, hentry, heq⟩ := mem_of_lookup hslot
  rw [← heq]
  exact h.slots entry hentry

protected theorem set (h : s.Sound) (hslot : slot.Sound) : (s.set name slot).Sound := by
  refine ⟨fun entry hentry => ?_, h.pools⟩
  rcases mem_insert hentry with rfl | hold
  · exact hslot
  · exact h.slots entry hold

theorem giveBack (h : s.Sound) (hslot : slot.Sound) : (s.giveBack slot).Sound := by
  cases slot with
  | owned stream => exact h
  | packet r => exact h
  | pooled index stream =>
    refine ⟨h.slots, fun pool (hpool : pool ∈ s.pools.modify index (·.release stream)) => ?_⟩
    obtain ⟨i, hi, heq⟩ := List.mem_iff_getElem.mp hpool
    rw [List.getElem_modify] at heq
    have hold := h.pools _ (List.getElem_mem (by simpa using hi))
    split at heq
    · rw [← heq]
      exact hold.release hslot
    · rw [← heq]
      exact hold

theorem replace (h : s.Sound) (hslot : slot.Sound) : (s.replace name slot).Sound := by
  unfold Session.replace
  split
  · next old hold => exact (h.set hslot).giveBack (h.held hold)
  · exact h.set hslot

theorem remove (h : s.Sound) : (s.remove name).Sound :=
  ⟨fun entry hentry => h.slots entry (List.mem_filter.mp hentry).1, h.pools⟩

theorem drop (h : s.Sound) : (s.drop name).Sound := by
  unfold Session.drop
  split
  · next old hold => exact h.remove.giveBack (h.held hold)
  · exact h

end Sound

def Lasts (a b : Session) : Prop :=
  a.Sound → b.Sound

theorem lasts_course : Action.Course Lasts :=
  ⟨fun _ h => h, fun hab hbc ha => hbc (hab ha)⟩

section Requests

variable {s : Session} {name : String} {slot : Slot}

theorem pure_lasts {α : Type} (a : α) : Action.Respects Lasts (pure a : Action Session α) :=
  Action.Respects.pure lasts_course a

/-- What an action answers does not matter. -/
theorem answering_lasts {α β : Type} {body : Action Session α} (h : Action.Respects Lasts body)
    (answer : α → β) : Action.Respects Lasts (body >>= fun a => pure (answer a)) :=
  h.bind lasts_course fun a => pure_lasts (answer a)

theorem become_lasts (h : s.Sound) : Action.Respects Lasts (Action.become s) :=
  fun _ _ => h

theorem put_lasts (hslot : slot.Sound) : Action.Respects Lasts (put name slot) :=
  fun _ hs => hs.replace hslot

theorem onSlot_lasts {α : Type} {body : Action Slot α} (h : (body slot).state.Sound) :
    Action.Respects Lasts (onSlot name slot body) :=
  fun _ hs => hs.set h

theorem onStream_lasts {α : Type} {stream : Stream} {body : Encoder α} (hslot : slot.Sound)
    (h : (body stream).state.Sound) : Action.Respects Lasts (onStream name slot stream body) :=
  onSlot_lasts (hslot.withStream h)

theorem moving_lasts {stream : Stream} {source : String} {giver : Slot}
    {body : Payload → Action (Stream × Nat) Unit} (hslot : slot.Sound) (hstream : stream.Sound)
    (hgiver : giver.Sound)
    (h : Action.Respects (Stream.MoveLasts giver.payload) (body giver.payload)) :
    Action.Respects Lasts (moving name slot stream source giver body) := by
  obtain ⟨hmoved, hread⟩ := h (stream, giver.cursor.read) ⟨hstream, hgiver.read_le⟩
  refine Action.Respects.bind lasts_course ?_ fun _ => ?_
  · exact fun _ hs => (hs.set (hslot.withStream hmoved)).set (hgiver.withRead hread)
  · exact answering_lasts (Action.Respects.current lasts_course) _

/-- A request to move bits, however many, to another slot. -/
theorem moved_lasts (h : s.Sound) {source : String}
    {body : Payload → Action (Stream × Nat) Unit} {action : Action Session SessionAnswer}
    (hbody : ∀ p : Payload, p.Sound → Action.Respects (Stream.MoveLasts p) (body p))
    (hrun : (if source = name then none
      else do
        let slot ← s.slot? name
        let stream ← slot.stream?
        let giver ← s.slot? source
        some (moving name slot stream source giver body)) = some action) :
    Action.Respects Lasts action := by
  split at hrun
  · cases hrun
  · obtain ⟨slot, hslot, hrun⟩ := Option.bind_eq_some_iff.mp hrun
    obtain ⟨stream, hstream, hrun⟩ := Option.bind_eq_some_iff.mp hrun
    obtain ⟨giver, hgiver, hrun⟩ := Option.bind_eq_some_iff.mp hrun
    cases hrun
    have hgives := h.held hgiver
    exact moving_lasts (h.held hslot) ((h.held hslot).stream hstream) hgives
      (hbody _ hgives.payload)

theorem Sound.setPool (h : s.Sound) {pool : Pool} (hpool : pool.Sound) (index : Nat) :
    Sound { s with pools := s.pools.set index pool } := by
  refine ⟨h.slots, fun other hother => ?_⟩
  rcases List.mem_or_eq_of_mem_set hother with hold | rfl
  · exact h.pools other hold
  · exact hpool

theorem makePool_lasts (h : s.Sound) (size : Nat) :
    Action.Respects Lasts (do
      let pool ← Pool.make size
      Action.become { s with pools := s.pools ++ [pool], pool := some s.pools.length }
      pure (.plain .nothing) : Action Session SessionAnswer) := by
  intro state hstate
  obtain ⟨pool, effects, hrun, hpool⟩ := Pool.make_run size state
  have hadded : Sound { s with pools := s.pools ++ [pool], pool := some s.pools.length } := by
    refine ⟨h.slots, fun other hother => ?_⟩
    rcases List.mem_append.mp hother with hold | hnew
    · exact h.pools other hold
    · rw [List.mem_singleton.mp hnew]
      exact hpool
  rw [Action.bind_trace hrun]
  exact answering_lasts (become_lasts hadded) (fun _ => SessionAnswer.plain .nothing) state hstate

theorem acquire_lasts {index : Nat} {pool : Pool} (hpool : pool.Sound) :
    Action.Respects Lasts (do
      let stream ← Action.onPart (fun _ => pool)
        (fun s pool => { s with pools := s.pools.set index pool }) Pool.acquire
      put name (.pooled index stream)) := by
  intro state hstate
  obtain ⟨stream, rest, effects, hrun, hstream, hrest⟩ := Pool.acquire_run hpool
  have hpart : (Action.onPart (fun _ => pool)
      (fun s pool => { s with pools := s.pools.set index pool }) Pool.acquire :
        Action Session Stream) state =
      ⟨.value stream, { state with pools := state.pools.set index rest }, effects⟩ := by
    unfold Action.onPart
    rw [hrun]
  rw [Action.bind_trace hpart]
  have hslot : (Slot.pooled index stream).Sound := hstream
  exact put_lasts hslot _ (hstate.setPool hrest index)

end Requests

/-- No request brings a sound session into disorder. -/
theorem run_lasts {s : Session} (h : s.Sound) {name : String} {request : SessionRequest}
    {action : Action Session SessionAnswer} (hrun : s.run? name request = some action) :
    Action.Respects Lasts action := by
  cases request with
  | make how =>
    cases hrun
    have hcreate : Action.Respects Lasts (Stream.create how.stream) :=
      answering_lasts (Action.Respects.emit lasts_course _) _
    have hslot : (Slot.owned how.stream).Sound := how.stream_sound
    intro state hstate
    exact put_lasts hslot _ (hcreate state hstate)
  | receive data =>
    cases hrun
    exact put_lasts (Slot.packet_sound (Payload.ofBytes_sound data))
  | receiveBits data bits =>
    cases hrun
    cases hbits : Payload.ofBits data bits with
    | ok p => exact put_lasts (Slot.packet_sound (Payload.ofBits_sound hbits))
    | error e => exact Action.Respects.fail lasts_course e
  | copy source =>
    obtain ⟨slot, hslot, hrun⟩ := Option.bind_eq_some_iff.mp hrun
    have hsound := h.held hslot
    cases slot with
    | owned stream =>
      cases hrun
      exact put_lasts hsound
    | packet r =>
      cases hrun
      exact put_lasts hsound
    | pooled index stream =>
      cases hrun
      have howned : (Slot.owned stream).Sound := hsound
      exact put_lasts howned
  | withLimit limit =>
    obtain ⟨slot, hslot, hrun⟩ := Option.bind_eq_some_iff.mp hrun
    obtain ⟨capped, hcapped, hrun⟩ := Option.bind_eq_some_iff.mp hrun
    cases hrun
    exact answering_lasts (become_lasts (h.set ((h.held hslot).withLimit hcapped))) _
  | makePool size =>
    cases hrun
    exact makePool_lasts h size
  | available =>
    obtain ⟨index, _, hrun⟩ := Option.bind_eq_some_iff.mp hrun
    obtain ⟨pool, _, hrun⟩ := Option.bind_eq_some_iff.mp hrun
    cases hrun
    exact pure_lasts _
  | acquire =>
    obtain ⟨index, _, hrun⟩ := Option.bind_eq_some_iff.mp hrun
    obtain ⟨pool, hpool, hrun⟩ := Option.bind_eq_some_iff.mp hrun
    cases hrun
    exact acquire_lasts (h.pools pool (List.mem_of_getElem? hpool))
  | release =>
    obtain ⟨slot, _, hrun⟩ := Option.bind_eq_some_iff.mp hrun
    cases hrun
    exact answering_lasts (become_lasts h.drop) _
  | keep =>
    obtain ⟨slot, hslot, hrun⟩ := Option.bind_eq_some_iff.mp hrun
    have hsound := h.held hslot
    cases slot with
    | owned stream => cases hrun
    | packet r =>
      cases hrun
      exact answering_lasts (become_lasts h.remove) _
    | pooled index stream =>
      cases hrun
      have hkept : (s.set name (.owned stream)).Sound := h.set hsound
      exact answering_lasts (become_lasts hkept) _
  | handOver =>
    obtain ⟨slot, hslot, hrun⟩ := Option.bind_eq_some_iff.mp hrun
    cases slot with
    | owned stream =>
      cases hrun
      have hgiven : Action.Respects Lasts (stream.handOver : Action Session (List UInt8)) :=
        answering_lasts (Action.Respects.emit lasts_course _) _
      exact hgiven.bind lasts_course fun _ =>
        answering_lasts (become_lasts h.remove) _
    | packet r => cases hrun
    | pooled index stream => cases hrun
  | move source bits => exact moved_lasts h (fun p hp => Stream.moveFrom_lasts hp bits) hrun
  | moveAll source => exact moved_lasts h (fun p hp => Stream.moveAll_lasts hp) hrun
  | read request =>
    obtain ⟨slot, hslot, hrun⟩ := Option.bind_eq_some_iff.mp hrun
    cases hrun
    exact answering_lasts (onSlot_lasts ((h.held hslot).read request)) _
  | write request =>
    obtain ⟨slot, hslot, hrun⟩ := Option.bind_eq_some_iff.mp hrun
    obtain ⟨stream, hstream, hrun⟩ := Option.bind_eq_some_iff.mp hrun
    cases hrun
    have hwrite := request.run_sound ((h.held hslot).stream hstream)
    exact answering_lasts (onStream_lasts (h.held hslot) hwrite) _
  | transfer direction field =>
    obtain ⟨slot, hslot, hrun⟩ := Option.bind_eq_some_iff.mp hrun
    obtain ⟨stream, hstream, hrun⟩ := Option.bind_eq_some_iff.mp hrun
    cases hrun
    have htransfer := field.transfer_lasts direction stream ((h.held hslot).stream hstream)
    exact answering_lasts (onStream_lasts (h.held hslot) htransfer) _
  | view requests =>
    obtain ⟨slot, _, hrun⟩ := Option.bind_eq_some_iff.mp hrun
    obtain ⟨stream, _, hrun⟩ := Option.bind_eq_some_iff.mp hrun
    cases hrun
    have hlook : Action.Respects Lasts (Action.onPart (fun _ => stream.view) (fun s _ => s)
        (lookThrough requests)) := fun _ hs => hs
    exact answering_lasts hlook _

theorem Sound.next {s : Session} (h : s.Sound) (name : String) (request : SessionRequest) :
    (s.next name request).Sound := by
  unfold Session.next
  split
  · next action hrun => exact run_lasts h hrun s h
  · exact h

theorem after_sound (history : List (String × SessionRequest)) : (after history).Sound := by
  have hrun : ∀ (rest : List (String × SessionRequest)) {s : Session}, s.Sound →
      (rest.foldl (fun s entry => s.next entry.1 entry.2) s).Sound := by
    intro rest
    induction rest with
    | nil => exact fun h => h
    | cons entry rest ih => exact fun h => ih (h.next entry.1 entry.2)
  exact hrun history ⟨fun _ hentry => (nomatch hentry), fun _ hpool => (nomatch hpool)⟩

end Session

end BitCodec
