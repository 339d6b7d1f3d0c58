import BitCodec.Proofs.Appending
import BitCodec.Proofs.Guarded

/-!
# What every request keeps to

Requests to read are guarded: they break a contract only where the caller could
have checked it, and they see the written bits only, unless they ask for bytes as
they lie in the buffer.  Requests to write keep a stream sound.
-/

namespace BitCodec

open Decoder

/-! ## Dumps -/

/-- The bytes that have written bits in them. -/
def Payload.bytes (p : Payload) : List UInt8 :=
  (p.data.extract 0 p.writtenBytes).toList

namespace Dump

def grouped : Nat → List Bool → List Char
  | _, [] => []
  | pos, bit :: rest =>
    let c := if bit then '1' else '0'
    if pos > 0 ∧ pos % 8 = 0 then ' ' :: c :: grouped (pos + 1) rest
    else c :: grouped (pos + 1) rest

theorem bitsFrom_eq {data : Array UInt8} {pos count : Nat} (h : pos + count ≤ 8 * data.size) :
    bitsFrom data pos count = some (grouped pos (Bits.slice data pos count)) := by
  induction count generalizing pos with
  | zero => rfl
  | succ count ih =>
    have hslice : Bits.slice data pos (count + 1) =
        Bits.bitAt data pos :: Bits.slice data (pos + 1) count := by
      rw [Nat.add_comm count 1, Bits.slice_add, Bits.slice_one, List.singleton_append]
    have hbit : Bits.getBit data pos = some (Bits.bitAt data pos) := Bits.getBit_eq (by omega)
    have hrest : pos + 1 + count ≤ 8 * data.size := by omega
    simp only [bitsFrom, hbit, ih hrest, hslice, grouped, Option.bind_eq_bind, Option.bind_some]
    split <;> rfl

theorem bitText_run {p : Payload} (hp : p.Sound) (pos : Nat) :
    bitText p pos = ⟨.value (String.ofList (grouped 0 p.string)), pos, []⟩ := by
  have hbits : bitsFrom p.data 0 p.bits = some (grouped 0 p.string) :=
    bitsFrom_eq (by rw [Nat.zero_add]; exact hp)
  unfold bitText
  rw [bind_value (payload_run p pos), hbits, bind_value (inBounds_run _ p pos), pure_run]

theorem bitText_guarded {allowed : Breach → Prop} : Guarded allowed bitText := by
  refine ⟨?_, ?_, ?_⟩
  · intro p pos hp hpos
    rw [bitText_run hp]
    exact hpos
  · intro p pos b hp _ hend
    rw [bitText_run hp] at hend
    cases hend
  · intro p q pos hpq _
    rw [bitText_run hpq.left, bitText_run hpq.right, hpq.string_eq]

/-- The written bytes from an index on, as far as there are any. -/
theorem hexFrom_run {p : Payload} (hp : p.Sound) {start : Nat} (h : start ≤ p.writtenBytes)
    (pos : Nat) : hexFrom start p pos = ⟨.value (Hex.encode (p.bytes.drop start)), pos, []⟩ := by
  have hsize : start + (p.writtenBytes - start) ≤ p.data.size := by
    unfold Payload.Sound at hp
    unfold Payload.writtenBytes bytesOfBits at *
    omega
  have hbytes : p.bytes.drop start =
      (p.data.toList.drop start).take (p.writtenBytes - start) := by
    simp [Payload.bytes, List.drop_take]
  unfold hexFrom
  rw [bind_value (payload_run p pos), bind_value (demand_run (decide_eq_true h) _ p pos),
    Bits.getBytes_drop hsize, bind_value (inBounds_run _ p pos), pure_run, hbytes]

end Dump

/-! ## Destinations -/

namespace Decoder

variable {α β : Type} {p : Payload} {pos : Nat}

/-- What a run beside a destination leaves behind: the new destination when the run
ended with a value, and the old one otherwise. -/
def outcome (last : β) (u : Trace Nat (α × β)) : Trace (Nat × β) α where
  ending := u.ending.map Prod.fst
  state := (u.state, match u.ending with | .value (_, now) => now | _ => last)
  effects := u.effects

theorem store_run (body : Decoder β) (finish : Action (Nat × β) α) (f : β → α) (last : β)
    (hfinish : ∀ pos a, finish (pos, a) = ⟨.value (f a), (pos, a), []⟩) :
    (Action.store (body p) >>= fun _ => finish) (pos, last) =
      outcome last ((body >>= fun a => pure (f a, a)) p pos) := by
  rcases hrun : body p pos with ⟨ending, pos', effects⟩
  cases ending with
  | value a =>
    have hstore : Action.store (body p) (pos, last) = ⟨.value (), (pos', a), effects⟩ := by
      simp only [Action.store, hrun]
    rw [Action.bind_trace hstore, bind_trace hrun, hfinish]
    rfl
  | failed e =>
    have hstore : Action.store (body p) (pos, last) = ⟨.failed e, (pos', last), effects⟩ := by
      simp only [Action.store, hrun]
    rw [Action.bind_failed hstore, bind_failed hrun]
    rfl
  | broken b =>
    have hstore : Action.store (body p) (pos, last) = ⟨.broken b, (pos', last), effects⟩ := by
      simp only [Action.store, hrun]
    rw [Action.bind_broken hstore, bind_broken hrun]
    rfl

/-- Seen from outside, an action beside a destination is the reading it stands
for. -/
theorem updating_eq {body : Payload → Action (Nat × β) α} {reading : Decoder (α × β)} {last : β}
    (h : ∀ p pos, body p (pos, last) = outcome last (reading p pos)) :
    updating last body = reading := by
  funext p pos
  simp only [updating, h]
  rcases reading p pos with ⟨ending, pos', effects⟩
  cases ending <;> rfl

theorem updating_store (last : β) (body : Decoder β) :
    updating last (fun p => Action.store (body p)) = body >>= fun a => pure ((), a) := by
  refine updating_eq fun p pos => ?_
  rw [← store_run body (fun s => ⟨.value (), s, []⟩) (fun _ => ()) last (fun _ _ => rfl)]
  exact (congrFun (Action.andThen_done _) _).symm

end Decoder

namespace Changed

/-- Whether a value was sent that changes the last one, and the value that now
stands. -/
def received (form : Form) (t : Prim) (last : t.Value) : Decoder (Bool × t.Value) :=
  if t.direct then do
    let value ← form.read t
    pure (!t.same value last, value)
  else do
    if ← readBit then
      let value ← form.read t
      pure (true, value)
    else pure (false, last)

theorem read_run (form : Form) (t : Prim) (p : Payload) (pos : Nat) (last : t.Value) :
    read form t p (pos, last) = outcome last (received form t last p pos) := by
  have hcurrent : (Action.current : Action (Nat × t.Value) _) (pos, last) =
      ⟨.value (pos, last), (pos, last), []⟩ := rfl
  unfold read received
  by_cases hdirect : t.direct = true
  · rw [if_pos hdirect, if_pos hdirect, Action.bind_value hcurrent]
    exact store_run (form.read t) _ (fun a => !t.same a last) last fun _ _ => rfl
  · rw [if_neg hdirect, if_neg hdirect]
    have hbeside : (Action.beside (readBit p) : Action (Nat × t.Value) Bool) (pos, last) =
        ⟨(readBit p pos).ending, ((readBit p pos).state, last), (readBit p pos).effects⟩ := rfl
    rcases hrun : readBit p pos with ⟨ending, pos', effects⟩
    rw [hrun] at hbeside
    cases ending with
    | value bit =>
      rw [Action.bind_trace hbeside, bind_trace hrun]
      cases bit with
      | true =>
        have hstore : (Action.store (form.read t p) >>= fun _ => pure true) (pos', last) = _ :=
          store_run (form.read t) (pure true) (fun _ => true) last fun _ _ => rfl
        simp only [if_true, hstore]
        rfl
      | false => rfl
    | failed e =>
      rw [Action.bind_failed hbeside, bind_failed hrun]
      rfl
    | broken b =>
      rw [Action.bind_broken hbeside, bind_broken hrun]
      rfl

theorem updating_read (form : Form) (t : Prim) (last : t.Value) :
    updating last (read form t) = received form t last :=
  updating_eq fun p pos => read_run form t p pos last

theorem received_guarded {allowed : Breach → Prop} (form : Form) (t : Prim) (last : t.Value) :
    Guarded allowed (received form t last) := by
  have hread : Guarded allowed (form.read t) := by
    cases form with
    | plain => exact t.read_guarded
    | mini => exact Mini.read_guarded t
  refine Guarded.ite (fun _ => hread.map _) fun _ => ?_
  exact Guarded.readBit.bind fun _ =>
    Guarded.ite (fun _ => hread.map _) fun _ => Guarded.pure _

end Changed

/-! ## Reading requests -/

theorem assertConsumed_guarded {allowed : Breach → Prop} (h : ∀ left, allowed (.notConsumed left)) :
    Guarded allowed assertConsumed :=
  Guarded.available.bind fun left => Guarded.demand fun _ => h left

namespace ReadRequest

/-- Requests for bytes as they lie in the buffer, unwritten bits included. -/
def raw : ReadRequest → Bool
  | .data | .remaining | .hexText | .unreadHexText => true
  | _ => false

/-- The contracts that a request can break: those about the destination it was
given, about the alignment it relies on and about a message being finished. -/
def breaks : ReadRequest → Breach → Prop
  | .bits destination count _, b => ¬bytesOfBits count ≤ destination.length ∧
    b = Breach.forCount count (.destinationTooShort destination.length count)
  | .aligned _, b => b = .unalignedRead
  | .assertConsumed, b => ∃ left, b = .notConsumed left
  | _, _ => False

theorem look_guarded {allowed : Breach → Prop} {α : Type} {body : Decoder α}
    (f : Payload → Nat → α) (hrun : ∀ p pos, body p pos = ⟨.value (f p pos), pos, []⟩)
    (hf : ∀ {p q : Payload} (pos : Nat), p.Alike q → f p pos = f q pos) : Guarded allowed body := by
  refine ⟨?_, ?_, ?_⟩
  · intro p pos _ hpos
    rw [hrun]
    exact hpos
  · intro p pos b _ _ hend
    rw [hrun] at hend
    cases hend
  · intro p q pos hpq _
    rw [hrun, hrun, hf pos hpq]

theorem run_guarded {request : ReadRequest} (hraw : request.raw = false) :
    Guarded request.breaks request.run := by
  cases request with
  | payloadBits => exact Guarded.available.map _
  | writtenBytes =>
    refine look_guarded (fun p _ => .count p.writtenBytes) (fun _ _ => rfl) fun _ hpq => ?_
    rw [Payload.writtenBytes, Payload.writtenBytes, hpq.bits_eq]
  | readLimit =>
    refine look_guarded (fun p _ => .count p.limit) (fun _ _ => rfl) fun _ hpq => ?_
    rw [hpq.limit_eq]
  | isConsumed =>
    exact (Guarded.available.map _).map _
  | assertConsumed =>
    exact (assertConsumed_guarded fun left => ⟨left, rfl⟩).map _
  | restart => exact Guarded.restart.map _
  | align => exact Guarded.align.map _
  | alignment =>
    refine look_guarded (fun p pos => .flags (p.bits % 8 == 0) (pos % 8 == 0)) (fun _ _ => rfl)
      fun _ hpq => ?_
    rw [hpq.bits_eq]
  | data => cases hraw
  | bitText => exact Dump.bitText_guarded.map _
  | hexText => cases hraw
  | unreadHexText => cases hraw
  | remaining => cases hraw
  | need n => exact (Guarded.need n).map _
  | skip n => exact (Guarded.skip n).map _
  | skipBytes n => exact (Guarded.skip _).map _
  | bit => exact Guarded.readBit.map _
  | bits destination count right =>
    exact (Guarded.readBits right fun hroom => ⟨hroom, rfl⟩).map _
  | bytes count => exact (Guarded.readBytes count).map _
  | alignedBytes count => exact (Guarded.readAlignedBytes count).map _
  | aligned t =>
    have hbreaks : breaks (.aligned t) .unalignedRead := rfl
    have hwhole : Guarded (breaks (.aligned t)) (readWhole t.bytes) :=
      Guarded.readWhole hbreaks t.bytes
    exact (hwhole.map _).map _
  | value t => exact t.read_guarded.map _
  | valueInto t destination =>
    have hstore : Guarded (breaks (.valueInto t destination))
        (updating destination fun p => Action.store (t.read p)) := by
      rw [updating_store]
      exact t.read_guarded.map _
    exact hstore.map _
  | casted wire t => exact (IntType.readCasted_guarded wire t).map _
  | mini t => exact (Mini.read_guarded t).map _
  | miniSigned t => exact (Mini.readSigned_guarded t).map _
  | block max => exact (Block.read_guarded max).map _
  | blockLimited => exact Block.readLimited_guarded.map _
  | changed form t destination =>
    have hread : Guarded (breaks (.changed form t destination))
        (updating destination (Changed.read form t)) := by
      rw [Changed.updating_read]
      exact Changed.received_guarded form t destination
    exact hread.map _
  | ranged t min max escape =>
    exact (Ranged.read_guarded t min max escape).map _
  | rangedFloat t min max =>
    exact (Ranged.readFloat_guarded t min max).map _
  | unitVector t =>
    exact (Geometry.readUnitVector_guarded.map _).map _
  | vector t =>
    exact ((Geometry.readVector_guarded t).map _).map _
  | rotation t =>
    exact (Geometry.readRotation_guarded.map _).map _
  | matrix t =>
    exact (Geometry.readMatrix_guarded.map _).map _

theorem run_raw {request : ReadRequest} (hraw : request.raw = true) {p : Payload} (hp : p.Sound)
    {pos : Nat} (hpos : pos ≤ p.bits) : ∃ a, request.run p pos = ⟨.value a, pos, []⟩ := by
  have hhex : ∀ start ≤ p.writtenBytes, ∃ text,
      Dump.hexFrom start p pos = ⟨.value text, pos, []⟩ := fun start hstart =>
    ⟨_, Dump.hexFrom_run hp hstart pos⟩
  cases request with
  | data => exact ⟨_, rfl⟩
  | remaining => exact ⟨_, rfl⟩
  | hexText =>
    obtain ⟨text, hrun⟩ := hhex 0 (Nat.zero_le _)
    exact ⟨.text text, bind_value hrun⟩
  | unreadHexText =>
    have hstart : pos / 8 ≤ p.writtenBytes := by
      unfold Payload.writtenBytes bytesOfBits
      omega
    obtain ⟨text, hrun⟩ := hhex (pos / 8) hstart
    exact ⟨.text text, bind_value ((bind_value (position_run p pos)).trans hrun)⟩
  | _ => cases hraw

/-- No request leaves the position outside the payload. -/
theorem run_stays (request : ReadRequest) {p : Payload} (hp : p.Sound) {pos : Nat}
    (hpos : pos ≤ p.bits) : (request.run p pos).state ≤ p.bits := by
  cases hraw : request.raw with
  | false => exact (run_guarded hraw).stays hp hpos
  | true =>
    obtain ⟨a, hrun⟩ := run_raw hraw hp hpos
    rw [hrun]
    exact hpos

/-- A request breaks no contract but those about what it was given. -/
theorem run_keeps (request : ReadRequest) {p : Payload} (hp : p.Sound) {pos : Nat}
    (hpos : pos ≤ p.bits) {b : Breach} (hend : (request.run p pos).ending = .broken b) :
    request.breaks b := by
  cases hraw : request.raw with
  | false => exact (run_guarded hraw).keeps hp hpos hend
  | true =>
    obtain ⟨a, hrun⟩ := run_raw hraw hp hpos
    rw [hrun] at hend
    cases hend

end ReadRequest

/-! ## Writing requests -/

/-- Every writing request but a rewind only appends. -/
theorem WriteRequest.run_appending {request : WriteRequest} (h : ∀ how, request ≠ .rewind how) :
    Appending request.run := by
  have hlook : Appending (Action.current : Encoder Stream) :=
    Action.Respects.current Stream.grows_course
  cases hlooks : request.looks with
  | false =>
    by_cases hensure : ∃ bits, request = .ensure bits
    · obtain ⟨bits, rfl⟩ := hensure
      exact (Appending.ensure bits).map _
    · exact (run_assembled hlooks h fun bits heq => hensure ⟨bits, heq⟩).appending
  | true =>
    cases request with
    | capacityBits | isSpilled | written => exact hlook.map _
    | _ => cases hlooks

theorem WriteRequest.run_sound (request : WriteRequest) {s : Stream} (hs : s.Sound) :
    (request.run s).state.Sound := by
  by_cases h : ∃ how, request = .rewind how
  · obtain ⟨how, rfl⟩ := h
    exact hs.rewind how
  · exact (run_appending (fun how heq => h ⟨how, heq⟩) s).sound hs

end BitCodec
