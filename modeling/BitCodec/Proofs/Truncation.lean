import BitCodec.Proofs.ChangedCodes
import BitCodec.Proofs.Cutting

/-!
# A truncated message never decodes

A part of a message is an item or a changed value whose receiver holds the last one.
When only the first bits of a message are there, every part that ends before the cut
comes back as it was sent, and the first one that does not falls short: it is neither
taken for another value nor refused for another reason.

A codec is fieldwise when it writes a value as parts and reads it by reading the parts.
Of its packets no proper beginning decodes.
-/

namespace BitCodec

open Decoder (CutSafe)

/-! ## Parts of a message -/

inductive Part where
  | item (item : Item)
  | changed (form : Form) (t : Prim) (v last : t.Value)

/-- Values of types without floats are the same only when they are equal. -/
theorem Prim.same_iff {t : Prim} (h : Mini.Lossless t) (v w : t.Value) :
    t.same v w = true ↔ v = w := by
  cases t with
  | float f => exact absurd rfl (h f)
  | int t => exact beq_iff_eq
  | bool => exact beq_iff_eq
  | u24 => exact beq_iff_eq
  | address => exact beq_iff_eq

namespace Part

def writing : Part → Encoder Unit
  | item i => i.writing
  | changed form t v last => Changed.write form t v last

def reading : Part → Decoder Answer
  | item i => i.reading
  | changed form t _ last => (ReadRequest.changed form t last).run

/-- What reading must give: the value and, for a changed one, whether it is new.  One that
is not new is what the receiver holds already. -/
def answer : Part → Answer
  | item i => i.answer
  | changed _ t v last =>
    .change (!t.same v last) t (if t.same v last then v else t.arrived v)

/-- The part can be sent without loss and has bits of its own: it is no bare alignment,
and a block whose length both sides know is not empty. -/
def Admissible : Part → Prop
  | item .align => False
  | item (.alignedBytes source) => source ≠ []
  | item i => i.Lossless
  | changed _ t _ _ => Mini.Lossless t

def code : Part → Code
  | item i => i.code
  | changed form t v last => .fixed (Changed.wireBits form t v (t.same v last))

variable {part : Part}

theorem Admissible.lossless {i : Item} (h : (Part.item i).Admissible) : i.Lossless := by
  cases i with
  | align => exact h.elim
  | alignedBytes source => trivial
  | _ => exact h

theorem writing_emits (h : part.Admissible) : Emits part.writing () part.code := by
  cases part with
  | item i => exact Item.writing_emits h.lossless
  | changed form t v last => exact Changed.write_emits (Form.check_ok h)

theorem changed_reading (form : Form) (t : Prim) (v last : t.Value) :
    (Part.changed form t v last).reading =
      (Changed.received form t last >>= fun u => pure (.change u.1 t u.2)) := by
  have hrun : (Part.changed form t v last).reading =
      (Decoder.updating last (Changed.read form t) >>= fun u => pure (.change u.1 t u.2)) := rfl
  rw [hrun, Changed.updating_read]

/-- A receiver that holds the last value ends up with the new one. -/
theorem updated_eq {form : Form} {t : Prim} (h : Mini.Lossless t) (v last : t.Value) :
    Changed.updated form t v (t.same v last) last =
      (!t.same v last, if t.same v last then v else t.arrived v) := by
  unfold Changed.updated
  rw [Form.arrived_eq h]
  split
  · next hdirect => rw [Prim.arrived_of_direct hdirect, ite_self]
  · cases hsame : t.same v last with
    | false => rfl
    | true =>
      rw [(Prim.same_iff h v last).mp hsame]
      rfl

theorem reading_takes (h : part.Admissible) : Takes part.reading part.answer part.code := by
  cases part with
  | item i => exact Item.reading_takes h.lossless
  | changed form t v last =>
    have hcheck : form.check t v = .ok () := Form.check_ok h
    have htakes := Changed.received_takes hcheck (t.same v last) last
    rw [updated_eq h] at htakes
    rw [changed_reading]
    exact htakes.map fun u => Answer.change u.1 t u.2

theorem reading_cutSafe (h : part.Admissible) : CutSafe part.reading := by
  cases part with
  | changed form t v last =>
    rw [changed_reading]
    exact (Changed.received_cutSafe form t last).map _
  | item i =>
    cases i with
    | value t v held => exact t.read_cutSafe.map (Answer.value t)
    | casted wire t v held => exact (IntType.readCasted_cutSafe wire t).map (Answer.value (.int t))
    | mini t v held => exact (Mini.read_cutSafe t).map (Answer.value t)
    | miniSigned t v => exact (Mini.readSigned_cutSafe t).map (Answer.value (.int t))
    | ranged t min max v held escape =>
      exact (Ranged.read_cutSafe t min max escape).map (Answer.value (.int t))
    | inRange t r v escape => exact (r.read_cutSafe escape).map (Answer.value (.int t))
    | bits source held count right => exact (CutSafe.readBits right h.2).map Answer.octets
    | alignedBytes source => exact (CutSafe.readAlignedBytes source.length).map Answer.octets
    | block source writeMax readMax =>
      exact (Block.read_cutSafe readMax.toNat).map Answer.octets
    | align => exact h.elim

end Part

/-! ## Messages -/

def sendAll : List Part → Encoder Unit
  | [] => pure ()
  | part :: rest => do
    part.writing
    sendAll rest

/-- How each part reads, one behind another, up to the first one without a value. -/
def readings (p : Payload) (pos : Nat) : List Part → List (Ending Answer)
  | [] => []
  | part :: rest =>
    let t := part.reading p pos
    match t.ending with
    | .value a => .value a :: readings p t.state rest
    | other => [other]

def partCodes : List Part → Code
  | [] => .none
  | part :: rest => part.code.followedBy (partCodes rest)

section Messages

variable {parts : List Part} {p q : Payload} {pos : Nat} {rest : List Bool}

theorem sendAll_emits (h : ∀ part ∈ parts, part.Admissible) :
    Emits (sendAll parts) () (partCodes parts) := by
  induction parts with
  | nil => exact Emits.pure ()
  | cons part others ih =>
    exact (Part.writing_emits (h part (.head _))).bind
      (ih fun other hother => h other (.tail _ hother))

/-- The first part of a message on the whole payload, and what is in front of the rest. -/
theorem first_reading {part : Part} {others : List Part} (h : part.Admissible) (hq : q.Sound)
    (hpos : pos ≤ q.bits) (hstring : q.string.drop pos = partCodes (part :: others) pos ++ rest) :
    part.reading q pos = ⟨.value part.answer, pos + (part.code pos).length, []⟩ ∧
      q.string.drop (pos + (part.code pos).length) =
        partCodes others (pos + (part.code pos).length) ++ rest := by
  rw [partCodes, Code.followedBy, List.append_assoc] at hstring
  exact ⟨Part.reading_takes h hq hpos hstring, Takes.drop_next hstring⟩

/-- A cut payload gives the first part as the whole one does, or falls short of it. -/
theorem first_cut {part : Part} {others : List Part} (hpq : p.Cut q) (h : part.Admissible)
    (hpos : pos ≤ p.bits) (hstring : q.string.drop pos = partCodes (part :: others) pos ++ rest) :
    (pos + (part.code pos).length ≤ p.bits →
        part.reading p pos = ⟨.value part.answer, pos + (part.code pos).length, []⟩) ∧
      (p.bits < pos + (part.code pos).length → (part.reading p pos).Short) ∧
      q.string.drop (pos + (part.code pos).length) =
        partCodes others (pos + (part.code pos).length) ++ rest := by
  obtain ⟨hwhole, hnext⟩ := first_reading h hpq.right (Nat.le_trans hpos hpq.bits_le) hstring
  obtain ⟨-, hsame, hshort⟩ := Part.reading_cutSafe h hpq hpos hwhole
  exact ⟨hsame, hshort, hnext⟩

theorem length_partCodes_cons (part : Part) (others : List Part) (pos : Nat) :
    pos + (partCodes (part :: others) pos).length =
      pos + (part.code pos).length +
        (partCodes others (pos + (part.code pos).length)).length := by
  rw [partCodes, Code.followedBy, List.length_append, Nat.add_assoc]

/-- A cut inside a message lies in one of its parts: those before it read as they were
sent, and that one falls short. -/
theorem readings_cut (hpq : p.Cut q) (h : ∀ part ∈ parts, part.Admissible) (hpos : pos ≤ p.bits)
    (hstring : q.string.drop pos = partCodes parts pos ++ rest)
    (hcut : p.bits < pos + (partCodes parts pos).length) :
    ∃ k < parts.length, pos + (partCodes (parts.take k) pos).length ≤ p.bits ∧
      p.bits < pos + (partCodes (parts.take (k + 1)) pos).length ∧
      ∃ requested available, readings p pos parts =
        (parts.take k).map (fun part => .value part.answer) ++
          [.failed (.insufficientPayload requested available)] := by
  induction parts generalizing pos with
  | nil => exact absurd hpos (Nat.not_le_of_lt hcut)
  | cons part others ih =>
    obtain ⟨hsame, hshort, hnext⟩ := first_cut hpq (h part (.head _)) hpos hstring
    by_cases hfit : pos + (part.code pos).length ≤ p.bits
    · rw [length_partCodes_cons] at hcut
      obtain ⟨k, hk, hbefore, hbehind, requested, available, hreadings⟩ :=
        ih (fun other hother => h other (.tail _ hother)) hfit hnext hcut
      refine ⟨k + 1, Nat.succ_lt_succ hk, ?_, ?_, requested, available, ?_⟩
      · rw [List.take_succ_cons, length_partCodes_cons]
        exact hbefore
      · rw [List.take_succ_cons, length_partCodes_cons]
        exact hbehind
      · simp only [readings, hsame hfit, hreadings, List.take_succ_cons, List.map_cons,
          List.cons_append]
    · have hover : p.bits < pos + (part.code pos).length := Nat.lt_of_not_le hfit
      obtain ⟨requested, available, hend⟩ := hshort hover
      refine ⟨0, Nat.succ_pos _, hpos, ?_, requested, available, ?_⟩
      · rw [List.take_succ_cons, length_partCodes_cons]
        exact hover
      · simp only [readings, hend, List.take_zero, List.map_nil, List.nil_append]

end Messages

/-! ## Codecs that go field by field -/

/-- The reader reads parts one after another and goes on with the values they have, up to
a value of its own. -/
inductive Follows {α : Type} : Decoder α → α → List Part → Prop where
  | finish (a : α) : Follows (pure a) a []
  | field {β : Type} {part : Part} {others : List Part} {body : Decoder β} {b : β}
      {next : β → Decoder α} {a : α} (shown : β → Answer) :
    part.reading = (body >>= fun c => pure (shown c)) → (∀ c, shown c = part.answer → c = b) →
      Follows (next b) a others → Follows (body >>= next) a (part :: others)

namespace Follows

variable {α β : Type} {body : Decoder α} {a : α} {b : β} {parts more : List Part}

protected theorem bind {next : α → Decoder β} (h : Follows body a parts)
    (hnext : Follows (next a) b more) : Follows (body >>= next) b (parts ++ more) := by
  induction h with
  | finish a =>
    rw [pure_bind]
    exact hnext
  | field shown hreading hshown _ ih =>
    rw [bind_assoc]
    exact .field shown hreading hshown (ih hnext)

/-- A cut inside the parts makes the reader fall short. -/
theorem cut (hfollows : Follows body a parts) {p q : Payload} {pos : Nat} {rest : List Bool}
    (hpq : p.Cut q) (h : ∀ part ∈ parts, part.Admissible) (hpos : pos ≤ p.bits)
    (hstring : q.string.drop pos = partCodes parts pos ++ rest)
    (hcut : p.bits < pos + (partCodes parts pos).length) : (body p pos).Short := by
  induction hfollows generalizing pos with
  | finish a => exact absurd hpos (Nat.not_le_of_lt hcut)
  | @field β part others body b next a shown hreading hshown hrest ih =>
    obtain ⟨hsame, hshort, hnext⟩ := first_cut hpq (h part (.head _)) hpos hstring
    by_cases hfit : pos + (part.code pos).length ≤ p.bits
    · -- The part reads as it was sent, so the reader goes on as it does on the whole message.
      have hrun := hsame hfit
      rw [hreading] at hrun
      obtain ⟨c, hbody, hshow⟩ := CutSafe.map_value_inv hrun
      rw [hshown c hshow] at hbody
      rw [length_partCodes_cons] at hcut
      rw [Decoder.bind_value hbody]
      exact ih (fun other hother => h other (.tail _ hother)) hfit hnext hcut
    · have hover := hshort (Nat.lt_of_not_le hfit)
      rw [hreading] at hover
      exact CutSafe.bind_falls_short (CutSafe.short_of_map hover)

end Follows

/-- The codec writes a value as parts, and reads what arrives of it by reading the parts. -/
structure Codec.Fieldwise {α : Type} (c : Codec α) (v arrived : α) (parts : List Part) : Prop where
  writes : c.write v = sendAll parts
  reads : Follows c.read arrived parts

theorem sendAll_append (parts more : List Part) :
    sendAll (parts ++ more) = (sendAll parts >>= fun _ => sendAll more) := by
  induction parts with
  | nil =>
    unfold sendAll
    rw [pure_bind]
    rfl
  | cons part others ih => simp only [List.cons_append, sendAll, ih, bind_assoc]

namespace Codec.Fieldwise

variable {α β : Type} {c : Codec α} {d : Codec β} {v a : α} {w b : β} {parts more : List Part}

/-- A codec whose reader is that of a part. -/
theorem of_part {part : Part} (shown : α → Answer) (hwrites : c.write v = part.writing)
    (hreads : part.reading = (c.read >>= fun a => pure (shown a)))
    (hshown : ∀ b, shown b = part.answer → b = a) : c.Fieldwise v a [part] := by
  refine ⟨?_, ?_⟩
  · have hunit : (fun _ : Unit => sendAll []) = (pure : Unit → Encoder Unit) := rfl
    rw [hwrites, sendAll, hunit, bind_pure]
  · have hread : Follows (c.read >>= pure) a [part] :=
      .field shown hreads hshown (.finish a)
    rwa [bind_pure] at hread

protected theorem pair (h : c.Fieldwise v a parts) (hd : d.Fieldwise w b more) :
    (c.pair d).Fieldwise (v, w) (a, b) (parts ++ more) := by
  refine ⟨?_, ?_⟩
  · rw [sendAll_append, ← h.writes, ← hd.writes]
    rfl
  · have hlast : Follows (d.read >>= fun b => pure (a, b)) (a, b) (more ++ []) :=
      hd.reads.bind (.finish (a, b))
    rw [List.append_nil] at hlast
    exact h.reads.bind hlast

theorem value_inj {t : Prim} {a b : t.Value} (h : Answer.value t a = Answer.value t b) : a = b := by
  cases h
  rfl

theorem plain (t : Prim) (v held : t.Value) :
    (Codec.plain t).Fieldwise v (t.arrived v) [.item (.value t v held)] :=
  of_part (Answer.value t) rfl rfl fun _ => value_inj

theorem mini (t : Prim) (v held : t.Value) :
    (Codec.mini t).Fieldwise v (t.arrived v) [.item (.mini t v held)] :=
  of_part (Answer.value t) rfl rfl fun _ => value_inj

theorem ranged (t : IntType) (min max v held : t.Value) (escape : Bool) :
    (Codec.ranged t min max escape).Fieldwise v v [.item (.ranged t min max v held escape)] :=
  of_part (Answer.value (.int t)) rfl rfl fun _ => value_inj

end Codec.Fieldwise

/-! ## The result -/

/-- From the first bits of a message the parts that end before the cut come back as they
were sent, and the first one that does not falls short.  Where a part ends is where the
stream stood when it had been sent. -/
def StopsShort (s : Stream) (parts : List Part) (data : List UInt8) (bits : Nat) : Prop :=
  ∃ p, Payload.ofBits data bits = .ok p ∧ ∃ k < parts.length,
    (sendAll (parts.take k) s).state.cursor.write ≤ bits ∧
    bits < (sendAll (parts.take (k + 1)) s).state.cursor.write ∧
    ∃ requested available, readings p 0 parts =
      (parts.take k).map (fun part => .value part.answer) ++
        [.failed (.insufficientPayload requested available)]

/-- No proper beginning of the packet decodes. -/
def Codec.RefusesCut {α : Type} (c : Codec α) (packet : List UInt8) : Prop :=
  ∀ cut, cut <+: packet → cut ≠ packet → (c.ofPacket cut).Short

section Result

variable {parts : List Part} {s s' : Stream}

theorem sendAll_ends (h : ∀ part ∈ parts, part.Admissible) (hs : s.Sound)
    (hempty : s.cursor.write = 0) :
    (sendAll parts s).state.cursor.write = (partCodes parts 0).length := by
  obtain ⟨s', effects, hrun, hgrown⟩ := sendAll_emits h hs
  rw [hrun, hgrown.write_eq, hempty, Nat.zero_add]

/-- The written bits of a message, and nothing else, are read back from its payload. -/
theorem message_string (hempty : s.cursor.write = 0)
    (hgrown : s.Grown (partCodes parts s.cursor.write) s') :
    s'.payload.string.drop 0 = partCodes parts 0 ++ [] := by
  have hnone : s.string = [] := List.length_eq_zero_iff.mp (by rw [Stream.length_string, hempty])
  rw [Stream.payload_string, hgrown.string_eq, hnone, hempty, List.drop_zero, List.append_nil,
    List.nil_append]

theorem stopsShort (h : ∀ part ∈ parts, part.Admissible) (hs : s.Sound)
    (hempty : s.cursor.write = 0) (hgrown : s.Grown (partCodes parts s.cursor.write) s')
    {bits : Nat} (hbits : bits < s'.cursor.write) : StopsShort s parts s'.written bits := by
  have hsound := hgrown.sound.payload
  have hsize : s'.cursor.write ≤ 8 * s'.payload.data.size := hsound
  have hlength : s'.written.length = s'.payload.data.size := Array.length_toList
  have hfits : ¬bits > 8 * s'.written.length := by omega
  have hp : Payload.ofBits s'.written bits =
      .ok ⟨(s'.written.take (bytesOfBits bits)).toArray, bits, defaultReadLimit⟩ := by
    unfold Payload.ofBits
    rw [if_neg hfits]
  have hcut : Payload.Cut ⟨(s'.written.take (bytesOfBits bits)).toArray, bits, defaultReadLimit⟩
      s'.payload :=
    Payload.Cut.of_bytes (Payload.ofBits_sound hp) hsound (Nat.le_of_lt hbits)
      (List.take_prefix _ _)
  have hwrite := hgrown.write_eq
  rw [hempty, Nat.zero_add] at hwrite
  obtain ⟨k, hk, hbefore, hbehind, hreadings⟩ := readings_cut hcut h (Nat.zero_le _)
    (message_string hempty hgrown) (by rw [Nat.zero_add, ← hwrite]; exact hbits)
  have htake (n : Nat) : ∀ part ∈ parts.take n, part.Admissible :=
    fun part hpart => h part (List.mem_of_mem_take hpart)
  refine ⟨_, hp, k, hk, ?_, ?_, hreadings⟩
  · rwa [sendAll_ends (htake k) hs hempty, ← Nat.zero_add (List.length _)]
  · rwa [sendAll_ends (htake (k + 1)) hs hempty, ← Nat.zero_add (List.length _)]

/-- Whatever is missing of a message, its last bit is. -/
theorem cut_packet_bits {s : Stream} (hs : s.Sound) {cut : List UInt8} (hcut : cut <+: s.written)
    (hproper : cut ≠ s.written) : 8 * cut.length < s.cursor.write := by
  have hlength : s.written.length = bytesOfBits s.cursor.write := by
    rw [hs.written_eq, Bits.length_packed, Stream.length_string]
  have hshorter : cut.length < s.written.length :=
    Nat.lt_of_le_of_ne hcut.length_le fun heq => hproper (hcut.eq_of_length heq)
  unfold bytesOfBits at hlength
  omega

theorem refusesCut {α : Type} {c : Codec α} {v arrived : α}
    (h : ∀ part ∈ parts, part.Admissible) (hc : c.Fieldwise v arrived parts) :
    (c.toStream v).ending = .value () ∧ c.RefusesCut (c.toStream v).state.written := by
  have hwrite : Emits (c.write v) () (partCodes parts) := by
    rw [hc.writes]
    exact sendAll_emits h
  obtain ⟨s', effects, hsend, hgrown⟩ := Codec.toStream_run hwrite
  rw [hsend]
  refine ⟨rfl, fun cut hcut hproper => ?_⟩
  have hbits : 8 * cut.length < s'.cursor.write := cut_packet_bits hgrown.sound hcut hproper
  have hpayload : (Payload.ofBytes cut).Cut s'.payload :=
    Payload.Cut.of_bytes (Payload.ofBytes_sound cut) hgrown.sound.payload (Nat.le_of_lt hbits) hcut
  have hwrite := hgrown.write_eq
  refine CutSafe.bind_falls_short (hc.reads.cut hpayload h (Nat.zero_le _)
    (message_string rfl hgrown) ?_)
  rw [Nat.zero_add, ← Nat.zero_add (List.length _)]
  exact hwrite ▸ hbits

end Result

/-- A truncated message never decodes.  However an empty stream came about, a message of
parts is sent on it, and of every smaller number of bits the reader gets the parts that end
there, addresses by their octets and ports, and then a failure because of too few bits.  No
proper beginning of a packet of these parts is decoded. -/
theorem truncated_never_decodes {slot : Slot} (hslot : slot.Reached) {s : Stream}
    (hstream : slot.stream? = some s) (hempty : s.cursor.write = 0) {parts : List Part}
    (hparts : ∀ part ∈ parts, part.Admissible) :
    (∃ s' effects, sendAll parts s = ⟨.value (), s', effects⟩ ∧
      ∀ bits < s'.cursor.write, StopsShort s parts s'.written bits) ∧
    ∀ (α : Type) (c : Codec α) (v arrived : α), c.Fieldwise v arrived parts →
      (c.toStream v).ending = .value () ∧ c.RefusesCut (c.toStream v).state.written := by
  have hs := hslot.sound.stream hstream
  obtain ⟨s', effects, hrun, hgrown⟩ := sendAll_emits hparts hs
  refine ⟨⟨s', effects, hrun, fun bits hbits => ?_⟩, fun α c v arrived hc => refusesCut hparts hc⟩
  exact stopsShort hparts hs hempty hgrown hbits

/-- A health between bounds, a flag and a score. -/
theorem truncated_never_decodes_player :
    let parts : List Part := [.item (.ranged .u16 0 1000 850 0 false),
      .item (.value .bool true false), .item (.mini (.int .u32) 12 0)]
    let player := (Codec.ranged .u16 0 1000 false).pair ((Codec.plain .bool).pair
      (Codec.mini (.int .u32)))
    (Slot.owned Stream.empty).Reached ∧ (∀ part ∈ parts, part.Admissible) ∧
      player.Fieldwise (850, true, 12) (850, true, 12) parts ∧
      (∃ s' effects, sendAll parts Stream.empty = ⟨.value (), s', effects⟩ ∧
        ∀ bits < s'.cursor.write, StopsShort Stream.empty parts s'.written bits) ∧
      player.RefusesCut (player.toStream (850, true, 12)).state.written := by
  intro parts player
  have hparts : ∀ part ∈ parts, part.Admissible := by
    simp [parts, Part.Admissible, Item.Lossless, Ranged.Sendable, Mini.Lossless]
    decide
  have hplayer : player.Fieldwise (850, true, 12) (850, true, 12) parts :=
    (Codec.Fieldwise.ranged .u16 0 1000 850 0 false).pair
      ((Codec.Fieldwise.plain .bool true false).pair (Codec.Fieldwise.mini (.int .u32) 12 0))
  obtain ⟨hsent, hcodecs⟩ := truncated_never_decodes Slot.reached_empty rfl rfl hparts
  exact ⟨Slot.reached_empty, hparts, hplayer, hsent, (hcodecs _ player _ _ hplayer).2⟩

/-- An address on one interface and a flag, all but the last bit of them: the address comes back
on no interface. -/
theorem truncated_message_unscopes_address :
    let parts : List Part := [.item (.value .address .linkLocal .linkLocal),
      .item (.value .bool true false)]
    (∀ part ∈ parts, part.Admissible) ∧
      (sendAll (parts.take 1) Stream.empty).state.cursor.write = 152 ∧
      ∃ p, Payload.ofBits (sendAll parts Stream.empty).state.written 152 = .ok p ∧
        (readings p 0 parts).head? ≠ some (.value (.value .address .linkLocal)) := by
  intro parts
  have hparts : ∀ part ∈ parts, part.Admissible := by
    simp [parts, Part.Admissible, Item.Lossless]
  have hs : Stream.empty.Sound := Slot.reached_empty.sound.stream rfl
  have hfirst : (sendAll (parts.take 1) Stream.empty).state.cursor.write = 152 := by
    decide +kernel
  obtain ⟨s', effects, hrun, hgrown⟩ := sendAll_emits hparts hs
  have hbits : 152 < s'.cursor.write := by
    have hend := sendAll_ends hparts hs rfl
    rw [hrun] at hend
    rw [hend]
    decide +kernel
  obtain ⟨p, hp, k, hk, -, hbehind, requested, available, hreadings⟩ :=
    stopsShort hparts hs rfl hgrown hbits
  rw [hrun]
  refine ⟨hparts, hfirst, p, hp, ?_⟩
  obtain rfl | rfl : k = 0 ∨ k = 1 := by
    have hlength : parts.length = 2 := rfl
    omega
  · exact absurd hbehind (by rw [Nat.zero_add, hfirst]; decide)
  · rw [hreadings]
    intro hsame
    exact SocketAddress.unscoped_linkLocal_ne
      (Codec.Fieldwise.value_inj (Ending.value.inj (Option.some.inj hsame)))

end BitCodec
