import BitCodec.Proofs.Truncation

/-!
# Which packets are accepted

A message that makes up a whole packet is read from the first bit, and what is left must
be less than a byte.  So a packet is accepted exactly when it has as many bytes as the bits
that the message takes need.

A codec is canonical when whatever its reader gives a value for is spelt as the writer would
spell that value.  All primitive values are, and so are messages put together from them.
Where such a message takes whole bytes, the packets that are accepted are those that the
writer makes and no others.  Two addresses that differ in flow or scope alone make one packet,
and it is read as the address in neither.

A socket address takes seven bytes or nineteen, and its first byte says which.
-/

namespace BitCodec

open Decoder Code

/-! ## Messages of primitive values -/

/-- Values of the types, in order. -/
def Values : List Prim → Type
  | [] => Unit
  | t :: rest => t.Value × Values rest

/-- Primitive values one after another. -/
def Codec.sequence : (types : List Prim) → Codec (Values types)
  | [] => ⟨fun _ => pure (), pure ()⟩
  | t :: rest => (Codec.plain t).pair (Codec.sequence rest)

/-- The bits of primitive values one after another. -/
def Values.wireBits : (types : List Prim) → Values types → List Bool
  | [], _ => []
  | t :: rest, values => t.wireBits values.1 ++ wireBits rest values.2

/-- What arrives of the values. -/
def Values.arrived : (types : List Prim) → Values types → Values types
  | [], values => values
  | t :: rest, values => (t.arrived values.1, arrived rest values.2)

/-! ## What is left over -/

/-- A packet with a message that takes so many bits: it is accepted when less than a byte is
left, and refused otherwise. -/
theorem Codec.ofPacket_run {α : Type} {c : Codec α} {bytes : List UInt8} {value : α} {count : Nat}
    {effects : List Effect}
    (hrun : c.read (Payload.ofBytes bytes) 0 = ⟨.value value, count, effects⟩)
    (hcount : count ≤ 8 * bytes.length) :
    (c.ofPacket bytes).ending =
      if bytes.length = bytesOfBits count then .value value
      else .failed (.malformed s!"{8 * bytes.length - count} trailing bits after message") := by
  have hleft : Decoder.available (Payload.ofBytes bytes) count =
      ⟨.value (8 * bytes.length - count), count, []⟩ := available_run hcount
  have hbyte : 8 * bytes.length - count ≥ 8 ↔ ¬bytes.length = bytesOfBits count := by
    unfold bytesOfBits
    omega
  unfold Codec.ofPacket Codec.readWhole
  rw [bind_trace hrun, bind_value hleft]
  by_cases hwhole : bytes.length = bytesOfBits count
  · rw [if_pos hwhole, if_neg fun hmore => hbyte.mp hmore hwhole]
    rfl
  · rw [if_neg hwhole, if_pos (hbyte.mpr hwhole)]
    rfl

/-! ## Canonical readers -/

/-- Whatever the reader gives a value for is a string that spells the value. -/
def Canonical {α : Type} (body : Decoder α) (spells : α → List Bool → Prop) : Prop :=
  ∀ ⦃p : Payload⦄ ⦃pos : Nat⦄ ⦃a : α⦄, p.Sound → pos ≤ p.bits →
    (body p pos).ending = .value a →
      ∃ bits rest, p.string.drop pos = bits ++ rest ∧ (body p pos).state = pos + bits.length ∧
        spells a bits

namespace Canonical

variable {α β : Type} {body : Decoder α} {next : α → Decoder β} {spells : α → List Bool → Prop}
  {spellsNext : α → β → List Bool → Prop}

/-- A reader that has a value stays inside the payload. -/
theorem stays (h : Canonical body spells) {p : Payload} {pos mid : Nat} {a : α}
    {effects : List Effect} (hp : p.Sound) (hpos : pos ≤ p.bits)
    (hrun : body p pos = ⟨.value a, mid, effects⟩) : mid ≤ p.bits := by
  obtain ⟨bits, rest, hstring, hstate, -⟩ := h hp hpos (congrArg Trace.ending hrun)
  have hlen := Takes.length_eq hpos hstring
  rw [hrun] at hstate
  simp only at hstate
  omega

theorem mono {weaker : α → List Bool → Prop} (h : Canonical body spells)
    (hweaker : ∀ a bits, spells a bits → weaker a bits) : Canonical body weaker := by
  intro p pos a hp hpos hend
  obtain ⟨bits, rest, hstring, hstate, hbits⟩ := h hp hpos hend
  exact ⟨bits, rest, hstring, hstate, hweaker a bits hbits⟩

protected theorem pure (a : α) :
    Canonical (pure a : Decoder α) fun b bits => b = a ∧ bits = [] := by
  intro p pos b _ _ hend
  cases hend
  exact ⟨[], p.string.drop pos, rfl, rfl, rfl, rfl⟩

protected theorem fail (e : Failure) : Canonical (Decoder.fail e : Decoder α) spells :=
  fun _ _ _ _ _ hend => nomatch hend

protected theorem bind (h : Canonical body spells)
    (hnext : ∀ a, Canonical (next a) (spellsNext a)) :
    Canonical (body >>= next) fun b bits =>
      ∃ a first second, spells a first ∧ spellsNext a b second ∧ bits = first ++ second := by
  intro p pos b hp hpos hend
  rcases hrun : body p pos with ⟨ending, mid, effects⟩
  cases ending with
  | value a =>
    have hmid := h.stays hp hpos hrun
    obtain ⟨first, rest, hstring, hstate, hfirst⟩ := h hp hpos (congrArg Trace.ending hrun)
    rw [hrun] at hstate
    rw [bind_trace hrun] at hend ⊢
    obtain ⟨second, last, hstring', hstate', hsecond⟩ := hnext a hp hmid hend
    have hdrop := Takes.drop_next hstring
    rw [← hstate, hstring'] at hdrop
    refine ⟨first ++ second, last, ?_, ?_, a, first, second, hfirst, hsecond, rfl⟩
    · rw [hstring, ← hdrop, List.append_assoc]
    · simp only at hstate
      rw [hstate', List.length_append, hstate, Nat.add_assoc]
  | failed e =>
    rw [bind_failed hrun] at hend
    cases hend
  | broken c =>
    rw [bind_broken hrun] at hend
    cases hend

/-- What follows completes what was read to the form of the whole. -/
theorem completed {whole : β → List Bool → Prop} (h : Canonical body spells)
    (hnext : ∀ a, Canonical (next a) fun b bits =>
      ∀ first, spells a first → whole b (first ++ bits)) :
    Canonical (body >>= next) whole := by
  refine (h.bind hnext).mono ?_
  rintro b bits ⟨a, first, second, hfirst, hsecond, rfl⟩
  exact hsecond first hfirst

protected theorem map (h : Canonical body spells) (f : α → β) :
    Canonical (body >>= fun a => pure (f a)) fun b bits => ∃ a, f a = b ∧ spells a bits := by
  refine (h.bind fun a => Canonical.pure (f a)).mono ?_
  rintro b bits ⟨a, first, second, hfirst, ⟨rfl, rfl⟩, rfl⟩
  rw [List.append_nil]
  exact ⟨a, rfl, hfirst⟩

protected theorem rewinding (h : Canonical body spells) : Canonical (rewinding body) spells := by
  intro p pos a hp hpos hend
  rcases hrun : body p pos with ⟨ending, mid, effects⟩
  cases ending with
  | value b =>
    have hsame : rewinding body p pos = body p pos := by
      simp only [rewinding, Action.rewinding, hrun]
    rw [hsame] at hend ⊢
    exact h hp hpos hend
  | failed e =>
    rw [rewinding_failed hrun] at hend
    cases hend
  | broken c =>
    simp only [rewinding, Action.rewinding, hrun] at hend
    cases hend

protected theorem ite {condition : Prop} [Decidable condition] {other : Decoder α}
    (h : condition → Canonical body spells) (hother : ¬condition → Canonical other spells) :
    Canonical (if condition then body else other) spells := by
  by_cases hc : condition
  · rw [if_pos hc]
    exact h hc
  · rw [if_neg hc]
    exact hother hc

/-- A reader that takes so many bits where there are as many. -/
theorem of_taking {count : Nat} {value : Payload → Nat → α}
    (hrun : ∀ {p pos}, p.Sound → pos ≤ p.bits →
      body p pos = if count ≤ p.bits - pos then ⟨.value (value p pos), pos + count, []⟩
        else short p pos count) :
    Canonical body fun a bits => bits.length = count ∧
      ∃ p pos, a = value p pos ∧ bits = Bits.slice p.data pos count := by
  intro p pos a hp hpos hend
  rw [hrun hp hpos] at hend ⊢
  by_cases hbits : count ≤ p.bits - pos
  · rw [if_pos hbits] at hend ⊢
    cases hend
    have hslice : Bits.slice p.data pos count = (p.string.drop pos).take count :=
      Payload.slice_eq (by omega)
    refine ⟨Bits.slice p.data pos count, p.string.drop (pos + count), ?_, ?_, ?_, p, pos, rfl, rfl⟩
    · rw [hslice, ← List.drop_drop, List.take_append_drop]
    · rw [Bits.length_slice]
    · rw [Bits.length_slice]
  · rw [if_neg hbits] at hend
    cases hend

end Canonical

/-! ### Primitive values -/

namespace Prim

/-- A pattern of whole bytes, as many as the type has bits for. -/
theorem readPattern_run (count width : Nat) {p : Payload} (hp : p.Sound) {pos : Nat}
    (hpos : pos ≤ p.bits) :
    readPattern count width p pos =
      if 8 * count ≤ p.bits - pos then
        ⟨.value (BitVec.ofNat width (Bits.toNumber (Bits.slice p.data pos (8 * count)))),
          pos + 8 * count, []⟩
      else short p pos (8 * count) := by
  have hbytes : bytesOfBits (8 * count) = count := by
    unfold bytesOfBits
    omega
  have hroom : bytesOfBits (8 * count) ≤ (List.replicate count (0 : UInt8)).length := by
    simp [hbytes]
  have hread := readBits_run true hp hpos hroom
  unfold readPattern
  by_cases hbits : 8 * count ≤ p.bits - pos
  · rw [if_pos hbits] at hread ⊢
    rw [bind_value hread, hbytes, List.drop_of_length_le (Nat.le_of_eq List.length_replicate),
      List.append_nil, Bits.ofBe_packed true (by simp)]
    rfl
  · rw [if_neg hbits] at hread ⊢
    exact bind_short hread

theorem readPattern_canonical (count : Nat) {width : Nat} (hwidth : width = 8 * count) :
    Canonical (readPattern count width) fun value bits =>
      bits = Bits.ofNumber (8 * count) value.toNat := by
  refine (Canonical.of_taking fun hp hpos => readPattern_run count width hp hpos).mono ?_
  rintro value bits ⟨hlen, p, pos, rfl, hbits⟩
  rw [← hbits]
  have hback := Bits.ofNumber_toNumber bits
  have hnumber := Bits.toNumber_lt bits
  rw [hlen] at hback hnumber
  rw [hwidth, BitVec.toNat_ofNat, Nat.mod_eq_of_lt hnumber, hback]

theorem readBit_canonical : Canonical readBit fun bit bits => bits = [bit] := by
  refine (Canonical.of_taking fun hp hpos => readBit_run hp hpos).mono ?_
  rintro bit bits ⟨-, p, pos, rfl, rfl⟩
  exact Bits.slice_one p.data pos

theorem readAddress_canonical : Canonical readAddress fun a bits =>
    bits = addressBits a ∧ a.unscoped = a := by
  have hport : Canonical (readPattern 2 16) fun port bits =>
      bits = Bits.ofNumber 16 port.toNat := readPattern_canonical 2 rfl
  have htag : Canonical (readPattern 1 8) fun tag bits => bits = Bits.ofNumber 8 tag.toNat :=
    readPattern_canonical 1 rfl
  have hnone : ∀ e, Canonical (Decoder.fail e : Decoder IpAddress) fun _ _ => False :=
    fun e => Canonical.fail e
  refine Canonical.rewinding (htag.completed fun tag => ?_)
  refine Canonical.ite (fun hv4 => ?_) fun _ => Canonical.ite (fun hv6 => ?_) fun _ => ?_
  · have hoctets : Canonical (readPattern 4 32) fun octets bits =>
        bits = Bits.ofNumber 32 octets.toNat := readPattern_canonical 4 rfl
    refine (hoctets.bind fun octets => hport.map (SocketAddress.new (.v4 (~~~octets)))).mono ?_
    rintro a bits ⟨octets, first, second, rfl, ⟨port, rfl, rfl⟩, rfl⟩ tagBits rfl
    refine ⟨?_, rfl⟩
    simp only [SocketAddress.new, addressBits, hv4, BitVec.not_not]
  · have hoctets : Canonical (readPattern 16 128) fun octets bits =>
        bits = Bits.ofNumber 128 octets.toNat := readPattern_canonical 16 rfl
    refine (hoctets.bind fun octets => hport.map (SocketAddress.new (.v6 octets))).mono ?_
    rintro a bits ⟨octets, first, second, rfl, ⟨port, rfl, rfl⟩, rfl⟩ tagBits rfl
    refine ⟨?_, rfl⟩
    rw [SocketAddress.new, addressBits, hv6]
  · refine ((hnone _).bind fun ip => hport.map (SocketAddress.new ip)).mono ?_
    rintro a bits ⟨_, _, _, hnever, _⟩
    exact hnever.elim

/-- What was read is spelt as the writer spells it, and would arrive as it is. -/
theorem read_canonical (t : Prim) : Canonical t.read fun value bits =>
    bits = t.wireBits value ∧ t.arrived value = value := by
  cases t with
  | int t => exact (readPattern_canonical t.bytes rfl).mono fun _ _ hbits => ⟨hbits, rfl⟩
  | bool => exact readBit_canonical.mono fun _ _ hbits => ⟨hbits, rfl⟩
  | float t => exact (readPattern_canonical t.bytes rfl).mono fun _ _ hbits => ⟨hbits, rfl⟩
  | u24 => exact (readPattern_canonical 3 rfl).mono fun _ _ hbits => ⟨hbits, rfl⟩
  | address => exact readAddress_canonical

/-- Every value but a boolean takes whole bytes. -/
theorem length_wireBits_mod {t : Prim} (h : t ≠ .bool) (value : t.Value) :
    (t.wireBits value).length % 8 = 0 := by
  cases t with
  | int t => simp [wireBits, IntType.bits]
  | bool => exact absurd rfl h
  | float t => simp [wireBits, FloatType.bits]
  | u24 => simp [wireBits]
  | address =>
    cases value with
    | v4 octets port => simp [wireBits, addressBits]
    | v6 octets port flow scope => simp [wireBits, addressBits]

end Prim

/-! ### Codecs -/

namespace Codec

/-- Writer and reader agree on how every value is spelt and on what arrives of it, and the reader
takes nothing else. -/
structure Spelt {α : Type} (c : Codec α) (spelling : α → List Bool) (arrived : α → α) : Prop where
  emits : ∀ value, Emits (c.write value) () (fixed (spelling value))
  takes : ∀ value, Takes c.read (arrived value) (fixed (spelling value))
  canonical : Canonical c.read fun value bits => bits = spelling value ∧ arrived value = value

theorem plain_spelt (t : Prim) : (plain t).Spelt t.wireBits t.arrived :=
  ⟨t.write_emits, t.read_takes, t.read_canonical⟩

theorem Spelt.pair {α β : Type} {c : Codec α} {d : Codec β} {first : α → List Bool}
    {second : β → List Bool} {left : α → α} {right : β → β} (hc : c.Spelt first left)
    (hd : d.Spelt second right) :
    (c.pair d).Spelt (fun value => first value.1 ++ second value.2)
      fun value => (left value.1, right value.2) := by
  refine ⟨fun value => ?_, fun value => ?_, ?_⟩
  · rw [← fixed_followedBy_fixed]
    exact (hc.emits value.1).bind (hd.emits value.2)
  · rw [← fixed_followedBy_fixed]
    exact (hc.takes value.1).bind ((hd.takes value.2).map (left value.1, ·))
  · refine (hc.canonical.bind fun a => hd.canonical.map (a, ·)).mono ?_
    rintro value bits ⟨a, ahead, behind, ⟨rfl, ha⟩, ⟨b, rfl, rfl, hb⟩, rfl⟩
    exact ⟨rfl, Prod.ext ha hb⟩

theorem sequence_spelt (types : List Prim) :
    (sequence types).Spelt (Values.wireBits types) (Values.arrived types) := by
  induction types with
  | nil =>
    refine ⟨fun _ => Emits.pure (), fun _ => Takes.pure (), (Canonical.pure ()).mono ?_⟩
    rintro values bits ⟨-, rfl⟩
    exact ⟨rfl, rfl⟩
  | cons t rest ih => exact (plain_spelt t).pair ih

/-- The packets that are accepted are those that the encoder makes, and each is read as the one
value of those that make it which arrives as it is. -/
structure AcceptsImage {α : Type} (c : Codec α) (arrived : α → α) : Prop where
  accepted_iff : ∀ bytes : List UInt8, (∃ value, (c.ofPacket bytes).ending = .value value) ↔
    ∃ value, (c.toStream value).state.written = bytes
  value_iff : ∀ (bytes : List UInt8) (value : α), (c.ofPacket bytes).ending = .value value ↔
    (c.toStream value).state.written = bytes ∧ arrived value = value

variable {α : Type} {c : Codec α} {spelling : α → List Bool} {arrived : α → α}

/-- The packet of a value is its spelling, and is read as what arrives of it. -/
theorem Spelt.comes_back (h : c.Spelt spelling arrived) (value : α) :
    ∃ s effects, c.toStream value = ⟨.value (), s, effects⟩ ∧ s.Sound ∧
      s.string = spelling value ∧ (c.ofPacket s.written).ending = .value (arrived value) := by
  obtain ⟨s, effects, hrun, hgrown⟩ := toStream_run (h.emits value)
  have hstring : s.string = spelling value := hgrown.string_eq
  obtain ⟨hcut, -⟩ := hgrown.sound.written_packet
  obtain ⟨rest, hrest⟩ := hcut.string_append
  rw [Stream.payload_string, hstring] at hrest
  have hread := h.takes value hcut.right (Nat.zero_le _) hrest
  have hlen : s.written.length = bytesOfBits (spelling value).length := by
    rw [hgrown.sound.written_eq, Bits.length_packed, hstring]
  have hcount : (spelling value).length ≤ 8 * s.written.length := by
    rw [hlen]
    unfold bytesOfBits
    omega
  refine ⟨s, effects, hrun, hgrown.sound, hstring, ?_⟩
  rw [fixed, Nat.zero_add] at hread
  rw [ofPacket_run hread hcount, if_pos hlen]

/-- What is accepted was read from the first bit and has as many bytes as it takes. -/
theorem Spelt.ofPacket_inv (h : c.Spelt spelling arrived) {bytes : List UInt8} {value : α}
    (hend : (c.ofPacket bytes).ending = .value value) :
    (c.read (Payload.ofBytes bytes) 0).ending = .value value ∧
      bytes.length = bytesOfBits (c.read (Payload.ofBytes bytes) 0).state := by
  rcases hrun : c.read (Payload.ofBytes bytes) 0 with ⟨ending, count, effects⟩
  cases ending with
  | value other =>
    have hcount := h.canonical.stays (Payload.ofBytes_sound bytes) (Nat.zero_le _) hrun
    rw [ofPacket_run hrun hcount] at hend
    by_cases hwhole : bytes.length = bytesOfBits count
    · rw [if_pos hwhole] at hend
      exact ⟨hend, hwhole⟩
    · rw [if_neg hwhole] at hend
      cases hend
  | failed e =>
    unfold ofPacket readWhole at hend
    rw [bind_failed hrun] at hend
    cases hend
  | broken b =>
    unfold ofPacket readWhole at hend
    rw [bind_broken hrun] at hend
    cases hend

/-- Where values take whole bytes, a packet that is accepted is the one of the value it is read
as. -/
theorem Spelt.value_iff (h : c.Spelt spelling arrived)
    (hwhole : ∀ value, (spelling value).length % 8 = 0) (bytes : List UInt8) (value : α) :
    (c.ofPacket bytes).ending = .value value ↔
      (c.toStream value).state.written = bytes ∧ arrived value = value := by
  obtain ⟨s, effects, hrun, hs, hstring, hback⟩ := h.comes_back value
  rw [hrun]
  refine ⟨fun hend => ?_, fun ⟨hwritten, hsettled⟩ => ?_⟩
  · have hsound := Payload.ofBytes_sound bytes
    obtain ⟨hvalue, hlen⟩ := h.ofPacket_inv hend
    obtain ⟨bits, rest, hsplit, hstate, hbits, hsettled⟩ :=
      h.canonical hsound (Nat.zero_le _) hvalue
    refine ⟨?_, hsettled⟩
    have hbytes : Bits.ofBytes bytes = bits ++ rest := (Bits.slice_toArray bytes).symm.trans hsplit
    have hmod := hwhole value
    have htotal := congrArg List.length hbytes
    rw [Bits.length_ofBytes, List.length_append] at htotal
    rw [hstate, Nat.zero_add, bytesOfBits] at hlen
    have hnone : rest = [] := by
      rw [hbits] at hlen htotal
      exact List.length_eq_zero_iff.mp (by omega)
    rw [hs.written_eq, hstring, ← hbits, ← List.append_nil bits, ← hnone, ← hbytes,
      Bits.packed_ofBytes]
  · rw [← hwritten, ← hsettled]
    exact hback

theorem Spelt.acceptsImage (h : c.Spelt spelling arrived)
    (hwhole : ∀ value, (spelling value).length % 8 = 0) : c.AcceptsImage arrived := by
  refine ⟨fun bytes => ⟨fun ⟨value, hend⟩ => ?_, fun ⟨value, hwritten⟩ => ?_⟩, h.value_iff hwhole⟩
  · exact ⟨value, ((h.value_iff hwhole bytes value).mp hend).1⟩
  · obtain ⟨s, effects, hrun, -, -, hback⟩ := h.comes_back value
    rw [hrun] at hwritten
    rw [← hwritten]
    exact ⟨arrived value, hback⟩

end Codec

namespace Values

theorem length_wireBits_mod {types : List Prim} (h : .bool ∉ types) (values : Values types) :
    (wireBits types values).length % 8 = 0 := by
  induction types with
  | nil => rfl
  | cons t rest ih =>
    have hfirst := Prim.length_wireBits_mod (fun ht => h (ht ▸ List.mem_cons_self)) values.1
    have hrest := ih (fun hmem => h (List.mem_cons_of_mem t hmem)) values.2
    rw [wireBits, List.length_append]
    omega

end Values

/-! ## Addresses -/

theorem Decoder.rewinding_ending {α : Type} (body : Decoder α) (p : Payload) (pos : Nat) :
    (rewinding body p pos).ending = (body p pos).ending := by
  rcases hrun : body p pos with ⟨ending, mid, effects⟩
  cases ending <;> simp only [rewinding, Action.rewinding, hrun]

namespace Prim

/-- The octets and the port behind a tag are there as a whole or fall short. -/
theorem octets_port_run (count width : Nat) (ip : BitVec width → IpAddress) {p : Payload}
    (hp : p.Sound) {pos : Nat} (hpos : pos ≤ p.bits) {body : Decoder SocketAddress}
    (hbody : body = do
      let octets ← readPattern count width
      let port ← readPattern 2 16
      pure (SocketAddress.new (ip octets) port)) :
    (8 * count + 16 ≤ p.bits - pos → ∃ a, body p pos = ⟨.value a, pos + (8 * count + 16), []⟩) ∧
      (p.bits - pos < 8 * count + 16 → (body p pos).Short) := by
  have hoctets := readPattern_run count width hp hpos
  subst hbody
  by_cases hfirst : 8 * count ≤ p.bits - pos
  · rw [if_pos hfirst] at hoctets
    have hbehind : pos + 8 * count ≤ p.bits := by omega
    have hport := readPattern_run 2 16 hp hbehind
    rw [bind_value hoctets]
    refine ⟨fun hleft => ?_, fun hleft => ?_⟩
    · rw [if_pos (by omega)] at hport
      rw [bind_value hport, Nat.add_assoc]
      exact ⟨_, rfl⟩
    · rw [if_neg (by omega)] at hport
      rw [bind_short hport]
      exact ⟨_, _, rfl⟩
  · rw [if_neg hfirst] at hoctets
    refine ⟨fun hleft => absurd hleft (by omega), fun _ => ?_⟩
    rw [bind_short hoctets]
    exact ⟨_, _, rfl⟩

/-- The first byte is the tag. -/
theorem readTag_run (tag : UInt8) (rest : List UInt8) :
    readPattern 1 8 (Payload.ofBytes (tag :: rest)) 0 =
      ⟨.value (BitVec.ofNat 8 tag.toNat), 8, []⟩ := by
  have hstring : (Payload.ofBytes (tag :: rest)).string =
      Bits.ofByte tag ++ Bits.ofBytes rest := Bits.slice_toArray (tag :: rest)
  have hnumber : Bits.ofNumber (8 * 1) (BitVec.ofNat 8 tag.toNat).toNat = Bits.ofByte tag := by
    rw [← Bits.ofByte_ofNat, BitVec.toNat_ofNat, Nat.mod_eq_of_lt tag.toNat_lt, UInt8.ofNat_toNat]
  have htakes := readPattern_takes 1 rfl (BitVec.ofNat 8 tag.toNat)
    (Payload.ofBytes_sound (tag :: rest)) (Nat.zero_le _)
    (hstring.trans (congrArg (· ++ Bits.ofBytes rest) hnumber.symm))
  exact htakes

/-- How many bytes an address takes whose first byte is the tag. -/
def addressBytes (tag : UInt8) : Option Nat :=
  if tag = 4 then some 7 else if tag = 6 then some 19 else none

theorem addressBytes_v4 : addressBytes 4 = some 7 := rfl

theorem addressBytes_v6 : addressBytes 6 = some 19 := rfl

theorem addressBytes_eq_some {tag : UInt8} {count : Nat} (h : addressBytes tag = some count) :
    tag = 4 ∧ count = 7 ∨ tag = 6 ∧ count = 19 := by
  unfold addressBytes at h
  split at h
  · next htag => exact .inl ⟨htag, (Option.some.inj h).symm⟩
  · split at h
    · next htag => exact .inr ⟨htag, (Option.some.inj h).symm⟩
    · cases h

/-- Behind a tag that is known an address is there as a whole or falls short. -/
theorem readAddress_known {tag : UInt8} {count : Nat} (htag : addressBytes tag = some count)
    (rest : List UInt8) :
    (count ≤ rest.length + 1 →
      ∃ a, readAddress (Payload.ofBytes (tag :: rest)) 0 = ⟨.value a, 8 * count, []⟩) ∧
      (rest.length + 1 < count → (readAddress (Payload.ofBytes (tag :: rest)) 0).Short) := by
  have hp := Payload.ofBytes_sound (tag :: rest)
  have hbits : (Payload.ofBytes (tag :: rest)).bits = 8 * (rest.length + 1) := rfl
  have hpos : 8 ≤ (Payload.ofBytes (tag :: rest)).bits := by omega
  have hread := readTag_run tag rest
  obtain ⟨body, hrun, hwhole, hshort⟩ : ∃ body : Decoder SocketAddress,
      readAddress (Payload.ofBytes (tag :: rest)) 0 =
        rewinding (fun p _ => body p 8) (Payload.ofBytes (tag :: rest)) 0 ∧
      (count ≤ rest.length + 1 →
        ∃ a, body (Payload.ofBytes (tag :: rest)) 8 = ⟨.value a, 8 * count, []⟩) ∧
      (rest.length + 1 < count → (body (Payload.ofBytes (tag :: rest)) 8).Short) := by
    rcases addressBytes_eq_some htag with ⟨rfl, rfl⟩ | ⟨rfl, rfl⟩
    · obtain ⟨hvalue, hfalls⟩ := octets_port_run 4 32 (fun octets => .v4 (~~~octets)) hp hpos rfl
      refine ⟨_, ?_, fun hle => hvalue (by omega), fun hlt => hfalls (by omega)⟩
      simp only [readAddress, rewinding, Action.rewinding, bind_value hread]
      rfl
    · obtain ⟨hvalue, hfalls⟩ := octets_port_run 16 128 .v6 hp hpos rfl
      refine ⟨_, ?_, fun hle => hvalue (by omega), fun hlt => hfalls (by omega)⟩
      simp only [readAddress, rewinding, Action.rewinding, bind_value hread]
      rfl
  rw [hrun]
  refine ⟨fun hle => ?_, fun hlt => ?_⟩
  · obtain ⟨a, hbody⟩ := hwhole hle
    exact ⟨a, rewinding_value hbody⟩
  · obtain ⟨requested, available, hbody⟩ := hshort hlt
    exact ⟨requested, available, (rewinding_ending _ _ _).trans hbody⟩

theorem readAddress_unknown {tag : UInt8} (hv4 : tag ≠ 4) (hv6 : tag ≠ 6) (rest : List UInt8) :
    (readAddress (Payload.ofBytes (tag :: rest)) 0).ending =
      .failed (.invalidAddressFamily tag) := by
  have hread := readTag_run tag rest
  have hnumber : (BitVec.ofNat 8 tag.toNat).toNat = tag.toNat := by
    rw [BitVec.toNat_ofNat, Nat.mod_eq_of_lt tag.toNat_lt]
  have hnotV4 : ¬tag.toNat = v4Tag := fun h => hv4 (UInt8.toNat_inj.mp h)
  have hnotV6 : ¬tag.toNat = v6Tag := fun h => hv6 (UInt8.toNat_inj.mp h)
  unfold readAddress
  rw [rewinding_ending, bind_value hread]
  dsimp only
  rw [hnumber, if_neg hnotV4, if_neg hnotV6, UInt8.ofNat_toNat]
  rfl

end Prim

namespace Codec

/-- A packet that the message's reader refuses is refused for the same reason. -/
theorem ofPacket_failed {α : Type} {c : Codec α} {bytes : List UInt8} {e : Failure}
    (hend : (c.read (Payload.ofBytes bytes) 0).ending = .failed e) :
    (c.ofPacket bytes).ending = .failed e := by
  rcases hrun : c.read (Payload.ofBytes bytes) 0 with ⟨ending, count, effects⟩
  rw [hrun] at hend
  cases hend
  unfold ofPacket readWhole
  rw [bind_failed hrun]

/-- Packets that begin with a tag that is known. -/
theorem address_known {tag : UInt8} {count : Nat} (htag : Prim.addressBytes tag = some count)
    (rest : List UInt8) :
    (rest.length + 1 = count → ∃ a, ((plain .address).ofPacket (tag :: rest)).ending = .value a) ∧
      (rest.length + 1 < count → ((plain .address).ofPacket (tag :: rest)).Short) ∧
      (count < rest.length + 1 → ((plain .address).ofPacket (tag :: rest)).ending =
        .failed (.malformed
          s!"{8 * (rest.length + 1) - 8 * count} trailing bits after message")) := by
  obtain ⟨hwhole, hshort⟩ := Prim.readAddress_known htag rest
  have hbytes : bytesOfBits (8 * count) = count := by
    unfold bytesOfBits
    omega
  have hrun : count ≤ rest.length + 1 → ∃ a,
      ((plain .address).ofPacket (tag :: rest)).ending =
        if rest.length + 1 = bytesOfBits (8 * count) then .value a
        else .failed (.malformed
          s!"{8 * (rest.length + 1) - 8 * count} trailing bits after message") := by
    intro hle
    obtain ⟨a, hread⟩ := hwhole hle
    refine ⟨a, ofPacket_run (c := plain .address) hread ?_⟩
    rw [List.length_cons]
    omega
  rw [hbytes] at hrun
  refine ⟨fun heq => ?_, fun hlt => ?_, fun hgt => ?_⟩
  · obtain ⟨a, hend⟩ := hrun (Nat.le_of_eq heq.symm)
    rw [if_pos heq] at hend
    exact ⟨a, hend⟩
  · obtain ⟨requested, available, hend⟩ := hshort hlt
    exact ⟨requested, available, ofPacket_failed (c := plain .address) hend⟩
  · obtain ⟨a, hend⟩ := hrun (Nat.le_of_lt hgt)
    rwa [if_neg (Nat.ne_of_gt hgt)] at hend

theorem address_unknown {tag : UInt8} (hv4 : tag ≠ 4) (hv6 : tag ≠ 6) (rest : List UInt8) :
    ((plain .address).ofPacket (tag :: rest)).ending = .failed (.invalidAddressFamily tag) :=
  ofPacket_failed (c := plain .address) (Prim.readAddress_unknown hv4 hv6 rest)

theorem address_empty : ((plain .address).ofPacket []).ending =
    .failed (.insufficientPayload 8 0) := rfl

theorem address_known_iff {tag : UInt8} {rest : List UInt8} {count : Nat}
    (htag : Prim.addressBytes tag = some count) :
    (∃ a, ((plain .address).ofPacket (tag :: rest)).ending = .value a) ↔
      rest.length + 1 = count := by
  obtain ⟨hwhole, hshort, hlong⟩ := address_known htag rest
  refine ⟨fun ⟨a, hvalue⟩ => ?_, hwhole⟩
  rcases Nat.lt_trichotomy (rest.length + 1) count with hlt | heq | hgt
  · obtain ⟨requested, available, hend⟩ := hshort hlt
    rw [hend] at hvalue
    cases hvalue
  · exact heq
  · rw [hlong hgt] at hvalue
    cases hvalue

theorem address_accepted_iff (bytes : List UInt8) :
    (∃ a, ((plain .address).ofPacket bytes).ending = .value a) ↔
      bytes.length = 7 ∧ bytes.head? = some 4 ∨ bytes.length = 19 ∧ bytes.head? = some 6 := by
  cases bytes with
  | nil =>
    rw [address_empty]
    simp
  | cons tag rest =>
    by_cases hv4 : tag = 4
    · subst hv4
      rw [address_known_iff Prim.addressBytes_v4]
      simp
    by_cases hv6 : tag = 6
    · subst hv6
      rw [address_known_iff Prim.addressBytes_v6]
      simp
    rw [address_unknown hv4 hv6]
    simp [hv4, hv6]

end Codec

/-! ## The result -/

/-- A message of primitive values that was encoded comes back from its packet, an address by its
octets and its port.  A packet that the message takes some bits of is accepted exactly when it has
the bytes for them and no more, and what is left over is reported otherwise.

Where no field is a boolean, in particular for a single value, the packets that are accepted
are those that the encoder makes.  For an address those are seven bytes that begin with a 4 and
nineteen that begin with a 6; every other packet is refused for what is wrong with it. -/
theorem Codec.accepts_whole_encodings :
    (∀ (types : List Prim) (values : Values types), ∃ s effects,
      (sequence types).toStream values = ⟨.value (), s, effects⟩ ∧
        s.string = values.wireBits ∧
        ((sequence types).ofPacket s.written).ending = .value (values.arrived)) ∧
    (∀ (types : List Prim) (bytes : List UInt8) (values : Values types) (count : Nat)
      (effects : List Effect),
      (sequence types).read (Payload.ofBytes bytes) 0 = ⟨.value values, count, effects⟩ →
        ((∃ v, ((sequence types).ofPacket bytes).ending = .value v) ↔
          bytes.length = bytesOfBits count) ∧
        (bytes.length = bytesOfBits count →
          ((sequence types).ofPacket bytes).ending = .value values) ∧
        (bytes.length ≠ bytesOfBits count → bytesOfBits count < bytes.length ∧
          ((sequence types).ofPacket bytes).ending = .failed (.malformed
            s!"{8 * bytes.length - count} trailing bits after message"))) ∧
    (∀ t : Prim, t ≠ .bool → (plain t).AcceptsImage t.arrived) ∧
    (∀ types : List Prim, .bool ∉ types →
      (sequence types).AcceptsImage (Values.arrived types)) ∧
    (∀ bytes : List UInt8, (∃ a, ((plain .address).ofPacket bytes).ending = .value a) ↔
      bytes.length = 7 ∧ bytes.head? = some 4 ∨ bytes.length = 19 ∧ bytes.head? = some 6) ∧
    (∀ (tag : UInt8) (rest : List UInt8), tag ≠ 4 → tag ≠ 6 →
      ((plain .address).ofPacket (tag :: rest)).ending = .failed (.invalidAddressFamily tag)) ∧
    (∀ bytes : List UInt8, bytes = [] ∨ bytes.head? = some 4 ∧ bytes.length < 7 ∨
      bytes.head? = some 6 ∧ bytes.length < 19 → ((plain .address).ofPacket bytes).Short) := by
  refine ⟨?_, ?_, ?_, ?_, ?_, ?_, ?_⟩
  · intro types values
    obtain ⟨s, effects, hrun, -, hstring, hback⟩ := (sequence_spelt types).comes_back values
    exact ⟨s, effects, hrun, hstring, hback⟩
  · intro types bytes values count effects hrun
    have hcount : count ≤ 8 * bytes.length :=
      (sequence_spelt types).canonical.stays (Payload.ofBytes_sound bytes) (Nat.zero_le _) hrun
    have hend := ofPacket_run hrun hcount
    refine ⟨⟨fun ⟨v, hv⟩ => ?_, fun hwhole => ⟨values, by rw [hend, if_pos hwhole]⟩⟩,
      fun hwhole => by rw [hend, if_pos hwhole], fun hnot => ⟨?_, by rw [hend, if_neg hnot]⟩⟩
    · refine Decidable.byContradiction fun hnot => ?_
      rw [hend, if_neg hnot] at hv
      cases hv
    · unfold bytesOfBits at hnot ⊢
      omega
  · exact fun t ht => (plain_spelt t).acceptsImage (Prim.length_wireBits_mod ht)
  · exact fun types htypes =>
      (sequence_spelt types).acceptsImage (Values.length_wireBits_mod htypes)
  · exact address_accepted_iff
  · exact fun tag rest hv4 hv6 => address_unknown hv4 hv6 rest
  · rintro bytes (rfl | ⟨hhead, hlen⟩ | ⟨hhead, hlen⟩)
    · exact ⟨_, _, address_empty⟩
    · obtain ⟨rest, rfl⟩ := List.head?_eq_some_iff.mp hhead
      exact (address_known Prim.addressBytes_v4 rest).2.1 hlen
    · obtain ⟨rest, rfl⟩ := List.head?_eq_some_iff.mp hhead
      exact (address_known Prim.addressBytes_v6 rest).2.1 hlen

/-- A flag and a number in three bytes, and with a byte too many; a number alone; two fields of
whole bytes; an address that is cut short and one of no known family. -/
theorem Codec.accepts_whole_encodings_flagged :
    let types : List Prim := [.bool, .int .u16]
    let values : Values types := (true, 0x1234#16, ())
    let whole : List Prim := [.u24, .int .i8]
    (sequence types).read (Payload.ofBytes [0x89, 0x1A, 0x00]) 0 = ⟨.value values, 17, []⟩ ∧
      ((sequence types).ofPacket [0x89, 0x1A, 0x00]).ending = .value values ∧
      ((sequence types).ofPacket [0x89, 0x1A, 0x00, 0x00]).ending =
        .failed (.malformed "15 trailing bits after message") ∧
      Prim.int .u16 ≠ .bool ∧
      ((plain (.int .u16)).toStream 0x1234#16).state.written = [0x12, 0x34] ∧
      .bool ∉ whole ∧
      ((sequence whole).toStream (0x010203#24, 0xFF#8, ())).state.written = [1, 2, 3, 0xFF] ∧
      ((plain .address).ofPacket [5, 0]).ending = .failed (.invalidAddressFamily 5) ∧
      ((plain .address).ofPacket [4, 0xFF]).Short := by
  intro types values whole
  obtain ⟨-, hread, hsingle, hwhole, -, hunknown, hshort⟩ := accepts_whole_encodings
  have hrun : (sequence types).read (Payload.ofBytes [0x89, 0x1A, 0x00]) 0 =
      ⟨.value values, 17, []⟩ := rfl
  have hlonger : (sequence types).read (Payload.ofBytes [0x89, 0x1A, 0x00, 0x00]) 0 =
      ⟨.value values, 17, []⟩ := rfl
  have hint : Prim.int .u16 ≠ .bool := nofun
  have hnone : .bool ∉ whole := by decide
  refine ⟨hrun, (hread _ _ _ _ _ hrun).2.1 rfl, ((hread _ _ _ _ _ hlonger).2.2 (by decide)).2,
    hint, (((hsingle _ hint).value_iff _ _).mp rfl).1, hnone,
    (((hwhole _ hnone).value_iff _ _).mp rfl).1,
    hunknown 5 [0] (by decide) (by decide), hshort _ (.inr (.inl ⟨rfl, by decide⟩))⟩

/-- An address on one interface comes back from its packet on none. -/
theorem Codec.packet_unscopes_address :
    ((plain .address).ofPacket ((plain .address).toStream .linkLocal).state.written).ending ≠
      .value .linkLocal := by
  obtain ⟨s, effects, hrun, -, -, hback⟩ := (plain_spelt .address).comes_back .linkLocal
  rw [hrun, hback]
  exact fun h => SocketAddress.unscoped_linkLocal_ne (Ending.value.inj h)

end BitCodec
