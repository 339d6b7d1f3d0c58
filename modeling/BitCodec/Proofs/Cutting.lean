import BitCodec.Proofs.Requests

/-!
# Readers on a payload that is cut short

A payload is cut when only its first bits are left.  A reader that has a value on the
whole payload either has the same value on the cut one, when all the bits it took are
still there, or falls short: it fails because it asked for more bits than are left.

That is not true of every reader.  One that only moves to a byte boundary stops at the
end of the cut payload without asking for anything.  Here it is proved of all readers
that ask for the bits behind a boundary before they are content with it, and of what is
put together from them.
-/

namespace BitCodec

/-! ## Cut payloads -/

/-- A sound payload with the first bits of another one. -/
structure Payload.Cut (p q : Payload) : Prop where
  left : p.Sound
  right : q.Sound
  bits_le : p.bits ≤ q.bits
  string_eq : p.string = q.string.take p.bits

namespace Payload.Cut

variable {p q : Payload} {pos count : Nat}

protected theorem refl (h : q.Sound) : q.Cut q :=
  ⟨h, h, Nat.le_refl _, (List.take_of_length_le (Nat.le_of_eq q.length_string)).symm⟩

/-- Fewer bits of the first bytes. -/
theorem of_bytes (hp : p.Sound) (hq : q.Sound) (hbits : p.bits ≤ q.bits)
    (hdata : p.data.toList <+: q.data.toList) : p.Cut q := by
  refine ⟨hp, hq, hbits, ?_⟩
  have hwhole : q.string.take p.bits = Bits.slice q.data 0 p.bits := by
    have hpart : 0 + p.bits ≤ q.bits := by omega
    rw [Payload.slice_eq hpart, List.drop_zero]
  rw [hwhole]
  refine Bits.slice_congr fun i _ hi => Bits.bitAt_eq_of_byte ?_
  have hsize : i / 8 < p.data.toList.length := by
    rw [Array.length_toList]
    unfold Payload.Sound at hp
    omega
  have hbyte := List.prefix_iff_getElem?.mp hdata (i / 8) hsize
  rw [Array.getElem?_toList] at hbyte
  rw [hbyte, ← Array.getElem?_toList, List.getElem?_eq_getElem hsize]

theorem string_append (h : p.Cut q) : ∃ rest, q.string = p.string ++ rest :=
  ⟨q.string.drop p.bits, by rw [h.string_eq, List.take_append_drop]⟩

theorem slice_eq (h : p.Cut q) (hpos : pos + count ≤ p.bits) :
    Bits.slice p.data pos count = Bits.slice q.data pos count := by
  have hbits := h.bits_le
  have htake : (p.string.drop pos).take count = (q.string.drop pos).take count := by
    rw [h.string_eq, List.drop_take, List.take_take, Nat.min_eq_left (by omega)]
  rw [Payload.slice_eq hpos, Payload.slice_eq (by omega), htake]

theorem bitAt_eq (h : p.Cut q) (hpos : pos < p.bits) :
    Bits.bitAt p.data pos = Bits.bitAt q.data pos := by
  have hone : pos + 1 ≤ p.bits := hpos
  exact Bits.bitAt_of_slice (h.slice_eq hone) (Nat.le_refl _) (by omega)

end Payload.Cut

/-- The written bytes of a stream are a packet that ends in less than a byte of padding. -/
theorem Stream.Sound.written_packet {s : Stream} (hs : s.Sound) :
    s.payload.Cut (Payload.ofBytes s.written) ∧
      (Payload.ofBytes s.written).bits < s.cursor.write + 8 := by
  have hsize : (Payload.ofBytes s.written).bits = 8 * bytesOfBits s.cursor.write := by
    rw [← Stream.length_string, ← Bits.length_packed false, ← hs.written_eq]
    rfl
  unfold bytesOfBits at hsize
  refine ⟨Payload.Cut.of_bytes hs.payload (Payload.ofBytes_sound _) ?_ (List.prefix_refl _), ?_⟩
  · rw [Stream.payload_bits, hsize]
    omega
  · omega

/-- The run failed because more bits were asked for than are left. -/
def Trace.Short {σ α : Type} (t : Trace σ α) : Prop :=
  ∃ requested available, t.ending = .failed (.insufficientPayload requested available)

namespace Decoder

variable {α β : Type}

/-- Where the reader has a value on the whole payload, it has the same value on a cut one
that still holds the bits it took, and falls short on one that does not. -/
def CutSafe (body : Decoder α) : Prop :=
  ∀ ⦃p q : Payload⦄ ⦃pos pos' : Nat⦄ ⦃a : α⦄, p.Cut q → pos ≤ p.bits →
    body q pos = ⟨.value a, pos', []⟩ →
      pos ≤ pos' ∧ (pos' ≤ p.bits → body p pos = ⟨.value a, pos', []⟩) ∧
        (p.bits < pos' → (body p pos).Short)

namespace CutSafe

variable {body : Decoder α} {next : α → Decoder β}

/-- On the whole payload itself a value shows that the position went forward and stayed
inside. -/
theorem forward (h : CutSafe body) {q : Payload} {pos pos' : Nat} {a : α} (hq : q.Sound)
    (hpos : pos ≤ q.bits) (hrun : body q pos = ⟨.value a, pos', []⟩) :
    pos ≤ pos' ∧ pos' ≤ q.bits := by
  obtain ⟨hle, -, hshort⟩ := h (Payload.Cut.refl hq) hpos hrun
  refine ⟨hle, Nat.le_of_not_lt fun hlt => ?_⟩
  obtain ⟨requested, available, hend⟩ := hshort hlt
  rw [hrun] at hend
  cases hend

/-! ## Putting readers together -/

/-- A reader that ends where it stands, the same way for every payload. -/
theorem of_still {ending : Ending α} {effects : List Effect}
    (hrun : ∀ p pos, body p pos = ⟨ending, pos, effects⟩) : CutSafe body := by
  intro p q pos pos' a _ hpos hvalue
  rw [hrun] at hvalue
  cases hvalue
  exact ⟨Nat.le_refl _, fun _ => hrun p pos, fun hlt => absurd hpos (Nat.not_le_of_lt hlt)⟩

protected theorem pure (a : α) : CutSafe (pure a : Decoder α) :=
  of_still fun _ _ => rfl

protected theorem fail (e : Failure) : CutSafe (fail e : Decoder α) :=
  of_still fun _ _ => rfl

protected theorem emit (effect : Effect) : CutSafe (emit effect) :=
  of_still fun _ _ => rfl

/-- Two readers that have a value together both have one, without effects. -/
theorem bind_value_inv {q : Payload} {pos pos' : Nat} {b : β}
    (h : (body >>= next) q pos = ⟨.value b, pos', []⟩) :
    ∃ a mid, body q pos = ⟨.value a, mid, []⟩ ∧ next a q mid = ⟨.value b, pos', []⟩ := by
  rcases hrun : body q pos with ⟨ending, mid, effects⟩
  cases ending with
  | value a =>
    rw [bind_trace hrun, Trace.mk.injEq] at h
    obtain ⟨hending, hstate, heffects⟩ := h
    obtain ⟨rfl, hrest⟩ := List.append_eq_nil_iff.mp heffects
    refine ⟨a, mid, rfl, ?_⟩
    rcases hnext : next a q mid with ⟨ending, last, effects⟩
    rw [hnext] at hending hstate hrest
    simp only at hending hstate hrest
    rw [hending, hstate, hrest]
  | failed e =>
    rw [bind_failed hrun] at h
    cases h
  | broken c =>
    rw [bind_broken hrun] at h
    cases h

theorem map_value_inv {q : Payload} {pos pos' : Nat} {f : α → β} {b : β}
    (h : (body >>= fun a => pure (f a)) q pos = ⟨.value b, pos', []⟩) :
    ∃ a, body q pos = ⟨.value a, pos', []⟩ ∧ f a = b := by
  obtain ⟨a, mid, hrun, hpure⟩ := bind_value_inv h
  rw [pure_run, Trace.mk.injEq, Ending.value.injEq] at hpure
  obtain ⟨hvalue, rfl, -⟩ := hpure
  exact ⟨a, hrun, hvalue⟩

/-- When the first reader falls short, so does the rest. -/
theorem bind_falls_short {p : Payload} {pos : Nat} (h : (body p pos).Short) :
    ((body >>= next) p pos).Short := by
  obtain ⟨requested, available, hend⟩ := h
  rcases hrun : body p pos with ⟨ending, mid, effects⟩
  rw [hrun] at hend
  cases hend
  rw [bind_failed hrun]
  exact ⟨requested, available, rfl⟩

/-- What is made of the value does not matter when there is none. -/
theorem short_of_map {p : Payload} {pos : Nat} {f : α → β}
    (h : ((body >>= fun a => pure (f a)) p pos).Short) : (body p pos).Short := by
  obtain ⟨requested, available, hend⟩ := h
  rcases hrun : body p pos with ⟨ending, mid, effects⟩
  cases ending with
  | value a =>
    rw [bind_trace hrun] at hend
    cases hend
  | failed e =>
    rw [bind_failed hrun] at hend
    cases hend
    exact ⟨requested, available, rfl⟩
  | broken b =>
    rw [bind_broken hrun] at hend
    cases hend

protected theorem bind (h : CutSafe body) (hnext : ∀ a, CutSafe (next a)) :
    CutSafe (body >>= next) := by
  intro p q pos pos' b hpq hpos hvalue
  have hwhole : pos ≤ q.bits := Nat.le_trans hpos hpq.bits_le
  obtain ⟨a, mid, hfirst, hsecond⟩ := bind_value_inv hvalue
  obtain ⟨hmid, hend⟩ := h.forward hpq.right hwhole hfirst
  obtain ⟨hlast, -⟩ := (hnext a).forward hpq.right hend hsecond
  obtain ⟨-, hsame, hshort⟩ := h hpq hpos hfirst
  refine ⟨Nat.le_trans hmid hlast, fun hfit => ?_, fun hcut => ?_⟩
  · have hmidfit : mid ≤ p.bits := Nat.le_trans hlast hfit
    rw [bind_value (hsame hmidfit)]
    exact ((hnext a) hpq hmidfit hsecond).2.1 hfit
  -- The cut lies in what the first reader takes, or in what the second one does.
  · by_cases hmidfit : mid ≤ p.bits
    · rw [bind_value (hsame hmidfit)]
      exact ((hnext a) hpq hmidfit hsecond).2.2 hcut
    · exact bind_falls_short (hshort (Nat.lt_of_not_le hmidfit))

protected theorem map (h : CutSafe body) (f : α → β) :
    CutSafe (body >>= fun a => pure (f a)) :=
  h.bind fun a => CutSafe.pure (f a)

protected theorem ite {condition : Prop} [Decidable condition] {other : Decoder α}
    (h : CutSafe body) (hother : CutSafe other) :
    CutSafe (if condition then body else other) := by
  split
  · exact h
  · exact hother

protected theorem rewinding (h : CutSafe body) : CutSafe (rewinding body) := by
  intro p q pos pos' a hpq hpos hvalue
  have hrun : body q pos = ⟨.value a, pos', []⟩ := by
    rcases hbody : body q pos with ⟨ending, mid, effects⟩
    cases ending with
    | failed e =>
      rw [rewinding_failed hbody] at hvalue
      cases hvalue
    | value a => simpa only [rewinding, Action.rewinding, hbody] using hvalue
    | broken b => simpa only [rewinding, Action.rewinding, hbody] using hvalue
  obtain ⟨hle, hsame, hshort⟩ := h hpq hpos hrun
  refine ⟨hle, fun hfit => rewinding_value (hsame hfit), fun hcut => ?_⟩
  obtain ⟨requested, available, hend⟩ := hshort hcut
  rcases hbody : body p pos with ⟨ending, mid, effects⟩
  rw [hbody] at hend
  cases hend
  rw [rewinding_failed hbody]
  exact ⟨requested, available, rfl⟩

/-! ## The basic operations -/

/-- A reader that takes so many bits or falls short. -/
theorem of_taking {bits : Nat} {value : Payload → Nat → α}
    (hrun : ∀ {p pos}, p.Sound → pos ≤ p.bits →
      body p pos = if bits ≤ p.bits - pos then ⟨.value (value p pos), pos + bits, []⟩
        else short p pos bits)
    (hvalue : ∀ {p q pos}, p.Cut q → pos + bits ≤ p.bits → value p pos = value q pos) :
    CutSafe body := by
  intro p q pos pos' a hpq hpos hwhole
  have hbits := hpq.bits_le
  rw [hrun hpq.right (Nat.le_trans hpos hbits)] at hwhole
  split at hwhole
  · cases hwhole
    refine ⟨Nat.le_add_right _ _, fun hfit => ?_, fun hcut => ?_⟩
    · rw [hrun hpq.left hpos, if_pos (by omega), hvalue hpq hfit]
    · rw [hrun hpq.left hpos, if_neg (by omega)]
      exact ⟨_, _, rfl⟩
  · cases hwhole

protected theorem readBits {destination : List UInt8} {bits : Nat} (right : Bool)
    (hroom : bytesOfBits bits ≤ destination.length) :
    CutSafe (readBits destination bits right) := by
  refine of_taking (fun hp hpos => readBits_run right hp hpos hroom) ?_
  intro p q pos hpq hpos
  rw [hpq.slice_eq hpos]

protected theorem readBit : CutSafe readBit :=
  of_taking (fun hp hpos => readBit_run hp hpos) (fun hpq hpos => hpq.bitAt_eq (by omega))

/-- A block that must lie behind the next byte boundary: both the run of the aligned read
and that of asking for the bytes first come down to this. -/
theorem of_aligned {count : Nat} (hcount : 0 < count) {body : Decoder (List UInt8)}
    (hrun : ∀ p pos, p.Sound →
      (8 * count ≤ p.bits - boundary p pos → body p pos =
        ⟨.value (Bits.packed true (Bits.slice p.data (alignUp pos) (8 * count))),
          alignUp pos + 8 * count, []⟩) ∧
      (¬8 * count ≤ p.bits - boundary p pos → (body p pos).Short)) : CutSafe body := by
  intro p q pos pos' a hpq hpos hwhole
  have hbits := hpq.bits_le
  have hup := (Stream.alignUp_le pos).1
  obtain ⟨hvalue, hshort⟩ := hrun q pos hpq.right
  by_cases hroom : 8 * count ≤ q.bits - boundary q pos
  · rw [hvalue hroom] at hwhole
    cases hwhole
    obtain ⟨hcutvalue, hcutshort⟩ := hrun p pos hpq.left
    have hcutroom : 8 * count ≤ p.bits - boundary p pos ↔ alignUp pos + 8 * count ≤ p.bits := by
      unfold boundary
      omega
    refine ⟨by omega, fun hfit => ?_, fun hcut => ?_⟩
    · rw [hcutvalue (hcutroom.mpr hfit), hpq.slice_eq hfit]
    · exact hcutshort fun hfit => Nat.not_lt_of_le (hcutroom.mp hfit) hcut
  · obtain ⟨requested, available, hend⟩ := hshort hroom
    rw [hwhole] at hend
    cases hend

protected theorem readAlignedBytes (count : Nat) : CutSafe (readAlignedBytes count) := by
  by_cases hzero : count = 0
  · subst hzero
    exact CutSafe.pure []
  have hcount : 0 < count := Nat.pos_of_ne_zero hzero
  refine of_aligned hcount fun p pos hp => ?_
  rw [readAlignedBytes_run hcount hp]
  refine ⟨fun hroom => if_pos hroom, fun hroom => ?_⟩
  rw [if_neg hroom]
  exact ⟨_, _, rfl⟩

/-- Moving to the boundary alone is not safe; together with asking for the bytes it is. -/
theorem alignedBlock {count : Nat} (hcount : 0 < count) :
    CutSafe (align >>= fun _ => need (8 * count) >>= fun _ => readAlignedBytes count) := by
  refine of_aligned hcount fun p pos hp => ?_
  rw [alignedBlock_run hcount hp]
  refine ⟨fun hroom => if_pos hroom, fun hroom => ?_⟩
  rw [if_neg hroom]
  exact ⟨_, _, rfl⟩

end CutSafe

end Decoder

/-! ## Values -/

section Values

open Decoder

namespace Prim

theorem readPattern_cutSafe (count width : Nat) : CutSafe (readPattern count width) :=
  (CutSafe.readBits true (by simp [bytesOfBits]; omega)).map _

theorem readAddress_cutSafe : CutSafe readAddress := by
  refine CutSafe.rewinding ((readPattern_cutSafe 1 8).bind fun tag => ?_)
  refine CutSafe.ite ?_ (CutSafe.ite ?_ ?_)
  · exact (readPattern_cutSafe 4 32).bind fun _ => (readPattern_cutSafe 2 16).map _
  · exact (readPattern_cutSafe 16 128).bind fun _ => (readPattern_cutSafe 2 16).map _
  · exact (CutSafe.fail _).bind fun _ => (readPattern_cutSafe 2 16).map _

theorem read_cutSafe (t : Prim) : CutSafe t.read := by
  cases t with
  | int t => exact readPattern_cutSafe t.bytes t.bits
  | bool => exact CutSafe.readBit
  | float t => exact readPattern_cutSafe t.bytes t.bits
  | u24 => exact readPattern_cutSafe 3 24
  | address => exact readAddress_cutSafe

end Prim

theorem IntType.readCasted_cutSafe (wire t : IntType) : CutSafe (readCasted wire t) := by
  refine (Prim.read_cutSafe (.int wire)).bind fun value => ?_
  cases t.ofInt? (wire.toInt value) with
  | some widened => exact CutSafe.pure _
  | none => exact CutSafe.fail _

namespace Mini

/-- The cut may fall on a mark or into a byte; a code that lost its closing zero bit is
not taken for a shorter one. -/
theorem readMarked_cutSafe (width : Nat) : CutSafe (readMarked width) := by
  induction width with
  | zero => exact CutSafe.pure _
  | succ width ih =>
    refine CutSafe.readBit.bind fun more => CutSafe.ite ?_ (CutSafe.pure _)
    exact (CutSafe.readBits true (by decide)).bind fun _ => ih.map _

theorem readInt_cutSafe (t : IntType) : CutSafe (readInt t) :=
  (readMarked_cutSafe t.bytes).map _

theorem readSigned_cutSafe (t : IntType) : CutSafe (readSigned t) :=
  (readMarked_cutSafe t.bytes).map _

theorem readAddress_cutSafe : CutSafe readAddress := by
  refine CutSafe.rewinding ((readInt_cutSafe .u8).bind fun tag => ?_)
  refine CutSafe.ite ?_ (CutSafe.ite ?_ ?_)
  · exact (readInt_cutSafe .u32).bind fun _ => (readInt_cutSafe .u16).map _
  · exact (Prim.readPattern_cutSafe 16 128).bind fun _ => (readInt_cutSafe .u16).map _
  · exact (CutSafe.fail _).bind fun _ => (readInt_cutSafe .u16).map _

theorem readU24_cutSafe : CutSafe readU24 := by
  refine CutSafe.rewinding ((readInt_cutSafe .u32).bind fun value => ?_)
  cases U24.ofNat? value.toNat with
  | some number => exact CutSafe.pure _
  | none => exact CutSafe.fail _

theorem read_cutSafe (t : Prim) : CutSafe (read t) := by
  cases t with
  | int t => exact readInt_cutSafe t
  | bool => exact CutSafe.readBit
  | float t => exact (readInt_cutSafe _).map _
  | u24 => exact readU24_cutSafe
  | address => exact readAddress_cutSafe

end Mini

/-! ## Blocks, ranges and changed values -/

theorem Block.read_cutSafe (max : Nat) : CutSafe (Block.read max) := by
  refine (Mini.readInt_cutSafe .u32).bind fun prefixed => ?_
  refine CutSafe.ite (CutSafe.fail _) ?_
  by_cases hempty : prefixed.toNat = 0
  · rw [if_pos hempty]
    exact CutSafe.pure _
  · rw [if_neg hempty]
    exact CutSafe.alignedBlock (Nat.pos_of_ne_zero hempty)

namespace IntRange

variable {t : IntType}

theorem readOffset_cutSafe (r : IntRange t) : CutSafe r.readOffset := by
  have hroom : bytesOfBits r.bits ≤ (List.replicate t.bytes (0 : UInt8)).length := by
    rw [List.length_replicate]
    exact r.bytesOfBits_le
  refine (CutSafe.readBits true hroom).bind fun bytes => ?_
  exact CutSafe.ite (CutSafe.pure _) ((CutSafe.emit _).bind fun _ => CutSafe.fail _)

theorem read_cutSafe (r : IntRange t) (escape : Bool) : CutSafe (r.read escape) := by
  refine CutSafe.ite (CutSafe.readBit.bind fun _ => ?_) r.readOffset_cutSafe
  exact CutSafe.ite (Mini.readInt_cutSafe t) r.readOffset_cutSafe

end IntRange

theorem Ranged.read_cutSafe (t : IntType) (min max : t.Value) (escape : Bool) :
    CutSafe (Ranged.read t min max escape) := by
  unfold Ranged.read
  cases IntRange.between t min max with
  | ok r => exact r.read_cutSafe escape
  | error e => exact CutSafe.fail e

theorem Form.read_cutSafe (form : Form) (t : Prim) : CutSafe (form.read t) := by
  cases form with
  | plain => exact t.read_cutSafe
  | mini => exact Mini.read_cutSafe t

theorem Changed.received_cutSafe (form : Form) (t : Prim) (last : t.Value) :
    CutSafe (Changed.received form t last) := by
  have hread := form.read_cutSafe t
  refine CutSafe.ite (hread.map _) (CutSafe.readBit.bind fun _ => ?_)
  exact CutSafe.ite (hread.map _) (CutSafe.pure _)

end Values

end BitCodec
