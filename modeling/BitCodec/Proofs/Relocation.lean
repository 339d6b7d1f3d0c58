import BitCodec.Proofs.Cutting
import BitCodec.Proofs.Moving
import BitCodec.Proofs.ReadProgram

/-!
# Messages read alike wherever their bits stand

A reader takes its bits from the position on and looks at nothing else, so the same bits at
another position of another source give the same value.  Three things may show where it reads.
What moves to a byte boundary depends on the place in the byte, what goes by the cap of the
payload on the cap, and moving to a boundary alone on there being bits behind the message.

`Payload.Moved` says that the same bits stand at two places, and which of the three the places
have in common.  `Relocates` says of a reader that it does the same at both, and is kept by the
ways of putting readers together.
-/

namespace BitCodec

open Decoder

/-! ## The same bits at two places -/

/-- The same bits at two places of two sound payloads.  What the places may have in common
beside them: where in a byte they stand (`phase`), a second cap that is no smaller (`cap`), and
that nothing follows at the second one where the first one ends within a byte (`last`). -/
structure Payload.Moved (phase cap last : Prop) (p : Payload) (pos : Nat) (q : Payload)
    (place count : Nat) : Prop where
  left : p.Sound
  right : q.Sound
  left_room : pos + count ≤ p.bits
  right_room : place + count ≤ q.bits
  slice_eq : Bits.slice p.data pos count = Bits.slice q.data place count
  phase_eq : phase → pos % 8 = place % 8
  limit_le : cap → p.limit ≤ q.limit
  last_eq : last → p.bits = pos + count → p.bits % 8 ≠ 0 → q.bits = place + count

namespace Payload.Moved

variable {phase cap last : Prop} {p q : Payload} {pos place count skipped taken : Nat}

theorem part (h : p.Moved phase cap last pos q place count) (hfits : skipped + taken ≤ count) :
    Bits.slice p.data (pos + skipped) taken = Bits.slice q.data (place + skipped) taken := by
  have hleft := Bits.slice_part p.data (Nat.le_add_right pos skipped)
    (show pos + skipped + taken ≤ pos + count by omega)
  have hright := Bits.slice_part q.data (Nat.le_add_right place skipped)
    (show place + skipped + taken ≤ place + count by omega)
  rw [hleft, hright, h.slice_eq, Nat.add_sub_cancel_left, Nat.add_sub_cancel_left]

theorem bitAt_eq (h : p.Moved phase cap last pos q place count) (hsome : 0 < count) :
    Bits.bitAt p.data pos = Bits.bitAt q.data place := by
  have hone : 0 + 1 ≤ count := by omega
  have hbit := h.part hone
  rw [Bits.slice_one, Bits.slice_one] at hbit
  exact List.singleton_inj.mp hbit

/-- What is left of the bits behind those that were taken. -/
theorem behind (h : p.Moved phase cap last pos q place count) (htaken : taken ≤ count) :
    p.Moved phase cap last (pos + taken) q (place + taken) (count - taken) := by
  have hleft := h.left_room
  have hright := h.right_room
  refine ⟨h.left, h.right, by omega, by omega, h.part (by omega), fun hphase => ?_, h.limit_le,
    fun hlast hend hopen => ?_⟩
  · have := h.phase_eq hphase
    omega
  · rw [h.last_eq hlast (by omega) hopen]
    omega

theorem alignUp_eq (h : p.Moved phase cap last pos q place count) (hphase : phase) :
    alignUp place - place = alignUp pos - pos := by
  have := h.phase_eq hphase
  unfold alignUp
  omega

end Payload.Moved

/-! ## Readers -/

namespace Decoder

variable {α β : Type}

/-- A value is read going forward and within the payload, and the same bits elsewhere give the
same value for as many bits. -/
structure Relocates (phase cap last : Prop) (body : Decoder α) : Prop where
  forward : ∀ {p : Payload} {pos stop : Nat} {a : α}, p.Sound → pos ≤ p.bits →
    body p pos = ⟨.value a, stop, []⟩ → pos ≤ stop ∧ stop ≤ p.bits
  moves : ∀ {p q : Payload} {pos place count taken : Nat} {a : α},
    p.Moved phase cap last pos q place count → taken ≤ count →
      body p pos = ⟨.value a, pos + taken, []⟩ → body q place = ⟨.value a, place + taken, []⟩

namespace Relocates

variable {phase cap last : Prop} {body : Decoder α} {next : α → Decoder β}

/-! ### Putting readers together -/

theorem of_still {ending : Ending α} {effects : List Effect}
    (hrun : ∀ p pos, body p pos = ⟨ending, pos, effects⟩) : Relocates phase cap last body := by
  refine ⟨?_, ?_⟩
  · intro p pos stop a _ hpos hvalue
    rw [hrun] at hvalue
    cases hvalue
    exact ⟨Nat.le_refl _, hpos⟩
  · intro p q pos place count taken a _ _ hvalue
    rw [hrun, Trace.mk.injEq] at hvalue
    obtain ⟨rfl, hstop, rfl⟩ := hvalue
    have hnone : taken = 0 := by omega
    rw [hrun, hnone, Nat.add_zero]

protected theorem pure (a : α) : Relocates phase cap last (pure a : Decoder α) :=
  of_still fun _ _ => rfl

protected theorem fail (e : Failure) : Relocates phase cap last (fail e : Decoder α) :=
  of_still fun _ _ => rfl

protected theorem emit (effect : Effect) : Relocates phase cap last (emit effect) :=
  of_still fun _ _ => rfl

protected theorem demand (kept : Bool) (b : Breach) :
    Relocates phase cap last (demand kept b) := by
  cases kept <;> exact of_still fun _ _ => rfl

protected theorem inBounds (a : Option α) : Relocates phase cap last (inBounds a) := by
  cases a <;> exact of_still fun _ _ => rfl

protected theorem bind (h : Relocates phase cap last body)
    (hnext : ∀ a, Relocates phase cap last (next a)) :
    Relocates phase cap last (body >>= next) := by
  refine ⟨?_, ?_⟩
  · intro p pos stop b hp hpos hvalue
    obtain ⟨a, mid, hfirst, hsecond⟩ := CutSafe.bind_value_inv hvalue
    obtain ⟨hmid, hfits⟩ := h.forward hp hpos hfirst
    obtain ⟨hstop, hend⟩ := (hnext a).forward hp hfits hsecond
    exact ⟨Nat.le_trans hmid hstop, hend⟩
  · intro p q pos place count taken b hmoved htaken hvalue
    obtain ⟨a, mid, hfirst, hsecond⟩ := CutSafe.bind_value_inv hvalue
    have hpos : pos ≤ p.bits := by
      have := hmoved.left_room
      omega
    obtain ⟨hmid, hfits⟩ := h.forward hmoved.left hpos hfirst
    obtain ⟨hstop, -⟩ := (hnext a).forward hmoved.left hfits hsecond
    -- The first reader took some of the bits and the second one the rest.
    obtain ⟨first, rfl⟩ := Nat.exists_eq_add_of_le hmid
    obtain ⟨second, hsplit⟩ := Nat.exists_eq_add_of_le hstop
    have hsum : taken = first + second := by omega
    rw [hsplit] at hsecond
    have hrest := (hnext a).moves (hmoved.behind (by omega : first ≤ count)) (by omega) hsecond
    rw [bind_value (h.moves hmoved (by omega) hfirst), hrest, hsum, Nat.add_assoc]

protected theorem map (h : Relocates phase cap last body) (f : α → β) :
    Relocates phase cap last (body >>= fun a => pure (f a)) :=
  h.bind fun a => Relocates.pure (f a)

protected theorem ite {condition : Prop} [Decidable condition] {other : Decoder α}
    (h : Relocates phase cap last body) (hother : Relocates phase cap last other) :
    Relocates phase cap last (if condition then body else other) := by
  split
  · exact h
  · exact hother

theorem rewinding_value_inv {p : Payload} {pos stop : Nat} {a : α}
    (h : rewinding body p pos = ⟨.value a, stop, []⟩) : body p pos = ⟨.value a, stop, []⟩ := by
  rcases hbody : body p pos with ⟨ending, mid, effects⟩
  cases ending with
  | failed e =>
    rw [rewinding_failed hbody] at h
    cases h
  | value a => simpa only [rewinding, Action.rewinding, hbody] using h
  | broken b => simpa only [rewinding, Action.rewinding, hbody] using h

protected theorem rewinding (h : Relocates phase cap last body) :
    Relocates phase cap last (rewinding body) :=
  ⟨fun hp hpos hvalue => h.forward hp hpos (rewinding_value_inv hvalue),
    fun hmoved htaken hvalue =>
      rewinding_value (h.moves hmoved htaken (rewinding_value_inv hvalue))⟩

/-! ### The basic operations -/

theorem of_taking {bits : Nat} {value : Payload → Nat → α}
    (hrun : ∀ {p pos}, p.Sound → pos ≤ p.bits →
      body p pos = if bits ≤ p.bits - pos then ⟨.value (value p pos), pos + bits, []⟩
        else short p pos bits)
    (hvalue : ∀ {p q pos place count}, p.Moved phase cap last pos q place count → bits ≤ count →
      value p pos = value q place) : Relocates phase cap last body := by
  refine ⟨?_, ?_⟩
  · intro p pos stop a hp hpos hread
    rw [hrun hp hpos] at hread
    split at hread
    · cases hread
      exact ⟨Nat.le_add_right _ _, by omega⟩
    · cases hread
  · intro p q pos place count taken a hmoved htaken hread
    have hleft := hmoved.left_room
    have hright := hmoved.right_room
    rw [hrun hmoved.left (by omega)] at hread
    split at hread
    · rw [Trace.mk.injEq, Ending.value.injEq] at hread
      obtain ⟨rfl, hstop, -⟩ := hread
      have hbits : taken = bits := by omega
      subst hbits
      rw [hrun hmoved.right (by omega), if_pos (by omega), hvalue hmoved htaken]
    · cases hread

protected theorem skip (bits : Nat) : Relocates phase cap last (skip bits) :=
  of_taking (fun _ hpos => skip_run bits hpos) fun _ _ => rfl

/-- A destination that is too short gives no value at all. -/
protected theorem readBits (destination : List UInt8) (bits : Nat) (right : Bool) :
    Relocates phase cap last (readBits destination bits right) := by
  by_cases hroom : bytesOfBits bits ≤ destination.length
  · refine of_taking (fun hp hpos => readBits_run right hp hpos hroom) fun hmoved hbits => ?_
    have hslice := hmoved.part (show 0 + bits ≤ _ by omega)
    simp only [Nat.add_zero] at hslice
    rw [hslice]
  · have hbroken : ∀ p pos, readBits destination bits right p pos =
        ⟨.broken (Breach.forCount bits (.destinationTooShort destination.length bits)), pos,
          []⟩ := by
      intro p pos
      unfold readBits
      refine bind_broken ?_
      rw [decide_eq_false hroom]
      rfl
    exact of_still hbroken

protected theorem readBit : Relocates phase cap last readBit :=
  of_taking (fun hp hpos => readBit_run hp hpos) fun hmoved hbits => hmoved.bitAt_eq hbits

/-! ### Byte boundaries -/

/-- A block behind the next byte boundary, at places that stand alike in their bytes. -/
theorem of_aligned (hphase : phase) {bytes : Nat} (hbytes : 0 < bytes)
    {body : Decoder (List UInt8)}
    (hrun : ∀ p pos, p.Sound →
      (8 * bytes ≤ p.bits - boundary p pos → body p pos =
        ⟨.value (Bits.packed true (Bits.slice p.data (alignUp pos) (8 * bytes))),
          alignUp pos + 8 * bytes, []⟩) ∧
      (¬8 * bytes ≤ p.bits - boundary p pos → (body p pos).Short)) :
    Relocates phase cap last body := by
  have hvalue : ∀ {p pos stop block}, p.Sound → body p pos = ⟨.value block, stop, []⟩ →
      stop = alignUp pos + 8 * bytes ∧ stop ≤ p.bits ∧
        block = Bits.packed true (Bits.slice p.data (alignUp pos) (8 * bytes)) := by
    intro p pos stop block hp hread
    obtain ⟨hfull, hshort⟩ := hrun p pos hp
    by_cases hroom : 8 * bytes ≤ p.bits - boundary p pos
    · rw [hfull hroom] at hread
      cases hread
      have := boundary_aligned hbytes hroom
      exact ⟨rfl, by omega, rfl⟩
    · obtain ⟨requested, available, hend⟩ := hshort hroom
      rw [hread] at hend
      cases hend
  refine ⟨?_, ?_⟩
  · intro p pos stop block hp _ hread
    obtain ⟨rfl, hfits, -⟩ := hvalue hp hread
    have := (Stream.alignUp_le pos).1
    exact ⟨by omega, hfits⟩
  · intro p q pos place count taken block hmoved htaken hread
    obtain ⟨hstop, -, rfl⟩ := hvalue hmoved.left hread
    have hgap := hmoved.alignUp_eq hphase
    have hup := (Stream.alignUp_le pos).1
    have hup' := (Stream.alignUp_le place).1
    have hright := hmoved.right_room
    have hroom : 8 * bytes ≤ q.bits - boundary q place := by
      unfold boundary
      omega
    have hslice := hmoved.part (show alignUp pos - pos + 8 * bytes ≤ count by omega)
    have hstart : pos + (alignUp pos - pos) = alignUp pos := by omega
    have hstart' : place + (alignUp pos - pos) = alignUp place := by omega
    have hstop' : alignUp place + 8 * bytes = place + taken := by omega
    rw [hstart, hstart'] at hslice
    rw [(hrun q place hmoved.right).1 hroom, hslice, hstop']

protected theorem readAlignedBytes (hphase : phase) (bytes : Nat) :
    Relocates phase cap last (readAlignedBytes bytes) := by
  by_cases hzero : bytes = 0
  · subst hzero
    exact Relocates.pure []
  have hbytes : 0 < bytes := Nat.pos_of_ne_zero hzero
  refine of_aligned hphase hbytes fun p pos hp => ?_
  rw [readAlignedBytes_run hbytes hp]
  refine ⟨fun hroom => if_pos hroom, fun hroom => ?_⟩
  rw [if_neg hroom]
  exact ⟨_, _, rfl⟩

protected theorem alignedBlock (hphase : phase) {bytes : Nat} (hbytes : 0 < bytes) :
    Relocates phase cap last
      (align >>= fun _ => need (8 * bytes) >>= fun _ => readAlignedBytes bytes) := by
  refine of_aligned hphase hbytes fun p pos hp => ?_
  rw [alignedBlock_run hbytes hp]
  refine ⟨fun hroom => if_pos hroom, fun hroom => ?_⟩
  rw [if_neg hroom]
  exact ⟨_, _, rfl⟩

/-- Off a byte boundary there is no value. -/
protected theorem readAligned (hphase : phase) (bytes : Nat) :
    Relocates phase cap last (readAligned bytes) := by
  have hbroken : ∀ {p pos}, ¬pos % 8 = 0 →
      readAligned bytes p pos = ⟨.broken .unalignedRead, pos, []⟩ := fun haligned =>
    bind_broken (readWhole_unaligned bytes haligned)
  refine ⟨?_, ?_⟩
  · intro p pos stop a hp hpos hread
    by_cases haligned : pos % 8 = 0
    · rw [readAligned_run bytes hp hpos haligned] at hread
      split at hread
      · cases hread
        exact ⟨Nat.le_add_right _ _, by omega⟩
      · cases hread
    · rw [hbroken haligned] at hread
      cases hread
  · intro p q pos place count taken a hmoved htaken hread
    have hleft := hmoved.left_room
    have hright := hmoved.right_room
    have hsame := hmoved.phase_eq hphase
    by_cases haligned : pos % 8 = 0
    · rw [readAligned_run bytes hmoved.left (by omega) haligned] at hread
      split at hread
      · rw [Trace.mk.injEq, Ending.value.injEq] at hread
        obtain ⟨rfl, hstop, -⟩ := hread
        have hbits : taken = 8 * bytes := by omega
        have hslice := hmoved.part (show 0 + 8 * bytes ≤ count by omega)
        simp only [Nat.add_zero] at hslice
        rw [readAligned_run bytes hmoved.right (by omega) (by omega), if_pos (by omega), hslice,
          hbits]
      · cases hread
    · rw [hbroken haligned] at hread
      cases hread

/-- Moving to a boundary alone asks for nothing, so it stops at the end of a payload that ends
before the boundary; nothing may follow at the other place then. -/
protected theorem align (hphase : phase) (hlast : last) : Relocates phase cap last align := by
  refine ⟨?_, ?_⟩
  · intro p pos stop a _ hpos hread
    rw [align_run] at hread
    cases hread
    have := (Stream.alignUp_le pos).1
    unfold boundary
    exact ⟨by omega, Nat.min_le_right _ _⟩
  · intro p q pos place count taken a hmoved htaken hread
    rw [align_run, Trace.mk.injEq] at hread
    obtain ⟨-, hstop, -⟩ := hread
    have hgap := hmoved.alignUp_eq hphase
    have hup := (Stream.alignUp_le pos).1
    have hup' := (Stream.alignUp_le place).1
    have hleft := hmoved.left_room
    have hright := hmoved.right_room
    have hend := hmoved.last_eq hlast
    have hboundary : alignUp pos = (pos + 7) / 8 * 8 := rfl
    have hstop' : boundary q place = place + taken := by
      unfold boundary at hstop ⊢
      omega
    rw [align_run, hstop']

end Relocates

end Decoder

/-! ## Values -/

section Values

variable {phase cap last : Prop}

namespace Prim

theorem readPattern_relocates (count width : Nat) :
    Relocates phase cap last (readPattern count width) :=
  (Relocates.readBits _ _ true).map _

theorem readAddress_relocates : Relocates phase cap last readAddress := by
  refine Relocates.rewinding ((readPattern_relocates 1 8).bind fun tag => ?_)
  refine Relocates.ite ?_ (Relocates.ite ?_ ?_)
  · exact (readPattern_relocates 4 32).bind fun _ => (readPattern_relocates 2 16).map _
  · exact (readPattern_relocates 16 128).bind fun _ => (readPattern_relocates 2 16).map _
  · exact (Relocates.fail _).bind fun _ => (readPattern_relocates 2 16).map _

theorem read_relocates (t : Prim) : Relocates phase cap last t.read := by
  cases t with
  | int t => exact readPattern_relocates t.bytes t.bits
  | bool => exact Relocates.readBit
  | float t => exact readPattern_relocates t.bytes t.bits
  | u24 => exact readPattern_relocates 3 24
  | address => exact readAddress_relocates

end Prim

namespace Mini

theorem readMarked_relocates (width : Nat) : Relocates phase cap last (readMarked width) := by
  induction width with
  | zero => exact Relocates.pure _
  | succ width ih =>
    refine Relocates.readBit.bind fun more => Relocates.ite ?_ (Relocates.pure _)
    exact (Relocates.readBits _ _ true).bind fun _ => ih.map _

theorem readInt_relocates (t : IntType) : Relocates phase cap last (readInt t) :=
  (readMarked_relocates t.bytes).map _

theorem readAddress_relocates : Relocates phase cap last readAddress := by
  refine Relocates.rewinding ((readInt_relocates .u8).bind fun tag => ?_)
  refine Relocates.ite ?_ (Relocates.ite ?_ ?_)
  · exact (readInt_relocates .u32).bind fun _ => (readInt_relocates .u16).map _
  · exact (Prim.readPattern_relocates 16 128).bind fun _ => (readInt_relocates .u16).map _
  · exact (Relocates.fail _).bind fun _ => (readInt_relocates .u16).map _

theorem readU24_relocates : Relocates phase cap last readU24 := by
  refine Relocates.rewinding ((readInt_relocates .u32).bind fun value => ?_)
  cases U24.ofNat? value.toNat with
  | some number => exact Relocates.pure _
  | none => exact Relocates.fail _

theorem readFloat_relocates (t : FloatType) : Relocates phase cap last (readFloat t) :=
  (readInt_relocates _).map _

theorem read_relocates (t : Prim) : Relocates phase cap last (read t) := by
  cases t with
  | int t => exact readInt_relocates t
  | bool => exact Relocates.readBit
  | float t => exact readFloat_relocates t
  | u24 => exact readU24_relocates
  | address => exact readAddress_relocates

end Mini

/-! ### Blocks, ranges and changed values -/

namespace Block

theorem read_relocates (hphase : phase) (max : Nat) :
    Relocates phase cap last (Block.read max) := by
  refine (Mini.readInt_relocates .u32).bind fun prefixed => Relocates.ite (Relocates.fail _) ?_
  by_cases hempty : prefixed.toNat = 0
  · rw [if_pos hempty]
    exact Relocates.pure _
  · rw [if_neg hempty]
    exact Relocates.alignedBlock hphase (Nat.pos_of_ne_zero hempty)

end Block

namespace IntRange

variable {t : IntType}

theorem readOffset_relocates (r : IntRange t) : Relocates phase cap last r.readOffset := by
  refine (Relocates.readBits _ _ true).bind fun bytes => Relocates.ite (Relocates.pure _) ?_
  exact (Relocates.emit _).bind fun _ => Relocates.fail _

theorem read_relocates (r : IntRange t) (escape : Bool) :
    Relocates phase cap last (r.read escape) := by
  refine Relocates.ite (Relocates.readBit.bind fun _ => ?_) r.readOffset_relocates
  exact Relocates.ite (Mini.readInt_relocates t) r.readOffset_relocates

end IntRange

namespace Ranged

theorem read_relocates (t : IntType) (min max : t.Value) (escape : Bool) :
    Relocates phase cap last (Ranged.read t min max escape) := by
  unfold Ranged.read
  cases IntRange.between t min max with
  | ok r => exact r.read_relocates escape
  | error e => exact Relocates.fail e

theorem readNumber_relocates (low high : Float) :
    Relocates phase cap last (readNumber low high) := by
  refine Relocates.ite ?_ (Relocates.fail _)
  exact (Prim.read_relocates (.int .u16)).bind fun step => (Relocates.demand _ _).map _

theorem readFloat_relocates (t : FloatType) (min max : t.Value) :
    Relocates phase cap last (readFloat t min max) :=
  (readNumber_relocates _ _).map _

end Ranged

theorem Vec3.read_relocates {α : Type} {component : Decoder α}
    (h : Relocates phase cap last component) : Relocates phase cap last (Vec3.read component) :=
  h.bind fun _ => h.bind fun _ => h.map _

namespace Geometry

end Geometry

end Values

/-! ## Requests -/

namespace ReadRequest

variable {phase cap last : Prop} {request : ReadRequest}

end ReadRequest

/-! ## Programs -/

namespace ReadRequest

/-- What the destination of a request holds after this answer. -/
def filled : ReadRequest → Answer → Option Answer
  | .bits _ _ _, a | .valueInto _ _, a => some a
  | .changed _ _ _, .change _ t v => some (.value t v)
  | _, _ => none

end ReadRequest

namespace ReadProgram

variable {phase cap last : Prop}

end ReadProgram

/-! ## Moves -/

namespace Slot

section Moves

variable {giver : Slot} {s : Stream}

/-- The bits that a move took and what they became at the end of the stream, with anything that
is written behind them. -/
theorem Sound.moved (hgiver : giver.Sound) {s' s'' : Stream} {count : Nat} {more : List Bool}
    (hcount : giver.cursor.read + count ≤ giver.payload.bits)
    (hmoved : s.Grown (Bits.slice giver.payload.data giver.cursor.read count) s')
    (hmore : s'.Grown more s'') :
    giver.payload.Moved (giver.cursor.read % 8 = s.cursor.write % 8)
      (giver.payload.limit ≤ s.limit)
      (giver.cursor.read + count = giver.payload.bits → giver.payload.bits % 8 ≠ 0 → more = [])
      giver.cursor.read s''.payload s.cursor.write count := by
  have hall := hmoved.trans hmore
  have hwrite := hall.write_eq
  rw [List.length_append, Bits.length_slice] at hwrite
  have hroom : s.cursor.write + count ≤ s''.payload.bits := by
    rw [Stream.payload_bits]
    omega
  refine ⟨hgiver.payload, hmore.sound.payload, hcount, hroom, ?_, id, fun hcap => ?_,
    fun hlast hend hopen => ?_⟩
  · rw [Payload.slice_eq hroom, Stream.payload_string, hall.string_eq,
      List.drop_left' s.length_string, List.take_left' (Bits.length_slice _ _ _)]
  · have hlimit : s''.payload.limit = s.limit := hall.limit_eq
    rwa [hlimit]
  · rw [hlast hend.symm hopen, List.length_nil] at hwrite
    rw [Stream.payload_bits, hwrite, Nat.add_zero]

end Moves

/-! ## The result -/

end Slot

end BitCodec
