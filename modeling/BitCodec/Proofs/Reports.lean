import BitCodec.Metrics
import BitCodec.Proofs.Requests

/-!
# What the counters see of reading

Reading moves one counter only, that of failed reads, and moves it once for a failure
that it counts: a payload that is too short, or a value outside its range.  The
helpers that report a failure fail at once, so nothing is counted twice on the way
out, and a value comes without any report.

Two kinds of readers refuse a value on their own account, without a report: those
that narrow a value to another integer type, and the mini code of a 24-bit number.
-/

namespace BitCodec

/-- What a failed read adds to the counters, when values out of range are refused
`unseen` or not. -/
def Failure.tallies (unseen : Bool) : Failure → List Tally
  | .insufficientPayload _ _ => [.decodeError]
  | .outOfRange _ _ _ => if unseen then [] else [.decodeError]
  | _ => []

/-- What a reading operation with this end adds to the counters. -/
def Ending.tallies {α : Type} (unseen : Bool) : Ending α → List Tally
  | .failed e => e.tallies unseen
  | .value _ | .broken _ => []

/-- No reader moves any other counter. -/
theorem Ending.eq_of_mem_tallies {α : Type} {unseen : Bool} {ending : Ending α} {tally : Tally}
    (h : tally ∈ ending.tallies unseen) : tally = .decodeError := by
  cases ending with
  | value a => cases h
  | broken b => cases h
  | failed e =>
    cases e with
    | insufficientPayload _ _ => exact List.mem_singleton.mp h
    | outOfRange _ _ _ =>
      cases unseen with
      | true => cases h
      | false => exact List.mem_singleton.mp h
    | _ => cases h

namespace Decoder

variable {α β : Type}

def Reports (unseen : Bool) (body : Decoder α) : Prop :=
  ∀ p pos, (body p pos).effects.flatMap Effect.tallies = (body p pos).ending.tallies unseen

namespace Reports

variable {unseen : Bool} {body : Decoder α} {next : α → Decoder β}

/-! ## Putting decoders together -/

protected theorem pure (a : α) : Reports unseen (pure a : Decoder α) :=
  fun _ _ => rfl

protected theorem payload : Reports unseen payload :=
  fun _ _ => rfl

protected theorem position : Reports unseen position :=
  fun _ _ => rfl

protected theorem demand (kept : Bool) (b : Breach) : Reports unseen (demand kept b) := by
  cases kept <;> exact fun _ _ => rfl

protected theorem inBounds (a : Option α) : Reports unseen (inBounds a) := by
  cases a <;> exact fun _ _ => rfl

/-- A failure that is not counted. -/
protected theorem fail {e : Failure} (h : e.tallies unseen = []) :
    Reports unseen (fail e : Decoder α) :=
  fun _ _ => h.symm

protected theorem bind (h : Reports unseen body) (hnext : ∀ a, Reports unseen (next a)) :
    Reports unseen (body >>= next) := by
  intro p pos
  have hfirst := h p pos
  rcases hrun : body p pos with ⟨ending, pos', effects⟩
  rw [hrun] at hfirst
  cases ending with
  | value a =>
    have hnone : effects.flatMap Effect.tallies = [] := hfirst
    rw [bind_trace hrun, List.flatMap_append, hnone, List.nil_append]
    exact hnext a p pos'
  | failed e =>
    rw [bind_failed hrun]
    exact hfirst
  | broken b =>
    rw [bind_broken hrun]
    exact hfirst

protected theorem map (h : Reports unseen body) (f : α → β) :
    Reports unseen (body >>= fun a => pure (f a)) :=
  h.bind fun a => Reports.pure (f a)

protected theorem ite {condition : Prop} [Decidable condition] {other : Decoder α}
    (h : Reports unseen body) (hother : Reports unseen other) :
    Reports unseen (if condition then body else other) := by
  split
  · exact h
  · exact hother

protected theorem rewinding (h : Reports unseen body) : Reports unseen (rewinding body) := by
  intro p pos
  have hbody := h p pos
  unfold rewinding Action.rewinding
  rcases hrun : body p pos with ⟨ending, pos', effects⟩
  rw [hrun] at hbody
  cases ending <;> exact hbody

/-! ## The basic operations -/

protected theorem available : Reports unseen available :=
  Reports.payload.bind fun _ => Reports.position.bind fun _ => (Reports.demand _ _).map _

protected theorem need (bits : Nat) : Reports unseen (need bits) := by
  refine Reports.available.bind fun left => Reports.ite ?_ (Reports.pure ())
  exact fun _ _ => rfl

protected theorem advance (bits : Nat) : Reports unseen (advance bits) :=
  Reports.payload.bind fun _ => Reports.position.bind fun _ => (Reports.demand _ _).bind
    fun _ _ _ => rfl

protected theorem skip (bits : Nat) : Reports unseen (skip bits) :=
  (Reports.need bits).bind fun _ => Reports.advance bits

protected theorem restart : Reports unseen restart :=
  fun _ _ => rfl

protected theorem align : Reports unseen align :=
  fun _ _ => rfl

/-- Taking bits: what is found is checked for, looked up and passed over. -/
theorem taking (bits : Nat) (found : Payload → Nat → Option α) :
    Reports unseen (do
      need bits
      let p ← payload
      let pos ← position
      let a ← inBounds (found p pos)
      advance bits
      pure a) :=
  (Reports.need bits).bind fun _ => Reports.payload.bind fun _ => Reports.position.bind fun _ =>
    (Reports.inBounds _).bind fun a => (Reports.advance bits).map fun _ => a

protected theorem readBits (destination : List UInt8) (bits : Nat) (right : Bool) :
    Reports unseen (readBits destination bits right) :=
  (Reports.demand _ _).bind fun _ => Reports.ite (Reports.pure _)
    (Reports.taking bits fun p pos => Bits.copyOut p.data pos destination bits right)

protected theorem readBit : Reports unseen readBit :=
  Reports.taking 1 fun p pos => Bits.getBit p.data pos

protected theorem readWhole (count : Nat) : Reports unseen (readWhole count) :=
  Reports.position.bind fun _ => (Reports.demand _ _).bind fun _ =>
    (Reports.need _).bind fun _ => Reports.payload.bind fun _ => (Reports.inBounds _).bind
      fun bytes => (Reports.advance _).map fun _ => bytes

protected theorem readAlignedBytes (count : Nat) : Reports unseen (readAlignedBytes count) := by
  refine Reports.ite (Reports.pure _) (Reports.rewinding (Reports.align.bind fun _ => ?_))
  exact Reports.taking (8 * count) fun p pos => Bits.getBytes p.data (pos / 8) count

end Reports

end Decoder

/-! ## Values -/

open Decoder

section Values

variable {unseen : Bool}

namespace Prim

theorem readPattern_reports (count width : Nat) : Reports unseen (readPattern count width) :=
  (Reports.readBits _ _ _).map _

theorem readAddress_reports : Reports unseen readAddress := by
  refine Reports.rewinding ((readPattern_reports 1 8).bind fun tag => ?_)
  refine Reports.ite ?_ (Reports.ite ?_ ?_)
  · exact (readPattern_reports 4 32).bind fun _ => (readPattern_reports 2 16).map _
  · exact (readPattern_reports 16 128).bind fun _ => (readPattern_reports 2 16).map _
  · exact (Reports.fail rfl).bind fun _ => (readPattern_reports 2 16).map _

theorem read_reports (t : Prim) : Reports unseen t.read := by
  cases t with
  | int t => exact readPattern_reports t.bytes t.bits
  | bool => exact Reports.readBit
  | float t => exact readPattern_reports t.bytes t.bits
  | u24 => exact readPattern_reports 3 24
  | address => exact readAddress_reports

end Prim

theorem IntType.readCasted_reports (wire t : IntType) : Reports true (readCasted wire t) := by
  refine (Prim.read_reports (.int wire)).bind fun value => ?_
  cases t.ofInt? (wire.toInt value) with
  | some widened => exact Reports.pure _
  | none => exact Reports.fail rfl

namespace Mini

theorem readMarked_reports (width : Nat) : Reports unseen (readMarked width) := by
  induction width with
  | zero => exact Reports.pure _
  | succ width ih =>
    refine Reports.readBit.bind fun more => Reports.ite ?_ (Reports.pure _)
    exact (Reports.readBits _ _ _).bind fun _ => ih.map _

theorem readInt_reports (t : IntType) : Reports unseen (readInt t) :=
  (readMarked_reports t.bytes).map _

theorem readSigned_reports (t : IntType) : Reports unseen (readSigned t) :=
  (readMarked_reports t.bytes).map _

theorem readAddress_reports : Reports unseen readAddress := by
  refine Reports.rewinding ((readInt_reports .u8).bind fun tag => ?_)
  refine Reports.ite ?_ (Reports.ite ?_ ?_)
  · exact (readInt_reports .u32).bind fun _ => (readInt_reports .u16).map _
  · exact (Prim.readPattern_reports 16 128).bind fun _ => (readInt_reports .u16).map _
  · exact (Reports.fail rfl).bind fun _ => (readInt_reports .u16).map _

theorem readU24_reports : Reports true readU24 := by
  refine Reports.rewinding ((readInt_reports .u32).bind fun value => ?_)
  cases U24.ofNat? value.toNat with
  | some number => exact Reports.pure _
  | none => exact Reports.fail rfl

theorem readFloat_reports (t : FloatType) : Reports unseen (readFloat t) :=
  (readInt_reports _).map _

theorem read_reports (t : Prim) : Reports (t == .u24) (read t) := by
  cases t with
  | int t => exact readInt_reports t
  | bool => exact Reports.readBit
  | float t => exact readFloat_reports t
  | u24 => exact readU24_reports
  | address => exact readAddress_reports

end Mini

theorem Block.read_reports (max : Nat) : Reports unseen (Block.read max) := by
  refine (Mini.readInt_reports .u32).bind fun prefixed => ?_
  refine Reports.ite (Reports.fail rfl) (Reports.ite (Reports.pure _) ?_)
  exact Reports.align.bind fun _ => (Reports.need _).bind fun _ => Reports.readAlignedBytes _

namespace IntRange

variable {t : IntType}

theorem readOffset_reports (r : IntRange t) : Reports false r.readOffset := by
  refine (Reports.readBits _ _ _).bind fun bytes => Reports.ite (Reports.pure _) ?_
  exact fun _ _ => rfl

theorem read_reports (r : IntRange t) (escape : Bool) : Reports false (r.read escape) := by
  refine Reports.ite ?_ r.readOffset_reports
  exact Reports.readBit.bind fun _ => Reports.ite (Mini.readInt_reports t) r.readOffset_reports

end IntRange

namespace Ranged

theorem read_reports (t : IntType) (min max : t.Value) (escape : Bool) :
    Reports false (read t min max escape) := by
  unfold read
  cases hrange : IntRange.between t min max with
  | ok r => exact r.read_reports escape
  | error e =>
    refine Reports.fail ?_
    unfold IntRange.between at hrange
    split at hrange
    · cases hrange
    · cases hrange
      rfl

theorem readNumber_reports (low high : Float) : Reports unseen (readNumber low high) :=
  Reports.ite ((Prim.read_reports (.int .u16)).bind fun _ => (Reports.demand _ _).map _)
    (Reports.fail rfl)

end Ranged

/-! ## Vectors and rotations -/

theorem Vec3.read_reports {α : Type} {component : Decoder α} (h : Reports unseen component) :
    Reports unseen (Vec3.read component) :=
  h.bind fun _ => h.bind fun _ => h.map _

namespace Geometry

theorem readAxis_reports : Reports unseen readAxis :=
  (Reports.readBits _ _ _).bind fun _ => Reports.ite (Reports.fail rfl)
    (Reports.readBit.bind fun _ => Reports.inBounds _)

theorem readUnitVector_reports : Reports unseen readUnitVector :=
  Reports.readBit.bind fun _ => Reports.ite readAxis_reports
    (Vec3.read_reports (Ranged.readNumber_reports _ _))

theorem readVector_reports (t : FloatType) : Reports unseen (readVector t) :=
  (Prim.read_reports (.float .f32)).bind fun _ => Reports.ite (Reports.pure _)
    ((Vec3.read_reports (Mini.readFloat_reports t)).map _)

theorem readRotation_reports : Reports unseen readRotation :=
  Reports.readBit.bind fun _ => (Vec3.read_reports Reports.readBit).bind fun _ =>
    (Vec3.read_reports ((Mini.readInt_reports .u16).map _)).map _

end Geometry

/-! ## Dumps -/

namespace Dump

theorem bitText_reports : Reports unseen bitText :=
  Reports.payload.bind fun _ => (Reports.inBounds _).map _

theorem hexFrom_reports (start : Nat) : Reports unseen (hexFrom start) :=
  Reports.payload.bind fun _ => (Reports.demand _ _).bind fun _ => (Reports.inBounds _).map _

end Dump

end Values

/-! ## Updates and requests -/

/-- Whether a value read in this form is refused without a report. -/
def Form.unseen : Form → Prim → Bool
  | .mini, .u24 => true
  | _, _ => false

theorem Changed.received_reports (form : Form) (t : Prim) (last : t.Value) :
    Reports (form.unseen t) (received form t last) := by
  have hread : Reports (form.unseen t) (form.read t) := by
    cases form with
    | plain => exact t.read_reports
    | mini =>
      have hmini := Mini.read_reports t
      cases t <;> exact hmini
  exact Reports.ite (hread.map _)
    (Reports.readBit.bind fun _ => Reports.ite (hread.map _) (Reports.pure _))

namespace ReadRequest

/-- Whether a request refuses values without a report. -/
def unseen : ReadRequest → Bool
  | .casted _ _ => true
  | .mini t => t == .u24
  | .changed form t _ => form.unseen t
  | _ => false

/-- A request that ends with a value moves no counter; one that fails moves the counter
of failed reads, once, for every failure that is counted. -/
theorem run_reports (request : ReadRequest) : Reports request.unseen request.run := by
  cases request with
  | payloadBits => exact Reports.available.map _
  | writtenBytes | readLimit | data => exact Reports.payload.map _
  | isConsumed => exact (Reports.available.map _).map _
  | assertConsumed => exact (Reports.available.bind fun _ => Reports.demand _ _).map _
  | restart => exact Reports.restart.map _
  | align => exact Reports.align.map _
  | alignment => exact Reports.payload.bind fun _ => Reports.position.map _
  | bitText => exact Dump.bitText_reports.map _
  | hexText => exact (Dump.hexFrom_reports 0).map _
  | unreadHexText => exact (Reports.position.bind fun _ => Dump.hexFrom_reports _).map _
  | remaining => exact (Reports.payload.bind fun _ => Reports.position.map _).map _
  | need n => exact (Reports.need n).map _
  | skip n => exact (Reports.skip n).map _
  | skipBytes n => exact (Reports.skip _).map _
  | bit => exact Reports.readBit.map _
  | bits destination count right => exact (Reports.readBits destination count right).map _
  | bytes count => exact (Reports.readBits _ _ _).map _
  | alignedBytes count => exact (Reports.readAlignedBytes count).map _
  | aligned t => exact ((Reports.readWhole t.bytes).map _).map _
  | value t => exact t.read_reports.map _
  | valueInto t destination =>
    have hstore : Reports false (updating destination fun p => Action.store (t.read p)) := by
      rw [updating_store]
      exact t.read_reports.map _
    exact hstore.map _
  | casted wire t => exact (IntType.readCasted_reports wire t).map _
  | mini t => exact (Mini.read_reports t).map _
  | miniSigned t => exact (Mini.readSigned_reports t).map _
  | block max => exact (Block.read_reports max).map _
  | blockLimited => exact (Reports.payload.bind fun p => Block.read_reports p.limit).map _
  | changed form t destination =>
    have hread : Reports (form.unseen t) (updating destination (Changed.read form t)) := by
      rw [Changed.updating_read]
      exact Changed.received_reports form t destination
    exact hread.map _
  | ranged t min max escape => exact (Ranged.read_reports t min max escape).map _
  | rangedFloat t min max => exact ((Ranged.readNumber_reports _ _).map _).map _
  | unitVector t => exact (Geometry.readUnitVector_reports.map _).map _
  | vector t => exact ((Geometry.readVector_reports t).map _).map _
  | rotation t => exact (Geometry.readRotation_reports.map _).map _
  | matrix t => exact ((Geometry.readRotation_reports.map _).map _).map _

end ReadRequest

end BitCodec
