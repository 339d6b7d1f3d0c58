import BitCodec.Proofs.Runs
import BitCodec.Request

/-!
# What writers are put together from

Every writer is put together from a few basic operations, and none of them looks at
the stream that it writes to: what comes next depends on the value and on the answers
of the parts alone.  `Assembled` says so, and a property that the basic operations have
and that putting together keeps is a property of every writer, by one induction.  Each of
them asks for just the room that it then fills; room on its own is no part of a writer.
-/

namespace BitCodec

/-- Writing operations that are put together from the basic ones. -/
inductive Assembled : {α : Type} → Encoder α → Prop where
  | pure {α : Type} (a : α) : Assembled (pure a : Encoder α)
  | fail {α : Type} (e : Failure) : Assembled (Action.fail e : Encoder α)
  | escaped (value min max : String) :
    Assembled (Action.emit (.rangeEscaped value min max) : Encoder Unit)
  | writeBits (source : List UInt8) (bits : Nat) (right : Bool) :
    Assembled (Stream.writeBits source bits right)
  | writeBit (bit : Bool) : Assembled (Stream.writeBit bit)
  | align : Assembled Stream.align
  | padTo (bytes : Nat) : Assembled (Stream.padTo bytes)
  | writeWhole {source : List UInt8} (h : source ≠ []) : Assembled (Stream.writeWhole source)
  | writeAlignedBytes (source : List UInt8) : Assembled (Stream.writeAlignedBytes source)
  | bind {α β : Type} {body : Encoder α} {next : α → Encoder β} :
    Assembled body → (∀ a, Assembled (next a)) → Assembled (body >>= next)

namespace Assembled

variable {α β : Type} {body other : Encoder α}

protected theorem map (h : Assembled body) (f : α → β) :
    Assembled (body >>= fun a => Pure.pure (f a)) :=
  h.bind fun a => .pure (f a)

protected theorem ite {condition : Prop} [Decidable condition] (h : Assembled body)
    (hother : Assembled other) : Assembled (if condition then body else other) := by
  split
  · exact h
  · exact hother

protected theorem passing (check : Except Failure Unit) {body : Encoder Unit}
    (h : Assembled body) : Assembled (Geometry.passing check body) := by
  cases check with
  | ok _ => exact h
  | error e => exact .fail e

end Assembled

/-! ## Values -/

open BitCodec.Stream

namespace Prim

theorem writePattern_assembled (count : Nat) {width : Nat} (value : BitVec width) :
    Assembled (writePattern count value) :=
  Assembled.writeBits _ _ true

theorem writeAddress_assembled (a : SocketAddress) : Assembled (writeAddress a) := by
  cases a with
  | v4 octets port =>
    exact (writePattern_assembled 1 _).bind fun _ => (writePattern_assembled 4 _).bind fun _ =>
      writePattern_assembled 2 _
  | v6 octets port flow scope =>
    exact (writePattern_assembled 1 _).bind fun _ => (writePattern_assembled 16 _).bind fun _ =>
      writePattern_assembled 2 _

theorem write_assembled (t : Prim) (value : t.Value) : Assembled (t.write value) := by
  cases t with
  | int t => exact writePattern_assembled t.bytes value
  | bool => exact Assembled.writeBit value
  | float t => exact writePattern_assembled t.bytes value
  | u24 => exact writePattern_assembled 3 value
  | address => exact writeAddress_assembled value

end Prim

theorem IntType.writeCasted_assembled (wire t : IntType) (value : t.Value) :
    Assembled (writeCasted wire t value) := by
  unfold writeCasted
  cases wire.ofInt? (t.toInt value) with
  | some narrowed => exact Prim.write_assembled (.int wire) narrowed
  | none => exact Assembled.fail _

namespace Mini

theorem sendMarked_assembled (bytes : List UInt8) : Assembled (sendMarked bytes) := by
  induction bytes with
  | nil => exact Assembled.pure ()
  | cons byte rest ih =>
    exact (Assembled.writeBit true).bind fun _ => (Assembled.writeBits _ _ true).bind fun _ => ih

theorem writeMarked_assembled (width : Nat) (bytes : List UInt8) :
    Assembled (writeMarked width bytes) :=
  (sendMarked_assembled bytes).bind fun _ =>
    Assembled.ite (Assembled.writeBit false) (Assembled.pure ())

theorem writeInt_assembled (t : IntType) (value : t.Value) : Assembled (writeInt t value) :=
  writeMarked_assembled _ _

theorem writeSigned_assembled (t : IntType) (value : t.Value) : Assembled (writeSigned t value) :=
  writeMarked_assembled _ _

theorem writeAddress_assembled (a : SocketAddress) : Assembled (writeAddress a) := by
  cases a with
  | v4 octets port =>
    exact (writeInt_assembled .u8 _).bind fun _ => (writeInt_assembled .u32 _).bind fun _ =>
      writeInt_assembled .u16 _
  | v6 octets port flow scope =>
    exact (writeInt_assembled .u8 _).bind fun _ => (Prim.writePattern_assembled 16 _).bind
      fun _ => writeInt_assembled .u16 _

theorem writeFloat_assembled (t : FloatType) (value : t.Value) :
    Assembled (writeFloat t value) := by
  unfold writeFloat
  cases nearUnit (t.toFloat value) with
  | ok unit => exact writeInt_assembled _ _
  | error e => exact Assembled.fail e

theorem write_assembled (t : Prim) (value : t.Value) : Assembled (write t value) := by
  cases t with
  | int t => exact writeInt_assembled t value
  | bool => exact Assembled.writeBit value
  | float t => exact writeFloat_assembled t value
  | u24 => exact writeInt_assembled .u32 _
  | address => exact writeAddress_assembled value

end Mini

theorem Block.write_assembled (source : List UInt8) (max : Nat) :
    Assembled (Block.write source max) :=
  (Mini.writeInt_assembled .u32 _).bind fun _ =>
    (Assembled.writeAlignedBytes _).map _

theorem IntRange.write_assembled {t : IntType} (r : IntRange t) (value : t.Value) (escape : Bool) :
    Assembled (r.write value escape) := by
  have hoffset : Assembled (writeBits (t.toLe (value - r.min)) r.bits true) :=
    Assembled.writeBits _ _ true
  have hvalue : Assembled (do
      if r.contains value then writeBits (t.toLe (value - r.min)) r.bits true
      else if escape then
        Action.emit (.rangeEscaped (t.text value) (t.text r.min) (t.text r.max))
        Mini.writeInt t value
      else Action.fail (r.outOfRange value)) := by
    refine Assembled.ite hoffset (Assembled.ite ?_ (Assembled.fail _))
    exact (Assembled.escaped _ _ _).bind fun _ => Mini.writeInt_assembled t value
  unfold IntRange.write
  cases escape with
  | true => exact (Assembled.writeBit _).bind fun _ => hvalue
  | false => exact hvalue

namespace Ranged

theorem write_assembled (t : IntType) (value min max : t.Value) (escape : Bool) :
    Assembled (write t value min max escape) := by
  unfold write
  cases IntRange.between t min max with
  | ok r => exact r.write_assembled value escape
  | error e => exact Assembled.fail e

theorem writeNumber_assembled (number low high : Float) :
    Assembled (writeNumber number low high) :=
  Assembled.ite
    (Assembled.ite (Assembled.fail _) (Prim.write_assembled (.int .u16) _)) (Assembled.fail _)

end Ranged

namespace Geometry

theorem writeUnitVector_assembled (v : Vec3 Float) : Assembled (writeUnitVector v) := by
  refine Assembled.passing _ ?_
  split
  · exact (Assembled.writeBit true).bind fun _ => (Assembled.writeBits _ _ true).bind fun _ =>
      Assembled.writeBit _
  · exact (Assembled.writeBit false).bind fun _ =>
      (Ranged.writeNumber_assembled _ _ _).bind fun _ =>
        (Ranged.writeNumber_assembled _ _ _).bind fun _ => Ranged.writeNumber_assembled _ _ _

theorem writeVector_assembled (t : FloatType) (v : Vec3 Float) : Assembled (writeVector t v) := by
  refine Assembled.ite (Assembled.fail _) (Assembled.ite (Assembled.fail _) ?_)
  refine (Prim.write_assembled (.float .f32) _).bind fun _ => Assembled.ite ?_ (Assembled.pure ())
  exact (Mini.writeFloat_assembled t _).bind fun _ => (Mini.writeFloat_assembled t _).bind fun _ =>
    Mini.writeFloat_assembled t _

theorem writeRotation_assembled (q : Quaternion Float) : Assembled (writeRotation q) := by
  refine Assembled.passing _ ?_
  exact (Assembled.writeBit _).bind fun _ => (Assembled.writeBit _).bind fun _ =>
    (Assembled.writeBit _).bind fun _ => (Assembled.writeBit _).bind fun _ =>
      (Mini.writeInt_assembled .u16 _).bind fun _ => (Mini.writeInt_assembled .u16 _).bind fun _ =>
        Mini.writeInt_assembled .u16 _

theorem writeMatrix_assembled (m : Matrix3 Float) : Assembled (writeMatrix m) :=
  Assembled.passing _ (writeRotation_assembled _)

end Geometry

namespace Changed

theorem writeForm_assembled (form : Form) (t : Prim) (value : t.Value) :
    Assembled (form.write t value) := by
  cases form with
  | plain => exact Prim.write_assembled t value
  | mini => exact Mini.write_assembled t value

theorem writeAlways_assembled (form : Form) (t : Prim) (value : t.Value) :
    Assembled (writeAlways form t value) := by
  refine Assembled.ite (writeForm_assembled form t value) ?_
  cases form.check t value with
  | ok _ => exact (Assembled.writeBit true).bind fun _ => writeForm_assembled form t value
  | error e => exact Assembled.fail e

theorem write_assembled (form : Form) (t : Prim) (value last : t.Value) :
    Assembled (write form t value last) :=
  Assembled.ite (writeForm_assembled form t value)
    (Assembled.ite (Assembled.writeBit false) (writeAlways_assembled form t value))

end Changed

/-! ## Requests -/

namespace WriteRequest

/-- Requests that look at the stream and leave it as it is. -/
def looks : WriteRequest → Bool
  | .capacityBits | .isSpilled | .written => true
  | _ => false

/-- Every other request is assembled, but a rewind and the one for room alone. -/
theorem run_assembled {request : WriteRequest} (hlooks : request.looks = false)
    (hrewind : ∀ how, request ≠ .rewind how)
    (hensure : ∀ bits, request ≠ .ensure bits) :
    Assembled request.run := by
  cases request with
  | capacityBits | isSpilled | written => cases hlooks
  | rewind how => exact absurd rfl (hrewind how)
  | align => exact Assembled.align.map _
  | ensure bits => exact absurd rfl (hensure bits)
  | padTo n => exact (Assembled.padTo n).map _
  | bit b => exact (Assembled.writeBit b).map _
  | bits source count right => exact (Assembled.writeBits source count right).map _
  | bytes source => exact (Assembled.writeBits source _ true).map _
  | alignedBytes source => exact (Assembled.writeAlignedBytes source).map _
  | aligned t v =>
    have hsome : Octets.be t.bytes v.toNat ≠ [] := by
      rw [← List.length_pos_iff, Octets.length_be]
      cases t <;> decide
    exact (Assembled.writeWhole hsome).map _
  | block source max => exact (Block.write_assembled source max).map _
  | value t v => exact (t.write_assembled v).map _
  | mini t v => exact (Mini.write_assembled t v).map _
  | miniSigned t v => exact (Mini.writeSigned_assembled t v).map _
  | casted wire t v => exact (IntType.writeCasted_assembled wire t v).map _
  | changed form t v last => exact (Changed.write_assembled form t v last).map _
  | changedAlways form t v => exact (Changed.writeAlways_assembled form t v).map _
  | ranged t v min max escape => exact (Ranged.write_assembled t v min max escape).map _
  | rangedFloat t v min max => exact (Ranged.writeNumber_assembled _ _ _).map _
  | unitVector t v => exact (Geometry.writeUnitVector_assembled _).map _
  | vector t v => exact (Geometry.writeVector_assembled t _).map _
  | rotation t q => exact (Geometry.writeRotation_assembled _).map _
  | matrix t m => exact (Geometry.writeMatrix_assembled _).map _

end WriteRequest

end BitCodec
