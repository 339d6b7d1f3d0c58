import BitCodec.Block
import BitCodec.Codec
import BitCodec.Dump

/-!
# Requests as data

Everything that can be asked of a stream, as closed lists of requests, and
what each one answers.  A run of a stream is then a list of requests, which
can be stored, replayed and reasoned about.

Reading requests go to any source; writing requests need an owned stream.
-/

namespace BitCodec

/-- What a request answers. -/
inductive Answer where
  | nothing
  | flag (b : Bool)
  | flags (first second : Bool)
  | count (n : Nat)
  | octets (bytes : List UInt8)
  | text (s : String)
  | value (t : Prim) (v : t.Value)
  | change (changed : Bool) (t : Prim) (v : t.Value)
  | vector (t : FloatType) (v : Vec3 t.Value)
  | rotation (t : FloatType) (q : Quaternion t.Value)
  | matrix (t : FloatType) (m : Matrix3 t.Value)

/-- A request to any source of bits. -/
inductive ReadRequest where
  | payloadBits
  | writtenBytes
  | readLimit
  | isConsumed
  | assertConsumed
  | restart
  | align
  | alignment
  | data
  | bitText
  | hexText
  | unreadHexText
  | remaining
  | need (bits : Nat)
  | skip (bits : Nat)
  | skipBytes (bytes : Nat)
  | bit
  | bits (destination : List UInt8) (count : Nat) (right : Bool)
  | bytes (count : Nat)
  | alignedBytes (count : Nat)
  | aligned (t : IntType)
  | value (t : Prim)
  | valueInto (t : Prim) (destination : t.Value)
  | casted (wire t : IntType)
  | mini (t : Prim)
  | miniSigned (t : IntType)
  | block (max : Nat)
  | blockLimited
  | changed (form : Form) (t : Prim) (destination : t.Value)
  | ranged (t : IntType) (min max : t.Value) (escape : Bool)
  | rangedFloat (t : FloatType) (min max : t.Value)
  | unitVector (t : FloatType)
  | vector (t : FloatType)
  | rotation (t : FloatType)
  | matrix (t : FloatType)

namespace Decoder

/-- Run an operation on the position and a destination beside it, and give the
destination back with the value. -/
def updating {α β : Type} (destination : β) (body : Payload → Action (Nat × β) α) :
    Decoder (α × β) := fun p pos =>
  let t := body p (pos, destination)
  { ending := t.ending.map (·, t.state.2), state := t.state.1, effects := t.effects }

end Decoder

namespace ReadRequest

def run : ReadRequest → Decoder Answer
  | payloadBits => do pure (.count (← Decoder.available))
  | writtenBytes => do pure (.count (← Decoder.payload).writtenBytes)
  | readLimit => do pure (.count (← Decoder.payload).limit)
  | isConsumed => do pure (.flag (← Decoder.isConsumed))
  | assertConsumed => do Decoder.assertConsumed; pure .nothing
  | restart => do Decoder.restart; pure .nothing
  | align => do Decoder.align; pure .nothing
  | alignment => do
    let p ← Decoder.payload
    let pos ← Decoder.position
    pure (.flags (p.bits % 8 == 0) (pos % 8 == 0))
  | data => do pure (.octets (← Decoder.payload).data.toList)
  | bitText => do pure (.text (← Dump.bitText))
  | hexText => do pure (.text (← Dump.hexText))
  | unreadHexText => do pure (.text (← Dump.unreadHexText))
  | remaining => do pure (.octets (← Decoder.remaining))
  | need n => do Decoder.need n; pure .nothing
  | skip n => do Decoder.skip n; pure .nothing
  | skipBytes n => do Decoder.skipBytes n; pure .nothing
  | bit => do pure (.flag (← Decoder.readBit))
  | bits destination count right => do
    pure (.octets (← Decoder.readBits destination count right))
  | bytes count => do pure (.octets (← Decoder.readBytes count))
  | alignedBytes count => do pure (.octets (← Decoder.readAlignedBytes count))
  | aligned t => do
    let number ← Decoder.readAligned t.bytes
    pure (.value (.int t) (BitVec.ofNat t.bits number))
  | value t => do pure (.value t (← t.read))
  | valueInto t destination => do
    let ((), v) ← Decoder.updating destination fun p => Action.store (t.read p)
    pure (.value t v)
  | casted wire t => do pure (.value (.int t) (← IntType.readCasted wire t))
  | mini t => do pure (.value t (← Mini.read t))
  | miniSigned t => do pure (.value (.int t) (← Mini.readSigned t))
  | block max => do pure (.octets (← Block.read max))
  | blockLimited => do pure (.octets (← Block.readLimited))
  | changed form t destination => do
    let (updated, v) ← Decoder.updating destination (Changed.read form t)
    pure (.change updated t v)
  | ranged t min max escape => do pure (.value (.int t) (← Ranged.read t min max escape))
  | rangedFloat t min max => do pure (.value (.float t) (← Ranged.readFloat t min max))
  | unitVector t => do pure (.vector t (← (Codec.unitVector t).read))
  | vector t => do pure (.vector t (← (Codec.vector t).read))
  | rotation t => do pure (.rotation t (← (Codec.rotation t).read))
  | matrix t => do pure (.matrix t (← (Codec.matrix t).read))

end ReadRequest

/-- A field that travels in either direction, with its present value. -/
inductive Field where
  | plain (t : Prim) (v : t.Value)
  | mini (t : Prim) (v : t.Value)
  | changed (form : Form) (t : Prim) (v last : t.Value)
  | casted (wire t : IntType) (v : t.Value)
  | ranged (t : IntType) (v min max : t.Value) (escape : Bool)
  | rangedFloat (t : FloatType) (v min max : t.Value)
  | unitVector (t : FloatType) (v : Vec3 t.Value)
  | vector (t : FloatType) (v : Vec3 t.Value)
  | rotation (t : FloatType) (q : Quaternion t.Value)
  | matrix (t : FloatType) (m : Matrix3 t.Value)
  | bits (bytes : List UInt8) (count : Nat)

/-- A request to an owned stream. -/
inductive WriteRequest where
  | capacityBits
  | isSpilled
  | written
  | rewind (how : Cursor.Rewind)
  | align
  | ensure (bits : Nat)
  | padTo (bytes : Nat)
  | bit (b : Bool)
  | bits (source : List UInt8) (count : Nat) (right : Bool)
  | bytes (source : List UInt8)
  | alignedBytes (source : List UInt8)
  | aligned (t : IntType) (v : t.Value)
  | block (source : List UInt8) (max : Nat)
  | value (t : Prim) (v : t.Value)
  | mini (t : Prim) (v : t.Value)
  | miniSigned (t : IntType) (v : t.Value)
  | casted (wire t : IntType) (v : t.Value)
  | changed (form : Form) (t : Prim) (v last : t.Value)
  | changedAlways (form : Form) (t : Prim) (v : t.Value)
  | ranged (t : IntType) (v min max : t.Value) (escape : Bool)
  | rangedFloat (t : FloatType) (v min max : t.Value)
  | unitVector (t : FloatType) (v : Vec3 t.Value)
  | vector (t : FloatType) (v : Vec3 t.Value)
  | rotation (t : FloatType) (q : Quaternion t.Value)
  | matrix (t : FloatType) (m : Matrix3 t.Value)

namespace WriteRequest

def run : WriteRequest → Encoder Answer
  | capacityBits => do pure (.count (8 * (← Action.current).capacity))
  | isSpilled => do pure (.flag (← Action.current).isSpilled)
  | written => do pure (.octets (← Action.current).written)
  | rewind how => do Stream.rewind how; pure .nothing
  | align => do Stream.align; pure .nothing
  | ensure n => do Stream.ensure n; pure .nothing
  | padTo n => do Stream.padTo n; pure .nothing
  | bit b => do Stream.writeBit b; pure .nothing
  | bits source count right => do Stream.writeBits source count right; pure .nothing
  | bytes source => do Stream.writeBytes source; pure .nothing
  | alignedBytes source => do Stream.writeAlignedBytes source; pure .nothing
  | aligned t v => do Stream.writeAligned t.bytes v.toNat; pure .nothing
  | block source max => do pure (.count (← Block.write source max))
  | value t v => do t.write v; pure .nothing
  | mini t v => do Mini.write t v; pure .nothing
  | miniSigned t v => do Mini.writeSigned t v; pure .nothing
  | casted wire t v => do IntType.writeCasted wire t v; pure .nothing
  | changed form t v last => do Changed.write form t v last; pure .nothing
  | changedAlways form t v => do Changed.writeAlways form t v; pure .nothing
  | ranged t v min max escape => do Ranged.write t v min max escape; pure .nothing
  | rangedFloat t v min max => do Ranged.writeFloat t v min max; pure .nothing
  | unitVector t v => do (Codec.unitVector t).write v; pure .nothing
  | vector t v => do (Codec.vector t).write v; pure .nothing
  | rotation t q => do (Codec.rotation t).write q; pure .nothing
  | matrix t m => do (Codec.matrix t).write m; pure .nothing

end WriteRequest

namespace Field

/-- Run a transfer with a field beside the stream and give the field back with
what the transfer answers. -/
def exchange {α β : Type} (field : β) (body : Action (Stream × β) α) : Encoder (α × β) := fun s =>
  let t := body (s, field)
  { ending := t.ending.map (·, t.state.2), state := t.state.1, effects := t.effects }

def along {α : Type} (c : Codec α) (direction : Direction) (field : α) (answer : α → Answer) :
    Encoder (Answer × Option Bool) := do
  let ((), after) ← exchange field (c.transfer direction)
  pure (answer after, none)

/-- Transfer a field: its value afterwards, and whether it changed where that
is known. -/
def transfer (direction : Direction) : Field → Encoder (Answer × Option Bool)
  | plain t v => along (Codec.plain t) direction v (.value t)
  | mini t v => along (Codec.mini t) direction v (.value t)
  | changed form t v last => do
    let (flag, after) ← exchange v (Changed.transfer form t last direction)
    pure (.value t after, some flag)
  | casted wire t v => along (Codec.casted wire t) direction v (.value (.int t))
  | ranged t v min max escape =>
    along (Codec.ranged t min max escape) direction v (.value (.int t))
  | rangedFloat t v min max => along (Codec.rangedFloat t min max) direction v (.value (.float t))
  | unitVector t v => along (Codec.unitVector t) direction v (.vector t)
  | vector t v => along (Codec.vector t) direction v (.vector t)
  | rotation t q => along (Codec.rotation t) direction q (.rotation t)
  | matrix t m => along (Codec.matrix t) direction m (.matrix t)
  | bits source count => do
    let ((), after) ← exchange source (transferBits count direction)
    pure (.octets after, none)

end Field

end BitCodec
