import BitCodec.Changed
import BitCodec.Geometry

/-!
# Codecs and messages

A codec is a writer and a reader for one kind of value.  Codecs put together
describe a message, and one description serves both directions: `transfer`
either appends a field to a stream or overwrites the field from it.

A message that makes up a whole packet may be followed by padding, so fewer
than eight bits left over are accepted and a whole byte is not.
-/

namespace BitCodec

/-- A writer and a reader for one kind of value. -/
structure Codec (α : Type) where
  write : α → Encoder Unit
  read : Decoder α

namespace Codec

variable {α β : Type}

/-- A primitive value in its fixed form. -/
def plain (t : Prim) : Codec t.Value :=
  ⟨t.write, t.read⟩

def mini (t : Prim) : Codec t.Value :=
  ⟨Mini.write t, Mini.read t⟩

def miniSigned (t : IntType) : Codec t.Value :=
  ⟨Mini.writeSigned t, Mini.readSigned t⟩

def casted (wire t : IntType) : Codec t.Value :=
  ⟨IntType.writeCasted wire t, IntType.readCasted wire t⟩

def ranged (t : IntType) (min max : t.Value) (escape : Bool) : Codec t.Value :=
  ⟨fun value => Ranged.write t value min max escape, Ranged.read t min max escape⟩

def rangedFloat (t : FloatType) (min max : t.Value) : Codec t.Value :=
  ⟨fun value => Ranged.writeFloat t value min max, Ranged.readFloat t min max⟩

def unitVector (t : FloatType) : Codec (Vec3 t.Value) where
  write v := Geometry.writeUnitVector (v.map t.toFloat)
  read := do pure ((← Geometry.readUnitVector).map t.ofFloat)

def vector (t : FloatType) : Codec (Vec3 t.Value) where
  write v := Geometry.writeVector t (v.map t.toFloat)
  read := do pure ((← Geometry.readVector t).map t.ofFloat)

def rotation (t : FloatType) : Codec (Quaternion t.Value) where
  write q := Geometry.writeRotation (q.map t.toFloat)
  read := do pure ((← Geometry.readRotation).map t.ofFloat)

def matrix (t : FloatType) : Codec (Matrix3 t.Value) where
  write m := Geometry.writeMatrix (m.map (Vec3.map t.toFloat))
  read := do pure ((← Geometry.readMatrix).map (Vec3.map t.ofFloat))

def pair (first : Codec α) (second : Codec β) : Codec (α × β) where
  write value := do
    first.write value.1
    second.write value.2
  read := do
    let a ← first.read
    let b ← second.read
    pure (a, b)

/-! ## Whole packets -/

def toStream (c : Codec α) (value : α) : Trace Stream Unit :=
  (do
    Action.emit .streamCreated
    c.write value : Encoder Unit) Stream.empty

/-- Read a value that must be followed by padding only. -/
def readWhole (c : Codec α) : Decoder α := do
  let value ← c.read
  let left ← Decoder.available
  if left ≥ 8 then Decoder.fail (.malformed s!"{left} trailing bits after message")
  else pure value

def ofPacket (c : Codec α) (bytes : List UInt8) : Trace Nat α :=
  c.readWhole (Payload.ofBytes bytes) 0

end Codec

/-- Which way a field travels. -/
inductive Direction where
  | encode
  | decode
  deriving DecidableEq, Repr

namespace Codec

variable {α : Type}

/-- Append the field beside the stream to it, or overwrite the field from the
stream. -/
def transfer (c : Codec α) : Direction → Action (Stream × α) Unit
  | .encode => do
    let s ← Action.current
    Action.beside (c.write s.2)
  | .decode => Action.store (Stream.decoding c.read)

end Codec

/-- Append the low `bits` bits of the bytes beside the stream, or overwrite
them. -/
def transferBits (bits : Nat) : Direction → Action (Stream × List UInt8) Unit
  | .encode => do
    let s ← Action.current
    Action.beside (Stream.writeBits s.2 bits true)
  | .decode => do
    let s ← Action.current
    Action.store (Stream.decoding (Decoder.readBits s.2 bits true))

namespace Changed

def receive (form : Form) (t : Prim) : Action (Stream × t.Value) Bool := fun s =>
  Action.onPart (fun s => (s.1.cursor.read, s.2))
    (fun s part => ({ s.1 with cursor := { s.1.cursor with read := part.1 } }, part.2))
    (read form t s.1.payload) s

/-- Send the field beside the stream if it differs from the last value, or
update it; either way, say whether it changed.  A boolean that is sent counts
as changed. -/
def transfer (form : Form) (t : Prim) (last : t.Value) :
    Direction → Action (Stream × t.Value) Bool
  | .encode => do
    let s ← Action.current
    Action.beside (write form t s.2 last)
    pure (t.direct || !t.same s.2 last)
  | .decode => receive form t

end Changed

end BitCodec
