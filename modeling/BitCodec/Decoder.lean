import BitCodec.Action
import BitCodec.Bits
import BitCodec.Cursor
import BitCodec.Octets

/-!
# Reading bits

A `Payload` is what there is to be read: bytes, how many of their bits are
written, and a cap on length-prefixed blocks.  A decoder sees a payload, which
it cannot change, and moves a read position.  Owned streams, views of them and
received packets are all read through the same decoders.

Reading more than is left is a failure caused by data; an index or a position
out of bounds would be a broken contract, and every decoder here is written so
that it checks before it looks.
-/

namespace BitCodec

/-- What there is to be read. -/
structure Payload where
  data : Array UInt8
  bits : Nat
  limit : Nat
  deriving DecidableEq, Repr

/-- The cap on length-prefixed blocks unless another one is set. -/
def defaultReadLimit : Nat :=
  64 * 1024

namespace Payload

def ofBytes (data : List UInt8) : Payload :=
  ⟨data.toArray, 8 * data.length, defaultReadLimit⟩

/-- The first so many bits of the bytes, when there are as many. -/
def ofBits (data : List UInt8) (bits : Nat) : Except Failure Payload :=
  if bits > 8 * data.length then .error (.insufficientPayload bits (8 * data.length))
  else .ok ⟨(data.take (bytesOfBits bits)).toArray, bits, defaultReadLimit⟩

/-- The same bits under another cap. -/
def withLimit (p : Payload) (limit : Nat) : Payload :=
  { p with limit := limit }

def writtenBytes (p : Payload) : Nat :=
  bytesOfBits p.bits

end Payload

/-- A reading operation: a payload, which stays as it is, and a position. -/
abbrev Decoder (α : Type) : Type :=
  ReaderT Payload (Action Nat) α

namespace Decoder

variable {α : Type}

def payload : Decoder Payload := fun p =>
  Action.done p

def position : Decoder Nat := fun _ =>
  Action.current

/-- Fail because of data. -/
def fail (e : Failure) : Decoder α := fun _ =>
  Action.fail e

/-- Stop unless the caller kept a contract. -/
def demand (kept : Bool) (b : Breach) : Decoder Unit := fun _ =>
  Action.demand kept b

/-- A value that is there, or an index out of bounds. -/
def inBounds (a : Option α) : Decoder α := fun _ =>
  Action.inBounds a

/-- Let an observer see an effect. -/
def emit (effect : Effect) : Decoder Unit := fun _ =>
  Action.emit effect

/-- Put the position back when reading fails. -/
def rewinding (body : Decoder α) : Decoder α := fun p =>
  Action.rewinding (body p)

def available : Decoder Nat := do
  let p ← payload
  let pos ← position
  demand (pos ≤ p.bits) .bounds
  pure (p.bits - pos)

def isConsumed : Decoder Bool := do
  pure ((← available) == 0)

/-- Stop unless every written bit has been read. -/
def assertConsumed : Decoder Unit := do
  let left ← available
  demand (left == 0) (.notConsumed left)

def restart : Decoder Unit := fun _ =>
  Action.become 0

/-- Fail unless so many bits are left. -/
def need (bits : Nat) : Decoder Unit := do
  let left ← available
  if bits > left then
    emit (.payloadShort bits left (← position))
    fail (.insufficientPayload bits left)

/-- Move on by bits that are known to be there. -/
def advance (bits : Nat) : Decoder Unit := do
  let p ← payload
  let pos ← position
  demand (pos + bits ≤ p.bits) .bounds
  (fun _ => Action.become (pos + bits) : Decoder Unit)

def skip (bits : Nat) : Decoder Unit := do
  need bits
  advance bits

/-- Pass over as many bits as a byte count makes. -/
def skipBytes (bytes : Nat) : Decoder Unit :=
  skip (bitsOfBytes bytes)

/-- Move to the next byte boundary, or to the end if that comes first. -/
def align : Decoder Unit := do
  let p ← payload
  let pos ← position
  (fun _ => Action.become (min (alignUp pos) p.bits) : Decoder Unit)

/-- Copy bits over the front of a destination and give it back.  Its partial
byte is filled from the low end (`right`) or from the high end. -/
def readBits (destination : List UInt8) (bits : Nat) (right : Bool) : Decoder (List UInt8) := do
  demand (bytesOfBits bits ≤ destination.length)
    (Breach.forCount bits (.destinationTooShort destination.length bits))
  if bits = 0 then pure destination
  else
    need bits
    let p ← payload
    let pos ← position
    let filled ← inBounds (Bits.copyOut p.data pos destination bits right)
    advance bits
    pure filled

def fillBytes (destination : List UInt8) : Decoder (List UInt8) :=
  readBits destination (8 * destination.length) true

def readBytes (count : Nat) : Decoder (List UInt8) :=
  fillBytes (List.replicate count 0)

def readBit : Decoder Bool := do
  need 1
  let p ← payload
  let pos ← position
  let bit ← inBounds (Bits.getBit p.data pos)
  advance 1
  pure bit

/-- So many whole bytes from a position that must be on a byte boundary. -/
def readWhole (count : Nat) : Decoder (List UInt8) := do
  let pos ← position
  demand (pos % 8 == 0) .unalignedRead
  need (8 * count)
  let p ← payload
  let bytes ← inBounds (Bits.getBytes p.data (pos / 8) count)
  advance (8 * count)
  pure bytes

/-- A number of so many bytes, most significant first, from a byte boundary. -/
def readAligned (count : Nat) : Decoder Nat := do
  pure (Octets.ofBe (← readWhole count))

/-- Move to a byte boundary and take whole bytes.  A failure leaves the
position where it was, and no bytes at all leave it unaligned. -/
def readAlignedBytes (count : Nat) : Decoder (List UInt8) :=
  if count = 0 then pure []
  else rewinding do
    align
    need (8 * count)
    let p ← payload
    let pos ← position
    let bytes ← inBounds (Bits.getBytes p.data (pos / 8) count)
    advance (8 * count)
    pure bytes

/-- The unread bytes, from the one that holds the position on. -/
def remaining : Decoder (List UInt8) := do
  let p ← payload
  let pos ← position
  pure (p.data.toList.drop (min (pos / 8) p.data.size))

end Decoder

/-- A payload and the position in it: a packet being read, or a view of a
stream. -/
structure Reader where
  payload : Payload
  read : Nat
  deriving DecidableEq, Repr

namespace Reader

def ofPayload (p : Payload) : Reader :=
  ⟨p, 0⟩

def cursor (r : Reader) : Cursor :=
  ⟨r.payload.bits, r.read⟩

def decoding {α : Type} (body : Decoder α) : Action Reader α := fun r =>
  Action.onPart Reader.read (fun r pos => { r with read := pos }) (body r.payload) r

end Reader

end BitCodec
