import BitCodec.Mini

/-!
# Length-prefixed blocks

A block of bytes is its length as a mini `u32`, then, unless it is empty, zero
bits up to a byte boundary and the bytes.  The writer cuts a block off at a
maximum; the reader refuses a length above its own maximum before it looks any
further.
-/

namespace BitCodec.Block

/-- Append a block of at most `max` of the bytes and give back its length. -/
def write (source : List UInt8) (max : Nat) : Encoder Nat := do
  let length := min source.length max
  Mini.writeInt .u32 (BitVec.ofNat 32 length)
  Stream.writeAlignedBytes (source.take length)
  pure length

/-- Read a block of at most `max` bytes. -/
def read (max : Nat) : Decoder (List UInt8) := do
  let prefixed ← Mini.readInt .u32
  let length := prefixed.toNat
  if length > max then Decoder.fail (.lengthLimitExceeded length max)
  else if length = 0 then pure []
  else
    Decoder.align
    Decoder.need (8 * length)
    Decoder.readAlignedBytes length

/-- Read a block under the payload's own cap. -/
def readLimited : Decoder (List UInt8) := do
  let p ← Decoder.payload
  read p.limit

end BitCodec.Block
