import BitCodec.Decoder

/-!
# Owned streams

A stream owns a buffer that can be written and read.  Small messages live in
an inline store of 256 bytes; the first write that does not fit moves the
content to a larger buffer, and a buffer never shrinks.  Behind the write
position the buffer may hold anything that an earlier message left there.

Writing never fails for lack of room, and memory is taken to be there for it.
What it can break are the caller's contracts, and those are checked before
anything is touched.  Room that is asked for outright is a bare number of bits:
if it leads beyond what a word can count, nothing is touched either.
-/

namespace BitCodec

/-- Bytes of the inline store. -/
def inlineBytes : Nat :=
  256

/-- A buffer with a write and a read position. -/
structure Stream where
  buffer : Array UInt8
  cursor : Cursor
  limit : Nat
  deriving DecidableEq, Repr

abbrev Encoder (α : Type) : Type :=
  Action Stream α

namespace Stream

variable {α σ : Type}

/-! ## Making streams -/

/-- An empty stream with room for at least so many bytes. -/
def withRoom (bytes : Nat) : Stream :=
  ⟨Array.replicate (max bytes inlineBytes) 0, Cursor.start, defaultReadLimit⟩

/-- An empty stream in the inline store. -/
def empty : Stream :=
  withRoom 0

/-- A stream that holds a copy of the bytes, all of them unread. -/
def ofBytes (data : List UInt8) : Stream :=
  ⟨data.toArray ++ Array.replicate (inlineBytes - data.length) 0,
    Cursor.written (8 * data.length), defaultReadLimit⟩

/-- The same stream under another cap on length-prefixed blocks. -/
def withLimit (s : Stream) (limit : Nat) : Stream :=
  { s with limit := limit }

def create (s : Stream) : Action σ Stream := do
  Action.emit .streamCreated
  pure s

/-! ## Looking at streams -/

def capacity (s : Stream) : Nat :=
  s.buffer.size

/-- Whether the content has left the inline store. -/
def isSpilled (s : Stream) : Bool :=
  s.capacity > inlineBytes

/-- What there is to be read: the written bytes and bits. -/
def payload (s : Stream) : Payload :=
  ⟨s.buffer.extract 0 s.cursor.writtenBytes, s.cursor.write, s.limit⟩

/-- The written bytes; the unused bits of a partial byte are zero. -/
def written (s : Stream) : List UInt8 :=
  s.payload.data.toList

/-- A view of the written bits with nothing read yet. -/
def view (s : Stream) : Reader :=
  Reader.ofPayload s.payload

/-- Hand the written bytes to the transport. -/
def handOver (s : Stream) : Action σ (List UInt8) := do
  Action.emit (.bytesEncoded s.cursor.writtenBytes)
  pure s.written

def decoding (body : Decoder α) : Action Stream α := fun s =>
  Action.onPart (fun s => s.cursor.read)
    (fun s pos => { s with cursor := { s.cursor with read := pos } }) (body s.payload) s

/-- Rewind the positions; the buffer is kept. -/
def rewind (how : Cursor.Rewind) : Action Stream Unit := do
  let s ← Action.current
  Action.become { s with cursor := s.cursor.rewind how }

/-! ## Writing -/

/-- Make room for bits at hand behind the write position.  A buffer that is too
small is replaced by one of twice the bytes then needed. -/
def makeRoom (bits : Nat) : Encoder Unit := do
  Action.demand (bits > 0) .zeroGrowth
  let s ← Action.current
  let required := s.cursor.write + bits
  if required > 8 * s.capacity then
    let size := 2 * bytesOfBits required
    Action.become { s with buffer := s.buffer ++ Array.replicate (size - s.capacity) 0 }
    Action.emit (.bufferGrown s.capacity size (!s.isSpilled && size > inlineBytes))

/-- Make room for so many more bits, however many are named.  The bits then
needed are summed up and rounded up to bytes in words. -/
def ensure (bits : Nat) : Encoder Unit := do
  Action.demand (bits > 0) .zeroGrowth
  let s ← Action.current
  Action.demand (roundable (s.cursor.write + bits)) .overflow
  makeRoom bits

/-- Change the buffer from the write position on and move on by so many
bits. -/
def put (bits : Nat) (change : Array UInt8 → Nat → Option (Array UInt8)) : Encoder Unit := do
  let s ← Action.current
  let buffer ← Action.inBounds (change s.buffer s.cursor.write)
  Action.become
    { s with buffer := buffer, cursor := { s.cursor with write := s.cursor.write + bits } }

/-- Append bits of a byte string.  Its partial byte is taken from the low end
(`right`) or from the high end. -/
def writeBits (source : List UInt8) (bits : Nat) (right : Bool) : Encoder Unit := do
  Action.demand (bytesOfBits bits ≤ source.length)
    (Breach.forCount bits (.sourceTooShort source.length bits))
  if bits > 0 then
    makeRoom bits
    put bits fun buffer pos => Bits.copyIn buffer pos source bits right

def writeBytes (source : List UInt8) : Encoder Unit :=
  writeBits source (8 * source.length) true

def writeBit (bit : Bool) : Encoder Unit := do
  makeRoom 1
  put 1 fun buffer pos => Bits.putBit buffer pos bit

def align : Encoder Unit := do
  let s ← Action.current
  let gap := alignUp s.cursor.write - s.cursor.write
  if gap > 0 then
    makeRoom gap
    put gap fun buffer pos => Bits.copyIn buffer pos [0] gap true

/-- Append whole bytes at a position that must be on a byte boundary. -/
def writeWhole (source : List UInt8) : Encoder Unit := do
  let s ← Action.current
  Action.demand s.cursor.writeAligned .unalignedWrite
  makeRoom (8 * source.length)
  put (8 * source.length) fun buffer pos => Bits.setBytes buffer (pos / 8) source

/-- Append a number of so many bytes, most significant first, at a byte
boundary. -/
def writeAligned (count number : Nat) : Encoder Unit :=
  writeWhole (Octets.be count number)

/-- Move to a byte boundary and append whole bytes; no bytes at all append
nothing. -/
def writeAlignedBytes (source : List UInt8) : Encoder Unit :=
  if source.isEmpty then pure ()
  else do
    align
    makeRoom (8 * source.length)
    put (8 * source.length) fun buffer pos => Bits.setBytes buffer (pos / 8) source

def zeroFill (buffer : Array UInt8) (pos target : Nat) : Option (Array UInt8) := do
  let lead := (8 - pos % 8) % 8
  let buffer ← if lead > 0 then Bits.copyIn buffer pos [0] (min lead (target - pos)) true
    else some buffer
  let start := bytesOfBits pos
  Bits.setBytes buffer start (List.replicate (bytesOfBits target - start) 0)

def padTo (bytes : Nat) : Encoder Unit := do
  let s ← Action.current
  let target := bitsOfBytes bytes
  if target > s.cursor.write then
    let zeros := target - s.cursor.write
    ensure zeros
    put zeros fun buffer pos => zeroFill buffer pos target

/-! ## Moving bits between streams -/

/-- Read from the payload that bits are moved out of.  The state is the stream
they are moved to and the position in the payload. -/
def fromSource (source : Payload) (body : Decoder α) : Action (Stream × Nat) α :=
  Action.onPart Prod.snd (fun s pos => (s.1, pos)) (body source)

/-- Move so many unread bits of a payload to the end of a stream. -/
def moveFrom (source : Payload) (bits : Nat) : Action (Stream × Nat) Unit := do
  fromSource source (Decoder.need bits)
  if bits > 0 then
    let scratch := List.replicate (bytesOfBits bits) 0
    let moved ← fromSource source (Decoder.readBits scratch bits false)
    Action.beside (writeBits moved bits false)

def moveAll (source : Payload) : Action (Stream × Nat) Unit := do
  let bits ← fromSource source Decoder.available
  moveFrom source bits

end Stream

end BitCodec
