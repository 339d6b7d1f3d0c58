/-!
# Copying bits in and out of a packed buffer

Inside a buffer bits are packed most significant first and without gaps.  A
caller's bytes hold whole bytes followed by at most one partial byte, whose
bits sit at its low end (`right`) or at its high end.

Every operation checks its indices: `none` says that the buffer, or the
caller's byte string, was too short for the bits asked for.
-/

namespace BitCodec.Bits

/-- The top `count` bits of a byte, for a count of one to eight. -/
def highMask (count : Nat) : UInt8 :=
  UInt8.ofNat (0xFF00 >>> count)

def setByte (buffer : Array UInt8) (index : Nat) (byte : UInt8) : Option (Array UInt8) :=
  if inside : index < buffer.size then some (buffer.set index byte inside) else none

/-- Put the top `count` bits of a byte at a position.  The bits before the
position are kept; the rest of a touched byte is overwritten, so that nothing
an earlier run left behind shows through. -/
def place (buffer : Array UInt8) (pos count : Nat) (byte : UInt8) : Option (Array UInt8) :=
  let index := pos / 8
  let offset := pos % 8
  if offset = 0 then setByte buffer index byte
  else do
    let old ← buffer[index]?
    let kept := old &&& ~~~((0xFF : UInt8) >>> UInt8.ofNat offset)
    let buffer ← setByte buffer index (kept ||| byte >>> UInt8.ofNat offset)
    if offset + count > 8 then setByte buffer (index + 1) (byte <<< UInt8.ofNat (8 - offset))
    else some buffer

/-- The bits a caller's byte contributes, moved to its high end. -/
def gather (byte : UInt8) (count : Nat) (right : Bool) : UInt8 :=
  let byte := if count < 8 && right then byte <<< UInt8.ofNat (8 - count) else byte
  byte &&& highMask count

/-- Copy `bits` bits of a caller's bytes into a buffer from a position on. -/
def copyIn (buffer : Array UInt8) (pos : Nat) :
    List UInt8 → Nat → Bool → Option (Array UInt8)
  | [], bits, _ => if bits = 0 then some buffer else none
  | byte :: rest, bits, right =>
    if bits = 0 then some buffer
    else do
      let count := min bits 8
      let buffer ← place buffer pos count (gather byte count right)
      copyIn buffer (pos + count) rest (bits - count) right

/-- The `count` bits at a position, at the high end of a byte.  The second
byte is looked at only when some of the bits are in it. -/
def pick (buffer : Array UInt8) (pos count : Nat) : Option UInt8 := do
  let index := pos / 8
  let offset := pos % 8
  let first ← buffer[index]?
  let high := first <<< UInt8.ofNat offset
  if offset ≠ 0 ∧ offset + count > 8 then
    let second ← buffer[index + 1]?
    pure ((high ||| second >>> UInt8.ofNat (8 - offset)) &&& highMask count)
  else
    pure (high &&& highMask count)

/-- Bits at the high end of a byte, moved to where the caller wants them. -/
def scatter (byte : UInt8) (count : Nat) (right : Bool) : UInt8 :=
  if count < 8 && right then byte >>> UInt8.ofNat (8 - count) else byte

/-- Copy `bits` bits of a buffer, from a position on, over the front of a
caller's bytes; the bytes behind them are kept. -/
def copyOut (buffer : Array UInt8) (pos : Nat) :
    List UInt8 → Nat → Bool → Option (List UInt8)
  | [], bits, _ => if bits = 0 then some [] else none
  | old :: rest, bits, right =>
    if bits = 0 then some (old :: rest)
    else do
      let count := min bits 8
      let byte ← pick buffer pos count
      let rest ← copyOut buffer (pos + count) rest (bits - count) right
      pure (scatter byte count right :: rest)

/-- Write one bit.  The first bit of a byte clears the rest of that byte. -/
def putBit (buffer : Array UInt8) (pos : Nat) (bit : Bool) : Option (Array UInt8) :=
  let index := pos / 8
  let offset := pos % 8
  let mask := (0x80 : UInt8) >>> UInt8.ofNat offset
  if offset = 0 then setByte buffer index (if bit then mask else 0)
  else do
    let old ← buffer[index]?
    setByte buffer index (if bit then old ||| mask else old &&& ~~~mask)

def getBit (buffer : Array UInt8) (pos : Nat) : Option Bool := do
  let byte ← buffer[pos / 8]?
  pure (byte &&& (0x80 : UInt8) >>> UInt8.ofNat (pos % 8) != 0)

/-- Copy whole bytes over a buffer from an index on. -/
def setBytes (buffer : Array UInt8) (index : Nat) : List UInt8 → Option (Array UInt8)
  | [] => some buffer
  | byte :: rest => do
    let buffer ← setByte buffer index byte
    setBytes buffer (index + 1) rest

/-- The `count` whole bytes of a buffer from an index on. -/
def getBytes (buffer : Array UInt8) (index : Nat) : Nat → Option (List UInt8)
  | 0 => some []
  | count + 1 => do
    let byte ← buffer[index]?
    let rest ← getBytes buffer (index + 1) count
    pure (byte :: rest)

end BitCodec.Bits
