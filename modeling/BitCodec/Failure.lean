import BitCodec.Cursor
import BitCodec.Decimal

/-!
# What can go wrong

What can go wrong is of two kinds.  A `Failure` is caused by data: bytes
on the wire, a value that has no encoding, a configuration that does not
parse.  A `Breach` is a broken contract of the caller, such as an aligned
write at an unaligned position; it stops the operation and says what was
demanded.
-/

namespace BitCodec

/-- A failure caused by data. -/
inductive Failure where
  /-- More bits were asked for than are written and unread. -/
  | insufficientPayload (requested available : Nat)
  /-- A value outside its bounds; all three are given as text. -/
  | outOfRange (value min max : String)
  /-- Bounds that make no range. -/
  | invalidRange (reason : String)
  /-- A float, as its 64-bit pattern, that the encoding has no room for. -/
  | floatOutOfRange (value : BitVec 64)
  /-- An address tag other than the two known ones. -/
  | invalidAddressFamily (tag : UInt8)
  /-- A length that is more than the reader accepts. -/
  | lengthLimitExceeded (length limit : Nat)
  /-- Data that no writer produces. -/
  | malformed (reason : String)
  /-- A configuration that cannot be read, written or accepted. -/
  | config (reason : String)
  /-- Diagnostics that cannot be set up. -/
  | logging (reason : String)
  deriving DecidableEq, Repr

namespace Failure

def message : Failure → String
  | .insufficientPayload requested available =>
    s!"Insufficient payload: requested {requested} bits, {available} available"
  | .outOfRange value min max => s!"Value {value} outside range [{min}, {max}]"
  | .invalidRange reason => s!"Invalid range: {reason}"
  | .floatOutOfRange value =>
    s!"Float {Decimal.text value.toNat} outside the normalized range [-1, 1]"
  | .invalidAddressFamily tag => s!"Invalid address family: {tag}"
  | .lengthLimitExceeded length limit => s!"Length prefix {length} exceeds limit {limit}"
  | .malformed reason => s!"Malformed data: {reason}"
  | .config reason => s!"Configuration error: {reason}"
  | .logging reason => s!"Logging error: {reason}"

def isDecodeError : Failure → Bool
  | .config _ | .logging _ => false
  | _ => true

end Failure

/-- A contract that the caller broke. -/
inductive Breach where
  /-- Room for no bits at all was asked for. -/
  | zeroGrowth
  /-- A byte-aligned write at another position. -/
  | unalignedWrite
  /-- A byte-aligned read at another position. -/
  | unalignedRead
  /-- The bytes to be written hold too few bits. -/
  | sourceTooShort (bytes bits : Nat)
  /-- The bytes to be filled hold too few bits. -/
  | destinationTooShort (bytes bits : Nat)
  /-- A message was taken for finished with bits left over. -/
  | notConsumed (bits : Nat)
  /-- An index or a position left its bounds. -/
  | bounds
  /-- A sum of counts left the machine word. -/
  | overflow
  deriving DecidableEq, Repr

namespace Breach

def message : Breach → String
  | .zeroGrowth => "ensure_capacity called with zero additional bits"
  | .unalignedWrite => "aligned write requires a byte-aligned write cursor"
  | .unalignedRead => "aligned read requires a byte-aligned read cursor"
  | .sourceTooShort bytes bits => s!"source holds {bytes} bytes, {bits} bits requested"
  | .destinationTooShort bytes bits => s!"destination holds {bytes} bytes, {bits} bits requested"
  | .notConsumed bits =>
    s!"stream payload not fully consumed: reads did not match writes ({bits} bits left)"
  | .bounds | .overflow => "bounds"

/-- What stops an operation on bytes that are too few for so many bits.  A count
that cannot even be rounded up to bytes comes first. -/
def forCount (bits : Nat) (short : Breach) : Breach :=
  if roundable bits then short else .overflow

end Breach

end BitCodec
