/-!
# Bit positions

Two positions over one run of bits, counted from the most significant bit of
byte zero: where the next bit is written and where the next bit is read.  The
bits in between are the unread payload.  How much room there is behind the
write position is the owner's business.

Counts are 64-bit words.  One that counts bits or bytes at hand is exact: no
memory holds more than a word can count.  A number that comes from the caller
alone may be any word, and what is computed from it may leave the word.  Sums are
checked, as a default build does: one that leaves the word stops the operation
before anything is changed.  Multiplying by eight is a shift, which no build
checks, and silently loses the bits above the word.
-/

namespace BitCodec

/-- The first number that a word cannot hold. -/
def wordEnd : Nat :=
  1 <<< 64

/-- Bytes that hold so many bits; a partial byte counts.  The sum has to stay
in the word, see `roundable`. -/
def bytesOfBits (bits : Nat) : Nat :=
  (bits + 7) / 8

/-- Whether a count of bits can be rounded up to bytes within the word. -/
def roundable (bits : Nat) : Bool :=
  bits + 7 < wordEnd

/-- Bits in so many bytes; the bits above the word are lost. -/
def bitsOfBytes (bytes : Nat) : Nat :=
  8 * bytes % wordEnd

def alignUp (bits : Nat) : Nat :=
  (bits + 7) / 8 * 8

/-- The next bit to be written and the next bit to be read. -/
structure Cursor where
  write : Nat
  read : Nat
  deriving DecidableEq, Repr

namespace Cursor

def start : Cursor :=
  ⟨0, 0⟩

/-- So many bits written, none of them read. -/
def written (bits : Nat) : Cursor :=
  ⟨bits, 0⟩

/-- Bits written and not yet read. -/
def payload (c : Cursor) : Nat :=
  c.write - c.read

def writtenBytes (c : Cursor) : Nat :=
  bytesOfBits c.write

def writeAligned (c : Cursor) : Bool :=
  c.write % 8 == 0

def readAligned (c : Cursor) : Bool :=
  c.read % 8 == 0

/-- Ways of rewinding. -/
inductive Rewind where
  | both
  | write
  | read
  deriving DecidableEq, Repr

/-- Rewinding the write position takes the read position along, which never
stays beyond the written bits. -/
def rewind (c : Cursor) : Rewind → Cursor
  | .both | .write => start
  | .read => { c with read := 0 }

end Cursor

end BitCodec
