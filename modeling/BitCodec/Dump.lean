import BitCodec.Decoder
import BitCodec.Hex

/-!
# Dumps of a payload

Text for logs and failed tests.  A dump reads the payload and moves nothing.
-/

namespace BitCodec.Dump

/-- The bits from a position on as characters, a blank before every byte but
the first. -/
def bitsFrom (data : Array UInt8) (pos : Nat) : Nat → Option (List Char)
  | 0 => some []
  | count + 1 => do
    let bit ← Bits.getBit data pos
    let rest ← bitsFrom data (pos + 1) count
    let c := if bit then '1' else '0'
    pure (if pos > 0 ∧ pos % 8 = 0 then ' ' :: c :: rest else c :: rest)

/-- The written bits, in groups of eight. -/
def bitText : Decoder String := do
  let p ← Decoder.payload
  let cs ← Decoder.inBounds (bitsFrom p.data 0 p.bits)
  pure (String.ofList cs)

def hexFrom (start : Nat) : Decoder String := do
  let p ← Decoder.payload
  Decoder.demand (start ≤ p.writtenBytes) .bounds
  let bytes ← Decoder.inBounds (Bits.getBytes p.data start (p.writtenBytes - start))
  pure (Hex.encode bytes)

def hexText : Decoder String :=
  hexFrom 0

/-- The bytes from the one that holds the read position on, in hexadecimal. -/
def unreadHexText : Decoder String := do
  hexFrom ((← Decoder.position) / 8)

end BitCodec.Dump
