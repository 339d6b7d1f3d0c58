import BitCodec.Primitive

/-!
# Mini codes

An integer without its insignificant high bytes.  Each significant byte, least
significant first, is a one bit and the byte; a zero bit ends the code, and is
left out when the type has no more bytes to send:

    0 (u32)       0
    42 (u32)      1 00101010 0
    65535 (u16)   1 11111111 1 11111111

Read as unsigned, the missing bytes are zero and a negative number sends every
byte.  The signed form stops at the shortest two's-complement string instead
and fills up with the sign.

A 24-bit number is sent as a mini `u32`; an address as a mini tag, its octets
(IPv4 as a complemented mini `u32`, IPv6 raw) and a mini port.  A float in
[-1, 1] becomes fixed point: `f32` a mini `u16`, `f64` a mini `u32` on a scale
of 2^31 that saturates at its end.
-/

namespace BitCodec.Mini

/-! ## Marked bytes -/

/-- Append bytes, each behind a one bit. -/
def sendMarked : List UInt8 → Encoder Unit
  | [] => pure ()
  | byte :: rest => do
    Stream.writeBit true
    Stream.writeBits [byte] 8 true
    sendMarked rest

/-- Append marked bytes, and the closing zero bit if they are fewer than
`width`. -/
def writeMarked (width : Nat) (bytes : List UInt8) : Encoder Unit := do
  sendMarked bytes
  if bytes.length < width then Stream.writeBit false

/-- Read marked bytes, up to the closing zero bit or `width` of them. -/
def readMarked : Nat → Decoder (List UInt8)
  | 0 => pure []
  | width + 1 => do
    if ← Decoder.readBit then
      let bytes ← Decoder.readBits [0] 8 true
      pure (bytes ++ (← readMarked width))
    else pure []

/-! ## Integers -/

/-- Bytes of an integer that are not zero bytes at its high end. -/
def significantBytes (t : IntType) (value : t.Value) : Nat :=
  t.bytes - t.leadingZeros value / 8

/-- Append an integer without its high zero bytes. -/
def writeInt (t : IntType) (value : t.Value) : Encoder Unit :=
  writeMarked t.bytes ((t.toLe value).take (significantBytes t value))

def readInt (t : IntType) : Decoder t.Value := do
  pure (t.ofLe (← readMarked t.bytes))

def signBit (byte : UInt8) : Bool :=
  byte &&& 0x80 != 0

/-- Drop the bytes at the high end, here the front, that only repeat the sign.
A lone zero byte goes too, a lone byte of a negative number stays. -/
def dropSign (negative : Bool) : List UInt8 → List UInt8
  | [] => []
  | [byte] => if byte = 0 ∧ !negative then [] else [byte]
  | high :: next :: rest =>
    if high = (if negative then 0xFF else 0) ∧ signBit next = negative then
      dropSign negative (next :: rest)
    else high :: next :: rest

/-- The shortest two's-complement string of a number, least significant byte
first. -/
def signedBytes (le : List UInt8) : List UInt8 :=
  (dropSign (le.getLast?.any signBit) le.reverse).reverse

/-- Append an integer without the high bytes that repeat its sign. -/
def writeSigned (t : IntType) (value : t.Value) : Encoder Unit :=
  writeMarked t.bytes (signedBytes (t.toLe value))

/-- Fill a byte string up to a width with its sign. -/
def extendSign (width : Nat) (le : List UInt8) : List UInt8 :=
  le ++ List.replicate (width - le.length) (if le.getLast?.any signBit then 0xFF else 0)

def readSigned (t : IntType) : Decoder t.Value := do
  pure (t.ofLe (extendSign t.bytes (← readMarked t.bytes)))

/-! ## Addresses and 24-bit numbers -/

def writeAddress (a : SocketAddress) : Encoder Unit := do
  match a.ip with
  | .v4 octets =>
    writeInt .u8 (BitVec.ofNat 8 v4Tag)
    writeInt .u32 (~~~octets)
  | .v6 octets =>
    writeInt .u8 (BitVec.ofNat 8 v6Tag)
    Prim.writePattern 16 octets
  writeInt .u16 a.port

/-- Read an address.  One that is cut short or of an unknown family leaves the
position where it was. -/
def readAddress : Decoder SocketAddress :=
  Decoder.rewinding do
    let tag ← readInt .u8
    let ip ←
      if tag.toNat = v4Tag then do
        let hidden ← readInt .u32
        pure (IpAddress.v4 (~~~hidden))
      else if tag.toNat = v6Tag then do
        pure (IpAddress.v6 (← Prim.readPattern 16 128))
      else Decoder.fail (.invalidAddressFamily (UInt8.ofNat tag.toNat))
    let port ← readInt .u16
    pure (SocketAddress.new ip port)

def writeU24 (value : U24) : Encoder Unit :=
  writeInt .u32 (value.setWidth 32)

/-- Read a 24-bit number.  One that is cut short or has more bits leaves the
position where it was. -/
def readU24 : Decoder U24 :=
  Decoder.rewinding do
    let value ← readInt .u32
    match U24.ofNat? value.toNat with
    | some number => pure number
    | none =>
      Decoder.fail (.outOfRange (toString value.toNat) (toString 0) (toString U24.max))

/-! ## Fixed point -/

/-- The largest magnitude that is taken for 1. -/
def floatLimit : Float :=
  1.01

/-- A number clamped to [-1, 1], when it is at most a little outside. -/
def nearUnit (number : Float) : Except Failure Float :=
  if number.abs ≤ floatLimit then .ok (clampFloat (-1.0) 1.0 number)
  else .error (.floatOutOfRange (patternOf number))

/-- The fixed-point number for a number in [-1, 1]. -/
def toFixed : (t : FloatType) → Float → Nat
  | .f32, unit => nearestUpTo 65535 ((unit + 1.0) * 32767.5)
  | .f64, unit => nearestUpTo 4294967295 ((unit + 1.0) * 2147483648.0)

/-- The number for a fixed-point number. -/
def ofFixed : (t : FloatType) → Nat → t.Value
  | .f32, fixed => FloatType.f32.ofFloat (floatOfNat fixed / 32767.5 - 1.0)
  | .f64, fixed => FloatType.f64.ofFloat (floatOfNat fixed / 2147483648.0 - 1.0)

/-- The integer type that carries a fixed-point number. -/
def carrier : FloatType → IntType
  | .f32 => .u16
  | .f64 => .u32

/-- Append a number in [-1, 1]. -/
def writeFloat (t : FloatType) (value : t.Value) : Encoder Unit :=
  match nearUnit (t.toFloat value) with
  | .ok unit => writeInt (carrier t) (BitVec.ofNat (carrier t).bits (toFixed t unit))
  | .error e => Action.fail e

/-- Read a number in [-1, 1]. -/
def readFloat (t : FloatType) : Decoder t.Value := do
  let fixed ← readInt (carrier t)
  pure (ofFixed t fixed.toNat)

/-! ## All primitive types -/

/-- The reason why a value has no mini code, if it has none. -/
def check : (t : Prim) → t.Value → Except Failure Unit
  | .float t, value => (nearUnit (t.toFloat value)).map fun _ => ()
  | _, _ => .ok ()

def write : (t : Prim) → t.Value → Encoder Unit
  | .int t, value => writeInt t value
  | .bool, bit => Stream.writeBit bit
  | .float t, value => writeFloat t value
  | .u24, value => writeU24 value
  | .address, a => writeAddress a

def read : (t : Prim) → Decoder t.Value
  | .int t => readInt t
  | .bool => Decoder.readBit
  | .float t => readFloat t
  | .u24 => readU24
  | .address => readAddress

end BitCodec.Mini
