import BitCodec.FloatType
import BitCodec.Stream

/-!
# Primitive values on the wire

The closed list of types with a fixed wire form.  Numbers travel most
significant byte first, a boolean is one bit, a 24-bit number three bytes.  A
socket address is a tag for its family, its octets and its port; the octets of
an IPv4 address are complemented, so that boxes on the way which rewrite
addresses do not recognise it.  What an IPv6 address has beside these, its flow
and its scope, means something to its own host only and does not travel.
-/

namespace BitCodec

/-- An internet address. -/
inductive IpAddress where
  | v4 (octets : BitVec 32)
  | v6 (octets : BitVec 128)
  deriving DecidableEq, Repr

/-- An internet address with a port.  An IPv6 one may belong to a flow and to a
scope, such as one network interface; zero is none. -/
inductive SocketAddress where
  | v4 (octets : BitVec 32) (port : BitVec 16)
  | v6 (octets : BitVec 128) (port : BitVec 16) (flow scope : BitVec 32)
  deriving DecidableEq, Repr

namespace SocketAddress

/-- The address in no flow and no scope. -/
def new : IpAddress → BitVec 16 → SocketAddress
  | .v4 octets, port => v4 octets port
  | .v6 octets, port => v6 octets port 0 0

def ip : SocketAddress → IpAddress
  | v4 octets _ => .v4 octets
  | v6 octets _ _ _ => .v6 octets

def port : SocketAddress → BitVec 16
  | v4 _ port => port
  | v6 _ port _ _ => port

end SocketAddress

def v4Tag : Nat := 4

def v6Tag : Nat := 6

abbrev U24 : Type :=
  BitVec 24

namespace U24

/-- The largest 24-bit number. -/
def max : Nat :=
  (1 <<< 24) - 1

/-- The number, when it needs no more than 24 bits. -/
def ofNat? (number : Nat) : Option U24 :=
  if number ≤ max then some (BitVec.ofNat 24 number) else none

def truncate (number : Nat) : U24 :=
  BitVec.ofNat 24 number

end U24

/-- The types with a fixed wire form. -/
inductive Prim where
  | int (t : IntType)
  | bool
  | float (t : FloatType)
  | u24
  | address
  deriving DecidableEq, Repr

namespace Prim

abbrev Value : Prim → Type
  | .int t => t.Value
  | .bool => Bool
  | .float t => t.Value
  | .u24 => U24
  | .address => SocketAddress

/-- Equality as the type understands it: floats compare as numbers. -/
def same : (t : Prim) → t.Value → t.Value → Bool
  | .int _, left, right => left == right
  | .bool, left, right => left == right
  | .float t, left, right => t.same left right
  | .u24, left, right => left == right
  | .address, left, right => left == right

/-- Whether a change is sent as the value alone, without a presence bit. -/
def direct : Prim → Bool
  | .bool => true
  | _ => false

/-- Append a bit pattern of whole bytes, most significant byte first. -/
def writePattern (count : Nat) {width : Nat} (value : BitVec width) : Encoder Unit :=
  Stream.writeBits (Octets.be count value.toNat) (8 * count) true

/-- Read a bit pattern of whole bytes, most significant byte first. -/
def readPattern (count width : Nat) : Decoder (BitVec width) := do
  let bytes ← Decoder.readBits (List.replicate count 0) (8 * count) true
  pure (BitVec.ofNat width (Octets.ofBe bytes))

def writeAddress (a : SocketAddress) : Encoder Unit := do
  match a.ip with
  | .v4 octets =>
    writePattern 1 (BitVec.ofNat 8 v4Tag)
    writePattern 4 (~~~octets)
  | .v6 octets =>
    writePattern 1 (BitVec.ofNat 8 v6Tag)
    writePattern 16 octets
  writePattern 2 a.port

/-- Read an address.  One that is cut short or of an unknown family leaves the
position where it was. -/
def readAddress : Decoder SocketAddress :=
  Decoder.rewinding do
    let tag ← readPattern 1 8
    let ip ←
      if tag.toNat = v4Tag then do
        pure (IpAddress.v4 (~~~(← readPattern 4 32)))
      else if tag.toNat = v6Tag then do
        pure (IpAddress.v6 (← readPattern 16 128))
      else Decoder.fail (.invalidAddressFamily (UInt8.ofNat tag.toNat))
    let port ← readPattern 2 16
    pure (SocketAddress.new ip port)

/-- Append a value in its fixed form. -/
def write : (t : Prim) → t.Value → Encoder Unit
  | .int t, value => writePattern t.bytes value
  | .bool, bit => Stream.writeBit bit
  | .float t, value => writePattern t.bytes value
  | .u24, value => writePattern 3 value
  | .address, a => writeAddress a

/-- Read a value in its fixed form. -/
def read : (t : Prim) → Decoder t.Value
  | .int t => readPattern t.bytes t.bits
  | .bool => Decoder.readBit
  | .float t => readPattern t.bytes t.bits
  | .u24 => readPattern 3 24
  | .address => readAddress

end Prim

namespace IntType

/-- A value with both bounds given as the name of a type that cannot hold
it. -/
def misfit (shown : String) (target : IntType) : Failure :=
  .outOfRange shown target.name target.name

/-- Append a value in the form of another integer type, when that one holds
it. -/
def writeCasted (wire t : IntType) (value : t.Value) : Encoder Unit :=
  match wire.ofInt? (t.toInt value) with
  | some narrowed => Prim.write (.int wire) narrowed
  | none => Action.fail (misfit (t.text value) wire)

/-- Read a value in the form of another integer type, when this one holds
it. -/
def readCasted (wire t : IntType) : Decoder t.Value := do
  let value ← Prim.read (.int wire)
  match t.ofInt? (wire.toInt value) with
  | some widened => pure widened
  | none => Decoder.fail (misfit (wire.text value) t)

end IntType

end BitCodec
