import BitCodec.Octets

/-!
# The eight integer types

A closed list of fixed-width integers.  A value is its two's-complement bit
pattern, so the arithmetic on it wraps; `toInt` is the number it stands for.
-/

namespace BitCodec

/-- The fixed-width integer types. -/
inductive IntType where
  | u8
  | i8
  | u16
  | i16
  | u32
  | i32
  | u64
  | i64
  deriving DecidableEq, Repr

namespace IntType

def all : List IntType :=
  [.u8, .i8, .u16, .i16, .u32, .i32, .u64, .i64]

/-- The name of the type, as error texts give it. -/
def name : IntType → String
  | .u8 => "u8"
  | .i8 => "i8"
  | .u16 => "u16"
  | .i16 => "i16"
  | .u32 => "u32"
  | .i32 => "i32"
  | .u64 => "u64"
  | .i64 => "i64"

def bytes : IntType → Nat
  | .u8 | .i8 => 1
  | .u16 | .i16 => 2
  | .u32 | .i32 => 4
  | .u64 | .i64 => 8

def bits (t : IntType) : Nat :=
  8 * t.bytes

def signed : IntType → Bool
  | .i8 | .i16 | .i32 | .i64 => true
  | .u8 | .u16 | .u32 | .u64 => false

abbrev Value (t : IntType) : Type :=
  BitVec t.bits

def toInt (t : IntType) (value : t.Value) : Int :=
  if t.signed then value.toInt else value.toNat

/-- The pattern of a number, when the type holds it. -/
def ofInt? (t : IntType) (number : Int) : Option t.Value :=
  let value := BitVec.ofInt t.bits number
  if t.toInt value = number then some value else none

def text (t : IntType) (value : t.Value) : String :=
  toString (t.toInt value)

def le (t : IntType) (left right : t.Value) : Bool :=
  decide (t.toInt left ≤ t.toInt right)

/-- Bits from the highest set bit down; zero has none. -/
def significantBits (number : Nat) : Nat :=
  if number = 0 then 0 else number.log2 + 1

/-- Zero bits above the highest set bit of the pattern. -/
def leadingZeros (t : IntType) (value : t.Value) : Nat :=
  t.bits - significantBits value.toNat

/-- The pattern's bytes, most significant first. -/
def toBe (t : IntType) (value : t.Value) : List UInt8 :=
  Octets.be t.bytes value.toNat

/-- The pattern's bytes, least significant first. -/
def toLe (t : IntType) (value : t.Value) : List UInt8 :=
  Octets.le t.bytes value.toNat

/-- The pattern with these bytes, most significant first. -/
def ofBe (t : IntType) (bytes : List UInt8) : t.Value :=
  BitVec.ofNat t.bits (Octets.ofBe bytes)

/-- The pattern with these bytes, least significant first. -/
def ofLe (t : IntType) (bytes : List UInt8) : t.Value :=
  BitVec.ofNat t.bits (Octets.ofLe bytes)

@[simp] theorem ofInt?_toInt (t : IntType) (value : t.Value) :
    t.ofInt? (t.toInt value) = some value := by
  have same : BitVec.ofInt t.bits (t.toInt value) = value := by
    unfold toInt
    split
    · exact BitVec.ofInt_toInt
    · apply BitVec.eq_of_toNat_eq
      simp
  simp [ofInt?, same]

end IntType

end BitCodec
