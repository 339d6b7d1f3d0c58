import BitCodec.Integer

/-!
# The two floating-point types

A value is its IEEE pattern, so that what travels on the wire is exactly what
was put in, payloads of not-a-number included.  Arithmetic happens in the
binary64 format: `toFloat` widens a pattern, which is exact, and `ofFloat`
rounds to the nearest value of the type, ties to even.

Widening and rounding go through the sign, mantissa and exponent of the
number, so they are ordinary functions that a proof can open.
-/

namespace BitCodec

/-- The floating-point types. -/
inductive FloatType where
  | f32
  | f64
  deriving DecidableEq, Repr

namespace FloatType

def bytes : FloatType → Nat
  | .f32 => 4
  | .f64 => 8

def bits (t : FloatType) : Nat :=
  8 * t.bytes

abbrev Value (t : FloatType) : Type :=
  BitVec t.bits

/-- Round a number to another format; zeros, infinities and not-a-number stay
what they are. -/
def convert (target : Float.Model.Format) :
    Float.Model.UnpackedFloat → Float.Model.UnpackedFloat
  | .finite sign mantissa exponent _ =>
    Float.Model.UnpackedFloat.round target sign mantissa exponent
  | other => other

def widen (pattern : BitVec 32) : Float :=
  let number := convert .binary64 (.unpack .binary32 pattern)
  Float.ofBits (UInt64.ofBitVec (number.pack .binary64))

/-- The binary32 pattern nearest to a binary64 number. -/
def narrow (number : Float) : BitVec 32 :=
  (convert .binary32 (.unpack .binary64 number.toBits.toBitVec)).pack .binary32

def toFloat : (t : FloatType) → t.Value → Float
  | .f32, pattern => widen pattern
  | .f64, pattern => Float.ofBits (UInt64.ofBitVec pattern)

/-- The pattern of the type's value nearest to a number. -/
def ofFloat : (t : FloatType) → Float → t.Value
  | .f32, number => narrow number
  | .f64, number => number.toBits.toBitVec

/-- Equality of numbers: both zeros are equal, and not-a-number differs from
everything. -/
def same (t : FloatType) (left right : t.Value) : Bool :=
  t.toFloat left == t.toFloat right

def isNaN (t : FloatType) (pattern : t.Value) : Bool :=
  (t.toFloat pattern).isNaN

end FloatType

/-- The pattern of a number, as failures report it. -/
def patternOf (number : Float) : BitVec 64 :=
  number.toBits.toBitVec

/-- A whole number of at most 64 bits as a float. -/
def floatOfNat (number : Nat) : Float :=
  (UInt64.ofNat number).toFloat

/-- The whole number nearest to a float, halves going up, clamped to the
numbers from zero to a limit.  Not-a-number counts as zero. -/
def nearestUpTo (limit : Nat) (number : Float) : Nat :=
  let whole := number.toUInt64
  let rest := number - whole.toFloat
  min limit (if rest ≥ 0.5 then whole.toNat + 1 else whole.toNat)

/-- Keep a number inside bounds; not-a-number stays. -/
def clampFloat (low high number : Float) : Float :=
  if number < low then low else if number > high then high else number

end BitCodec
