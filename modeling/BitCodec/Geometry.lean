import BitCodec.Ranged

/-!
# Vectors, rotations and matrices

    unit vector     0 and three steps between -1 and 1, or
                    1, the axis in two bits, and a sign bit
    vector          the length as f32, then mini components of the direction
                    unless the length is next to nothing
    rotation        four sign bits, then the sizes of x, y and z as mini u16
    matrix          the rotation it performs

A rotation is a unit quaternion; the size of its first component follows from
the other three.  Arithmetic happens in binary64; the element type decides the
width of mini components and how results are rounded.
-/

namespace BitCodec

/-- Three components. -/
structure Vec3 (α : Type) where
  x : α
  y : α
  z : α
  deriving DecidableEq, Repr

namespace Vec3

def map {α β : Type} (f : α → β) (v : Vec3 α) : Vec3 β :=
  ⟨f v.x, f v.y, f v.z⟩

def toList {α : Type} (v : Vec3 α) : List α :=
  [v.x, v.y, v.z]

def read {α : Type} (component : Decoder α) : Decoder (Vec3 α) := do
  let x ← component
  let y ← component
  let z ← component
  pure ⟨x, y, z⟩

end Vec3

/-- A quaternion, its real component first. -/
structure Quaternion (α : Type) where
  w : α
  x : α
  y : α
  z : α
  deriving DecidableEq, Repr

namespace Quaternion

def map {α β : Type} (f : α → β) (q : Quaternion α) : Quaternion β :=
  ⟨f q.w, f q.x, f q.y, f q.z⟩

def toList {α : Type} (q : Quaternion α) : List α :=
  [q.w, q.x, q.y, q.z]

end Quaternion

abbrev Matrix3 (α : Type) : Type :=
  Vec3 (Vec3 α)

namespace Geometry

/-! ## Arithmetic -/

/-- A length in f32 at or below which a vector counts as zero: the pattern of
0.00001. -/
def minLength : FloatType.f32.Value :=
  0x3727c5ac#32

/-- How far from 1 a component along an axis may be. -/
def axisTolerance : Float :=
  1e-4

/-- How far from 0 the components beside an axis may be. -/
def offAxisTolerance : Float :=
  1e-6

/-- The larger of a number and zero; not-a-number counts as zero. -/
def atLeastZero (number : Float) : Float :=
  if number > 0.0 then number else 0.0

/-- The size of one number with the sign bit of another. -/
def withSignOf (sign size : Float) : Float :=
  if sign.toBits ≥ 0x8000000000000000 then -size.abs else size.abs

/-- Whether a component counts as 1 or -1. -/
def isUnit (number : Float) : Bool :=
  (number.abs - 1.0).abs < axisTolerance

/-- Whether a component counts as 0. -/
def isNought (number : Float) : Bool :=
  number.abs < offAxisTolerance

/-- The axis that a unit vector lies along, by number, and whether it points
backwards.  The first component next to 1 in size decides. -/
def axisOf (v : Vec3 Float) : Option (Nat × Bool) :=
  if isUnit v.x then
    if isNought v.y && isNought v.z then some (0, v.x < 0.0) else none
  else if isUnit v.y then
    if isNought v.x && isNought v.z then some (1, v.y < 0.0) else none
  else if isUnit v.z then
    if isNought v.x && isNought v.y then some (2, v.z < 0.0) else none
  else none

def alongAxis (axis : Nat) (number : Float) : Option (Vec3 Float) :=
  match axis with
  | 0 => some ⟨number, 0.0, 0.0⟩
  | 1 => some ⟨0.0, number, 0.0⟩
  | 2 => some ⟨0.0, 0.0, number⟩
  | _ => none

def length (v : Vec3 Float) : Float :=
  (v.x * v.x + v.y * v.y + v.z * v.z).sqrt

/-- The matrix of a rotation, whatever the quaternion's length; the zero
quaternion turns nothing. -/
def matrixOf (q : Quaternion Float) : Matrix3 Float :=
  let size := (q.w * q.w + q.x * q.x + q.y * q.y + q.z * q.z).sqrt
  let ⟨w, x, y, z⟩ := if size > 0.0 then q.map (· / size) else ⟨1.0, 0.0, 0.0, 0.0⟩
  ⟨⟨1.0 - 2.0 * (y * y + z * z), 2.0 * (x * y - z * w), 2.0 * (x * z + y * w)⟩,
    ⟨2.0 * (x * y + z * w), 1.0 - 2.0 * (x * x + z * z), 2.0 * (y * z - x * w)⟩,
    ⟨2.0 * (x * z - y * w), 2.0 * (y * z + x * w), 1.0 - 2.0 * (x * x + y * y)⟩⟩

/-- The quaternion of a rotation matrix, from its trace. -/
def rotationOf (m : Matrix3 Float) : Quaternion Float :=
  let half (number : Float) : Float := (atLeastZero number).sqrt / 2.0
  let w := half (1.0 + m.x.x + m.y.y + m.z.z)
  let x := half (1.0 + m.x.x - m.y.y - m.z.z)
  let y := half (1.0 - m.x.x + m.y.y - m.z.z)
  let z := half (1.0 - m.x.x - m.y.y + m.z.z)
  ⟨w, withSignOf (m.z.y - m.y.z) x, withSignOf (m.x.z - m.z.x) y,
    withSignOf (m.y.x - m.x.y) z⟩

/-- Refuse the first number that is not in [-1, 1] or next to it. -/
def checkNearUnits : List Float → Except Failure Unit
  | [] => .ok ()
  | number :: rest =>
    match Mini.nearUnit number with
    | .ok _ => checkNearUnits rest
    | .error e => .error e

/-- Carry on when a check passed. -/
def passing (check : Except Failure Unit) (body : Encoder Unit) : Encoder Unit :=
  match check with
  | .ok () => body
  | .error e => Action.fail e

/-! ## Writing -/

def writeUnitVector (v : Vec3 Float) : Encoder Unit :=
  passing (checkNearUnits v.toList) do
    match axisOf v with
    | some (axis, backwards) =>
      Stream.writeBit true
      Stream.writeBits [UInt8.ofNat axis] 2 true
      Stream.writeBit backwards
    | none =>
      Stream.writeBit false
      Ranged.writeNumber v.x (-1.0) 1.0
      Ranged.writeNumber v.y (-1.0) 1.0
      Ranged.writeNumber v.z (-1.0) 1.0

def writeVector (t : FloatType) (v : Vec3 Float) : Encoder Unit := do
  let size := length v
  if !size.isFinite then Action.fail (.floatOutOfRange (patternOf size))
  else
    let wire := FloatType.f32.ofFloat size
    if (FloatType.f32.toFloat wire).isInf then
      Action.fail (.floatOutOfRange (patternOf size))
    else
      Prim.write (.float .f32) wire
      if FloatType.f32.toFloat wire > FloatType.f32.toFloat minLength then
        Mini.writeFloat t (t.ofFloat (v.x / size))
        Mini.writeFloat t (t.ofFloat (v.y / size))
        Mini.writeFloat t (t.ofFloat (v.z / size))

/-- The size of a component of a rotation, in steps. -/
def toFraction (number : Float) : Nat :=
  let size := number.abs
  nearestUpTo 65535 ((if size > 1.0 then 1.0 else size) * 65535.0)

def writeRotation (q : Quaternion Float) : Encoder Unit :=
  passing (checkNearUnits q.toList) do
    Stream.writeBit (q.w < 0.0)
    Stream.writeBit (q.x < 0.0)
    Stream.writeBit (q.y < 0.0)
    Stream.writeBit (q.z < 0.0)
    Mini.writeInt .u16 (BitVec.ofNat 16 (toFraction q.x))
    Mini.writeInt .u16 (BitVec.ofNat 16 (toFraction q.y))
    Mini.writeInt .u16 (BitVec.ofNat 16 (toFraction q.z))

def writeMatrix (m : Matrix3 Float) : Encoder Unit :=
  passing (checkNearUnits (m.toList.flatMap Vec3.toList)) (writeRotation (rotationOf m))

/-! ## Reading -/

def readAxis : Decoder (Vec3 Float) := do
  let bytes ← Decoder.readBits [0] 2 true
  let axis := Octets.ofLe bytes
  if axis > 2 then
    Decoder.fail (.malformed s!"axis-aligned vector carries an invalid axis index: {axis}")
  else
    let backwards ← Decoder.readBit
    Decoder.inBounds (alongAxis axis (if backwards then -1.0 else 1.0))

def readUnitVector : Decoder (Vec3 Float) := do
  if ← Decoder.readBit then readAxis
  else Vec3.read (Ranged.readNumber (-1.0) 1.0)

def readVector (t : FloatType) : Decoder (Vec3 Float) := do
  let wire ← Prim.read (.float .f32)
  let size := FloatType.f32.toFloat wire
  if size ≤ FloatType.f32.toFloat minLength then pure ⟨0.0, 0.0, 0.0⟩
  else
    let direction ← Vec3.read (Mini.readFloat t)
    pure (direction.map fun component => t.toFloat component * size)

/-- The rotation with these sizes of x, y and z and these signs. -/
def rotationWith (signs : Quaternion Bool) (x y z : Float) : Quaternion Float :=
  let w := (atLeastZero (1.0 - x * x - y * y - z * z)).sqrt
  let signed (negative : Bool) (size : Float) : Float := if negative then -size else size
  ⟨signed signs.w w, signed signs.x x, signed signs.y y, signed signs.z z⟩

def readFraction : Decoder Float := do
  let fraction ← Mini.readInt .u16
  pure (floatOfNat fraction.toNat / 65535.0)

def readRotation : Decoder (Quaternion Float) := do
  let w ← Decoder.readBit
  let signs ← Vec3.read Decoder.readBit
  let sizes ← Vec3.read readFraction
  pure (rotationWith ⟨w, signs.x, signs.y, signs.z⟩ sizes.x sizes.y sizes.z)

def readMatrix : Decoder (Matrix3 Float) := do
  pure (matrixOf (← readRotation))

end Geometry

end BitCodec
