import BitCodec.Mini

/-!
# Values in a range

An integer known to lie in a range needs only as many bits as it takes to
count from the lower end to the upper end.  Its offset goes out least
significant byte first, the partial byte at the low end.  Where values may
fall outside now and then, an escape bit comes first, and a one bit announces
the full value in its mini code.

A float in a range is one of 65536 steps.
-/

namespace BitCodec

/-- Bits that tell the values between two bounds apart.  With the bounds in
the wrong order the difference wraps. -/
def widthBetween (t : IntType) (min max : t.Value) : Nat :=
  t.bits - t.leadingZeros (max - min)

/-- A range of integers whose bounds are in order. -/
structure IntRange (t : IntType) where
  min : t.Value
  max : t.Value
  ordered : t.toInt min ≤ t.toInt max

namespace IntRange

variable {t : IntType}

def between (t : IntType) (min max : t.Value) : Except Failure (IntRange t) :=
  if ordered : t.toInt min ≤ t.toInt max then .ok ⟨min, max, ordered⟩
  else .error (.invalidRange
    s!"range maximum is below its minimum: [{t.text min}, {t.text max}]")

def bits (r : IntRange t) : Nat :=
  widthBetween t r.min r.max

def contains (r : IntRange t) (value : t.Value) : Bool :=
  t.le r.min value && t.le value r.max

def outOfRange (r : IntRange t) (value : t.Value) : Failure :=
  .outOfRange (t.text value) (t.text r.min) (t.text r.max)

/-- Append a value.  One outside the range is sent in full behind an escape
bit when that is allowed, and is refused when it is not. -/
def write (r : IntRange t) (value : t.Value) (escape : Bool) : Encoder Unit := do
  let inside := r.contains value
  if escape then
    Stream.writeBit (!inside)
  if inside then
    Stream.writeBits (t.toLe (value - r.min)) r.bits true
  else if escape then
    Action.emit (.rangeEscaped (t.text value) (t.text r.min) (t.text r.max))
    Mini.writeInt t value
  else Action.fail (r.outOfRange value)

/-- Read an offset and add it to the lower bound; what then lies outside the
range is refused. -/
def readOffset (r : IntRange t) : Decoder t.Value := do
  let bytes ← Decoder.readBits (List.replicate t.bytes 0) r.bits true
  let value := t.ofLe bytes + r.min
  if r.contains value then pure value
  else
    Decoder.emit .valueRejected
    Decoder.fail (r.outOfRange value)

def read (r : IntRange t) (escape : Bool) : Decoder t.Value := do
  if escape then
    if ← Decoder.readBit then Mini.readInt t else r.readOffset
  else r.readOffset

end IntRange

namespace Ranged

def write (t : IntType) (value min max : t.Value) (escape : Bool) : Encoder Unit :=
  match IntRange.between t min max with
  | .ok r => r.write value escape
  | .error e => Action.fail e

def read (t : IntType) (min max : t.Value) (escape : Bool) : Decoder t.Value :=
  match IntRange.between t min max with
  | .ok r => r.read escape
  | .error e => Decoder.fail e

/-! ## Floats -/

def degenerate (low high : Float) : Failure :=
  let lowText := Decimal.text low.toBits.toNat
  let highText := Decimal.text high.toBits.toNat
  .invalidRange s!"float range must satisfy min < max: [{lowText}, {highText}]"

def toStep (number low high : Float) : Nat :=
  nearestUpTo 65535 (65535.0 * (number - low) / (high - low))

def ofStep (step : Nat) (low high : Float) : Float :=
  clampFloat low high (low + (high - low) * (floatOfNat step / 65535.0))

def writeNumber (number low high : Float) : Encoder Unit :=
  if low < high then
    if number.isNaN then Action.fail (.floatOutOfRange (patternOf number))
    else Prim.write (.int .u16) (BitVec.ofNat 16 (toStep number low high))
  else Action.fail (degenerate low high)

/-- Read a number as a step between two others.  Clamping demands bounds that
are in order. -/
def readNumber (low high : Float) : Decoder Float :=
  if low < high then do
    let step ← Prim.read (.int .u16)
    Decoder.demand (low ≤ high) .bounds
    pure (ofStep step.toNat low high)
  else Decoder.fail (degenerate low high)

def writeFloat (t : FloatType) (value min max : t.Value) : Encoder Unit :=
  writeNumber (t.toFloat value) (t.toFloat min) (t.toFloat max)

def readFloat (t : FloatType) (min max : t.Value) : Decoder t.Value := do
  pure (t.ofFloat (← readNumber (t.toFloat min) (t.toFloat max)))

end Ranged

end BitCodec
