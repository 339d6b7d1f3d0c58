/-!
# The shortest decimal of a binary fraction

A positive binary floating-point number stands for every real that rounds to
it.  Its text is the shortest decimal in that interval, and among the shortest
the one nearest to the number; an exact tie goes up.  All of it is arithmetic
on whole numbers: the number is `mantissa * 2 ^ exponent`, and one grid of
decimals after another is searched for a point inside the interval.

The text is always positional: no exponent, and no point in a whole number.
-/

namespace BitCodec.Decimal

/-- A finite positive number of the binary64 format. -/
structure Binary where
  mantissa : Nat
  exponent : Int
  deriving Repr

namespace Binary

/-- The magnitude in a 64-bit pattern with its sign bit cleared, when that is
finite and not zero. -/
def ofBits? (bits : Nat) : Option Binary :=
  let fraction := bits % (1 <<< 52)
  let biased : Nat := (bits >>> 52) % (1 <<< 11)
  if biased = 2047 then none
  else if biased = 0 then
    if fraction = 0 then none else some ⟨fraction, -1074⟩
  else some ⟨(1 <<< 52) + fraction, (biased : Int) - 1075⟩

/-- The interval of reals that round to the number, over a common denominator,
with the number itself in the middle: lower end, number, upper end,
denominator.  Below a power of two the neighbour is only half as far away. -/
def interval (b : Binary) : Nat × Nat × Nat × Nat :=
  let low := if b.mantissa = 1 <<< 52 ∧ -1074 < b.exponent then 4 * b.mantissa - 1
    else 4 * b.mantissa - 2
  let high := 4 * b.mantissa + 2
  let exponent := b.exponent - 2
  let scale := 1 <<< exponent.toNat
  (low * scale, 4 * b.mantissa * scale, high * scale, 1 <<< (-exponent).toNat)

/-- Whether a number over the denominator is inside the interval; its ends
count when the mantissa is even. -/
def admits (b : Binary) (numerator denominator : Nat) : Bool :=
  let (low, _, high, scale) := b.interval
  let value := numerator * scale
  if b.mantissa % 2 = 0 then low * denominator ≤ value && value ≤ high * denominator
  else low * denominator < value && value < high * denominator

end Binary

/-- A decimal `digits * 10 ^ exponent`. -/
structure Digits where
  digits : Nat
  exponent : Int
  deriving DecidableEq, Repr

namespace Digits

def fraction (d : Digits) : Nat × Nat :=
  (d.digits * Nat.pow 10 d.exponent.toNat, Nat.pow 10 (-d.exponent).toNat)

/-- Drop the zeros at the end, at most `fuel` of them. -/
def trim : Nat → Digits → Digits
  | 0, d => d
  | fuel + 1, d =>
    if d.digits ≠ 0 ∧ d.digits % 10 = 0 then trim fuel ⟨d.digits / 10, d.exponent + 1⟩ else d

end Digits

/-- The point of the grid `10 ^ exponent` that stands for the number, if one
does: of the two points around it the nearer one that the interval admits. -/
def onGrid (b : Binary) (exponent : Int) : Option Digits :=
  let (_, number, _, scale) := b.interval
  let numerator := number * Nat.pow 10 (-exponent).toNat
  let denominator := scale * Nat.pow 10 exponent.toNat
  let below := numerator / denominator
  let rest := numerator % denominator
  let fits (digits : Nat) : Bool :=
    let (n, d) := Digits.fraction ⟨digits, exponent⟩
    digits ≠ 0 && b.admits n d
  let near := if 2 * rest < denominator then below else below + 1
  let far := if 2 * rest < denominator then below + 1 else below
  if fits near then some ⟨near, exponent⟩
  else if fits far then some ⟨far, exponent⟩
  else none

/-- The first grid of a list with a point for the number. -/
def firstGrid (b : Binary) : List Int → Option Digits
  | [] => none
  | exponent :: rest =>
    match onGrid b exponent with
    | some digits => some digits
    | none => firstGrid b rest

/-- A power of ten that is at least the number. -/
def topExponent (b : Binary) : Int :=
  let bits : Int := b.mantissa.log2 + 1 + b.exponent
  if 0 ≤ bits then bits * 30103 / 100000 + 1 else -(-bits * 30102 / 100000) + 1

def shortest (b : Binary) : Digits :=
  let top := topExponent b
  match firstGrid b ((List.range 22).map fun (step : Nat) => top - step) with
  | some digits => digits.trim 400
  | none => ⟨b.mantissa, 0⟩

/-- The decimal without an exponent. -/
def Digits.positional (d : Digits) : String :=
  let text := toString d.digits
  if 0 ≤ d.exponent then text ++ String.ofList (List.replicate d.exponent.toNat '0')
  else
    let places := (-d.exponent).toNat
    let cs := text.toList
    let padded := List.replicate (places + 1 - cs.length) '0' ++ cs
    String.ofList (padded.take (padded.length - places)) ++ "." ++
      String.ofList (padded.drop (padded.length - places))

def text (bits : Nat) : String :=
  let magnitude := bits % (1 <<< 63)
  if 2047 <<< 52 < magnitude then "NaN"
  else
    let unsigned :=
      if magnitude = 2047 <<< 52 then "inf"
      else
        match Binary.ofBits? magnitude with
        | some b => (shortest b).positional
        | none => "0"
    if 1 <<< 63 ≤ bits then "-" ++ unsigned else unsigned

end BitCodec.Decimal
