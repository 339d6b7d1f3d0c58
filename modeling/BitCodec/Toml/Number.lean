import BitCodec.Decimal
import BitCodec.Toml.Text
import BitCodec.Toml.Value

/-!
# Numbers of TOML

A number is an integer of 64 bits or a binary64 float.  Underscores may stand
between two digits.  Decimal integers have a sign and no zeros in front; the
other bases have neither.  A float that is too large is refused, a negative
one becomes negative infinity.
-/

namespace BitCodec.Toml

/-! ## Digits -/

/-- The rest of a run of digits; an underscore must stand between two. -/
def moreDigits? (isDigit : Char → Bool) : List Char → Option (List Char × List Char)
  | '_' :: c :: rest => if isDigit c then consing c (moreDigits? isDigit rest) else none
  | ['_'] => none
  | c :: rest => if isDigit c then consing c (moreDigits? isDigit rest) else some ([], c :: rest)
  | [] => some ([], [])

/-- Take a run of digits, without its underscores. -/
def digits? (isDigit : Char → Bool) : List Char → Option (List Char × List Char)
  | c :: rest => if isDigit c then consing c (moreDigits? isDigit rest) else none
  | [] => none

/-- Take the digits of a whole number without zeros in front. -/
def wholeDigits? : List Char → Option (List Char × List Char)
  | '0' :: rest => some (['0'], rest)
  | cs => digits? Char.isDigit cs

def ofDigits (base : Nat) (digits : List Char) : Nat :=
  digits.foldl (fun total c => base * total + (Hex.value? c).getD 0) 0

/-- Pass over a sign; says whether it was a minus. -/
def sign : List Char → Bool × List Char
  | '-' :: rest => (true, rest)
  | '+' :: rest => (false, rest)
  | cs => (false, cs)

/-! ## Integers -/

/-- An integer, when 64 bits hold it. -/
def integer? (negative : Bool) (magnitude : Nat) : Option Value :=
  if negative then if magnitude ≤ 1 <<< 63 then some (.integer (-magnitude)) else none
  else if magnitude < 1 <<< 63 then some (.integer magnitude) else none

/-- The rest of an integer behind the letter of its base. -/
def based? (base : Nat) (cs : List Char) : Option (Value × List Char) := do
  let isDigit (c : Char) : Bool := (Hex.value? c).any (· < base)
  let (digits, rest) ← digits? isDigit cs
  some (← integer? false (ofDigits base digits), rest)

/-! ## Floats -/

def infinity : BitVec 64 :=
  0x7FF0000000000000#64

def notANumber : BitVec 64 :=
  0x7FF8000000000000#64

def withSign (negative : Bool) (magnitude : BitVec 64) : BitVec 64 :=
  if negative then magnitude ||| 0x8000000000000000#64 else magnitude

/-- The pattern nearest to `digits * 10 ^ exponent`.  Numbers far outside the
format are not computed. -/
def nearest (digits : Nat) (exponent : Int) : BitVec 64 :=
  let places : Int := (Nat.toDigits 10 digits).length + exponent
  if digits = 0 ∨ places < -330 then 0#64
  else if 310 < places then infinity
  else (Float.ofScientific digits (decide (exponent < 0)) exponent.natAbs).toBits.toBitVec

/-- A float, unless it is too large. -/
def float? (negative : Bool) (magnitude : BitVec 64) : Option Value :=
  if magnitude = infinity ∧ ¬negative then none else some (.float (withSign negative magnitude))

/-- Take the digits behind a point, if there is one. -/
def fraction? : List Char → Option (Option (List Char) × List Char)
  | '.' :: rest => (digits? Char.isDigit rest).map fun (digits, rest) => (some digits, rest)
  | cs => some (none, cs)

/-- Take an exponent, if there is one. -/
def exponent? : List Char → Option (Option Int × List Char)
  | c :: rest =>
    if c = 'e' ∨ c = 'E' then do
      let (negative, rest) := sign rest
      let (digits, rest) ← digits? Char.isDigit rest
      let magnitude : Int := ofDigits 10 digits
      some (some (if negative then -magnitude else magnitude), rest)
    else some (none, c :: rest)
  | [] => some (none, [])

/-- Take a number in decimal, behind its sign. -/
def decimal? (negative : Bool) (cs : List Char) : Option (Value × List Char) := do
  let (whole, rest) ← wholeDigits? cs
  let (fraction, rest) ← fraction? rest
  let (exponent, rest) ← exponent? rest
  match fraction, exponent with
  | none, none => some (← integer? negative (ofDigits 10 whole), rest)
  | _, _ =>
    let places := fraction.getD []
    let magnitude := nearest (ofDigits 10 (whole ++ places)) (exponent.getD 0 - places.length)
    some (← float? negative magnitude, rest)

def number? : List Char → Option (Value × List Char)
  | '0' :: 'x' :: rest => based? 16 rest
  | '0' :: 'o' :: rest => based? 8 rest
  | '0' :: 'b' :: rest => based? 2 rest
  | cs =>
    match sign cs with
    | (negative, 'i' :: 'n' :: 'f' :: rest) => some (.float (withSign negative infinity), rest)
    | (negative, 'n' :: 'a' :: 'n' :: rest) => some (.float (withSign negative notANumber), rest)
    | (negative, rest) => decimal? negative rest

end BitCodec.Toml
