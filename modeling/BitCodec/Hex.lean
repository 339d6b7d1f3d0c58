/-!
# Hexadecimal text

Two lowercase digits a byte, high digit first.
-/

namespace BitCodec.Hex

def digit (value : Nat) : Char :=
  if value < 10 then Char.ofNat (48 + value) else Char.ofNat (87 + value)

/-- The value of a digit, in either case. -/
def value? (c : Char) : Option Nat :=
  if '0' ≤ c && c ≤ '9' then some (c.toNat - 48)
  else if 'a' ≤ c && c ≤ 'f' then some (c.toNat - 87)
  else if 'A' ≤ c && c ≤ 'F' then some (c.toNat - 55)
  else none

def digits : List UInt8 → List Char
  | [] => []
  | byte :: rest => digit (byte.toNat / 16) :: digit (byte.toNat % 16) :: digits rest

def encode (bytes : List UInt8) : String :=
  String.ofList (digits bytes)

/-- The bytes that a list of digits stands for; an odd digit or another
character is refused. -/
def ofDigits? : List Char → Option (List UInt8)
  | [] => some []
  | [_] => none
  | high :: low :: rest => do
    let h ← value? high
    let l ← value? low
    let bytes ← ofDigits? rest
    pure (UInt8.ofNat (16 * h + l) :: bytes)

def decode? (text : String) : Option (List UInt8) :=
  ofDigits? text.toList

/-- The number that a text of hexadecimal digits stands for; the empty text
is refused. -/
def number? (text : String) : Option Nat :=
  let cs := text.toList
  if cs.isEmpty then none
  else cs.foldlM (fun total c => (value? c).map (16 * total + ·)) 0

end BitCodec.Hex
