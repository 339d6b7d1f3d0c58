import BitCodec.Toml.Value

/-!
# Dates and times of TOML

A moment is a date, a time of day, or a date and a time with or without an
offset from universal time.  Months, days, hours, minutes and seconds are
checked; the second may be a leap second.  Nothing is computed with a moment,
so its value is its text.
-/

namespace BitCodec.Toml

def digitValue? (c : Char) : Option Nat :=
  if c.isDigit then some (c.toNat - 48) else none

def twoDigits? (low high : Nat) : List Char → Option (Nat × List Char)
  | a :: b :: rest => do
    let number := 10 * (← digitValue? a) + (← digitValue? b)
    if low ≤ number ∧ number ≤ high then some (number, rest) else none
  | _ => none

def exactly? (c : Char) : List Char → Option (List Char)
  | d :: rest => if d = c then some rest else none
  | [] => none

def daysIn (year month : Nat) : Nat :=
  match month with
  | 2 => if year % 4 = 0 ∧ (year % 100 ≠ 0 ∨ year % 400 = 0) then 29 else 28
  | 4 | 6 | 9 | 11 => 30
  | _ => 31

def date? (cs : List Char) : Option (List Char) := do
  let (century, rest) ← twoDigits? 0 99 cs
  let (year, rest) ← twoDigits? 0 99 rest
  let (month, rest) ← twoDigits? 1 12 (← exactly? '-' rest)
  let (_, rest) ← twoDigits? 1 (daysIn (100 * century + year) month) (← exactly? '-' rest)
  some rest

/-- Pass over the parts of a second, if there are some. -/
def secondParts? : List Char → Option (List Char)
  | '.' :: c :: rest => if c.isDigit then some (rest.dropWhile Char.isDigit) else none
  | ['.'] => none
  | cs => some cs

def time? (cs : List Char) : Option (List Char) := do
  let (_, rest) ← twoDigits? 0 23 cs
  let (_, rest) ← twoDigits? 0 59 (← exactly? ':' rest)
  let (_, rest) ← twoDigits? 0 60 (← exactly? ':' rest)
  secondParts? rest

/-- Pass over an offset from universal time, if there is one. -/
def offset? : List Char → Option (List Char)
  | c :: rest =>
    if c = 'Z' ∨ c = 'z' then some rest
    else if c = '+' ∨ c = '-' then do
      let (_, rest) ← twoDigits? 0 23 rest
      let (_, rest) ← twoDigits? 0 59 (← exactly? ':' rest)
      some rest
    else some (c :: rest)
  | [] => some []

/-- Pass over a time with an offset behind a date, if there is one. -/
def timeOfDate? : List Char → Option (List Char)
  | c :: rest =>
    if c = 'T' ∨ c = 't' ∨ c = ' ' then
      match time? rest with
      | some rest => offset? rest
      | none => some (c :: rest)
    else some (c :: rest)
  | [] => some []

def moment? (cs : List Char) : Option (Value × List Char) := do
  let rest ← match date? cs with
    | some rest => timeOfDate? rest
    | none => time? cs
  some (.moment (String.ofList (cs.take (cs.length - rest.length))), rest)

end BitCodec.Toml
