import BitCodec.Decimal
import BitCodec.Toml.Text
import BitCodec.Toml.Value

/-!
# The text of TOML documents

A string is written between the plainest quotes that need no escape; only a
string that has none is escaped.  A table's plain entries come first, then its
sub-tables, each under a header of its own with a blank line before it.
-/

namespace BitCodec.Toml

/-! ## Strings -/

/-- The four kinds of quotes. -/
inductive Quotes where
  | basic
  | literal
  | multiBasic
  | multiLiteral
  deriving DecidableEq, Repr

/-- The longest run of a character. -/
def longestRun (c : Char) (cs : List Char) : Nat :=
  let step (runs : Nat × Nat) (d : Char) : Nat × Nat :=
    if d = c then (runs.1 + 1, max runs.2 (runs.1 + 1)) else (0, runs.2)
  (cs.foldl step (0, 0)).2

/-- A control character that no quotes admit as it is. -/
def isControl (c : Char) : Bool :=
  (c < ' ' && c ≠ '\t' && c ≠ '\n') || c = '\x7f'

def quotesFor (cs : List Char) : Quotes :=
  let controls := cs.any isControl
  let lines := cs.contains '\n'
  let backslashes := cs.contains '\x5c'
  let double := longestRun '\x22' cs
  let single := longestRun '\x27' cs
  if !controls && !backslashes && double = 0 && !lines then .basic
  else if !controls && single = 0 && !lines then .literal
  else if !controls && !backslashes && double ≤ 2 then .multiBasic
  else if !controls && single ≤ 2 then .multiLiteral
  else if lines then .multiBasic
  else .basic

def upperDigit (value : Nat) : Char :=
  if value < 10 then Char.ofNat (48 + value) else Char.ofNat (55 + value)

/-- A character other than a double quote between basic quotes. -/
def escapeOf (multi : Bool) (c : Char) : List Char :=
  if c = '\x08' then ['\x5c', 'b']
  else if c = '\t' then ['\x5c', 't']
  else if c = '\n' then if multi then ['\n'] else ['\x5c', 'n']
  else if c = '\x0c' then ['\x5c', 'f']
  else if c = '\r' then ['\x5c', 'r']
  else if c = '\x5c' then ['\x5c', '\x5c']
  else if isControl c then
    ['\x5c', 'u', '0', '0', upperDigit (c.toNat / 16), upperDigit (c.toNat % 16)]
  else [c]

/-- A string between basic quotes.  Between multi-line ones two double quotes
may follow each other as they are; `quotes` counts those just written. -/
def escaped (multi : Bool) : (quotes : Nat) → List Char → List Char
  | _, [] => []
  | quotes, c :: rest =>
    if c = '\x22' then
      if multi && quotes < 2 then c :: escaped multi (quotes + 1) rest
      else '\x5c' :: c :: escaped multi 0 rest
    else escapeOf multi c ++ escaped multi 0 rest

/-- The line end behind the opening quotes of a string of several lines. -/
def opening (cs : List Char) : List Char :=
  if cs.contains '\n' then ['\n'] else []

def quoted (text : String) : String :=
  let cs := text.toList
  let threefold (c : Char) : List Char := [c, c, c]
  String.ofList <| match quotesFor cs with
    | .basic => '\x22' :: (escaped false 0 cs ++ ['\x22'])
    | .literal => '\x27' :: (cs ++ ['\x27'])
    | .multiBasic => threefold '\x22' ++ opening cs ++ escaped true 0 cs ++ threefold '\x22'
    | .multiLiteral => threefold '\x27' ++ opening cs ++ cs ++ threefold '\x27'

/-! ## Values -/

/-- A key, bare if it can be. -/
def keyText (key : String) : String :=
  let cs := key.toList
  if !cs.isEmpty && cs.all isBare then key
  else String.ofList ('\x22' :: (escaped false 0 cs ++ ['\x22']))

/-- A float; a whole one has a point and a zero. -/
def floatText (bits : BitVec 64) : String :=
  let text := Decimal.text bits.toNat
  if text = "NaN" then if bits.msb then "-nan" else "nan"
  else if text.toList.all fun c => c.isDigit || c = '-' then text ++ ".0"
  else text

def inlineTable (fields : List String) : String :=
  if fields.isEmpty then "\x7b\x7d" else "\x7b " ++ ", ".intercalate fields ++ " \x7d"

mutual

def inlineText : Value → String
  | .string text => quoted text
  | .integer number => toString number
  | .float bits => floatText bits
  | .boolean true => "true"
  | .boolean false => "false"
  | .moment text => text
  | .array items => "[" ++ ", ".intercalate (inlineTexts items) ++ "]"
  | .table _ entries => inlineTable (fieldTexts entries)
  | .tables items => "[" ++ ", ".intercalate (tableTexts items) ++ "]"

def inlineTexts : List Value → List String
  | [] => []
  | item :: rest => inlineText item :: inlineTexts rest

def fieldTexts : List (String × Value) → List String
  | [] => []
  | (key, value) :: rest => (keyText key ++ " = " ++ inlineText value) :: fieldTexts rest

def tableTexts : List (List (String × Value)) → List String
  | [] => []
  | entries :: rest => inlineTable (fieldTexts entries) :: tableTexts rest

end

/-! ## Documents -/

/-- Whether a value is written under a header of its own. -/
def isSection : Value → Bool
  | .table origin _ => origin ≠ .inline
  | _ => false

/-- The plain entries of a table, a line each, under the table's header.  A
table with nothing but sub-tables needs no header. -/
def ownSection (path : List String) (entries : Entries) : List String :=
  let plain := entries.filter fun (_, value) => !isSection value
  let lines := (fieldTexts plain).map (· ++ "\n")
  let header := "[" ++ ".".intercalate (path.map keyText) ++ "]\n"
  if path.isEmpty then if plain.isEmpty then [] else [String.join lines]
  else if plain.isEmpty && !entries.isEmpty then []
  else [header ++ String.join lines]

def subSections (path : List String) : List (String × Value) → List String
  | [] => []
  | (key, .table origin entries) :: rest =>
    let here :=
      if origin = .inline then []
      else ownSection (path ++ [key]) entries ++ subSections (path ++ [key]) entries
    here ++ subSections path rest
  | _ :: rest => subSections path rest

/-- The text of a document with these entries in its root table. -/
def print (entries : Entries) : String :=
  "\n".intercalate (ownSection [] entries ++ subSections [] entries)

end BitCodec.Toml
