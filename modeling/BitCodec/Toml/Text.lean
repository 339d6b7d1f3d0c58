import BitCodec.Hex

/-!
# Keys and strings of TOML

Readers over a list of characters.  Each takes what it can from the front and
gives the rest back, or refuses.
-/

namespace BitCodec.Toml

def isBlank (c : Char) : Bool :=
  c = ' ' || c = '\t'

/-- A character that needs no escape and no line of its own. -/
def isPrintable (c : Char) : Bool :=
  c = '\t' || (' ' ≤ c && c ≠ '\x7f')

def skipBlanks (cs : List Char) : List Char :=
  cs.dropWhile isBlank

def newline? : List Char → Option (List Char)
  | '\n' :: rest => some rest
  | '\r' :: '\n' :: rest => some rest
  | _ => none

/-- Take the rest of a line that holds nothing but blanks and a comment. -/
def lineEnd? (cs : List Char) : Option (List Char) :=
  let rest := match skipBlanks cs with
    | '#' :: rest => rest.dropWhile isPrintable
    | rest => rest
  if rest.isEmpty then some [] else newline? rest

/-- Pass over blanks, line ends and comments; a comment must end in its
line. -/
def skipSpace : (inComment : Bool) → List Char → Option (List Char)
  | false, ' ' :: rest => skipSpace false rest
  | false, '\t' :: rest => skipSpace false rest
  | false, '#' :: rest => skipSpace true rest
  | _, '\n' :: rest => skipSpace false rest
  | _, '\r' :: '\n' :: rest => skipSpace false rest
  | false, cs => some cs
  | true, c :: rest => if isPrintable c then skipSpace true rest else none
  | true, [] => none

/-! ## Strings -/

/-- Put a character in front of what a reader took. -/
def consing (c : Char) (read : Option (List Char × List Char)) :
    Option (List Char × List Char) :=
  read.map fun (taken, rest) => (c :: taken, rest)

/-- The character with a hexadecimal number; surrogates are none. -/
def charOf? (digits : List Char) : Option Char := do
  let number ← digits.foldlM (fun total c => (Hex.value? c).map (16 * total + ·)) 0
  if number < 0xD800 ∨ (0xDFFF < number ∧ number < 0x110000) then some (Char.ofNat number)
  else none

def escaped? : Char → Option Char
  | 'b' => some '\x08'
  | 't' => some '\t'
  | 'n' => some '\n'
  | 'f' => some '\x0c'
  | 'r' => some '\r'
  | '\x22' => some '\x22'
  | '\x5c' => some '\x5c'
  | _ => none

/-- The rest of a basic string, behind its opening quote. -/
def basicRest : List Char → Option (List Char × List Char)
  | [] => none
  | '\x22' :: rest => some ([], rest)
  | '\x5c' :: 'u' :: a :: b :: c :: d :: rest => do
    consing (← charOf? [a, b, c, d]) (basicRest rest)
  | '\x5c' :: 'U' :: a :: b :: c :: d :: e :: f :: g :: h :: rest => do
    consing (← charOf? [a, b, c, d, e, f, g, h]) (basicRest rest)
  | '\x5c' :: c :: rest => do
    consing (← escaped? c) (basicRest rest)
  | c :: rest => if isPrintable c then consing c (basicRest rest) else none

/-- The rest of a literal string, behind its opening quote. -/
def literalRest : List Char → Option (List Char × List Char)
  | [] => none
  | '\x27' :: rest => some ([], rest)
  | c :: rest => if isPrintable c then consing c (literalRest rest) else none

/-- Whether a backslash, just passed, is the last thing in its line. -/
def endsLine (cs : List Char) : Bool :=
  (newline? (skipBlanks cs)).isSome

/-- The rest of a multi-line basic string.  While `skipping`, blanks and line
ends behind a line-ending backslash are passed over. -/
def multiRest : (skipping : Bool) → List Char → Option (List Char × List Char)
  | true, ' ' :: rest => multiRest true rest
  | true, '\t' :: rest => multiRest true rest
  | true, '\n' :: rest => multiRest true rest
  | true, '\r' :: '\n' :: rest => multiRest true rest
  | _, '\x22' :: '\x22' :: '\x22' :: '\x22' :: '\x22' :: rest => some (['\x22', '\x22'], rest)
  | _, '\x22' :: '\x22' :: '\x22' :: '\x22' :: rest => some (['\x22'], rest)
  | _, '\x22' :: '\x22' :: '\x22' :: rest => some ([], rest)
  | _, '\x22' :: rest => consing '\x22' (multiRest false rest)
  | _, '\x5c' :: 'u' :: a :: b :: c :: d :: rest => do
    consing (← charOf? [a, b, c, d]) (multiRest false rest)
  | _, '\x5c' :: 'U' :: a :: b :: c :: d :: e :: f :: g :: h :: rest => do
    consing (← charOf? [a, b, c, d, e, f, g, h]) (multiRest false rest)
  | _, '\x5c' :: c :: rest =>
    if endsLine (c :: rest) then multiRest true (c :: rest)
    else do consing (← escaped? c) (multiRest false rest)
  | _, '\n' :: rest => consing '\n' (multiRest false rest)
  | _, '\r' :: '\n' :: rest => consing '\n' (multiRest false rest)
  | _, c :: rest => if isPrintable c then consing c (multiRest false rest) else none
  | _, [] => none

def multiLiteralRest : List Char → Option (List Char × List Char)
  | '\x27' :: '\x27' :: '\x27' :: '\x27' :: '\x27' :: rest => some (['\x27', '\x27'], rest)
  | '\x27' :: '\x27' :: '\x27' :: '\x27' :: rest => some (['\x27'], rest)
  | '\x27' :: '\x27' :: '\x27' :: rest => some ([], rest)
  | '\n' :: rest => consing '\n' (multiLiteralRest rest)
  | '\r' :: '\n' :: rest => consing '\n' (multiLiteralRest rest)
  | c :: rest => if isPrintable c then consing c (multiLiteralRest rest) else none
  | [] => none

/-- Pass over a line end right behind an opening quote. -/
def firstLine (cs : List Char) : List Char :=
  (newline? cs).getD cs

def string? : List Char → Option (List Char × List Char)
  | '\x22' :: '\x22' :: '\x22' :: rest => multiRest false (firstLine rest)
  | '\x22' :: rest => basicRest rest
  | '\x27' :: '\x27' :: '\x27' :: rest => multiLiteralRest (firstLine rest)
  | '\x27' :: rest => literalRest rest
  | _ => none

/-! ## Keys -/

/-- A character of a key without quotes. -/
def isBare (c : Char) : Bool :=
  c.isAlphanum || c = '_' || c = '-'

/-- Take a key without dots. -/
def simpleKey? : List Char → Option (String × List Char)
  | '\x22' :: rest => (basicRest rest).map fun (taken, rest) => (String.ofList taken, rest)
  | '\x27' :: rest => (literalRest rest).map fun (taken, rest) => (String.ofList taken, rest)
  | cs =>
    let taken := cs.takeWhile isBare
    if taken.isEmpty then none else some (String.ofList taken, cs.dropWhile isBare)

/-- The deepest nesting a document may have. -/
def maxDepth : Nat :=
  80

/-- Take the parts of a dotted key, at most `limit` of them, and the blanks
around them. -/
def keyParts? : (limit : Nat) → List Char → Option (List String × List Char)
  | 0, _ => none
  | limit + 1, cs => do
    let (part, rest) ← simpleKey? (skipBlanks cs)
    match skipBlanks rest with
    | '.' :: rest =>
      let (parts, rest) ← keyParts? limit rest
      some (part :: parts, rest)
    | rest => some ([part], rest)

/-- Take a key: the parts before the last, and the last. -/
def key? (cs : List Char) : Option (List String × String × List Char) := do
  let (parts, rest) ← keyParts? (maxDepth - 1) cs
  some (parts.dropLast, ← parts.getLast?, rest)

end BitCodec.Toml
