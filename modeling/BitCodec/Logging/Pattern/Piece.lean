import BitCodec.CharClass
import BitCodec.Hex

/-!
# Pieces of patterns

A filter may ask that a field matches a regular expression, its pattern.  A
pattern is made of pieces.  What a piece means hangs on flags, and under some
flags it means nothing.

There are no tables of Unicode properties behind the patterns.  So what stands
for such a table (a class of letters, digits or spaces, the edge of a word,
letters of either case) means something only where Unicode is switched off.
There, in turn, nothing may match a part of a character.
-/

namespace BitCodec.Pattern

/-! ## Flags -/

/-- How a part of a pattern is read. -/
structure Flags where
  unicode : Bool := true
  caseless : Bool := false
  /-- Spaces are passed over, and comments from a hash to the line's end. -/
  spaced : Bool := false
  deriving DecidableEq, Repr

/-- Switch the flag with a letter; some flags change nothing here. -/
def Flags.switch? (flags : Flags) (on : Bool) : Char → Option Flags
  | 'u' => some { flags with unicode := on }
  | 'i' => some { flags with caseless := on }
  | 'x' => some { flags with spaced := on }
  | 'm' | 's' | 'R' | 'U' => some flags
  | _ => none

/-! ## Pieces -/

/-- A smallest piece of a pattern. -/
inductive Piece where
  /-- A character; `byte` when two digits behind a backslash give it. -/
  | letter (c : Char) (byte : Bool)
  /-- A class of characters behind a backslash, or what it leaves out. -/
  | charClass (negated : Bool)
  /-- A place of width zero; `word` when it is the edge of a word. -/
  | edge (word : Bool)
  /-- Any character. -/
  | any
  deriving DecidableEq, Repr

namespace Piece

def standsAlone (flags : Flags) : Piece → Bool
  | .letter c byte => if flags.unicode then !flags.caseless else !byte || c < '\x80'
  | .charClass negated => !flags.unicode && !negated
  | .edge word => !(word && flags.unicode)
  | .any => flags.unicode

def standsInside (flags : Flags) : Piece → Bool
  | .letter c _ => if flags.unicode then !flags.caseless else c < '\x80'
  | .charClass negated => !flags.unicode && !negated
  | .edge _ | .any => false

def spans : Piece → Piece → Bool
  | .letter first _, .letter last _ => first ≤ last
  | _, _ => false

def escaped? : Char → Option Piece
  | 'a' => some (.letter '\x07' false)
  | 'f' => some (.letter '\x0c' false)
  | 't' => some (.letter '\t' false)
  | 'n' => some (.letter '\n' false)
  | 'r' => some (.letter '\r' false)
  | 'v' => some (.letter '\x0b' false)
  | 'A' | 'z' => some (.edge false)
  | 'b' | 'B' | '<' | '>' => some (.edge true)
  | 'd' | 's' | 'w' => some (.charClass false)
  | 'D' | 'S' | 'W' => some (.charClass true)
  | c => if c < '\x80' && !c.isAlphanum then some (.letter c false) else none

end Piece

/-! ## Named classes -/

def asciiClasses : List String :=
  ["alnum", "alpha", "ascii", "blank", "cntrl", "digit", "graph", "lower", "print", "punct",
    "space", "upper", "word", "xdigit"]

/-- A named class behind its opening bracket: whether it is negated, and how
many characters it takes. -/
def namedClass? : List Char → Option (Bool × Nat)
  | ':' :: rest =>
    let negated := rest.head? = some '^'
    let rest := if negated then rest.drop 1 else rest
    let name := rest.takeWhile (· ≠ ':')
    if [':', ']'].isPrefixOf (rest.drop name.length) && asciiClasses.contains (String.ofList name)
    then some (negated, name.length + if negated then 4 else 3)
    else none
  | _ => none

/-! ## Depth -/

/-- How deep a row of parts or alternatives nests; a single one is no row. -/
def rowDepth : List Nat → Nat
  | [] => 0
  | [depth] => depth
  | depths => 1 + depths.foldl max 0

/-- A part of a pattern that has been read. -/
structure Part where
  repeatable : Bool := true
  depth : Nat := 0
  deriving DecidableEq, Repr

/-- What has been read of a group: the parts of its last alternative, the last
part first, and the depths of the alternatives before. -/
structure Group where
  flags : Flags := {}
  parts : List Part := []
  branches : List Nat := []
  deriving DecidableEq, Repr

namespace Group

def branchDepth (group : Group) : Nat :=
  rowDepth (group.parts.map (·.depth))

def depth (group : Group) : Nat :=
  rowDepth (group.branchDepth :: group.branches)

def add (group : Group) (part : Part) : Group :=
  { group with parts := part :: group.parts }

end Group

/-- What has been read of a pair of brackets: the depths of the items behind
the last operator, and the depth of what stands before it. -/
structure Brackets where
  negated : Bool := false
  items : List Nat := []
  before : Option Nat := none
  deriving DecidableEq, Repr

namespace Brackets

def depth (brackets : Brackets) : Nat :=
  match brackets.before with
  | none => rowDepth brackets.items
  | some left => 1 + max left (rowDepth brackets.items)

def add (brackets : Brackets) (depth : Nat) : Brackets :=
  { brackets with items := depth :: brackets.items }

def operator (brackets : Brackets) : Brackets :=
  { brackets with items := [], before := some brackets.depth }

end Brackets

end BitCodec.Pattern
