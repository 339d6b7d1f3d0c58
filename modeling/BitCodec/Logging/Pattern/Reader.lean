import BitCodec.Logging.Pattern.Piece
import BitCodec.Toml.Text

/-!
# Reading patterns

A pattern is read one character at a time.  Which fields it matches is never
asked here, only whether it can be read to its end.
-/

namespace BitCodec.Pattern

/-- Where the next piece goes: between brackets or outside of them, or to the
end of a range. -/
inductive Slot where
  | outside
  | inside
  | rangeEnd (first : Piece)
  deriving DecidableEq, Repr

/-- The place that reading has come to. -/
inductive Place where
  /-- Between two parts. -/
  | between
  /-- In front of characters that have been looked at already. -/
  | passing (n : Nat) (slot : Slot)
  /-- Behind the opening of a group. -/
  | group
  /-- Behind the question mark that opens a special group. -/
  | special
  /-- Behind the letter that may announce a name. -/
  | announced
  /-- Inside the name of a group, the last character first. -/
  | name (taken : List Char)
  /-- Inside the flags of a group: those seen, and what they come to. -/
  | flags (on : Bool) (seen : List Char) (flags : Flags)
  /-- Behind a backslash. -/
  | escape (slot : Slot)
  /-- Inside a number with so many digits to come, the last digit first. -/
  | number (missing : Nat) (digits : List Char) (byte : Bool) (slot : Slot)
  /-- Behind an opening bracket. -/
  | opened
  /-- Behind the sign that negates brackets. -/
  | negated
  /-- Behind dashes at the start of brackets. -/
  | dashes
  /-- Between two items of brackets. -/
  | inside
  /-- Behind an item of brackets that may start a range. -/
  | item (piece : Piece)
  /-- Behind the dash of a range. -/
  | range (first : Piece)
  deriving DecidableEq, Repr

/-- Whether spaces may stand at a place of a spaced pattern. -/
def Place.allowsSpace : Place → Bool
  | .between | .group | .number .. | .opened | .negated | .dashes | .inside | .item _
  | .range _ => true
  | .passing .. | .special | .announced | .name _ | .flags .. | .escape _ => false

/-- What is known about a pattern that has been read in part. -/
structure Reader where
  place : Place := .between
  /-- Inside a comment, which ends with its line. -/
  comment : Bool := false
  group : Group := {}
  /-- The groups around, the innermost first. -/
  outer : List Group := []
  /-- The open brackets, the innermost first. -/
  brackets : List Brackets := []
  names : List (List Char) := []
  deriving DecidableEq, Repr

namespace Reader

def flags (r : Reader) : Flags :=
  r.group.flags

def goTo (r : Reader) (place : Place) : Reader :=
  { r with place := place }

def addPart (r : Reader) (part : Part) : Reader :=
  { r with place := .between, group := r.group.add part }

/-- Change the innermost brackets. -/
def inBrackets (r : Reader) (change : Brackets → Brackets) : Reader :=
  match r.brackets with
  | [] => r
  | innermost :: around => { r with brackets := change innermost :: around }

/-- Add a piece to the innermost brackets, and go to a place. -/
def addItem? (r : Reader) (piece : Piece) (place : Place) : Option Reader :=
  if piece.standsInside r.flags then some ((r.inBrackets (·.add 0)).goTo place) else none

def put? (r : Reader) (piece : Piece) : Slot → Option Reader
  | .outside => if piece.standsAlone r.flags then some (r.addPart {}) else none
  | .inside => some (r.goTo (.item piece))
  | .rangeEnd first =>
    if first.spans piece && first.standsInside r.flags then r.addItem? piece .inside else none

/-! ## Groups -/

def openGroup (r : Reader) (flags : Flags) (place : Place) : Reader :=
  { r with place := place, group := { flags := flags }, outer := r.group :: r.outer }

/-- Close the innermost group. -/
def closeGroup? (r : Reader) : Option Reader :=
  match r.outer with
  | [] => none
  | around :: outer =>
    some { r with
      place := .between, group := around.add { depth := 1 + r.group.depth }, outer := outer }

def branch (r : Reader) : Reader :=
  { r with
    place := .between
    group := { r.group with parts := [], branches := r.group.branchDepth :: r.group.branches } }

/-- Repeat the last part.  A question mark right behind the operator belongs
to it. -/
def repeatLast? (r : Reader) (rest : List Char) : Option Reader :=
  match r.group.parts with
  | last :: parts =>
    if last.repeatable then
      some { r with
        place := if rest.head? = some '?' then .passing 1 .outside else .between
        group := { r.group with parts := { depth := 1 + last.depth } :: parts } }
    else none
  | [] => none

/-- Whether a character may come next in the name of a group. -/
def continuesName (taken : List Char) (c : Char) : Bool :=
  c = '_' ||
    if taken.isEmpty then isAlphabetic c
    else isAlphanumeric c || c = '.' || c = '[' || c = ']'

def name? (r : Reader) (taken : List Char) (c : Char) : Option Reader :=
  if c = '>' then
    if taken.isEmpty || r.names.contains taken then none
    else some { r.openGroup r.flags .between with names := taken :: r.names }
  else if continuesName taken c then some (r.goTo (.name (c :: taken)))
  else none

/-- Read a character of flags.  They hold to the end of the group that they
stand in, or open a group of their own. -/
def flags? (r : Reader) (on : Bool) (seen : List Char) (flags : Flags) (c : Char) :
    Option Reader :=
  let complete := seen.head? ≠ some '-'
  match c with
  | ')' =>
    if complete ∧ seen ≠ [] then
      some ({ r with group := { r.group with flags := flags } }.addPart { repeatable := false })
    else none
  | ':' => if complete then some (r.openGroup flags .between) else none
  | '-' => if on then some (r.goTo (.flags false ('-' :: seen) flags)) else none
  | c =>
    if seen.contains c then none
    else (flags.switch? on c).map fun flags => r.goTo (.flags on (c :: seen) flags)

/-! ## Brackets -/

def openBrackets (r : Reader) : Reader :=
  { r with place := .opened, brackets := {} :: r.brackets }

/-- Close the innermost brackets.  What they leave out has to be characters. -/
def closeBrackets? (r : Reader) : Option Reader :=
  match r.brackets with
  | [] => none
  | innermost :: around =>
    if innermost.negated && !r.flags.unicode then none
    else if around.isEmpty then
      some ({ r with brackets := [] }.addPart { depth := 1 + innermost.depth })
    else
      let outer := { r with brackets := around }
      some ((outer.inBrackets (·.add (1 + innermost.depth))).goTo .inside)

/-- Add a named class, and pass over it. -/
def addNamed? (r : Reader) (negated : Bool) (length : Nat) : Option Reader :=
  if if r.flags.unicode then !r.flags.caseless else !negated then
    some ((r.inBrackets (·.add 0)).goTo (.passing length .inside))
  else none

def inside? (r : Reader) (c : Char) (rest : List Char) : Option Reader :=
  match c with
  | '[' =>
    match namedClass? rest with
    | some (negated, length) => r.addNamed? negated length
    | none => some r.openBrackets
  | ']' => r.closeBrackets?
  | '\x5c' => some (r.goTo (.escape .inside))
  | c =>
    if (c = '&' || c = '-' || c = '~') && rest.head? = some c then
      some ((r.inBrackets (·.operator)).goTo (.passing 1 .inside))
    else some (r.goTo (.item (.letter c false)))

/-- Read a character behind an opening bracket: a first one stands for itself
even if it could close the brackets, and so do dashes in front. -/
def opened? (r : Reader) (c : Char) (rest : List Char) : Option Reader :=
  match c with
  | '-' => r.addItem? (.letter '-' false) .dashes
  | ']' => r.addItem? (.letter ']' false) .inside
  | c => r.inside? c rest

/-- The first character that is no space, in a spaced pattern; the mark of a
comment counts as a space, and what the comment says does not. -/
def pastSpaces (commented : Bool) : List Char → Option Char
  | [] => none
  | c :: rest =>
    if isUnicodeSpace c then pastSpaces commented rest
    else if c = '#' && !commented then pastSpaces true rest
    else some c

def peek (r : Reader) (rest : List Char) : Option Char :=
  if r.flags.spaced then pastSpaces false rest else rest.head?

/-- Read a character behind an item.  A dash makes a range, unless the
brackets end behind it or another dash follows. -/
def item? (r : Reader) (piece : Piece) (c : Char) (rest : List Char) : Option Reader :=
  let next := r.peek rest
  if c = '-' ∧ next ≠ some ']' ∧ next ≠ some '-' then some (r.goTo (.range piece))
  else (r.addItem? piece .inside).bind fun r => r.inside? c rest

/-! ## All places -/

/-- Read a character between two parts.  Nothing can close a brace. -/
def between? (r : Reader) (c : Char) (rest : List Char) : Option Reader :=
  match c with
  | '(' => some (r.goTo .group)
  | ')' => r.closeGroup?
  | '|' => some r.branch
  | '[' => some r.openBrackets
  | '*' | '+' | '?' => r.repeatLast? rest
  | '\x7b' => none
  | '\x5c' => some (r.goTo (.escape .outside))
  | '.' => r.put? .any .outside
  | '^' | '$' => r.put? (.edge false) .outside
  | c => r.put? (.letter c false) .outside

def escape? (r : Reader) (slot : Slot) (c : Char) : Option Reader :=
  match c with
  | 'x' => some (r.goTo (.number 2 [] true slot))
  | 'u' => some (r.goTo (.number 4 [] false slot))
  | 'U' => some (r.goTo (.number 8 [] false slot))
  | c => (Piece.escaped? c).bind (r.put? · slot)

def number? (r : Reader) (missing : Nat) (digits : List Char) (byte : Bool) (slot : Slot)
    (c : Char) : Option Reader := do
  let _ ← Hex.value? c
  if missing ≤ 1 then r.put? (.letter (← Toml.charOf? (c :: digits).reverse) byte) slot
  else some (r.goTo (.number (missing - 1) (c :: digits) byte slot))

def at? (r : Reader) (c : Char) (rest : List Char) : Option Reader :=
  match r.place with
  | .between => r.between? c rest
  | .passing n slot =>
    some (r.goTo (if 1 < n then .passing (n - 1) slot
      else if slot = .outside then .between else .inside))
  | .group =>
    if c = '?' then some (r.goTo .special) else (r.openGroup r.flags .between).between? c rest
  | .special =>
    match c with
    | 'P' => some (r.goTo .announced)
    | '<' => some (r.goTo (.name []))
    | c => r.flags? true [] r.flags c
  | .announced => if c = '<' then some (r.goTo (.name [])) else none
  | .name taken => r.name? taken c
  | .flags on seen flags => r.flags? on seen flags c
  | .escape slot => r.escape? slot c
  | .number missing digits byte slot => r.number? missing digits byte slot c
  | .opened =>
    if c = '^' then some ((r.inBrackets ({ · with negated := true })).goTo .negated)
    else r.opened? c rest
  | .negated => r.opened? c rest
  | .dashes =>
    if c = '-' then r.addItem? (.letter '-' false) .dashes else r.inside? c rest
  | .inside => r.inside? c rest
  | .item piece => r.item? piece c rest
  | .range first =>
    if c = '\x5c' then some (r.goTo (.escape (.rangeEnd first)))
    else r.put? (.letter c false) (.rangeEnd first)

/-- Read a character; spaces and comments are passed over where the flags say
so. -/
def step? (r : Reader) (c : Char) (rest : List Char) : Option Reader :=
  let spaced := r.flags.spaced && r.place.allowsSpace
  if r.comment then some { r with comment := c ≠ '\n' }
  else if spaced && isUnicodeSpace c then some r
  else if spaced && c = '#' then some { r with comment := true }
  else r.at? c rest

def run? (r : Reader) : List Char → Option Reader
  | [] => some r
  | c :: rest => (r.step? c rest).bind (·.run? rest)

/-- The deepest that a pattern may nest. -/
def maxDepth : Nat :=
  250

def isComplete (r : Reader) : Bool :=
  r.place = .between && r.outer.isEmpty && r.group.depth ≤ maxDepth

end Reader

end BitCodec.Pattern

namespace BitCodec

def isPattern (text : List Char) : Bool :=
  ((Pattern.Reader.run? {} text).any (·.isComplete))

end BitCodec
