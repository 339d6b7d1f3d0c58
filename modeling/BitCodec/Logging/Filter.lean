import BitCodec.Effect
import BitCodec.Logging.Pattern.Reader
import BitCodec.Settings.Basic

/-!
# Filters of diagnostic events

A filter is a list of rules, each a threshold for some events: those whose
target begins with a given text, or those that have a given field.  Of the
rules that speak about an event the most precise decides, and of two alike the
later one; an event that no rule speaks about is dropped.

A rule may also ask for a span, or for the value of a span's field.  Events of
this library happen outside of all spans, so such a rule never applies; the
filter that holds it stays valid.
-/

namespace BitCodec

/-- One rule of a filter.  Without a target and a field it speaks about every
event; without a threshold it drops what it speaks about. -/
structure FilterRule where
  target : Option String := none
  /-- The span that an event has to happen in. -/
  span : Option String := none
  field : Option String := none
  /-- The value that the field of a span has to have. -/
  value : Option String := none
  threshold : Option Level := some .trace
  deriving DecidableEq, Repr

/-- The names of an event's fields; its message is one of them. -/
def Event.fieldNames (event : Event) : List String :=
  "message" :: event.fields.map (·.1)

namespace FilterRule

def speaksOf (rule : FilterRule) (event : Event) : Bool :=
  rule.span.isNone && rule.value.isNone &&
    rule.target.all (fun start => start.toList.isPrefixOf event.target.toList) &&
    rule.field.all event.fieldNames.contains

/-- How one rule compares with another in precision: by the length of the
target, then by the field, where a rule without one comes first and names
follow in order. -/
def compare (rule other : FilterRule) : Ordering :=
  (Ord.compare (rule.target.map String.length) (other.target.map String.length)).then
    (Ord.compare rule.field other.field)

end FilterRule

/-- The rules of a filter in order. -/
structure Filter where
  rules : List FilterRule
  deriving DecidableEq, Repr

namespace Filter

def upTo (level : Level) : Filter :=
  ⟨[{ threshold := some level }]⟩

def rule? (f : Filter) (event : Event) : Option FilterRule :=
  let better (best : Option FilterRule) (rule : FilterRule) : Option FilterRule :=
    if best.all fun best => (rule.compare best).isGE then some rule else best
  (f.rules.filter (·.speaksOf event)).foldl better none

def admits (f : Filter) (event : Event) : Bool :=
  match (f.rule? event).bind (·.threshold) with
  | some level => event.level.rank ≤ level.rank
  | none => false

/-! ## The text of a filter -/

/-- The threshold with a name or a number; `off` and zero drop everything. -/
def threshold? (text : List Char) : Option (Option Level) :=
  let text := String.ofList text
  if unsigned? (1 <<< 64) text = some 0 ∨ Level.lowerAscii text = "off" then some none
  else (Level.ofText? text).map some

/-- Split a text behind so many bytes, if a character ends there. -/
def splitBytes? (bytes : Nat) : List Char → Option (List Char × List Char)
  | [] => if bytes = 0 then some ([], []) else none
  | c :: rest =>
    if bytes = 0 then some ([], c :: rest)
    else if c.utf8Size ≤ bytes then
      (splitBytes? (bytes - c.utf8Size) rest).map fun (taken, rest) => (c :: taken, rest)
    else none

/-- What is left of a rule.  Marks are looked for in its text without the spaces
at its ends, and what stands between them is cut from its whole text.  Places
are counted in bytes.  So spaces in front of a rule shift its parts against its
marks. -/
structure Rest where
  /-- The text from the current place on, without the spaces. -/
  marks : List Char
  /-- The whole text. -/
  whole : List Char
  /-- The current place. -/
  place : Nat := 0
  deriving DecidableEq, Repr

namespace Rest

def ofText (text : String) : Rest :=
  { marks := trimSpaces text.toList, whole := text.toList }

def drop (rest : Rest) (n : Nat) : Rest :=
  { rest with
    marks := rest.marks.drop n
    place := rest.place + (String.ofList (rest.marks.take n)).utf8ByteSize }

/-- All that is left, if a character ends at the current place. -/
def parts? (rest : Rest) : Option (List Char) :=
  (splitBytes? rest.place rest.whole).map (·.2)

/-- Cut off the part in front of the next mark of a kind. -/
def cut? (rest : Rest) (isMark : Char → Bool) : Option (List Char × Rest) := do
  let after := rest.drop (rest.marks.takeWhile fun c => !isMark c).length
  let (part, _) ← splitBytes? (after.place - rest.place) (← rest.parts?)
  some (part, after)

end Rest

/-- Whether a rule may start with a character, beside a bracket. -/
def canStart (c : Char) : Bool :=
  c = '-' || c = ':' || c = '_' || isAlphanumeric c

def isFloat (text : List Char) : Bool :=
  let isWord := ["inf", "infinity", "nan"].contains (Level.lowerAscii (String.ofList text))
  let whole := text.takeWhile Char.isDigit
  let rest := text.dropWhile Char.isDigit
  let (fraction, rest) := match rest with
    | '.' :: rest => (rest.takeWhile Char.isDigit, rest.dropWhile Char.isDigit)
    | rest => ([], rest)
  let power := match rest with
    | e :: rest =>
      let digits := (Toml.sign rest).2
      (e = 'e' || e = 'E') && !digits.isEmpty && digits.all Char.isDigit
    | [] => true
  isWord || (!(whole.isEmpty && fraction.isEmpty) && power)

/-- Whether a text can be asked of a field: a pattern, or a number with a
plus in front, which would be no pattern. -/
def isValue (text : List Char) : Bool :=
  isPattern text ||
    match text with
    | '+' :: rest => isFloat rest
    | _ => false

/-- A threshold behind an equals sign; nothing there means everything. -/
def withThreshold? (rule : FilterRule) (rest : Rest) : Option FilterRule :=
  rest.parts?.bind fun text =>
    if text.isEmpty then some rule
    else (threshold? text).map fun threshold => { rule with threshold := threshold }

def afterSpan? (rule : FilterRule) (rest : Rest) : Option FilterRule :=
  match rest.marks with
  | [] => some rule
  | '=' :: _ => withThreshold? rule (rest.drop 1)
  | _ => none

/-- A field between braces, perhaps with a value, and what follows it. -/
def withField? (rule : FilterRule) (rest : Rest) : Option FilterRule := do
  let (field, rest) ← rest.cut? (· = '\x7d')
  let name := String.ofList (field.takeWhile (· ≠ '='))
  let value := match field.dropWhile (· ≠ '=') with
    | _ :: value => some (value.takeWhile (· ≠ '='))
    | [] => none
  match rest.marks with
  | '\x7d' :: ']' :: _ =>
    if field ≠ [] ∧ value.all isValue then
      afterSpan? { rule with field := some name, value := value.map String.ofList } (rest.drop 2)
    else none
  | _ => none

/-- A span between brackets, and what follows it. -/
def withSpan? (rule : FilterRule) (rest : Rest) : Option FilterRule := do
  let (span, rest) ← rest.cut? fun c => c = ']' || c = '\x7b'
  match rest.marks with
  | ']' :: _ => afterSpan? { rule with span := some (String.ofList span) } (rest.drop 1)
  | '\x7b' :: _ =>
    let span := if span.isEmpty then none else some (String.ofList span)
    withField? { rule with span := span } (rest.drop 1)
  | _ => none

/-- One rule: a threshold alone, or a target, a span and a threshold, each of
which may be left out. -/
def ruleOf? (text : String) : Option FilterRule := do
  let rest := Rest.ofText text
  match rest.marks with
  | [] => none
  | '[' :: _ => withSpan? {} (rest.drop 1)
  | c :: _ =>
    if !canStart c then none
    else if rest.marks.any fun c => c = '=' || c = '[' then
      let (target, after) ← rest.cut? fun c => c = '=' || c = '['
      let rule : FilterRule := { target := some (String.ofList target) }
      let next := after.drop 1
      if after.marks.head? = some '=' then withThreshold? rule next else withSpan? rule next
    else
      match threshold? rest.whole with
      | some threshold => some { threshold := threshold }
      | none => some { target := some text }

/-- The filter of a list of rules between commas.  No rules at all let errors
pass. -/
def ofText? (text : String) : Option Filter := do
  let segments := (text.splitOn ",").filter (· ≠ "")
  let rules ← segments.mapM ruleOf?
  if rules.isEmpty then some (upTo .error) else some ⟨rules⟩

end Filter

end BitCodec
