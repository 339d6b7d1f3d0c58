import BitCodec.Effect

/-!
# Lines of diagnostics

An event is written as a record of its own, or as plain text.  Beside what
happened, a line of text tells the time and has colours; `LogLine.lasting` is
what of it is the same in every run.
-/

namespace BitCodec

/-- A line of diagnostics: plain text, or a record of an event. -/
inductive LogLine where
  | text (line : String)
  | record (event : Event)
  deriving DecidableEq, Repr

namespace LogLine

/-- Drop a carriage return at the end of a line. -/
def withoutReturn (line : String) : String :=
  if line.endsWith "\r" then String.ofList line.toList.dropLast else line

/-- The lines of a text.  A carriage return belongs to the line end behind it,
and an end of the last line makes no further one. -/
def linesOf (text : String) : List String :=
  let lines := text.splitOn "\n"
  let last := lines.getLast?.getD ""
  lines.dropLast.map withoutReturn ++ if last = "" then [] else [last]

def ofText (text : String) : List LogLine :=
  (linesOf text).map .text

/-- An event in plain text; a line end in a field is one here too. -/
def plain (event : Event) : List LogLine :=
  let fields := event.fields.map fun (name, value) => " " ++ name ++ "=" ++ value.plain
  ofText (event.level.name ++ " " ++ event.target ++ ": " ++ event.message ++
    String.join fields ++ "\n")

/-! ## What lasts -/

/-- Whether the parameters of a control sequence end as those of a colour do. -/
def setsColour (cs : List Char) : Bool :=
  (cs.dropWhile fun c => c.isDigit || c = ';').head? = some 'm'

/-- Leave out the control sequences that set colours; `inside` one of them its
letter is awaited. -/
def withoutColours : (inside : Bool) → List Char → List Char
  | true, 'm' :: rest => withoutColours false rest
  | true, _ :: rest => withoutColours true rest
  | false, '\x1b' :: '[' :: rest =>
    if setsColour rest then withoutColours true rest
    else '\x1b' :: '[' :: withoutColours false rest
  | false, c :: rest => c :: withoutColours false rest
  | _, [] => []

/-- Whether a text has the form of a time: digits stand where `0` does. -/
def hasForm (form text : List Char) : Bool :=
  form.length = text.length &&
    (form.zip text).all fun (f, c) => if f = '0' then c.isDigit else c = f

/-- Whether a text is a time, with or without parts of a second. -/
def isTime (text : List Char) : Bool :=
  let form := "0000-00-00T00:00:00".toList
  let fraction := text.drop form.length
  hasForm form (text.take form.length) &&
    (fraction = ['Z'] ||
      (fraction.head? = some '.' && fraction.getLast? = some 'Z' &&
        ((fraction.drop 1).dropLast.all Char.isDigit)))

/-- Leave out a time in front, and the blanks behind it. -/
def withoutTime (line : List Char) : List Char :=
  if line.contains ' ' && isTime (line.takeWhile (· ≠ ' ')) then
    (line.dropWhile (· ≠ ' ')).dropWhile (· = ' ')
  else line

/-- What of a line of text is the same in every run. -/
def lasting (line : String) : String :=
  String.ofList (withoutTime (withoutColours false line.toList))

end LogLine

end BitCodec
