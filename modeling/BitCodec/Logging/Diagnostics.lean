import BitCodec.Logging.Filter
import BitCodec.Logging.Line
import BitCodec.Settings.Basic

/-!
# Diagnostics of a process

A process has at most one logger, and keeps the first one it gets.  A logger
passes events through its filter and writes a line for each to the console or
to the end of a file.  A filter given from outside takes the place of the
level in the settings, if it is valid.
-/

namespace BitCodec

/-- What receives events: the console, or the file with a path. -/
structure Logger where
  filter : Filter
  json : Bool := false
  path : Option String := none
  deriving DecidableEq, Repr

namespace Logger

def lines (logger : Logger) (event : Event) : List LogLine :=
  if logger.filter.admits event then
    if logger.json then [.record event] else LogLine.plain event
  else []

end Logger

/-- The diagnostics of a process so far. -/
structure Diagnostics where
  around : Surroundings
  /-- The filter given from outside. -/
  filterText : Option String := none
  logger : Option Logger := none
  console : List LogLine := []
  files : List (String × List LogLine) := []

namespace Diagnostics

/-- The filter from outside, or else everything up to a level. -/
def filterOr (d : Diagnostics) (level : Level) : Filter :=
  (d.filterText.bind Filter.ofText?).getD (Filter.upTo level)

/-- Write lines to the end of a file, which is made when it is not there. -/
def append (d : Diagnostics) (path : String) (lines : List LogLine) : Diagnostics :=
  let files :=
    if (d.files.lookup path).isSome then
      d.files.map fun (name, old) => if name = path then (name, old ++ lines) else (name, old)
    else d.files ++ [(path, lines)]
  { d with files := files }

def emit (d : Diagnostics) (event : Event) : Diagnostics :=
  match d.logger with
  | none => d
  | some logger =>
    match logger.path with
    | none => { d with console := d.console ++ logger.lines event }
    | some path => d.append path (logger.lines event)

def openFile (d : Diagnostics) : Option String → Except Failure Diagnostics
  | none => .ok d
  | some path =>
    match d.around.openFailure? path with
    | some failure => .error (.logging s!"Failed to open log file {path}: {failure.message}")
    | none => .ok (d.append path [])

/-- The event that reports the start. -/
def startEvent (settings : LoggingSettings) : Event :=
  ⟨.info, "netbits::utils::logging", "Logging initialized",
    [("app", .text settings.appName), ("level", .text settings.level.name)]⟩

/-- Start logging as the settings say.  A file counts only with a path, and
then the console gets nothing.  The log file is made even when there is a
logger already. -/
def start (d : Diagnostics) (settings : LoggingSettings) :
    Except Failure Unit × Diagnostics :=
  let path := if settings.toFile then settings.filePath else none
  match d.openFile path with
  | .error e => (.error e, d)
  | .ok opened =>
    if opened.logger.isSome then
      (.error (.logging "a global default trace dispatcher has already been set"), opened)
    else
      let logger : Logger := ⟨d.filterOr settings.level, settings.json, path⟩
      (.ok (), { opened with logger := some logger }.emit (startEvent settings))

/-- Start quiet logging to the console, unless there is a logger already. -/
def startQuiet (d : Diagnostics) : Diagnostics :=
  { d with logger := d.logger.or (some { filter := d.filterOr .warn }) }

end Diagnostics

end BitCodec
