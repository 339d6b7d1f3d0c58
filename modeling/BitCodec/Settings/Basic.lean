import BitCodec.Stream
import BitCodec.Surroundings
import BitCodec.Toml.Document
import BitCodec.Toml.Printer

/-!
# Settings

How streams are sized, how much a decoder accepts, and where diagnostics go.
Settings have defaults, a text in TOML, and a reading of that text.  Each of
the two parts may be absent from a document; a part that is there must name
every setting but the log file.
-/

namespace BitCodec

/-- How streams are sized. -/
structure StreamSettings where
  reserveBytes : Nat := inlineBytes
  maxReadBytes : Nat := defaultReadLimit
  deriving DecidableEq, Repr

/-- Where diagnostics go and how they look. -/
structure LoggingSettings where
  appName : String := "netbits"
  level : Level := .info
  toConsole : Bool := true
  toFile : Bool := false
  filePath : Option String := none
  json : Bool := false
  deriving DecidableEq, Repr

/-- All settings. -/
structure Settings where
  stream : StreamSettings := {}
  logging : LoggingSettings := {}
  deriving DecidableEq, Repr

/-! ## Numbers and levels in text -/

/-- The number below `limit` that a text spells in decimal, with or without a
plus. -/
def unsigned? (limit : Nat) (text : String) : Option Nat :=
  let digits := match text.toList with
    | '+' :: rest => rest
    | cs => cs
  if digits.isEmpty || !digits.all Char.isDigit then none
  else
    let number := Toml.ofDigits 10 digits
    if number < limit then some number else none

/-- The level that a text gives by number or by name. -/
def Level.ofText? (text : String) : Option Level :=
  ((unsigned? (1 <<< 64) text).bind ofRank?).or (ofName? text)

/-! ## Reading -/

/-- Why a text makes no settings. -/
inductive Refusal where
  /-- The text is no document. -/
  | notToml
  /-- A setting is missing, or has a value of another kind or size. -/
  | illTyped
  /-- No level has this name. -/
  | unknownLevel (text : String)
  deriving DecidableEq, Repr

namespace Refusal

def message : Refusal → String
  | .notToml => "invalid document"
  | .illTyped => "invalid value"
  | .unknownLevel text => s!"Invalid log level: {text}"

end Refusal

abbrev Reading : Type → Type :=
  Except Refusal

namespace Reading

def need {α : Type} : Option α → Reading α
  | some a => .ok a
  | none => .error .illTyped

def count (limit : Nat) : Toml.Value → Reading Nat
  | .integer number =>
    if 0 ≤ number ∧ number < limit then .ok number.toNat else .error .illTyped
  | _ => .error .illTyped

def flag : Toml.Value → Reading Bool
  | .boolean b => .ok b
  | _ => .error .illTyped

def text : Toml.Value → Reading String
  | .string s => .ok s
  | _ => .error .illTyped

def level (value : Toml.Value) : Reading Level := do
  let s ← text value
  match Level.ofText? s with
  | some level => .ok level
  | none => .error (.unknownLevel s)

/-- The settings of a part under their names.  A table gives them by key, an
array by place. -/
def fields (names : List String) : Toml.Value → Reading Toml.Entries
  | .table _ entries => .ok entries
  | .array items => .ok (names.zip items)
  | _ => .error .illTyped

end Reading

namespace StreamSettings

/-- The settings found so far. -/
structure Found where
  reserveBytes : Option Nat := none
  maxReadBytes : Option Nat := none

/-- Read one setting; other keys say nothing. -/
def Found.add (found : Found) (entry : String × Toml.Value) : Reading Found := do
  match entry.1 with
  | "reserve_bytes" => pure { found with reserveBytes := ← Reading.count (1 <<< 64) entry.2 }
  | "max_read_bytes" => pure { found with maxReadBytes := ← Reading.count (1 <<< 32) entry.2 }
  | _ => pure found

def read (value : Toml.Value) : Reading StreamSettings := do
  let entries ← Reading.fields ["reserve_bytes", "max_read_bytes"] value
  let found ← entries.foldlM Found.add {}
  pure ⟨← Reading.need found.reserveBytes, ← Reading.need found.maxReadBytes⟩

def toToml (s : StreamSettings) : Toml.Value :=
  .table .header
    [("reserve_bytes", .integer s.reserveBytes), ("max_read_bytes", .integer s.maxReadBytes)]

end StreamSettings

namespace LoggingSettings

/-- The settings found so far. -/
structure Found where
  appName : Option String := none
  level : Option Level := none
  toConsole : Option Bool := none
  toFile : Option Bool := none
  filePath : Option String := none
  json : Option Bool := none

/-- Read one setting; other keys say nothing. -/
def Found.add (found : Found) (entry : String × Toml.Value) : Reading Found := do
  match entry.1 with
  | "app_name" => pure { found with appName := ← Reading.text entry.2 }
  | "log_level" => pure { found with level := ← Reading.level entry.2 }
  | "log_to_console" => pure { found with toConsole := ← Reading.flag entry.2 }
  | "log_to_file" => pure { found with toFile := ← Reading.flag entry.2 }
  | "log_file_path" => pure { found with filePath := ← Reading.text entry.2 }
  | "json_format" => pure { found with json := ← Reading.flag entry.2 }
  | _ => pure found

def names : List String :=
  ["app_name", "log_level", "log_to_console", "log_to_file", "log_file_path", "json_format"]

def read (value : Toml.Value) : Reading LoggingSettings := do
  let entries ← Reading.fields names value
  let found ← entries.foldlM Found.add {}
  pure
    { appName := ← Reading.need found.appName
      level := ← Reading.need found.level
      toConsole := ← Reading.need found.toConsole
      toFile := ← Reading.need found.toFile
      filePath := found.filePath
      json := ← Reading.need found.json }

def toToml (s : LoggingSettings) : Toml.Value :=
  .table .header
    ([("app_name", .string s.appName), ("log_level", .string s.level.lowerName),
        ("log_to_console", .boolean s.toConsole), ("log_to_file", .boolean s.toFile)] ++
      (s.filePath.map fun path => ("log_file_path", Toml.Value.string path)).toList ++
      [("json_format", .boolean s.json)])

end LoggingSettings

namespace Settings

/-- Read one part; other keys say nothing. -/
def add (s : Settings) (entry : String × Toml.Value) : Reading Settings := do
  match entry.1 with
  | "stream" => pure { s with stream := ← StreamSettings.read entry.2 }
  | "logging" => pure { s with logging := ← LoggingSettings.read entry.2 }
  | _ => pure s

def read (text : String) : Reading Settings :=
  match Toml.parse? text with
  | some entries => entries.foldlM add {}
  | none => .error .notToml

/-- Read a document, as the outside world sees it. -/
def ofText (text : String) : Except Failure Settings :=
  match read text with
  | .ok settings => .ok settings
  | .error refusal => .error (.config s!"Failed to parse TOML: {refusal.message}")

def ofFile (bytes : List UInt8) : Except Failure Settings :=
  match String.fromUTF8? (ByteArray.mk bytes.toArray) with
  | some text => ofText text
  | none => .error (.config "Failed to open config file: stream did not contain valid UTF-8")

/-- What comes of reading a file that is not there. -/
def ofMissingFile : Except Failure Settings :=
  .error (.config s!"Failed to open config file: {OpenFailure.notFound.message}")

/-! ## Writing -/

def toToml (s : Settings) : Toml.Entries :=
  [("stream", s.stream.toToml), ("logging", s.logging.toToml)]

/-- The document that holds these settings, when its integers can. -/
def toText (s : Settings) : Except Failure String :=
  if s.stream.reserveBytes < 1 <<< 63 then .ok (Toml.print s.toToml)
  else .error (.config "Failed to serialize config: out of range")

/-- What a file holds after the settings are saved in a directory, which may
be missing. -/
def save (s : Settings) (directoryExists : Bool) : Except Failure String := do
  let text ← s.toText
  if directoryExists then .ok text
  else .error (.config s!"Failed to write config file: {OpenFailure.notFound.message}")

end Settings

end BitCodec
