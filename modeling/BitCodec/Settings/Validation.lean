import BitCodec.Settings.Basic

/-!
# Checking settings

Settings that can be read may still make no sense.  `problems` lists all that
is wrong with them, streams first.
-/

namespace BitCodec

/-- The most bytes that may be reserved or accepted: 16 MB. -/
def byteCeiling : Nat :=
  16 * 1024 * 1024

/-- Something wrong with settings. -/
inductive Problem where
  | reservationTooLarge (bytes : Nat)
  | readLimitZero
  | readLimitTooLarge (bytes : Nat)
  | appNameEmpty
  | appNameTooLong (bytes : Nat)
  | noFilePath
  | noFileDirectory (directory : String)
  | noOutput
  deriving DecidableEq, Repr

namespace Problem

def message : Problem → String
  | .reservationTooLarge bytes =>
    s!"Stream reservation too large: {bytes} bytes (maximum: 16 MB)"
  | .readLimitZero => "max_read_bytes must be greater than 0"
  | .readLimitTooLarge bytes => s!"max_read_bytes too large: {bytes} (maximum: 16 MB)"
  | .appNameEmpty => "Application name cannot be empty"
  | .appNameTooLong bytes =>
    s!"Application name too long: {bytes} characters (maximum: 64)"
  | .noFilePath => "log_file_path must be specified when log_to_file is true"
  | .noFileDirectory directory => s!"Log file directory does not exist: {directory}"
  | .noOutput => "At least one logging output (console or file) must be enabled"

end Problem

namespace StreamSettings

def reserveProblem? (s : StreamSettings) : Option Problem :=
  if byteCeiling < s.reserveBytes then some (.reservationTooLarge s.reserveBytes) else none

def limitProblem? (s : StreamSettings) : Option Problem :=
  if s.maxReadBytes = 0 then some .readLimitZero
  else if byteCeiling < s.maxReadBytes then some (.readLimitTooLarge s.maxReadBytes)
  else none

def problems (s : StreamSettings) : List Problem :=
  s.reserveProblem?.toList ++ s.limitProblem?.toList

end StreamSettings

namespace LoggingSettings

/-- What is wrong with the name; its length counts bytes. -/
def nameProblem? (s : LoggingSettings) : Option Problem :=
  if s.appName = "" then some .appNameEmpty
  else if 64 < s.appName.utf8ByteSize then some (.appNameTooLong s.appName.utf8ByteSize)
  else none

/-- What is wrong with the log file, if one is wanted.  A path without a
directory is never wrong. -/
def fileProblem? (s : LoggingSettings) (around : Surroundings) : Option Problem :=
  if s.toFile then
    match s.filePath with
    | none => some .noFilePath
    | some path =>
      match Directory.parent? path with
      | some directory =>
        if directory = "" ∨ around.contains directory then none
        else some (.noFileDirectory directory)
      | none => none
  else none

def outputProblem? (s : LoggingSettings) : Option Problem :=
  if s.toConsole || s.toFile then none else some .noOutput

def problems (s : LoggingSettings) (around : Surroundings) : List Problem :=
  s.nameProblem?.toList ++ (s.fileProblem? around).toList ++ s.outputProblem?.toList

end LoggingSettings

namespace Settings

def problems (s : Settings) (around : Surroundings) : List Problem :=
  s.stream.problems ++ s.logging.problems around

def check (s : Settings) (around : Surroundings) : Except Failure Unit :=
  let found := s.problems around
  if found.isEmpty then .ok ()
  else .error (.config ("Configuration validation failed:\n  - " ++
    "\n  - ".intercalate (found.map Problem.message)))

end Settings

end BitCodec
