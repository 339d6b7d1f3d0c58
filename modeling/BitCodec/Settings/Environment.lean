import BitCodec.Settings.Basic

/-!
# Settings from the environment

Environment variables override single defaults.  A variable that does not
spell a value is passed over.
-/

namespace BitCodec.Settings

def flag? : String → Option Bool
  | "true" => some true
  | "false" => some false
  | _ => none

/-- The defaults, overridden by the variables that are set. -/
def ofEnvironment (valueOf? : String → Option String) : Settings :=
  let stream : StreamSettings := {}
  let logging : LoggingSettings := {}
  let reserve? := (valueOf? "NETBITS_RESERVE_BYTES").bind (unsigned? (1 <<< 64))
  let limit? := (valueOf? "NETBITS_MAX_READ_BYTES").bind (unsigned? (1 <<< 32))
  let level? := (valueOf? "NETBITS_LOG_LEVEL").bind Level.ofText?
  let path? := valueOf? "NETBITS_LOG_FILE"
  let json? := (valueOf? "NETBITS_LOG_JSON").bind flag?
  { stream :=
      { reserveBytes := reserve?.getD stream.reserveBytes
        maxReadBytes := limit?.getD stream.maxReadBytes }
    logging :=
      { logging with
        level := level?.getD logging.level
        toFile := logging.toFile || path?.isSome
        filePath := path?.or logging.filePath
        json := json?.getD logging.json } }

end BitCodec.Settings
