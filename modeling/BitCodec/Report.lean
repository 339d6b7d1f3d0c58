import BitCodec.Failure
import BitCodec.Toml.Document
import BitCodec.Toml.Printer

/-!
# Failures as documents

A failure can be kept as a TOML document and read back.  Its kind is the key;
a failure with one detail has that as the value, one with several has a table.
TOML integers have 64 bits and a sign, so a larger count has no document.
-/

namespace BitCodec.Failure

/-- The failure's kind. -/
def kind : Failure → String
  | .insufficientPayload _ _ => "InsufficientPayload"
  | .outOfRange _ _ _ => "OutOfRange"
  | .invalidRange _ => "InvalidRange"
  | .floatOutOfRange _ => "FloatOutOfRange"
  | .invalidAddressFamily _ => "InvalidAddressFamily"
  | .lengthLimitExceeded _ _ => "LengthLimitExceeded"
  | .malformed _ => "Malformed"
  | .config _ => "ConfigError"
  | .logging _ => "LoggingError"

/-- A count, when a document can hold it. -/
def countValue? (count : Nat) : Option Toml.Value :=
  if count < 1 <<< 63 then some (.integer count) else none

/-- The failure's details, when a document can hold them. -/
def details? : Failure → Option Toml.Value
  | .insufficientPayload requested available => do
    some (.table .header
      [("requested", ← countValue? requested), ("available", ← countValue? available)])
  | .outOfRange value min max =>
    some (.table .header [("value", .string value), ("min", .string min), ("max", .string max)])
  | .floatOutOfRange value => some (.float value)
  | .invalidAddressFamily tag => some (.integer tag.toNat)
  | .lengthLimitExceeded length limit => do
    some (.table .header [("length", ← countValue? length), ("limit", ← countValue? limit)])
  | .invalidRange reason | .malformed reason | .config reason | .logging reason =>
    some (.string reason)

/-- The document that holds a failure. -/
def report? (e : Failure) : Option String := do
  some (Toml.print [("error", .table .header [(e.kind, ← e.details?)])])

def counts? (first second : String) : Toml.Value → Option (Nat × Nat)
  | .table _ entries => do
    match ← entries.lookup first, ← entries.lookup second with
    | .integer a, .integer b => some (a.toNat, b.toNat)
    | _, _ => none
  | _ => none

/-- The failure with a kind and details. -/
def ofDetails? : String → Toml.Value → Option Failure
  | "InsufficientPayload", value => do
    let (requested, available) ← counts? "requested" "available" value
    some (.insufficientPayload requested available)
  | "OutOfRange", .table _ entries => do
    match ← entries.lookup "value", ← entries.lookup "min", ← entries.lookup "max" with
    | .string value, .string min, .string max => some (.outOfRange value min max)
    | _, _, _ => none
  | "InvalidRange", .string reason => some (.invalidRange reason)
  | "FloatOutOfRange", .float value => some (.floatOutOfRange value)
  | "InvalidAddressFamily", .integer tag => some (.invalidAddressFamily (UInt8.ofNat tag.toNat))
  | "LengthLimitExceeded", value => do
    let (length, limit) ← counts? "length" "limit" value
    some (.lengthLimitExceeded length limit)
  | "Malformed", .string reason => some (.malformed reason)
  | "ConfigError", .string reason => some (.config reason)
  | "LoggingError", .string reason => some (.logging reason)
  | _, _ => none

/-- The failure that a document holds. -/
def ofReport? (text : String) : Option Failure := do
  match ← (← Toml.parse? text).lookup "error" with
  | .table _ [(kind, value)] => ofDetails? kind value
  | _ => none

end BitCodec.Failure
