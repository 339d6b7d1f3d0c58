/-!
# Observable effects and the events they report

Operations change their stream and, beside that, let an observer see some of
what they do: streams that are made, buffers that grow, reads that fall short.
An `Effect` is one such occurrence with its figures.  Counters and diagnostic
events are both read off the effects, so the two never disagree.
-/

namespace BitCodec

/-- Something an operation lets an observer see. -/
inductive Effect where
  /-- An owned stream was made. -/
  | streamCreated
  /-- A buffer grew, in bytes; `spilled` when it left the inline store. -/
  | bufferGrown (before after : Nat) (spilled : Bool)
  /-- A read asked for more bits than were left. -/
  | payloadShort (requested available position : Nat)
  /-- A value was read that its range does not contain. -/
  | valueRejected
  /-- A value outside its range was sent in full. -/
  | rangeEscaped (value min max : String)
  /-- Bytes were handed to the transport. -/
  | bytesEncoded (count : Nat)
  /-- A pool handed out a stream that was waiting. -/
  | poolHit
  deriving DecidableEq, Repr

/-- How grave an event is. -/
inductive Level where
  | trace
  | debug
  | info
  | warn
  | error
  deriving DecidableEq, Repr

namespace Level

/-- The place of a level; graver levels have smaller numbers. -/
def rank : Level → Nat
  | .error => 1
  | .warn => 2
  | .info => 3
  | .debug => 4
  | .trace => 5

def name : Level → String
  | .trace => "TRACE"
  | .debug => "DEBUG"
  | .info => "INFO"
  | .warn => "WARN"
  | .error => "ERROR"

def lowerName : Level → String
  | .trace => "trace"
  | .debug => "debug"
  | .info => "info"
  | .warn => "warn"
  | .error => "error"

def ofRank? : Nat → Option Level
  | 1 => some .error
  | 2 => some .warn
  | 3 => some .info
  | 4 => some .debug
  | 5 => some .trace
  | _ => none

/-- Letters to lower case, ASCII letters only. -/
def lowerAscii (text : String) : String :=
  String.ofList (text.toList.map Char.toLower)

/-- The level with a name, in any mix of cases. -/
def ofName? (text : String) : Option Level :=
  match lowerAscii text with
  | "trace" => some .trace
  | "debug" => some .debug
  | "info" => some .info
  | "warn" => some .warn
  | "error" => some .error
  | _ => none

@[simp] theorem ofRank?_rank (level : Level) : ofRank? level.rank = some level := by
  cases level <;> rfl

end Level

/-- The value of an event's field. -/
inductive FieldValue where
  | number (n : Nat)
  | text (s : String)
  deriving DecidableEq, Repr

namespace FieldValue

def plain : FieldValue → String
  | .number n => toString n
  | .text s => s

end FieldValue

/-- A diagnostic event: its level, the part of the library it comes from, its
message, and its fields in order. -/
structure Event where
  level : Level
  target : String
  message : String
  fields : List (String × FieldValue)
  deriving DecidableEq, Repr

namespace Effect

/-- The event that reports an effect, if one does. -/
def event? : Effect → Option Event
  | .bufferGrown before after true =>
    some ⟨.debug, "netbits::core::buffer", "Stream buffer spilled to heap",
      [("from", .number before), ("to", .number after)]⟩
  | .bufferGrown before after false =>
    some ⟨.trace, "netbits::core::buffer", "Stream buffer grown",
      [("from", .number before), ("to", .number after)]⟩
  | .payloadShort requested available position =>
    some ⟨.debug, "netbits::core::io", "Read past end of payload",
      [("requested", .number requested), ("available", .number available),
        ("read_pos", .number position)]⟩
  | .rangeEscaped value min max =>
    some ⟨.trace, "netbits::compression::ranged", "Ranged value escaped",
      [("value", .text value), ("min", .text min), ("max", .text max)]⟩
  | .streamCreated | .valueRejected | .bytesEncoded _ | .poolHit => none

end Effect

end BitCodec
