import BitCodec.Effect

/-!
# Counters

Seven running totals of what streams and decoders did.  They are 64-bit words
and wrap.  A `Tally` is a change of the counters asked for by name; `Counters`
also follow the effects of operations.
-/

namespace BitCodec

/-- The running totals. -/
structure Counters where
  streamsCreated : UInt64 := 0
  heapSpills : UInt64 := 0
  reallocations : UInt64 := 0
  bytesEncoded : UInt64 := 0
  decodeErrors : UInt64 := 0
  rangeEscapes : UInt64 := 0
  poolHits : UInt64 := 0
  deriving DecidableEq, Repr

/-- One change of the totals. -/
inductive Tally where
  | streamCreated
  | heapSpill
  | reallocation
  | bytesEncoded (count : UInt64)
  | decodeError
  | rangeEscape
  | poolHit
  deriving DecidableEq, Repr

namespace Counters

def add (c : Counters) : Tally → Counters
  | .streamCreated => { c with streamsCreated := c.streamsCreated + 1 }
  | .heapSpill => { c with heapSpills := c.heapSpills + 1 }
  | .reallocation => { c with reallocations := c.reallocations + 1 }
  | .bytesEncoded count => { c with bytesEncoded := c.bytesEncoded + count }
  | .decodeError => { c with decodeErrors := c.decodeErrors + 1 }
  | .rangeEscape => { c with rangeEscapes := c.rangeEscapes + 1 }
  | .poolHit => { c with poolHits := c.poolHits + 1 }

/-- The totals with their names, in the order of reports. -/
def named (c : Counters) : List (String × UInt64) :=
  [("streams_created", c.streamsCreated), ("heap_spills", c.heapSpills),
    ("reallocations", c.reallocations), ("bytes_encoded", c.bytesEncoded),
    ("decode_errors", c.decodeErrors), ("range_escapes", c.rangeEscapes),
    ("pool_hits", c.poolHits)]

/-- The event that reports the totals. -/
def snapshotEvent (c : Counters) : Event :=
  ⟨.info, "netbits::utils::metrics", "Codec metrics snapshot",
    c.named.map fun (name, total) => (name, .number total.toNat)⟩

end Counters

/-- The event that reports the end of a timed piece of work. -/
def timedEvent (operation : String) : Event :=
  ⟨.debug, "netbits::utils::metrics", "Operation completed", [("operation", .text operation)]⟩

namespace Effect

def tallies : Effect → List Tally
  | .streamCreated => [.streamCreated]
  | .bufferGrown _ _ spilled => if spilled then [.reallocation, .heapSpill] else [.reallocation]
  | .payloadShort _ _ _ => [.decodeError]
  | .valueRejected => [.decodeError]
  | .rangeEscaped _ _ _ => [.rangeEscape]
  | .bytesEncoded count => [.bytesEncoded (UInt64.ofNat count)]
  | .poolHit => [.poolHit]

end Effect

namespace Counters

def observe (c : Counters) (effects : List Effect) : Counters :=
  (effects.flatMap Effect.tallies).foldl add c

theorem observe_append (c : Counters) (first second : List Effect) :
    c.observe (first ++ second) = (c.observe first).observe second := by
  simp [observe]

end Counters

end BitCodec
