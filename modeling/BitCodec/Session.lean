import BitCodec.Pool
import BitCodec.Request

/-!
# Sessions

A session holds named slots and pools.  A slot is an owned stream, a packet
being read, or a stream on loan from a pool.  Making something in a slot
replaces what was there; a stream on loan then goes back to its own pool,
after the new one has been made.

A request that makes no sense, such as writing to a packet, has no answer.
-/

namespace BitCodec

/-- What a slot holds. -/
inductive Slot where
  | owned (s : Stream)
  | packet (r : Reader)
  | pooled (pool : Nat) (s : Stream)
  deriving Repr

namespace Slot

def cursor : Slot → Cursor
  | owned s => s.cursor
  | packet r => r.cursor
  | pooled _ s => s.cursor

def stream? : Slot → Option Stream
  | owned s => some s
  | packet _ => none
  | pooled _ s => some s

def payload : Slot → Payload
  | owned s => s.payload
  | packet r => r.payload
  | pooled _ s => s.payload

/-- Put the stream of a slot in place of the one it has. -/
def withStream (slot : Slot) (s : Stream) : Slot :=
  match slot with
  | owned _ => owned s
  | packet r => packet r
  | pooled pool _ => pooled pool s

def withRead (slot : Slot) (read : Nat) : Slot :=
  match slot with
  | owned s => owned { s with cursor := { s.cursor with read := read } }
  | packet r => packet { r with read := read }
  | pooled pool s => pooled pool { s with cursor := { s.cursor with read := read } }

/-- Put the cap on length-prefixed blocks.  A stream on loan is not the
borrower's to make over. -/
def withLimit? (slot : Slot) (limit : Nat) : Option Slot :=
  match slot with
  | owned s => some (owned (s.withLimit limit))
  | packet r => some (packet { r with payload := r.payload.withLimit limit })
  | pooled _ _ => none

def decoding {α : Type} (body : Decoder α) : Action Slot α := fun slot =>
  Action.onPart (fun slot => slot.cursor.read) withRead (body slot.payload) slot

def hexText (slot : Slot) : Ending String :=
  (decoding Dump.hexText slot).ending

/-- The last bytes that are written, at most so many. -/
def tail? (slot : Slot) (count : Nat) : Option (List UInt8) :=
  slot.stream?.map fun s => s.written.drop (s.written.length - count)

end Slot

/-- Ways of making an owned stream. -/
inductive Making where
  | empty
  | withRoom (bytes : Nat)
  | sized (reserve limit : Nat)
  | ofBytes (data : List UInt8)
  deriving Repr

namespace Making

def stream : Making → Stream
  | empty => Stream.empty
  | withRoom bytes => Stream.withRoom bytes
  | sized reserve limit => (Stream.withRoom reserve).withLimit limit
  | ofBytes data => Stream.ofBytes data

end Making

/-- A request to a session. -/
inductive SessionRequest where
  | make (how : Making)
  | receive (data : List UInt8)
  | receiveBits (data : List UInt8) (bits : Nat)
  | copy (source : String)
  | withLimit (limit : Nat)
  | makePool (size : Nat)
  | available
  | acquire
  | release
  | keep
  | handOver
  | move (source : String) (bits : Nat)
  | moveAll (source : String)
  | read (request : ReadRequest)
  | write (request : WriteRequest)
  | transfer (direction : Direction) (field : Field)
  | view (requests : List ReadRequest)

/-- What a session answers. -/
inductive SessionAnswer where
  | plain (answer : Answer)
  | transferred (after : Answer) (changed : Option Bool)
  | moved (source : Cursor)
  | viewed (steps : List (Ending Answer × Cursor)) (limit : Nat)

/-- Named slots in order of their names, every pool that was made, and which
of them is in use. -/
structure Session where
  slots : List (String × Slot) := []
  pools : List Pool := []
  pool : Option Nat := none
  deriving Repr

namespace Session

def slot? (s : Session) (name : String) : Option Slot :=
  s.slots.lookup name

def insert (name : String) (slot : Slot) : List (String × Slot) → List (String × Slot)
  | [] => [(name, slot)]
  | (other, held) :: rest =>
    if name = other then (name, slot) :: rest
    else if name < other then (name, slot) :: (other, held) :: rest
    else (other, held) :: insert name slot rest

/-- Change what a slot holds, in place. -/
def set (s : Session) (name : String) (slot : Slot) : Session :=
  { s with slots := insert name slot s.slots }

/-- Give a stream back to its pool, if it is on loan. -/
def giveBack (s : Session) : Slot → Session
  | .pooled pool stream => { s with pools := s.pools.modify pool (·.release stream) }
  | _ => s

/-- Replace what a slot holds; what was in it is dropped. -/
def replace (s : Session) (name : String) (slot : Slot) : Session :=
  match s.slot? name with
  | some old => (s.set name slot).giveBack old
  | none => s.set name slot

/-- Empty a slot without giving anything back. -/
def remove (s : Session) (name : String) : Session :=
  { s with slots := s.slots.filter (·.1 != name) }

def drop (s : Session) (name : String) : Session :=
  match s.slot? name with
  | some old => (s.remove name).giveBack old
  | none => s

def put (name : String) (slot : Slot) : Action Session SessionAnswer := do
  let s ← Action.current
  Action.become (s.replace name slot)
  pure (.plain .nothing)

def onSlot {α : Type} (name : String) (slot : Slot) (body : Action Slot α) : Action Session α :=
  Action.onPart (fun _ => slot) (fun s slot => s.set name slot) body

def onStream {α : Type} (name : String) (slot : Slot) (stream : Stream) (body : Encoder α) :
    Action Session α :=
  onSlot name slot (Action.onPart (fun _ => stream) Slot.withStream body)

/-- Move bits from one slot to the stream of another. -/
def moving (name : String) (slot : Slot) (stream : Stream) (source : String) (giver : Slot)
    (body : Payload → Action (Stream × Nat) Unit) : Action Session SessionAnswer := do
  Action.onPart (fun _ => (stream, giver.cursor.read))
    (fun s part =>
      (s.set name (slot.withStream part.1)).set source (giver.withRead part.2))
    (body giver.payload)
  let s ← Action.current
  pure (.moved ((s.slot? source).elim giver.cursor Slot.cursor))

/-- Run reading requests on a view one after another; each of them ends on its
own. -/
def lookThrough : List ReadRequest → Action Reader (List (Ending Answer × Cursor))
  | [] => pure []
  | request :: rest => fun r =>
    let t := Reader.decoding request.run r
    let u := lookThrough rest t.state
    { ending := u.ending.map fun steps => (t.ending, t.state.cursor) :: steps
      state := u.state
      effects := t.effects ++ u.effects }

/-- What a request to a slot does, when the session can answer it. -/
def run? (s : Session) (name : String) : SessionRequest → Option (Action Session SessionAnswer)
  | .make how => some do
    let stream ← Stream.create how.stream
    put name (.owned stream)
  | .receive data => some (put name (.packet (Reader.ofPayload (Payload.ofBytes data))))
  | .receiveBits data bits => some do
    match Payload.ofBits data bits with
    | .ok p => put name (.packet (Reader.ofPayload p))
    | .error e => Action.fail e
  | .copy source => do
    let slot ← s.slot? source
    match slot with
    | .pooled _ stream => some (put name (.owned stream))
    | other => some (put name other)
  | .withLimit limit => do
    let slot ← s.slot? name
    let capped ← slot.withLimit? limit
    some do
      Action.become (s.set name capped)
      pure (.plain .nothing)
  | .makePool size => some do
    let pool ← Pool.make size
    Action.become { s with pools := s.pools ++ [pool], pool := some s.pools.length }
    pure (.plain .nothing)
  | .available => do
    let index ← s.pool
    let pool ← s.pools[index]?
    some (pure (.plain (.count pool.available)))
  | .acquire => do
    let index ← s.pool
    let pool ← s.pools[index]?
    some do
      let stream ← Action.onPart (fun _ => pool)
        (fun s pool => { s with pools := s.pools.set index pool }) Pool.acquire
      put name (.pooled index stream)
  | .release => do
    let _ ← s.slot? name
    some do
      Action.become (s.drop name)
      pure (.plain .nothing)
  | .keep => do
    match ← s.slot? name with
    | .pooled _ stream =>
      some do
        Action.become (s.set name (.owned stream))
        pure (.plain .nothing)
    | .packet r =>
      some do
        Action.become (s.remove name)
        pure (.plain (.octets r.payload.data.toList))
    | .owned _ => none
  | .handOver => do
    match ← s.slot? name with
    | .owned stream =>
      some do
        let bytes ← stream.handOver
        Action.become (s.remove name)
        pure (.plain (.octets bytes))
    | _ => none
  | .move source bits => do
    if source = name then none
    else
      let slot ← s.slot? name
      let stream ← slot.stream?
      let giver ← s.slot? source
      some (moving name slot stream source giver fun p => Stream.moveFrom p bits)
  | .moveAll source => do
    if source = name then none
    else
      let slot ← s.slot? name
      let stream ← slot.stream?
      let giver ← s.slot? source
      some (moving name slot stream source giver Stream.moveAll)
  | .read request => do
    let slot ← s.slot? name
    some do
      let answer ← onSlot name slot (Slot.decoding request.run)
      pure (.plain answer)
  | .write request => do
    let slot ← s.slot? name
    let stream ← slot.stream?
    some do
      let answer ← onStream name slot stream request.run
      pure (.plain answer)
  | .transfer direction field => do
    let slot ← s.slot? name
    let stream ← slot.stream?
    some do
      let (after, changed) ← onStream name slot stream (field.transfer direction)
      pure (.transferred after changed)
  | .view requests => do
    let slot ← s.slot? name
    let stream ← slot.stream?
    some do
      let steps ← Action.onPart (fun _ => stream.view) (fun s _ => s) (lookThrough requests)
      pure (.viewed steps stream.limit)

end Session

end BitCodec
