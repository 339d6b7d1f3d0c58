import BitCodec.Stream

/-!
# Pools of streams

A pool keeps streams for the next message.  The stream that came back last is
handed out first.  A stream comes back rewound, with its buffer kept; one
whose buffer has grown too large is dropped, so that a single large message
does not pin its memory for good.
-/

namespace BitCodec

/-- The waiting streams, the next one to be handed out first. -/
structure Pool where
  waiting : List Stream
  deriving DecidableEq, Repr

namespace Pool

/-- The largest buffer that is kept, in bytes. -/
def maxKeptBytes : Nat :=
  4096

/-- How many streams a pool holds unless a number is given. -/
def defaultSize : Nat :=
  32

def make {σ : Type} : Nat → Action σ Pool
  | 0 => pure ⟨[]⟩
  | size + 1 => do
    let s ← Stream.create Stream.empty
    let pool ← make size
    pure ⟨s :: pool.waiting⟩

def available (pool : Pool) : Nat :=
  pool.waiting.length

/-- Take a waiting stream, or make one when none is. -/
def acquire : Action Pool Stream := do
  let pool ← Action.current
  match pool.waiting with
  | s :: rest =>
    Action.become ⟨rest⟩
    Action.emit .poolHit
    pure s
  | [] => Stream.create Stream.empty

def release (pool : Pool) (s : Stream) : Pool :=
  if s.capacity > maxKeptBytes then pool
  else ⟨{ s with cursor := Cursor.start } :: pool.waiting⟩

end Pool

end BitCodec
