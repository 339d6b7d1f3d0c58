import BitCodec.Mini

/-!
# Values that are sent when they change

A presence bit, and the value only when it differs from the last one sent.  A
boolean goes without the presence bit: it costs one bit either way.  The
receiver keeps the last value in a destination, which a failed read leaves as
it was.

Sender and receiver use one `Form` for the value itself: the fixed wire form
or the mini code.
-/

namespace BitCodec

/-- How the value itself is sent. -/
inductive Form where
  | plain
  | mini
  deriving DecidableEq, Repr

namespace Form

/-- The reason why a value has no code of this form, if it has none. -/
def check : Form → (t : Prim) → t.Value → Except Failure Unit
  | .plain, _, _ => .ok ()
  | .mini, t, value => Mini.check t value

def write : Form → (t : Prim) → t.Value → Encoder Unit
  | .plain, t, value => t.write value
  | .mini, t, value => Mini.write t value

def read : Form → (t : Prim) → Decoder t.Value
  | .plain, t => t.read
  | .mini, t => Mini.read t

end Form

namespace Changed

/-- Append a value that the receiver does not have yet.  A value without a
code is refused before its presence bit is sent. -/
def writeAlways (form : Form) (t : Prim) (value : t.Value) : Encoder Unit :=
  if t.direct then form.write t value
  else
    match form.check t value with
    | .error e => Action.fail e
    | .ok () => do
      Stream.writeBit true
      form.write t value

/-- Append a value when it differs from the last one. -/
def write (form : Form) (t : Prim) (value last : t.Value) : Encoder Unit :=
  if t.direct then form.write t value
  else if t.same value last then Stream.writeBit false
  else writeAlways form t value

/-- Update the destination beside the position when a value was sent, and say
whether that changed it. -/
def read (form : Form) (t : Prim) (p : Payload) : Action (Nat × t.Value) Bool := do
  if t.direct then
    let before ← Action.current
    Action.store (form.read t p)
    let after ← Action.current
    pure (!t.same after.2 before.2)
  else if ← Action.beside (Decoder.readBit p) then
    Action.store (form.read t p)
    pure true
  else pure false

end Changed

end BitCodec
