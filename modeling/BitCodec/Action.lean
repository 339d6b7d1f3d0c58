import BitCodec.Effect
import BitCodec.Failure

/-!
# Operations with a state, effects and two ways of failing

An action runs on a state and leaves a trace: how it ended, the state it left
behind, and what an observer saw.  The state is there however the action ends,
so that what a failed operation leaves behind can be asked about.
-/

namespace BitCodec

/-- How an action ends. -/
inductive Ending (α : Type) where
  | value (a : α)
  | failed (e : Failure)
  | broken (b : Breach)
  deriving DecidableEq, Repr

namespace Ending

def map {α β : Type} (f : α → β) : Ending α → Ending β
  | .value a => .value (f a)
  | .failed e => .failed e
  | .broken b => .broken b

end Ending

/-- What an action leaves behind. -/
structure Trace (σ α : Type) where
  ending : Ending α
  state : σ
  effects : List Effect := []
  deriving DecidableEq, Repr

def Action (σ α : Type) : Type :=
  σ → Trace σ α

namespace Action

variable {σ τ α β : Type}

def done (a : α) : Action σ α := fun s =>
  { ending := .value a, state := s }

/-- Run one action and then another, which sees the first one's value. -/
def andThen (first : Action σ α) (next : α → Action σ β) : Action σ β := fun s =>
  let t := first s
  match t.ending with
  | .value a =>
    let u := next a t.state
    { ending := u.ending, state := u.state, effects := t.effects ++ u.effects }
  | .failed e => { ending := .failed e, state := t.state, effects := t.effects }
  | .broken b => { ending := .broken b, state := t.state, effects := t.effects }

instance : Monad (Action σ) where
  pure := done
  bind := andThen

/-- Fail because of data. -/
def fail (e : Failure) : Action σ α := fun s =>
  { ending := .failed e, state := s }

/-- Stop on a broken contract. -/
def breach (b : Breach) : Action σ α := fun s =>
  { ending := .broken b, state := s }

/-- Stop unless the caller kept a contract. -/
def demand (kept : Bool) (b : Breach) : Action σ Unit :=
  if kept then done () else breach b

/-- A value that is there, or an index out of bounds. -/
def inBounds : Option α → Action σ α
  | some a => done a
  | none => breach .bounds

def current : Action σ σ := fun s =>
  { ending := .value s, state := s }

def become (s : σ) : Action σ Unit := fun _ =>
  { ending := .value (), state := s }

/-- Let an observer see an effect. -/
def emit (effect : Effect) : Action σ Unit := fun s =>
  { ending := .value (), state := s, effects := [effect] }

/-- Put the state back when an action fails because of data. -/
def rewinding (body : Action σ α) : Action σ α := fun s =>
  let t := body s
  match t.ending with
  | .failed e => { ending := .failed e, state := s, effects := t.effects }
  | _ => t

def onPart (part : σ → τ) (replace : σ → τ → σ) (body : Action τ α) : Action σ α := fun s =>
  let t := body (part s)
  { ending := t.ending, state := replace s t.state, effects := t.effects }

/-- Run an action beside a destination that it does not touch. -/
def beside (body : Action σ α) : Action (σ × τ) α :=
  onPart Prod.fst (fun s part => (part, s.2)) body

/-- Run an action and store its value in the destination beside the state; a
failure stores nothing. -/
def store (body : Action σ τ) : Action (σ × τ) Unit := fun s =>
  let t := body s.1
  match t.ending with
  | .value a => { ending := .value (), state := (t.state, a), effects := t.effects }
  | .failed e => { ending := .failed e, state := (t.state, s.2), effects := t.effects }
  | .broken b => { ending := .broken b, state := (t.state, s.2), effects := t.effects }

/-! ## The monad laws -/

theorem bind_apply (first : Action σ α) (next : α → Action σ β) (s : σ) :
    (first >>= next) s = andThen first next s := rfl

theorem pure_apply (a : α) (s : σ) : (pure a : Action σ α) s = ⟨.value a, s, []⟩ := rfl

theorem andThen_done (body : Action σ α) : andThen body done = body := by
  funext s
  simp only [andThen, done]
  rcases body s with ⟨ending, state, effects⟩
  cases ending <;> simp

theorem done_andThen (a : α) (next : α → Action σ β) : andThen (done a) next = next a := by
  funext s
  simp [andThen, done]

theorem andThen_assoc {γ : Type} (first : Action σ α) (next : α → Action σ β)
    (last : β → Action σ γ) :
    andThen (andThen first next) last = andThen first fun a => andThen (next a) last := by
  funext s
  simp only [andThen]
  rcases first s with ⟨ending, state, effects⟩
  cases ending with
  | value a =>
    simp only
    generalize next a state = second
    rcases second with ⟨ending, state, effects⟩
    cases ending <;> simp
  | failed e => rfl
  | broken b => rfl

instance : LawfulMonad (Action σ) :=
  LawfulMonad.mk' (Action σ) (fun body => andThen_done body)
    (fun a next => done_andThen a next) (fun first next last => andThen_assoc first next last)

end Action

end BitCodec
