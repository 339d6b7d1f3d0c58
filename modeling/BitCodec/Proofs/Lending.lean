import BitCodec.Pool
import BitCodec.Proofs.Calls

/-!
# No stream of a pool is lost

A pool is used through any number of handles, and its streams are lent to holders, who
do what they like with them and then give them back or keep them.  `Lending` is such a
pool with all that is on loan from it, and an event is anything that happens to one of
them.  Events come in any order.

Each event moves at most one stream, and its `Movement` says where from and where to.
What every event keeps is that the streams that wait or are on loan are those made, less
those kept and those dropped for their size; that pool hits are counted as they happen;
and that a waiting stream is rewound and within the size that is kept.
-/

namespace BitCodec

namespace Counters

/-- Pool hits are counted one by one, and by nothing else. -/
theorem observe_poolHits (c : Counters) (effects : List Effect) :
    (c.observe effects).poolHits = c.poolHits + UInt64.ofNat (effects.count .poolHit) := by
  refine observe_total Counters.poolHits (· == .poolHit) (fun c effect => ?_) c effects
  cases effect with
  | bufferGrown before after spilled => cases spilled <;> exact (UInt64.add_zero _).symm
  | poolHit => rfl
  | _ => exact (UInt64.add_zero _).symm

end Counters

/-! ## Pools -/

namespace Pool

/-- A stream as it waits in a pool: rewound, and no larger than is kept. -/
structure Ready (s : Stream) : Prop where
  sound : s.Sound
  cursor_eq : s.cursor = Cursor.start
  kept : s.capacity ≤ maxKeptBytes

theorem ready_empty : Ready Stream.empty := by
  refine ⟨Stream.withRoom_sound 0, rfl, ?_⟩
  have hsize : Stream.empty.capacity = inlineBytes := Array.size_replicate
  rw [hsize]
  decide

theorem make_eq {σ : Type} (size : Nat) (state : σ) :
    (make size : Action σ Pool) state = ⟨.value ⟨List.replicate size Stream.empty⟩, state,
      List.replicate size .streamCreated⟩ := by
  induction size with
  | zero => rfl
  | succ size ih =>
    have hcreate : (Stream.create Stream.empty : Action σ Stream) state =
        ⟨.value Stream.empty, state, [.streamCreated]⟩ := rfl
    unfold make
    rw [Action.bind_trace hcreate, Action.bind_trace ih, Action.pure_apply, List.append_nil]
    rfl

end Pool

/-! ## Events -/

/-- A pool, how many handles of it there are, and the streams that are on loan. -/
structure Lending where
  pool : Pool
  handles : Nat
  loans : List Stream

/-- What can happen to a pool and to what is on loan from it.  Loans go by their
number; what asks for a handle or a loan that is not there does nothing. -/
inductive LendingEvent where
  | cloneHandle
  | dropHandle
  | acquire
  | use (loan : Nat) (call : Call)
  | giveBack (loan : Nat)
  | keep (loan : Nat)

/-- Where an event moved a stream. -/
inductive Movement where
  | nothing
  /-- A waiting stream was handed out. -/
  | recycled
  /-- None was waiting, and a new one was handed out. -/
  | made
  | returned
  /-- A stream was given back and dropped, since it had grown too large. -/
  | discarded
  /-- The holder took the stream for good. -/
  | kept
  deriving DecidableEq

namespace Lending

/-- Before there is a pool. -/
def nothing : Lending :=
  ⟨⟨[]⟩, 0, []⟩

end Lending

/-- Run an action and go on however it ended. -/
def Action.regardless {σ α : Type} (body : Action σ α) : Action σ Unit := fun s =>
  { ending := .value (), state := (body s).state, effects := (body s).effects }

namespace LendingEvent

def perform : LendingEvent → Action Lending Movement
  | cloneHandle => do
    let l ← Action.current
    if l.handles > 0 then
      Action.become { l with handles := l.handles + 1 }
    pure .nothing
  | dropHandle => do
    let l ← Action.current
    Action.become { l with handles := l.handles - 1 }
    pure .nothing
  | acquire => do
    let l ← Action.current
    if l.handles = 0 then pure .nothing
    else
      let s ← Action.onPart Lending.pool (fun l pool => { l with pool := pool }) Pool.acquire
      let taken ← Action.current
      Action.become { taken with loans := s :: taken.loans }
      pure (if l.pool.waiting.isEmpty then .made else .recycled)
  | use loan call => do
    let l ← Action.current
    if let some s := l.loans[loan]? then
      Action.regardless (Action.onPart (fun _ => s)
        (fun l s => { l with loans := l.loans.set loan s }) call.run)
    pure .nothing
  | giveBack loan => do
    let l ← Action.current
    match l.loans[loan]? with
    | none => pure .nothing
    | some s =>
      Action.become { l with pool := l.pool.release s, loans := l.loans.eraseIdx loan }
      pure (if s.capacity > Pool.maxKeptBytes then .discarded else .returned)
  | keep loan => do
    let l ← Action.current
    match l.loans[loan]? with
    | none => pure .nothing
    | some _ =>
      Action.become { l with loans := l.loans.eraseIdx loan }
      pure .kept

/-- Events one after another, and what each of them moved. -/
def performAll : List LendingEvent → Action Lending (List Movement)
  | [] => pure []
  | event :: rest => do
    let moved ← event.perform
    let later ← performAll rest
    pure (moved :: later)

end LendingEvent

namespace Lending

/-- Make a pool of so many streams, with one handle, and let events happen. -/
def history (size : Nat) (events : List LendingEvent) : Action Lending (List Movement) := do
  let pool ← Pool.make size
  Action.become ⟨pool, 1, []⟩
  LendingEvent.performAll events

/-! ## What an event does -/

/-- All that an event can do: what it moves, what is seen of it, and what it leads to. -/
inductive Step (l : Lending) : LendingEvent → Movement → List Effect → Lending → Prop where
  | still (event : LendingEvent) (handles : Nat) :
    Step l event .nothing [] { l with handles := handles }
  | recycle {s : Stream} {rest : List Stream} :
    l.pool.waiting = s :: rest →
      Step l .acquire .recycled [.poolHit] { l with pool := ⟨rest⟩, loans := s :: l.loans }
  | make :
    l.pool.waiting = [] →
      Step l .acquire .made [.streamCreated] { l with loans := Stream.empty :: l.loans }
  | use {loan : Nat} {call : Call} {s : Stream} :
    l.loans[loan]? = some s →
      Step l (.use loan call) .nothing (call.run s).effects
        { l with loans := l.loans.set loan (call.run s).state }
  | discard {loan : Nat} {s : Stream} :
    l.loans[loan]? = some s → s.capacity > Pool.maxKeptBytes →
      Step l (.giveBack loan) .discarded [] { l with loans := l.loans.eraseIdx loan }
  | takeBack {loan : Nat} {s : Stream} :
    l.loans[loan]? = some s → s.capacity ≤ Pool.maxKeptBytes →
      Step l (.giveBack loan) .returned []
        { l with
          pool := ⟨{ s with cursor := Cursor.start } :: l.pool.waiting⟩
          loans := l.loans.eraseIdx loan }
  | keep {loan : Nat} {s : Stream} :
    l.loans[loan]? = some s →
      Step l (.keep loan) .kept [] { l with loans := l.loans.eraseIdx loan }

theorem current_run (l : Lending) :
    (Action.current : Action Lending Lending) l = ⟨.value l, l, []⟩ := rfl

theorem giveBack_step (l : Lending) (loan : Nat) :
    ∃ moved effects l', (LendingEvent.giveBack loan).perform l = ⟨.value moved, l', effects⟩ ∧
      l.Step (.giveBack loan) moved effects l' := by
  cases hloan : l.loans[loan]? with
  | none =>
    refine ⟨.nothing, [], l, ?_, .still _ l.handles⟩
    simp only [LendingEvent.perform, Action.bind_value (current_run l), hloan]
    rfl
  | some s =>
    by_cases hsize : s.capacity > Pool.maxKeptBytes
    · refine ⟨.discarded, [], _, ?_, .discard hloan hsize⟩
      simp only [LendingEvent.perform, Action.bind_value (current_run l), hloan, Pool.release,
        if_pos hsize]
      rfl
    · refine ⟨.returned, [], _, ?_, .takeBack hloan (Nat.le_of_not_gt hsize)⟩
      simp only [LendingEvent.perform, Action.bind_value (current_run l), hloan, Pool.release,
        if_neg hsize]
      rfl

/-- Every event is carried out, and does one of these. -/
theorem perform_step (l : Lending) (event : LendingEvent) :
    ∃ moved effects l', event.perform l = ⟨.value moved, l', effects⟩ ∧
      l.Step event moved effects l' := by
  cases event with
  | cloneHandle =>
    by_cases hhandles : l.handles > 0
    · refine ⟨.nothing, [], _, ?_, .still _ (l.handles + 1)⟩
      simp only [LendingEvent.perform, Action.bind_value (current_run l), if_pos hhandles]
      rfl
    · refine ⟨.nothing, [], _, ?_, .still _ l.handles⟩
      simp only [LendingEvent.perform, Action.bind_value (current_run l), if_neg hhandles]
      rfl
  | dropHandle => exact ⟨.nothing, [], _, rfl, .still _ (l.handles - 1)⟩
  | acquire =>
    obtain ⟨⟨waiting⟩, handles, loans⟩ := l
    cases handles with
    | zero => exact ⟨.nothing, [], _, rfl, .still _ 0⟩
    | succ handles =>
      cases waiting with
      | nil => exact ⟨.made, _, _, rfl, .make rfl⟩
      | cons s rest => exact ⟨.recycled, _, _, rfl, .recycle rfl⟩
  | use loan call =>
    cases hloan : l.loans[loan]? with
    | none =>
      refine ⟨.nothing, [], l, ?_, .still _ l.handles⟩
      simp only [LendingEvent.perform, Action.bind_value (current_run l), hloan]
      rfl
    | some s =>
      refine ⟨.nothing, _, _, ?_, .use hloan⟩
      simp only [LendingEvent.perform, Action.bind_value (current_run l), hloan]
      exact Action.map_run _ (fun _ => Movement.nothing) l
  | giveBack loan => exact giveBack_step l loan
  | keep loan =>
    cases hloan : l.loans[loan]? with
    | none =>
      refine ⟨.nothing, [], l, ?_, .still _ l.handles⟩
      simp only [LendingEvent.perform, Action.bind_value (current_run l), hloan]
      rfl
    | some s =>
      refine ⟨.kept, [], _, ?_, .keep hloan⟩
      simp only [LendingEvent.perform, Action.bind_value (current_run l), hloan]
      rfl

/-- What a run of events does, event by event. -/
inductive Run : Lending → List LendingEvent → List Movement → List Effect → Lending → Prop where
  | nil (l : Lending) : Run l [] [] [] l
  | cons {l l' l'' : Lending} {event : LendingEvent} {rest : List LendingEvent}
    {moved : Movement} {moves : List Movement} {seen effects : List Effect} :
    l.Step event moved seen l' → Run l' rest moves effects l'' →
      Run l (event :: rest) (moved :: moves) (seen ++ effects) l''

theorem performAll_run (l : Lending) (events : List LendingEvent) :
    ∃ moves effects l', LendingEvent.performAll events l = ⟨.value moves, l', effects⟩ ∧
      l.Run events moves effects l' := by
  induction events generalizing l with
  | nil => exact ⟨[], [], l, rfl, .nil l⟩
  | cons event rest ih =>
    obtain ⟨moved, seen, l', hrun, hstep⟩ := perform_step l event
    obtain ⟨moves, effects, l'', hrest, hsteps⟩ := ih l'
    refine ⟨moved :: moves, seen ++ effects, l'', ?_, .cons hstep hsteps⟩
    unfold LendingEvent.performAll
    rw [Action.bind_trace hrun, Action.map_run, hrest]
    rfl

/-- A pool of so many streams, before anything happens to it. -/
def opened (size : Nat) : Lending :=
  ⟨⟨List.replicate size Stream.empty⟩, 1, []⟩

theorem history_run (size : Nat) (events : List LendingEvent) :
    ∃ moves effects l, history size events nothing =
        ⟨.value moves, l, List.replicate size .streamCreated ++ effects⟩ ∧
      (opened size).Run events moves effects l := by
  obtain ⟨moves, effects, l, hrun, hsteps⟩ := performAll_run (opened size) events
  refine ⟨moves, effects, l, ?_, hsteps⟩
  have hbecome : (Action.become (opened size) : Action Lending Unit) nothing =
      ⟨.value (), opened size, []⟩ := rfl
  have hopened : (do Action.become (opened size); LendingEvent.performAll events :
      Action Lending (List Movement)) nothing = ⟨.value moves, l, effects⟩ :=
    (Action.bind_value hbecome).trans hrun
  unfold history
  rw [Action.bind_trace (Pool.make_eq size nothing)]
  unfold opened at hopened
  rw [hopened]

/-! ## Accounts -/

structure Sound (l : Lending) : Prop where
  waiting : ∀ s ∈ l.pool.waiting, Pool.Ready s
  loans : ∀ s ∈ l.loans, s.Sound

theorem opened_sound (size : Nat) : (opened size).Sound := by
  refine ⟨fun s hs => ?_, fun s hs => nomatch hs⟩
  rw [List.eq_of_mem_replicate hs]
  exact Pool.ready_empty

/-- The streams that wait or are on loan. -/
def streams (l : Lending) : Nat :=
  l.pool.available + l.loans.length

/-- What was moved accounts for the streams there are afterwards, and for the hits that
were seen. -/
structure Accounts (l : Lending) (moves : List Movement) (effects : List Effect) (l' : Lending) :
    Prop where
  balance : l'.streams + moves.count .kept + moves.count .discarded =
    l.streams + moves.count .made
  hits : effects.count .poolHit = moves.count .recycled

section Steps

variable {l l' l'' : Lending} {event : LendingEvent} {events : List LendingEvent}
  {moved : Movement} {moves later : List Movement} {effects seen : List Effect}

theorem Accounts.trans (h : l.Accounts moves effects l') (hlater : l'.Accounts later seen l'') :
    l.Accounts (moves ++ later) (effects ++ seen) l'' := by
  have hbalance := h.balance
  have hbalance' := hlater.balance
  constructor
  · simp only [List.count_append]
    omega
  · rw [List.count_append, List.count_append, h.hits, hlater.hits]

theorem length_eraseIdx {loan : Nat} {s : Stream} (h : l.loans[loan]? = some s) :
    (l.loans.eraseIdx loan).length + 1 = l.loans.length := by
  obtain ⟨hlt, -⟩ := List.getElem?_eq_some_iff.mp h
  rw [List.length_eraseIdx_of_lt hlt]
  omega

theorem Step.sound (h : l.Step event moved effects l') (hl : l.Sound) : l'.Sound := by
  have herased : ∀ loan, ∀ s ∈ l.loans.eraseIdx loan, s.Sound :=
    fun loan s hs => hl.loans s (List.mem_of_mem_eraseIdx hs)
  cases h with
  | still => exact ⟨hl.waiting, hl.loans⟩
  | recycle hwaiting =>
    have hready := hl.waiting
    rw [hwaiting] at hready
    refine ⟨fun s hs => hready s (.tail _ hs), fun s hs => ?_⟩
    cases hs with
    | head => exact (hready _ (.head _)).sound
    | tail _ hs => exact hl.loans s hs
  | make =>
    refine ⟨hl.waiting, fun s hs => ?_⟩
    cases hs with
    | head => exact Pool.ready_empty.sound
    | tail _ hs => exact hl.loans s hs
  | @use loan call s hloan =>
    have hs := hl.loans s (List.mem_of_getElem? hloan)
    refine ⟨hl.waiting, fun other hother => ?_⟩
    rcases List.mem_or_eq_of_mem_set hother with hold | rfl
    · exact hl.loans other hold
    · exact (call.run_keeps hs).1
  | discard => exact ⟨hl.waiting, herased _⟩
  | @takeBack loan s hloan hsize =>
    have hs := hl.loans s (List.mem_of_getElem? hloan)
    refine ⟨fun other hother => ?_, herased loan⟩
    cases hother with
    | head => exact ⟨hs.rewind .both, rfl, hsize⟩
    | tail _ hother => exact hl.waiting other hother
  | keep => exact ⟨hl.waiting, herased _⟩

theorem Step.accounts (h : l.Step event moved effects l') : l.Accounts [moved] effects l' := by
  cases h with
  | still => exact ⟨rfl, rfl⟩
  | recycle hwaiting =>
    have hlength := congrArg List.length hwaiting
    refine ⟨?_, rfl⟩
    simp [streams, Pool.available] at hlength ⊢
    omega
  | make => exact ⟨rfl, rfl⟩
  | @use loan call s hloan =>
    refine ⟨?_, ?_⟩
    · simp [streams]
    · rw [List.count_eq_zero.mpr fun hhit => call.run_quiet s _ hhit rfl]
      rfl
  | discard hloan hsize =>
    have hlength := length_eraseIdx hloan
    refine ⟨?_, rfl⟩
    simp [streams]
    omega
  | takeBack hloan hsize =>
    have hlength := length_eraseIdx hloan
    refine ⟨?_, rfl⟩
    simp [streams, Pool.available]
    omega
  | keep hloan =>
    have hlength := length_eraseIdx hloan
    refine ⟨?_, rfl⟩
    simp [streams]
    omega

theorem Run.sound (h : l.Run events moves effects l') (hl : l.Sound) : l'.Sound := by
  induction h with
  | nil => exact hl
  | cons hstep _ ih => exact ih (hstep.sound hl)

theorem Run.accounts (h : l.Run events moves effects l') : l.Accounts moves effects l' := by
  induction h with
  | nil => exact ⟨rfl, rfl⟩
  | cons hstep _ ih => exact hstep.accounts.trans ih

end Steps

/-! ## Every history -/

/-- Whatever happens to a pool and to its streams, and in whatever order: the streams that
wait are those it was made with and those made when none was waiting, less those on loan,
those that were kept and those that were dropped for their size.  The counter of pool hits
has grown by the times that a waiting stream was handed out.  And every stream that waits
is rewound, with a buffer between the inline store and the largest that is kept: a holder
who asks for room that no word can count is refused, and the buffer stays as it is. -/
theorem streams_conserved (size : Nat) (events : List LendingEvent) (counters : Counters) :
    ∃ moves l effects, history size events nothing = ⟨.value moves, l, effects⟩ ∧
      l.pool.available + l.loans.length + moves.count .kept + moves.count .discarded =
        size + moves.count .made ∧
      (counters.observe effects).poolHits =
        counters.poolHits + UInt64.ofNat (moves.count .recycled) ∧
      ∀ s ∈ l.pool.waiting, s.cursor = Cursor.start ∧ inlineBytes ≤ s.capacity ∧
        s.capacity ≤ Pool.maxKeptBytes := by
  obtain ⟨moves, effects, l, hrun, hsteps⟩ := history_run size events
  have haccounts := hsteps.accounts
  refine ⟨moves, l, _, hrun, ?_, ?_, ?_⟩
  · have hsize : (opened size).streams = size := by simp [streams, opened, Pool.available]
    have hbalance := haccounts.balance
    rwa [hsize] at hbalance
  · have hmade : (List.replicate size Effect.streamCreated).count .poolHit = 0 :=
      List.count_eq_zero.mpr fun hhit => nomatch List.eq_of_mem_replicate hhit
    rw [Counters.observe_poolHits, List.count_append, hmade, Nat.zero_add, haccounts.hits]
  · intro s hs
    have hready := (hsteps.sound (opened_sound size)).waiting s hs
    exact ⟨hready.cursor_eq, hready.sound.inline_le, hready.kept⟩

/-- Where sums are not checked, a new stream that is asked for all the bits that a word can count
loses its buffer, and a pool that gets it back keeps it. -/
theorem cut_stream_waits :
    let s := (Stream.ensureUnchecked (2 ^ 64 - 1) Stream.empty).state
    (Stream.ensureUnchecked (2 ^ 64 - 1) Stream.empty).ending = .value () ∧
      ∃ waiting ∈ ((Pool.mk []).release s).waiting, waiting.capacity < inlineBytes := by
  intro s
  exact ⟨by decide +kernel, by decide +kernel⟩

/-- The second holder finds the pool empty; the first keeps the stream it has. -/
example :
    (history 1 [.acquire, .acquire, .keep 1, .cloneHandle, .giveBack 0, .acquire] nothing).ending =
      .value [.recycled, .made, .kept, .nothing, .returned, .recycled] := by
  decide +kernel

end Lending

end BitCodec
