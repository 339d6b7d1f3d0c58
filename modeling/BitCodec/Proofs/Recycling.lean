import BitCodec.Proofs.Lending
import BitCodec.Proofs.Twins

/-!
# Recycled streams are as good as new under their cap

A stream that waits in a pool is rewound, and whatever its holders left in the buffer
lies behind the written bits, of which there are none.  So it is the twin of a new stream
under the cap that it has, and nothing a later holder does tells the two apart.

The cap is the one thing that giving a stream back does not take away.  Every stream of a
pool is under the cap that new streams have or under one that a holder has put, to that
stream or to the one it stands in for; and a cap that was put stays for the next holder.
-/

namespace BitCodec

/-! ## Where caps come from -/

/-- Whether a holder puts a stream under this cap. -/
def LendingEvent.Puts : LendingEvent → Nat → Prop
  | use _ (.setLimit cap), limit => limit = cap
  | use _ (.assign s), limit => limit = s.1.limit
  | _, _ => False

theorem Call.cap_put (loan : Nat) (call : Call) (before : Nat) :
    call.cap before = before ∨ (LendingEvent.use loan call).Puts (call.cap before) := by
  cases call with
  | setLimit limit => exact .inr rfl
  | assign s => exact .inr rfl
  | _ => exact .inl rfl

namespace Lending

/-- Every stream that waits or is on loan is under one of these caps. -/
structure Capped (allowed : Nat → Prop) (l : Lending) : Prop where
  waiting : ∀ s ∈ l.pool.waiting, allowed s.limit
  loans : ∀ s ∈ l.loans, allowed s.limit

section Caps

variable {allowed : Nat → Prop} {l l' : Lending} {event : LendingEvent}
  {events : List LendingEvent} {moved : Movement} {moves : List Movement} {effects : List Effect}

theorem opened_capped (hdefault : allowed defaultReadLimit) (size : Nat) :
    (opened size).Capped allowed := by
  refine ⟨fun s hs => ?_, fun s hs => nomatch hs⟩
  rw [List.eq_of_mem_replicate hs]
  exact hdefault

theorem Step.capped (h : l.Step event moved effects l') (hl : l.Sound)
    (hdefault : allowed defaultReadLimit) (hput : ∀ limit, event.Puts limit → allowed limit)
    (hcapped : l.Capped allowed) : l'.Capped allowed := by
  have herased : ∀ loan, ∀ s ∈ l.loans.eraseIdx loan, allowed s.limit :=
    fun loan s hs => hcapped.loans s (List.mem_of_mem_eraseIdx hs)
  cases h with
  | still => exact ⟨hcapped.waiting, hcapped.loans⟩
  | recycle hwaiting =>
    have hready := hcapped.waiting
    rw [hwaiting] at hready
    refine ⟨fun s hs => hready s (.tail _ hs), fun s hs => ?_⟩
    cases hs with
    | head => exact hready _ (.head _)
    | tail _ hs => exact hcapped.loans s hs
  | make =>
    refine ⟨hcapped.waiting, fun s hs => ?_⟩
    cases hs with
    | head => exact hdefault
    | tail _ hs => exact hcapped.loans s hs
  | @use loan call s hloan =>
    have hmem := List.mem_of_getElem? hloan
    refine ⟨hcapped.waiting, fun other hother => ?_⟩
    rcases List.mem_or_eq_of_mem_set hother with hold | rfl
    · exact hcapped.loans other hold
    · rw [(call.run_keeps (hl.loans s hmem)).2]
      rcases call.cap_put loan s.limit with hkept | hputs
      · rw [hkept]
        exact hcapped.loans s hmem
      · exact hput _ hputs
  | discard => exact ⟨hcapped.waiting, herased _⟩
  | @takeBack loan s hloan hsize =>
    refine ⟨fun other hother => ?_, herased loan⟩
    cases hother with
    | head => exact hcapped.loans s (List.mem_of_getElem? hloan)
    | tail _ hother => exact hcapped.waiting other hother
  | keep => exact ⟨hcapped.waiting, herased _⟩

theorem Run.capped (h : l.Run events moves effects l') (hl : l.Sound)
    (hdefault : allowed defaultReadLimit)
    (hput : ∀ event ∈ events, ∀ limit, event.Puts limit → allowed limit)
    (hcapped : l.Capped allowed) : l'.Capped allowed := by
  induction h with
  | nil => exact hcapped
  | cons hstep _ ih =>
    exact ih (hstep.sound hl) (fun event hevent => hput event (.tail _ hevent))
      (hstep.capped hl hdefault (hput _ (.head _)) hcapped)

end Caps

end Lending

/-! ## Streams that are handed out -/

namespace Pool

/-- A stream that waits cannot be told from a new one under the same cap. -/
theorem Ready.twin {s : Stream} (h : Ready s) : s.Twin (Stream.empty.withLimit s.limit) := by
  refine ⟨h.sound, (Stream.withRoom_sound 0).withLimit s.limit, ?_, ?_, rfl⟩
  · have hold : s.string = [] := by
      unfold Stream.string
      rw [h.cursor_eq]
      rfl
    have hnew : (Stream.empty.withLimit s.limit).string = [] := rfl
    rw [hold, hnew]
  · rw [h.cursor_eq]
    rfl

theorem acquire_ready {pool : Pool} (h : ∀ s ∈ pool.waiting, Ready s) :
    ∃ s rest effects, acquire pool = ⟨.value s, rest, effects⟩ ∧ Ready s ∧
      (s ∈ pool.waiting ∨ s = Stream.empty) := by
  obtain ⟨waiting⟩ := pool
  cases waiting with
  | nil => exact ⟨Stream.empty, ⟨[]⟩, _, rfl, ready_empty, .inr rfl⟩
  | cons s rest => exact ⟨s, ⟨rest⟩, _, rfl, h s (.head _), .inl (.head _)⟩

end Pool

namespace Lending

/-- What is handed out next, whatever happened before. -/
theorem acquired (size : Nat) (events : List LendingEvent) :
    ∃ s rest effects,
      Pool.acquire (history size events nothing).state.pool = ⟨.value s, rest, effects⟩ ∧
      Pool.Ready s ∧ (s.limit = defaultReadLimit ∨ ∃ event ∈ events, event.Puts s.limit) := by
  obtain ⟨moves, effects, l, hrun, hsteps⟩ := history_run size events
  have hsound := hsteps.sound (opened_sound size)
  have hcapped : l.Capped fun limit =>
      limit = defaultReadLimit ∨ ∃ event ∈ events, event.Puts limit :=
    hsteps.capped (opened_sound size) (.inl rfl)
      (fun event hevent _ hputs => .inr ⟨event, hevent, hputs⟩) (opened_capped (.inl rfl) size)
  obtain ⟨s, rest, seen, hacquire, hready, horigin⟩ := Pool.acquire_ready hsound.waiting
  rw [hrun]
  refine ⟨s, rest, seen, hacquire, hready, ?_⟩
  rcases horigin with hwaiting | rfl
  · exact hcapped.waiting s hwaiting
  · exact .inl rfl

/-- Where no holder puts another cap, no program that leaves the buffer alone can tell the
stream that is handed out next from a new one. -/
theorem recycled_as_new (size : Nat) {events : List LendingEvent}
    (hcaps : ∀ event ∈ events, ∀ limit, event.Puts limit → limit = defaultReadLimit)
    {program : CallProgram} (hprogram : program.All (·.measures = false)) :
    ∃ s rest effects,
      Pool.acquire (history size events nothing).state.pool = ⟨.value s, rest, effects⟩ ∧
      program.observe s = program.observe Stream.empty := by
  obtain ⟨s, rest, effects, hacquire, hready, hlimit⟩ := acquired size events
  have hdefault : s.limit = defaultReadLimit := by
    rcases hlimit with hnew | ⟨event, hevent, hputs⟩
    · exact hnew
    · exact hcaps event hevent _ hputs
  have htwin := hready.twin
  rw [hdefault] at htwin
  exact ⟨s, rest, effects, hacquire, CallProgram.observe_twins htwin hprogram⟩

/-- Whatever happened to a pool and to its streams: no program that leaves the buffer alone
can tell the stream that is handed out next from a new one under the same cap, and that
cap is the one of new streams or one that a holder has put. -/
theorem recycled_like_new (size : Nat) (events : List LendingEvent) {program : CallProgram}
    (hprogram : program.All (·.measures = false)) :
    ∃ s rest effects,
      Pool.acquire (history size events nothing).state.pool = ⟨.value s, rest, effects⟩ ∧
      program.observe s = program.observe (Stream.empty.withLimit s.limit) ∧
      (s.limit = defaultReadLimit ∨ ∃ event ∈ events, event.Puts s.limit) := by
  obtain ⟨s, rest, effects, hacquire, hready, hlimit⟩ := acquired size events
  exact ⟨s, rest, effects, hacquire, CallProgram.observe_twins hready.twin hprogram, hlimit⟩

/-- The second holder writes over what the first one left, under the first one's cap. -/
theorem recycled_like_new_overwritten :
    let events : List LendingEvent := [.acquire, .use 0 (.write (.bytes [0xFF, 0xFF, 0xFF])),
      .use 0 (.read .bit), .use 0 (.setLimit 12), .giveBack 0]
    let program : CallProgram := .ask (.write (.bits [5] 3 true)) fun _ =>
      .ask (.read .hexText) fun _ => .ask (.write .align) fun _ => .ask (.read .readLimit)
        fun _ => .finish
    program.All (·.measures = false) ∧ ∃ s rest effects,
      Pool.acquire (history 1 events nothing).state.pool = ⟨.value s, rest, effects⟩ ∧
      program.observe s = program.observe (Stream.empty.withLimit s.limit) ∧
      (s.limit = defaultReadLimit ∨ ∃ event ∈ events, event.Puts s.limit) := by
  intro events program
  have hprogram : program.All (·.measures = false) :=
    ⟨rfl, fun _ => ⟨rfl, fun _ => ⟨rfl, fun _ => ⟨rfl, fun _ => trivial⟩⟩⟩⟩
  exact ⟨hprogram, recycled_like_new 1 events hprogram⟩

set_option maxRecDepth 20000 in
/-- A block that a new stream hands out is refused by a recycled one, under the cap of the
holder before. -/
theorem recycled_keeps_old_cap :
    let events : List LendingEvent := [.acquire, .use 0 (.setLimit 12), .giveBack 0]
    let program : CallProgram := .ask (.write (.block (List.replicate 13 7) 13)) fun _ =>
      .ask (.read .blockLimited) fun _ => .finish
    program.All (·.measures = false) ∧ ∃ s rest effects,
      Pool.acquire (history 1 events nothing).state.pool = ⟨.value s, rest, effects⟩ ∧
      s.limit = 12 ∧ Stream.empty.limit = 65536 ∧
      (program.observe s).map Sight.ending =
        [.value (.plain (.count 13)), .failed (.lengthLimitExceeded 13 12)] ∧
      (program.observe Stream.empty).map Sight.ending =
        [.value (.plain (.count 13)), .value (.plain (.octets (List.replicate 13 7)))] := by
  intro events program
  have hprogram : program.All (·.measures = false) :=
    ⟨rfl, fun _ => ⟨rfl, fun _ => trivial⟩⟩
  have hpool : (history 1 events nothing).state.pool = ⟨[Stream.empty.withLimit 12]⟩ := rfl
  have hacquire : Pool.acquire (history 1 events nothing).state.pool =
      ⟨.value (Stream.empty.withLimit 12), ⟨[]⟩, [.poolHit]⟩ := by
    rw [hpool]
    rfl
  exact ⟨hprogram, _, _, _, hacquire, rfl, rfl, rfl, rfl⟩

end Lending

end BitCodec
