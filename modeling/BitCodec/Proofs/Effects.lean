import BitCodec.Proofs.Reports

/-!
# What an observer sees of writing and reading

Writing shows no more than buffers that grow and values that are sent in full, reading
no more than failed reads.  The first follows from what the basic operations show, for
nothing else is put together into a writer; the second from what readers report.
-/

namespace BitCodec

/-- A total that every effect raises by one or leaves alone is raised by the number of those
that raise it. -/
theorem Counters.observe_total (total : Counters → UInt64) (counted : Effect → Bool)
    (hone : ∀ c effect, total (c.observe [effect]) =
      total c + UInt64.ofNat ([effect].countP counted)) (c : Counters) (effects : List Effect) :
    total (c.observe effects) = total c + UInt64.ofNat (effects.countP counted) := by
  induction effects generalizing c with
  | nil => exact (UInt64.add_zero _).symm
  | cons effect rest ih =>
    have hstep : c.observe (effect :: rest) = (c.observe [effect]).observe rest :=
      c.observe_append [effect] rest
    have hcount : (effect :: rest).countP counted =
        [effect].countP counted + rest.countP counted := by
      rw [← List.singleton_append, List.countP_append]
    rw [hstep, ih, hone, hcount, UInt64.ofNat_add, UInt64.add_assoc]

/-- Whatever it is given and however it ends, an action lets an observer see such effects
only. -/
def Action.Shows {σ α : Type} (seen : Effect → Prop) (body : Action σ α) : Prop :=
  ∀ s, ∀ effect ∈ (body s).effects, seen effect

namespace Action.Shows

variable {σ τ α β : Type} {seen : Effect → Prop} {body : Action σ α}

theorem of_still (h : ∀ s, (body s).effects = []) : Shows seen body := by
  intro s effect heffect
  rw [h] at heffect
  cases heffect

protected theorem pure (a : α) : Shows seen (pure a : Action σ α) :=
  of_still fun _ => rfl

protected theorem current : Shows seen (current : Action σ σ) :=
  of_still fun _ => rfl

protected theorem become (s : σ) : Shows seen (become s) :=
  of_still fun _ => rfl

protected theorem demand (kept : Bool) (b : Breach) :
    Shows seen (demand kept b : Action σ Unit) := by
  cases kept <;> exact of_still fun _ => rfl

protected theorem inBounds (a : Option α) : Shows seen (inBounds a : Action σ α) := by
  cases a <;> exact of_still fun _ => rfl

protected theorem emit {effect : Effect} (h : seen effect) :
    Shows seen (emit effect : Action σ Unit) := by
  intro s other hother
  rw [List.mem_singleton.mp hother]
  exact h

protected theorem bind {next : α → Action σ β} (h : Shows seen body)
    (hnext : ∀ a, Shows seen (next a)) : Shows seen (body >>= next) := by
  intro s
  have hfirst := h s
  rcases hrun : body s with ⟨ending, s', effects⟩
  rw [hrun] at hfirst
  cases ending with
  | value a =>
    rw [bind_trace hrun]
    intro effect heffect
    rcases List.mem_append.mp heffect with hearly | hlate
    · exact hfirst effect hearly
    · exact hnext a s' effect hlate
  | failed e =>
    rw [bind_failed hrun]
    exact hfirst
  | broken b =>
    rw [bind_broken hrun]
    exact hfirst

protected theorem map (h : Shows seen body) (f : α → β) :
    Shows seen (body >>= fun a => pure (f a)) :=
  h.bind fun a => Shows.pure (f a)

protected theorem ite {condition : Prop} [Decidable condition] {other : Action σ α}
    (h : Shows seen body) (hother : Shows seen other) :
    Shows seen (if condition then body else other) := by
  split
  · exact h
  · exact hother

protected theorem onPart {part : τ → σ} {replace : τ → σ → τ} (h : Shows seen body) :
    Shows seen (onPart part replace body) :=
  fun s => h (part s)

end Action.Shows

/-! ## Writers and readers -/

/-- What a writer lets an observer see: a buffer that grows and a value that is sent in
full. -/
def Effect.ofWriting : Effect → Prop
  | .bufferGrown _ _ _ | .rangeEscaped _ _ _ => True
  | _ => False

/-- What a reader lets an observer see. -/
def Effect.ofReading : Effect → Prop
  | .payloadShort _ _ _ | .valueRejected => True
  | _ => False

namespace Stream

open BitCodec.Action (Shows)

theorem makeRoom_shows (bits : Nat) : Shows Effect.ofWriting (makeRoom bits) := by
  refine (Shows.demand _ _).bind fun _ => Shows.current.bind fun s => ?_
  exact Shows.ite ((Shows.become _).bind fun _ => Shows.emit trivial) (Shows.pure ())

theorem ensure_shows (bits : Nat) : Shows Effect.ofWriting (ensure bits) :=
  (Shows.demand _ _).bind fun _ => Shows.current.bind fun _ =>
    (Shows.demand _ _).bind fun _ => makeRoom_shows bits

theorem put_shows {seen : Effect → Prop} (bits : Nat)
    (change : Array UInt8 → Nat → Option (Array UInt8)) : Shows seen (put bits change) :=
  Shows.current.bind fun _ => (Shows.inBounds _).bind fun _ => Shows.become _

theorem makeRoom_put_shows (room bits : Nat)
    (change : Array UInt8 → Nat → Option (Array UInt8)) :
    Shows Effect.ofWriting (do makeRoom room; put bits change) :=
  (makeRoom_shows room).bind fun _ => put_shows bits change

theorem align_shows : Shows Effect.ofWriting align :=
  Shows.current.bind fun _ => Shows.ite (makeRoom_put_shows _ _ _) (Shows.pure ())

end Stream

open BitCodec.Action (Shows)

theorem Assembled.shows {α : Type} {body : Encoder α} (h : Assembled body) :
    Shows Effect.ofWriting body := by
  induction h with
  | pure a => exact Shows.pure a
  | fail e => exact Shows.of_still fun _ => rfl
  | escaped value min max => exact Shows.emit trivial
  | writeBits source bits right =>
    exact (Shows.demand _ _).bind fun _ =>
      Shows.ite (Stream.makeRoom_put_shows _ _ _) (Shows.pure ())
  | writeBit bit => exact Stream.makeRoom_put_shows _ _ _
  | align => exact Stream.align_shows
  | padTo bytes =>
    exact Shows.current.bind fun _ =>
      Shows.ite ((Stream.ensure_shows _).bind fun _ => Stream.put_shows _ _) (Shows.pure ())
  | writeWhole _ =>
    exact Shows.current.bind fun _ => (Shows.demand _ _).bind fun _ =>
      Stream.makeRoom_put_shows _ _ _
  | writeAlignedBytes source =>
    exact Shows.ite (Shows.pure ())
      (Stream.align_shows.bind fun _ => Stream.makeRoom_put_shows _ _ _)
  | bind _ _ hbody hnext => exact hbody.bind hnext

/-- An effect that is counted as nothing but a failed read is one of reading. -/
theorem Decoder.Reports.shows {α : Type} {unseen : Bool} {body : Decoder α}
    (h : Reports unseen body) (p : Payload) : Shows Effect.ofReading (body p) := by
  intro pos effect heffect
  have hfailed : ∀ tally ∈ effect.tallies, tally = .decodeError := by
    intro tally htally
    have hcounted := List.mem_flatMap.mpr ⟨effect, heffect, htally⟩
    rw [h p pos] at hcounted
    exact Ending.eq_of_mem_tallies hcounted
  cases effect with
  | payloadShort _ _ _ | valueRejected => trivial
  | bufferGrown before after spilled =>
    cases spilled
    · cases hfailed .reallocation (.head _)
    · cases hfailed .reallocation (.head _)
  | _ => cases hfailed _ (.head _)

end BitCodec
