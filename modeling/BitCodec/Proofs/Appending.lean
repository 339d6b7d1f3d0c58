import BitCodec.Proofs.Assembly
import BitCodec.Proofs.Writing

/-!
# Writers only append

Whatever a writing operation is given and however it ends, a sound stream stays
sound, the bits it held stay in front, and the read position and the cap stay as
they are.  What has been appended when an operation fails in the middle is a matter
of that operation.
-/

namespace BitCodec

namespace Stream

/-- A sound stream goes on as a sound stream that holds the same bits and maybe
more. -/
def Grows (s s' : Stream) : Prop :=
  s.Sound → ∃ bits, s.Grown bits s'

theorem grows_course : Action.Course Grows := by
  refine ⟨fun s hs => ⟨[], Grown.refl hs⟩, ?_⟩
  intro a b c hab hbc ha
  obtain ⟨first, hfirst⟩ := hab ha
  obtain ⟨second, hsecond⟩ := hbc hfirst.sound
  exact ⟨first ++ second, hfirst.trans hsecond⟩

theorem Grows.sound {s s' : Stream} (h : s.Grows s') (hs : s.Sound) : s'.Sound := by
  obtain ⟨bits, hgrown⟩ := h hs
  exact hgrown.sound

end Stream

/-- A writing operation that only appends. -/
def Appending {α : Type} (body : Encoder α) : Prop :=
  Action.Respects Stream.Grows body

namespace Appending

open BitCodec.Stream

variable {α β : Type}

protected theorem pure (a : α) : Appending (pure a : Encoder α) :=
  Action.Respects.pure grows_course a

protected theorem fail (e : Failure) : Appending (Action.fail e : Encoder α) :=
  Action.Respects.fail grows_course e

protected theorem bind {body : Encoder α} {next : α → Encoder β} (h : Appending body)
    (hnext : ∀ a, Appending (next a)) : Appending (body >>= next) :=
  Action.Respects.bind grows_course h hnext

protected theorem map (h : Appending body) (f : α → β) :
    Appending (body >>= fun a => pure (f a)) :=
  h.bind fun a => Appending.pure (f a)

/-! ## The basic operations -/

theorem of_appends {body : Encoder Unit} {s : Stream} {bits : List Bool} (hs : s.Sound)
    (h : Appends body s bits) : ∃ bits, s.Grown bits (body s).state := by
  obtain ⟨s', hrun, hext⟩ := h
  rw [hrun]
  exact ⟨bits, hext.grown hs⟩

/-- What a broken contract leaves behind is what was there. -/
theorem of_broken {body : Encoder α} {s : Stream} {b : Breach} (hs : s.Sound)
    (h : body s = ⟨.broken b, s, []⟩) : ∃ bits, s.Grown bits (body s).state := by
  rw [h]
  exact ⟨[], Grown.refl hs⟩

protected theorem ensure (bits : Nat) : Appending (ensure bits) := by
  intro s hs
  rcases ensure_cases s bits with ⟨_, _, hrun⟩ | ⟨_, _, hrun⟩ | ⟨_, hrun⟩
  · rw [hrun]
    exact ⟨[], hs.grown_roomFor bits⟩
  · exact of_broken hs hrun
  · exact of_broken hs hrun

protected theorem writeBits (source : List UInt8) (bits : Nat) (right : Bool) :
    Appending (writeBits source bits right) := by
  intro s hs
  by_cases hsource : bytesOfBits bits ≤ source.length
  · exact of_appends hs (writeBits_run hs right hsource)
  · exact of_broken hs (writeBits_short right hsource s)

protected theorem writeBit (bit : Bool) : Appending (writeBit bit) :=
  fun _ hs => of_appends hs (writeBit_run hs bit)

protected theorem align : Appending align :=
  fun _ hs => of_appends hs (align_run hs)

protected theorem padTo (bytes : Nat) : Appending (padTo bytes) :=
  fun _ hs => of_appends hs (padTo_run hs bytes)

protected theorem writeWhole (source : List UInt8) : Appending (writeWhole source) := by
  intro s hs
  by_cases haligned : s.cursor.write % 8 = 0
  · by_cases hsource : source = []
    · subst hsource
      exact of_broken hs (writeWhole_nil haligned)
    · exact of_appends hs (writeWhole_run hs hsource haligned)
  · exact of_broken hs (writeWhole_unaligned source haligned)

protected theorem writeAlignedBytes (source : List UInt8) :
    Appending (writeAlignedBytes source) := by
  intro s hs
  by_cases hsource : source = []
  · subst hsource
    exact ⟨[], Grown.refl hs⟩
  · obtain ⟨s', effects, hrun, hgrown⟩ := writeAlignedBytes_run hs hsource
    rw [hrun]
    exact ⟨_, hgrown⟩

end Appending

/-- What is put together from operations that only append does only append. -/
theorem Assembled.appending {α : Type} {body : Encoder α} (h : Assembled body) :
    Appending body := by
  induction h with
  | pure a => exact Appending.pure a
  | fail e => exact Appending.fail e
  | escaped value min max => exact Action.Respects.emit Stream.grows_course _
  | writeBits source bits right => exact Appending.writeBits source bits right
  | writeBit bit => exact Appending.writeBit bit
  | align => exact Appending.align
  | padTo bytes => exact Appending.padTo bytes
  | writeWhole _ => exact Appending.writeWhole _
  | writeAlignedBytes source => exact Appending.writeAlignedBytes source
  | bind _ _ hbody hnext => exact hbody.bind hnext

end BitCodec
