import BitCodec.Proofs.History

/-!
# What a failure leaves behind

A failed operation can only have changed what an earlier part of it changed.  So an
operation spares a view of the state when the parts in front of the one that can fail
keep that view, when no part behind it can fail, or when it puts everything back itself.

With the whole state as the view this says that a failed reading leaves the position
where it was.  With the destination as the view it says that a failed reading stores
nothing.
-/

namespace BitCodec

/-! ## Sparing a view of the state -/

namespace Action

variable {σ τ ρ α β : Type}

/-- However the action ends, the view of the state is the same as before. -/
def Keeps (view : σ → τ) (body : Action σ α) : Prop :=
  ∀ s, view (body s).state = view s

/-- A failure leaves the view of the state as it was. -/
def Spares (view : σ → τ) (body : Action σ α) : Prop :=
  ∀ ⦃s e⦄, (body s).ending = .failed e → view (body s).state = view s

/-- The action never fails because of data. -/
def Unfailing (body : Action σ α) : Prop :=
  ∀ ⦃s e⦄, (body s).ending ≠ .failed e

variable {view : σ → τ} {body : Action σ α} {next : α → Action σ β}

namespace Unfailing

theorem of_value (h : ∀ s, ∃ a s' effects, body s = ⟨.value a, s', effects⟩) : Unfailing body := by
  intro s e hend
  obtain ⟨a, s', effects, hrun⟩ := h s
  rw [hrun] at hend
  cases hend

protected theorem pure (a : α) : Unfailing (pure a : Action σ α) :=
  of_value fun s => ⟨a, s, [], rfl⟩

protected theorem current : Unfailing (current : Action σ σ) :=
  of_value fun s => ⟨s, s, [], rfl⟩

protected theorem become (s : σ) : Unfailing (become s) :=
  of_value fun _ => ⟨(), s, [], rfl⟩

protected theorem emit (effect : Effect) : Unfailing (emit effect : Action σ Unit) :=
  of_value fun s => ⟨(), s, [effect], rfl⟩

/-- A broken contract is no failure. -/
protected theorem demand (kept : Bool) (b : Breach) :
    Unfailing (demand kept b : Action σ Unit) := by
  intro s e hend
  cases kept <;> cases hend

protected theorem inBounds (a : Option α) : Unfailing (inBounds a : Action σ α) := by
  intro s e hend
  cases a <;> cases hend

protected theorem bind (h : Unfailing body) (hnext : ∀ a, Unfailing (next a)) :
    Unfailing (body >>= next) := by
  intro s e hend
  rcases hrun : body s with ⟨ending, s', effects⟩
  cases ending with
  | value a =>
    rw [bind_trace hrun] at hend
    exact hnext a hend
  | failed f => exact h (congrArg Trace.ending hrun)
  | broken b =>
    rw [bind_broken hrun] at hend
    cases hend

protected theorem ite {condition : Prop} [Decidable condition] {other : Action σ α}
    (h : Unfailing body) (hother : Unfailing other) :
    Unfailing (if condition then body else other) := by
  split
  · exact h
  · exact hother

protected theorem onPart {part : ρ → σ} {replace : ρ → σ → ρ} (h : Unfailing body) :
    Unfailing (onPart part replace body) :=
  fun _ _ hend => h hend

end Unfailing

namespace Keeps

theorem of_still (h : ∀ s, (body s).state = s) : Keeps view body :=
  fun s => congrArg view (h s)

protected theorem current : Keeps view (current : Action σ σ) :=
  of_still fun _ => rfl

protected theorem demand (kept : Bool) (b : Breach) :
    Keeps view (demand kept b : Action σ Unit) := by
  cases kept <;> exact of_still fun _ => rfl

/-- An action beside a destination does not touch the destination. -/
protected theorem beside (body : Action σ α) :
    Keeps (Prod.snd : σ × τ → τ) (beside body) :=
  fun _ => rfl

protected theorem bind (h : Keeps view body) (hnext : ∀ a, Keeps view (next a)) :
    Keeps view (body >>= next) := by
  intro s
  have hfirst := h s
  rcases hrun : body s with ⟨ending, s', effects⟩
  rw [hrun] at hfirst
  cases ending with
  | value a =>
    rw [bind_trace hrun]
    exact (hnext a s').trans hfirst
  | failed e =>
    rw [bind_failed hrun]
    exact hfirst
  | broken b =>
    rw [bind_broken hrun]
    exact hfirst

protected theorem onPart {view : ρ → τ} {part : ρ → σ} {replace : ρ → σ → ρ}
    (hback : ∀ r, replace r (part r) = r) (h : Keeps id body) :
    Keeps view (onPart part replace body) := by
  intro r
  have hstill : (body (part r)).state = part r := h (part r)
  simp only [Action.onPart, hstill, hback]

end Keeps

theorem Unfailing.spares (h : Unfailing body) : Spares view body :=
  fun _ _ hend => absurd hend (@h _ _)

theorem Keeps.spares (h : Keeps view body) : Spares view body :=
  fun s _ _ => h s

namespace Spares

/-- What comes before the part that can fail must keep the view. -/
theorem bind_of_keeps (h : Keeps view body) (hnext : ∀ a, Spares view (next a)) :
    Spares view (body >>= next) := by
  intro s e hend
  have hfirst := h s
  rcases hrun : body s with ⟨ending, s', effects⟩
  rw [hrun] at hfirst
  cases ending with
  | value a =>
    rw [bind_trace hrun] at hend ⊢
    exact (hnext a hend).trans hfirst
  | failed f =>
    rw [bind_failed hrun]
    exact hfirst
  | broken b =>
    rw [bind_broken hrun]
    exact hfirst

/-- What comes behind the part that can fail must not fail. -/
theorem bind_unfailing (h : Spares view body) (hnext : ∀ a, Unfailing (next a)) :
    Spares view (body >>= next) := by
  intro s e hend
  rcases hrun : body s with ⟨ending, s', effects⟩
  cases ending with
  | value a =>
    rw [bind_trace hrun] at hend
    exact absurd hend (@hnext a _ _)
  | failed f =>
    have hfirst := h (congrArg Trace.ending hrun)
    rw [hrun] at hfirst
    rw [bind_failed hrun]
    exact hfirst
  | broken b =>
    rw [bind_broken hrun] at hend
    cases hend

protected theorem map (h : Spares view body) (f : α → β) :
    Spares view (body >>= fun a => pure (f a)) :=
  h.bind_unfailing fun a => Unfailing.pure (f a)

protected theorem ite {condition : Prop} [Decidable condition] {other : Action σ α}
    (h : Spares view body) (hother : Spares view other) :
    Spares view (if condition then body else other) := by
  split
  · exact h
  · exact hother

/-- A rewinding action spares everything, whatever it puts together. -/
protected theorem rewinding (body : Action σ α) : Spares view (rewinding body) := by
  intro s e hend
  rcases hrun : body s with ⟨ending, s', effects⟩
  cases ending with
  | failed f => simp only [Action.rewinding, hrun]
  | value a =>
    simp only [Action.rewinding, hrun] at hend
    cases hend
  | broken b =>
    simp only [Action.rewinding, hrun] at hend
    cases hend

/-- Nothing is stored by a failure. -/
protected theorem store (body : Action σ τ) : Spares Prod.snd (store body) := by
  intro s e hend
  rcases hrun : body s.1 with ⟨ending, s', effects⟩
  cases ending with
  | failed f => simp only [Action.store, hrun]
  | value a =>
    simp only [Action.store, hrun] at hend
    cases hend
  | broken b =>
    simp only [Action.store, hrun] at hend
    cases hend

protected theorem onPart {view : ρ → τ} {part : ρ → σ} {replace : ρ → σ → ρ}
    (hback : ∀ r, replace r (part r) = r) (h : Spares id body) :
    Spares view (onPart part replace body) := by
  intro r e hend
  have hstill : (body (part r)).state = part r := h hend
  simp only [Action.onPart, hstill, hback]

end Spares

end Action

/-! ## Readings that move nothing when they fail -/

namespace Decoder

open BitCodec.Action (Keeps Spares Unfailing)

variable {α β : Type} {body : Decoder α} {next : α → Decoder β}

/-- However the reading ends, the position is where it was. -/
def Steady (body : Decoder α) : Prop :=
  ∀ p, Keeps id (body p)

/-- The reading never fails because of data. -/
def Sure (body : Decoder α) : Prop :=
  ∀ p, Unfailing (body p)

/-- A failure leaves the position where it was. -/
def Atomic (body : Decoder α) : Prop :=
  ∀ p, Spares id (body p)

namespace Steady

protected theorem payload : Steady payload :=
  fun _ => Keeps.of_still fun _ => rfl

protected theorem position : Steady position :=
  fun _ => Keeps.current

protected theorem demand (kept : Bool) (b : Breach) : Steady (demand kept b) :=
  fun _ => Keeps.demand kept b

protected theorem pure (a : α) : Steady (pure a : Decoder α) :=
  fun _ => Keeps.of_still fun _ => rfl

protected theorem fail (e : Failure) : Steady (fail e : Decoder α) :=
  fun _ => Keeps.of_still fun _ => rfl

protected theorem emit (effect : Effect) : Steady (emit effect) :=
  fun _ => Keeps.of_still fun _ => rfl

protected theorem bind (h : Steady body) (hnext : ∀ a, Steady (next a)) :
    Steady (body >>= next) :=
  fun p => Keeps.bind (h p) fun a => hnext a p

protected theorem ite {condition : Prop} [Decidable condition] {other : Decoder α}
    (h : Steady body) (hother : Steady other) : Steady (if condition then body else other) := by
  split
  · exact h
  · exact hother

/-- Asking for bits moves nothing, whether they are there or not. -/
protected theorem need (bits : Nat) : Steady (need bits) := by
  have havailable : Steady available :=
    Steady.payload.bind fun _ => Steady.position.bind fun _ =>
      (Steady.demand _ _).bind fun _ => Steady.pure _
  refine havailable.bind fun left => Steady.ite ?_ (Steady.pure ())
  exact Steady.position.bind fun _ => (Steady.emit _).bind fun _ => Steady.fail _

end Steady

namespace Sure

protected theorem payload : Sure payload :=
  fun p => Unfailing.pure p

protected theorem position : Sure position :=
  fun _ => Unfailing.current

protected theorem demand (kept : Bool) (b : Breach) : Sure (demand kept b) :=
  fun _ => Unfailing.demand kept b

protected theorem inBounds (a : Option α) : Sure (inBounds a) :=
  fun _ => Unfailing.inBounds a

protected theorem pure (a : α) : Sure (pure a : Decoder α) :=
  fun _ => Unfailing.pure a

protected theorem bind (h : Sure body) (hnext : ∀ a, Sure (next a)) : Sure (body >>= next) :=
  fun p => Unfailing.bind (h p) fun a => hnext a p

protected theorem advance (bits : Nat) : Sure (advance bits) :=
  Sure.payload.bind fun _ => Sure.position.bind fun _ =>
    (Sure.demand _ _).bind fun _ => fun _ => Unfailing.become _

/-- Looking something up and moving on. -/
theorem taking (bits : Nat) (found : Option α) :
    Sure (do
      let a ← inBounds found
      advance bits
      pure a) :=
  (Sure.inBounds found).bind fun a => (Sure.advance bits).bind fun _ => Sure.pure a

end Sure

namespace Atomic

theorem bind_of_steady (h : Steady body) (hnext : ∀ a, Atomic (next a)) :
    Atomic (body >>= next) :=
  fun p => Spares.bind_of_keeps (h p) fun a => hnext a p

theorem bind_sure (h : Atomic body) (hnext : ∀ a, Sure (next a)) : Atomic (body >>= next) :=
  fun p => (h p).bind_unfailing fun a => hnext a p

protected theorem map (h : Atomic body) (f : α → β) : Atomic (body >>= fun a => pure (f a)) :=
  h.bind_sure fun a => Sure.pure (f a)

protected theorem pure (a : α) : Atomic (pure a : Decoder α) :=
  fun _ => (Unfailing.pure a).spares

/-- A rewinding reading spares the position, whatever it puts together. -/
protected theorem rewinding (body : Decoder α) : Atomic (rewinding body) :=
  fun p => Spares.rewinding (body p)

protected theorem need (bits : Nat) : Atomic (need bits) :=
  fun p => (Steady.need bits p).spares

protected theorem skip (bits : Nat) : Atomic (skip bits) :=
  (Atomic.need bits).bind_sure fun _ => Sure.advance bits

protected theorem readBit : Atomic readBit :=
  (Atomic.need 1).bind_sure fun _ => Sure.payload.bind fun p => Sure.position.bind fun pos =>
    Sure.taking 1 (Bits.getBit p.data pos)

protected theorem readBits (destination : List UInt8) (bits : Nat) (right : Bool) :
    Atomic (readBits destination bits right) := by
  refine bind_of_steady (Steady.demand _ _) fun _ => ?_
  by_cases hzero : bits = 0
  · rw [if_pos hzero]
    exact Atomic.pure destination
  · rw [if_neg hzero]
    exact (Atomic.need bits).bind_sure fun _ => Sure.payload.bind fun p =>
      Sure.position.bind fun pos =>
        Sure.taking bits (Bits.copyOut p.data pos destination bits right)

protected theorem readBytes (count : Nat) : Atomic (readBytes count) :=
  Atomic.readBits _ _ _

protected theorem readWhole (count : Nat) : Atomic (readWhole count) := by
  refine bind_of_steady Steady.position fun pos => ?_
  refine bind_of_steady (Steady.demand _ _) fun _ => ?_
  exact (Atomic.need (8 * count)).bind_sure fun _ => Sure.payload.bind fun p =>
    Sure.taking (8 * count) (Bits.getBytes p.data (pos / 8) count)

/-- The alignment is put back together with everything else. -/
protected theorem readAlignedBytes (count : Nat) : Atomic (readAlignedBytes count) := by
  unfold readAlignedBytes
  by_cases hzero : count = 0
  · rw [if_pos hzero]
    exact Atomic.pure []
  · rw [if_neg hzero]
    exact Atomic.rewinding _

end Atomic

end Decoder

open Decoder (Atomic)

theorem Prim.read_atomic (t : Prim) : Atomic t.read := by
  cases t with
  | int t => exact (Atomic.readBits _ _ _).map _
  | bool => exact Atomic.readBit
  | float t => exact (Atomic.readBits _ _ _).map _
  | u24 => exact (Atomic.readBits _ _ _).map _
  | address => exact Atomic.rewinding _

namespace ReadRequest

open BitCodec.Action (Unfailing)

/-- The readings that promise to move nothing when they fail: all but the codes that
are taken in several steps without putting anything back. -/
def atomic : ReadRequest → Bool
  | .mini t => t = .bool ∨ t = .u24 ∨ t = .address
  | .need _ | .skip _ | .skipBytes _ | .bit | .bits .. | .bytes _ | .alignedBytes _ | .aligned _
  | .value _ | .valueInto .. => true
  | _ => false

theorem run_atomic {request : ReadRequest} (h : request.atomic = true) : Atomic request.run := by
  cases request with
  | need n => exact (Atomic.need n).map _
  | skip n => exact (Atomic.skip n).map _
  | skipBytes n => exact (Atomic.skip _).map _
  | bit => exact Atomic.readBit.map _
  | bits destination count right => exact (Atomic.readBits destination count right).map _
  | bytes count => exact (Atomic.readBytes count).map _
  | alignedBytes count => exact (Atomic.readAlignedBytes count).map _
  | aligned t => exact ((Atomic.readWhole t.bytes).map _).map _
  | value t => exact t.read_atomic.map _
  | valueInto t destination =>
    have hupdating : Atomic
        (Decoder.updating destination fun p => Action.store (t.read p)) := by
      rw [Decoder.updating_store]
      exact t.read_atomic.map _
    exact hupdating.map _
  | mini t =>
    have hread : Atomic (Mini.read t) := by
      cases t with
      | bool => exact Atomic.readBit
      | u24 => exact Atomic.rewinding _
      | address => exact Atomic.rewinding _
      | int t => simp [atomic] at h
      | float t => simp [atomic] at h
    exact hread.map _
  | _ => cases h

end ReadRequest

/-! ## Moving bits between streams -/

namespace Stream

open BitCodec.Action (Keeps Spares Unfailing)

theorem makeRoom_unfailing (bits : Nat) : Unfailing (makeRoom bits) := by
  refine Unfailing.bind (Unfailing.demand _ _) fun _ => ?_
  refine Unfailing.bind Unfailing.current fun s => ?_
  refine Unfailing.ite ?_ (Unfailing.pure ())
  exact Unfailing.bind (Unfailing.become _) fun _ => Unfailing.emit _

theorem put_unfailing (bits : Nat) (change : Array UInt8 → Nat → Option (Array UInt8)) :
    Unfailing (put bits change) := by
  refine Unfailing.bind Unfailing.current fun s => ?_
  exact Unfailing.bind (Unfailing.inBounds _) fun buffer => Unfailing.become _

/-- Writing bits never fails because of data. -/
theorem writeBits_unfailing (source : List UInt8) (bits : Nat) (right : Bool) :
    Unfailing (writeBits source bits right) := by
  refine Unfailing.bind (Unfailing.demand _ _) fun _ => ?_
  refine Unfailing.ite ?_ (Unfailing.pure ())
  exact Unfailing.bind (makeRoom_unfailing bits) fun _ => put_unfailing bits _

/-- Bits are asked for before any is moved, so neither side changes when there are too
few. -/
theorem moveFrom_spares (source : Payload) (bits : Nat) : Spares id (moveFrom source bits) := by
  refine Spares.bind_of_keeps ?_ fun _ => ?_
  · exact Keeps.onPart (fun _ => rfl) (Decoder.Steady.need bits source)
  · refine Spares.ite ?_ (Unfailing.pure ()).spares
    refine Spares.bind_unfailing ?_ fun moved => ?_
    · exact Spares.onPart (fun _ => rfl) (Atomic.readBits _ bits false source)
    · exact Unfailing.onPart (writeBits_unfailing moved bits false)

end Stream

/-! ## Destinations -/

namespace Trace

/-- Show what is left in the part beside the state as an answer. -/
def showing {σ α β : Type} (answer : β → Answer) (t : Trace (σ × β) α) : Trace (σ × Answer) α :=
  ⟨t.ending, (t.state.1, answer t.state.2), t.effects⟩

end Trace

/-- A reading into a destination, with what the destination holds. -/
inductive Filling where
  | value (t : Prim) (held : t.Value)
  | bits (held : List UInt8) (count : Nat) (right : Bool)
  | bytes (held : List UInt8)
  | alignedBytes (held : List UInt8)
  | changed (form : Form) (t : Prim) (held : t.Value)

namespace Filling

def held : Filling → Answer
  | value t held => .value t held
  | bits held _ _ | bytes held | alignedBytes held => .octets held
  | changed _ t held => .value t held

/-- Run the reading on a position and its destination. -/
def run (p : Payload) (pos : Nat) : Filling → Trace (Nat × Answer) Unit
  | value t held => (Action.store (t.read p) (pos, held)).showing (.value t)
  | bits held count right =>
    (Action.store (Decoder.readBits held count right p) (pos, held)).showing .octets
  | bytes held => (Action.store (Decoder.fillBytes held p) (pos, held)).showing .octets
  | alignedBytes held =>
    (Action.store (Decoder.readAlignedBytes held.length p) (pos, held)).showing .octets
  | changed form t held =>
    ((Changed.read form t p >>= fun _ => pure ()) (pos, held)).showing (.value t)

end Filling

namespace Changed

open BitCodec.Action (Keeps Spares Unfailing)

theorem read_spares (form : Form) (t : Prim) (p : Payload) :
    Spares Prod.snd (Changed.read form t p) := by
  refine Spares.ite ?_ ?_
  · refine Spares.bind_of_keeps Keeps.current fun before => ?_
    refine (Spares.store _).bind_unfailing fun _ => ?_
    exact Unfailing.current.bind fun after => Unfailing.pure _
  · refine Spares.bind_of_keeps (Keeps.beside _) fun sent => ?_
    exact Spares.ite ((Spares.store _).map fun _ => true) (Unfailing.pure false).spares

/-- The receiving half of a transfer reads beside the read position of the stream. -/
theorem receive_spares (form : Form) (t : Prim) : Spares Prod.snd (receive form t) := by
  intro s e hend
  have hread : Spares Prod.snd (Changed.read form t s.1.payload) := read_spares form t _
  exact @hread (s.1.cursor.read, s.2) e hend

end Changed

theorem Filling.run_spares {p : Payload} {pos : Nat} {filling : Filling} {e : Failure}
    (hend : (filling.run p pos).ending = .failed e) :
    (filling.run p pos).state.2 = filling.held := by
  cases filling with
  | value t held => exact congrArg (Answer.value t) (Action.Spares.store _ hend)
  | bits held count right => exact congrArg Answer.octets (Action.Spares.store _ hend)
  | bytes held => exact congrArg Answer.octets (Action.Spares.store _ hend)
  | alignedBytes held => exact congrArg Answer.octets (Action.Spares.store _ hend)
  | changed form t held =>
    exact congrArg (Answer.value t) ((Changed.read_spares form t p).map (fun _ => ()) hend)

/-! ## Transfers -/

theorem Codec.transfer_spares {α : Type} (c : Codec α) :
    Action.Spares Prod.snd (c.transfer .decode) :=
  Action.Spares.store _

namespace Field

/-- The value that a field has before its transfer. -/
def held : Field → Answer
  | plain t v | mini t v | changed _ t v _ => .value t v
  | casted _ t v | ranged t v _ _ _ => .value (.int t) v
  | rangedFloat t v _ _ => .value (.float t) v
  | unitVector t v | vector t v => .vector t v
  | rotation t q => .rotation t q
  | matrix t m => .matrix t m
  | bits bytes _ => .octets bytes

/-- Run a transfer with a field beside the stream and show what is left of both. -/
def shown {α β : Type} (field : β) (body : Action (Stream × β) α) (flag : α → Option Bool)
    (answer : β → Answer) (s : Stream) : Trace (Stream × Answer) (Option Bool) :=
  ((body >>= fun a => pure (flag a)) (s, field)).showing answer

def shownAlong {α : Type} (c : Codec α) (direction : Direction) (field : α) (answer : α → Answer)
    (s : Stream) : Trace (Stream × Answer) (Option Bool) :=
  shown field (c.transfer direction) (fun _ => none) answer s

/-- What a transfer leaves in the stream and in the field, however it ends. -/
def move (direction : Direction) (s : Stream) : Field → Trace (Stream × Answer) (Option Bool)
  | plain t v => shownAlong (Codec.plain t) direction v (.value t) s
  | mini t v => shownAlong (Codec.mini t) direction v (.value t) s
  | changed form t v last => shown v (Changed.transfer form t last direction) some (.value t) s
  | casted wire t v => shownAlong (Codec.casted wire t) direction v (.value (.int t)) s
  | ranged t v min max escape =>
    shownAlong (Codec.ranged t min max escape) direction v (.value (.int t)) s
  | rangedFloat t v min max =>
    shownAlong (Codec.rangedFloat t min max) direction v (.value (.float t)) s
  | unitVector t v => shownAlong (Codec.unitVector t) direction v (.vector t) s
  | vector t v => shownAlong (Codec.vector t) direction v (.vector t) s
  | rotation t q => shownAlong (Codec.rotation t) direction q (.rotation t) s
  | matrix t m => shownAlong (Codec.matrix t) direction m (.matrix t) s
  | bits bytes count => shown bytes (transferBits count direction) (fun _ => none) .octets s

/-- What the caller of a transfer is given: the stream and, unless it failed, the field. -/
def given (t : Trace (Stream × Answer) (Option Bool)) : Trace Stream (Answer × Option Bool) :=
  ⟨t.ending.map (t.state.2, ·), t.state.1, t.effects⟩

theorem exchange_shown {α β : Type} (field : β) (body : Action (Stream × β) α)
    (flag : α → Option Bool) (answer : β → Answer) (s : Stream) :
    (exchange field body >>= fun u => pure (answer u.2, flag u.1)) s =
      given (shown field body flag answer s) := by
  have hrun := exchange_run field body (fun u => (answer u.2, flag u.1)) s
  refine hrun.trans ?_
  unfold shown
  rw [Action.map_run]
  unfold given Trace.showing
  cases (body (s, field)).ending <;> rfl

theorem transfer_move (direction : Direction) (field : Field) (s : Stream) :
    field.transfer direction s = given (field.move direction s) := by
  cases field with
  | changed form t v last => exact exchange_shown v _ some (.value t) s
  | plain t v | mini t v => exact exchange_shown v _ (fun _ => none) (.value t) s
  | casted wire t v => exact exchange_shown v _ (fun _ => none) (.value (.int t)) s
  | ranged t v min max escape => exact exchange_shown v _ (fun _ => none) (.value (.int t)) s
  | rangedFloat t v min max => exact exchange_shown v _ (fun _ => none) (.value (.float t)) s
  | unitVector t v | vector t v => exact exchange_shown v _ (fun _ => none) (.vector t) s
  | rotation t q => exact exchange_shown q _ (fun _ => none) (.rotation t) s
  | matrix t m => exact exchange_shown m _ (fun _ => none) (.matrix t) s
  | bits bytes count => exact exchange_shown bytes _ (fun _ => none) .octets s

theorem shown_spares {α β : Type} {field : β} {body : Action (Stream × β) α}
    {flag : α → Option Bool} {answer : β → Answer} {s : Stream} {e : Failure}
    (h : Action.Spares Prod.snd body) (hend : (shown field body flag answer s).ending = .failed e) :
    (shown field body flag answer s).state.2 = answer field :=
  congrArg answer (h.map flag hend)

theorem transferBits_spares (count : Nat) :
    Action.Spares Prod.snd (transferBits count .decode) :=
  Action.Spares.bind_of_keeps Action.Keeps.current fun _ => Action.Spares.store _

/-- A field that could not be received is left as it was. -/
theorem move_spares {field : Field} {s : Stream} {e : Failure}
    (hend : (field.move .decode s).ending = .failed e) :
    (field.move .decode s).state.2 = field.held := by
  cases field with
  | changed form t v last => exact shown_spares (Changed.receive_spares form t) hend
  | bits bytes count => exact shown_spares (transferBits_spares count) hend
  | _ => exact shown_spares (Codec.transfer_spares _) hend

end Field

/-! ## The result -/

/-- A reading that promises it, and moving bits to another stream, leave the source as it
was when they fail: its position, its written bits and its bytes.  And a failure leaves
every destination as it was, be it that of a reading or the field of a transfer. -/
theorem Slot.failure_spares (slot : Slot) :
    (∀ (request : ReadRequest) (e : Failure), request.atomic = true →
      (Slot.decoding request.run slot).ending = .failed e →
        (Slot.decoding request.run slot).state = slot) ∧
    (∀ (taker : Stream) (bits : Nat) (e : Failure),
      (Stream.moveFrom slot.payload bits (taker, slot.cursor.read)).ending = .failed e →
        (Stream.moveFrom slot.payload bits (taker, slot.cursor.read)).state =
          (taker, slot.cursor.read)) ∧
    (∀ (filling : Filling) (e : Failure),
      (filling.run slot.payload slot.cursor.read).ending = .failed e →
        (filling.run slot.payload slot.cursor.read).state.2 = filling.held) ∧
    (∀ (s : Stream) (field : Field) (e : Failure), (field.transfer .decode s).ending = .failed e →
      (field.move .decode s).state.2 = field.held) ∧
    (∀ (α : Type) (c : Codec α) (s : Stream) (v : α) (e : Failure),
      (c.transfer .decode (s, v)).ending = .failed e → (c.transfer .decode (s, v)).state.2 = v) := by
  refine ⟨?_, ?_, ?_, ?_, ?_⟩
  · intro request e hatomic hend
    have hstill : (request.run slot.payload slot.cursor.read).state = slot.cursor.read :=
      ReadRequest.run_atomic hatomic slot.payload hend
    rw [Slot.decoding_run, hstill]
    cases slot <;> rfl
  · exact fun taker bits e hend => Stream.moveFrom_spares slot.payload bits hend
  · exact fun filling e hend => Filling.run_spares hend
  · intro s field e hend
    rw [Field.transfer_move] at hend
    rcases hmove : (field.move .decode s).ending with a | f | b
    · rw [Field.given, hmove] at hend
      cases hend
    · exact Field.move_spares hmove
    · rw [Field.given, hmove] at hend
      cases hend
  · exact fun α c s v e hend => Codec.transfer_spares c hend

/-- An address that is cut short in its octets, more bits moved than there are, and a
changed number behind a one bit that is cut short. -/
theorem Slot.failure_spares_cut_short :
    let slot : Slot := .packet (Reader.ofPayload ⟨#[0x04, 0xE0], 11, defaultReadLimit⟩)
    let changed : Stream := ⟨#[0x80, 0], ⟨11, 0⟩, defaultReadLimit⟩
    (Slot.decoding (ReadRequest.value .address).run slot).state = slot ∧
      (Stream.moveFrom slot.payload 12 (Stream.empty, 0)).state = (Stream.empty, 0) ∧
      ((Filling.bits [1, 2] 12 true).run slot.payload 0).state.2 = .octets [1, 2] ∧
      ((Field.changed .plain (.int .u16) 7 7).move .decode changed).state.2 =
        .value (.int .u16) 7 ∧
      ((Codec.mini .u24).transfer .decode (Stream.empty, 5)).state.2 = 5 := by
  have haddress : (Slot.decoding (ReadRequest.value .address).run
      (.packet (Reader.ofPayload ⟨#[0x04, 0xE0], 11, defaultReadLimit⟩))).ending =
        .failed (.insufficientPayload 32 3) := rfl
  have hchanged : ((Field.changed .plain (.int .u16) 7 7).transfer .decode
      ⟨#[0x80, 0], ⟨11, 0⟩, defaultReadLimit⟩).ending = .failed (.insufficientPayload 16 10) := rfl
  intro slot changed
  obtain ⟨hread, hmove, hfill, hfield, hcodec⟩ := failure_spares slot
  have hmoved : (Stream.moveFrom slot.payload 12 (Stream.empty, 0)).ending =
      .failed (.insufficientPayload 12 11) := rfl
  have hbits : ((Filling.bits [1, 2] 12 true).run slot.payload 0).ending =
      .failed (.insufficientPayload 12 11) := rfl
  have hmini : ((Codec.mini .u24).transfer .decode (Stream.empty, 5)).ending =
      .failed (.insufficientPayload 1 0) := rfl
  exact ⟨hread _ _ rfl haddress, hmove _ _ _ hmoved, hfill _ _ hbits, hfield _ _ _ hchanged,
    hcodec _ _ _ _ _ hmini⟩

end BitCodec
