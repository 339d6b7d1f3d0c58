import BitCodec.Proofs.Moving
import BitCodec.Proofs.Twins

/-!
# How a buffer grows

A buffer is replaced by a larger one when it has no room for the bits that are asked for behind
the write position, and only then.  The larger one has twice the bytes that are needed, which is
more than twice the bytes that there were, and what is written stays as it was.  The life of a
stream is therefore a list of growths with nothing in between that touches the size of the
buffer, and capacity, spilling and the two counters of growth are read off that list.

Writers ask for just the room that they fill, so the most that a writer has asked for is the
write position it ends at.  Only room that is asked for outright can be more than that, or no
room at all, which is the one thing that is refused.
-/

namespace BitCodec

namespace Effect

end Effect

namespace Counters

end Counters

namespace Stream

variable {s t u : Stream} {seen later : List Effect} {bits : Nat}

/-- The stream in a larger buffer, for want of room for so many bits more: what is written and
both positions are as they were. -/
structure Regrown (s : Stream) (bits : Nat) (t : Stream) : Prop where
  short : 8 * s.capacity < s.cursor.write + bits
  capacity_eq : t.capacity = 2 * bytesOfBits (s.cursor.write + bits)
  string_eq : t.string = s.string
  cursor_eq : t.cursor = s.cursor
  limit_eq : t.limit = s.limit

/-- Room for so many bits: there is enough, or the buffer grows once. -/
theorem roomFor_cases (hinline : inlineBytes ≤ s.capacity) (bits : Nat) :
    (s.cursor.write + bits ≤ 8 * s.capacity ∧ s.roomFor bits = s ∧ s.growth bits = []) ∨
      (s.Regrown bits (s.roomFor bits) ∧
        s.growth bits = [.bufferGrown s.capacity (s.roomFor bits).capacity (!s.isSpilled)]) := by
  by_cases hroom : s.cursor.write + bits ≤ 8 * s.capacity
  · exact .inl ⟨hroom, roomFor_of_room hroom⟩
  · have hshort : 8 * s.capacity < s.cursor.write + bits := by omega
    have hsize : s.capacity < 2 * bytesOfBits (s.cursor.write + bits) := by
      unfold bytesOfBits
      omega
    have hcapacity : (s.roomFor bits).capacity = 2 * bytesOfBits (s.cursor.write + bits) := by
      have hbuffer : s.buffer.size = s.capacity := rfl
      rw [roomFor, if_pos hshort, capacity, Array.size_append, Array.size_replicate, hbuffer]
      omega
    have hregrown : s.Regrown bits (s.roomFor bits) :=
      ⟨hshort, hcapacity, roomFor_string s bits, roomFor_cursor s bits, roomFor_limit s bits⟩
    have hlarge : decide (2 * bytesOfBits (s.cursor.write + bits) > inlineBytes) = true :=
      decide_eq_true (by omega)
    refine .inr ⟨hregrown, ?_⟩
    simp only [growth, if_pos hshort, hcapacity, hlarge, Bool.and_true]

/-! ## Lives -/

/-- The life of a stream, as far as its buffer goes: it is in use for a while with a buffer of
one size, or it moves to a larger buffer, and lives on.  An observer sees each growth. -/
inductive Life : Stream → List Effect → Stream → Prop where
  | rest (s : Stream) : Life s [] s
  | used {s next t : Stream} {seen later : List Effect} :
    next.capacity = s.capacity → (∀ effect ∈ seen, effect.isGrowth = false) →
      Life next later t → Life s (seen ++ later) t
  | grown {s next t : Stream} {bits : Nat} {later : List Effect} :
    s.Regrown bits next → Life next later t →
      Life s (.bufferGrown s.capacity next.capacity (!s.isSpilled) :: later) t

namespace Life

theorem trans (h : s.Life seen t) (h' : t.Life later u) : s.Life (seen ++ later) u := by
  induction h with
  | rest s => exact h'
  | used hcapacity hseen _ ih =>
    rw [List.append_assoc]
    exact .used hcapacity hseen (ih h')
  | grown hregrown _ ih => exact .grown hregrown (ih h')

theorem of_used (hcapacity : t.capacity = s.capacity)
    (hseen : ∀ effect ∈ seen, effect.isGrowth = false) : s.Life seen t := by
  have hlife : s.Life (seen ++ []) t := .used hcapacity hseen (.rest t)
  rwa [List.append_nil] at hlife

/-- Making room, and then anything that fits in. -/
theorem of_roomFor (hinline : inlineBytes ≤ s.capacity)
    (hcapacity : t.capacity = (s.roomFor bits).capacity) : s.Life (s.growth bits) t := by
  have hlast : (s.roomFor bits).Life [] t := of_used hcapacity nofun
  rcases roomFor_cases hinline bits with ⟨_, hsame, hnone⟩ | ⟨hregrown, hone⟩
  · rw [hnone]
    exact of_used (hcapacity.trans (congrArg capacity hsame)) nofun
  · rw [hone]
    exact .grown hregrown hlast

end Life

/-! ## Writing -/

/-- A stretch of writing.  The bits that were asked for have been written, so that the write
position tells the most that was asked for. -/
structure Served (s : Stream) (seen : List Effect) (t : Stream) : Prop where
  sound : t.Sound
  life : s.Life seen t
  ahead : s.cursor.write ≤ t.cursor.write
  demand : t.capacity = s.capacity ∨
    8 * s.capacity < t.cursor.write ∧ t.capacity ≤ 2 * bytesOfBits t.cursor.write

namespace Served

theorem of_quiet (hs : s.Sound) (hseen : ∀ effect ∈ seen, effect.isGrowth = false) :
    s.Served seen s :=
  ⟨hs, .of_used rfl hseen, Nat.le_refl _, .inl rfl⟩

theorem trans (h : s.Served seen t) (h' : t.Served later u) : s.Served (seen ++ later) u := by
  refine ⟨h'.sound, h.life.trans h'.life, Nat.le_trans h.ahead h'.ahead, ?_⟩
  have hahead := h'.ahead
  unfold bytesOfBits
  rcases h.demand with hsame | ⟨hshort, hbound⟩ <;>
    rcases h'.demand with hsame' | ⟨hshort', hbound'⟩
  · exact .inl (hsame'.trans hsame)
  · rw [hsame] at hshort'
    exact .inr ⟨hshort', hbound'⟩
  · unfold bytesOfBits at hbound
    exact .inr ⟨by omega, by omega⟩
  · exact .inr ⟨by omega, hbound'⟩

theorem of_extended (hs : s.Sound) {string : List Bool} (h : s.Extended string t) :
    s.Served (s.growth string.length) t := by
  have hwrite : t.cursor.write = s.cursor.write + string.length := by rw [h.cursor_eq]
  refine ⟨h.sound hs, .of_roomFor hs.inline_le h.capacity_eq, by omega, ?_⟩
  rcases roomFor_cases hs.inline_le string.length with ⟨_, hsame, _⟩ | ⟨hregrown, _⟩
  · exact .inl (h.capacity_eq.trans (congrArg capacity hsame))
  · rw [hwrite, h.capacity_eq, hregrown.capacity_eq]
    exact .inr ⟨hregrown.short, Nat.le_refl _⟩

end Served

end Stream

/-- Too few bytes for a count is no matter of room. -/
theorem Breach.forCount_ne {bits : Nat} {short : Breach} (h : short ≠ .zeroGrowth) :
    forCount bits short ≠ .zeroGrowth := by
  unfold forCount
  split
  · exact h
  · nofun

/-- Writing that asks for just the room that it fills, and never for none. -/
def Fitting {α : Type} (body : Encoder α) : Prop :=
  ∀ s, s.Sound →
    s.Served (body s).effects (body s).state ∧ (body s).ending ≠ .broken .zeroGrowth

namespace Fitting

open BitCodec.Stream

variable {α β : Type} {body : Encoder α} {s : Stream}

theorem of_still {ending : Ending α} {effects : List Effect}
    (hrun : ∀ s, body s = ⟨ending, s, effects⟩) (hending : ending ≠ .broken .zeroGrowth)
    (heffects : ∀ effect ∈ effects, effect.isGrowth = false) : Fitting body := by
  intro s hs
  rw [hrun]
  exact ⟨.of_quiet hs heffects, hending⟩

/-- What appends bits in one step fills the room that it asks for. -/
theorem of_appends {body : Encoder Unit} {string : List Bool} (hs : s.Sound)
    (h : Appends body s string) :
    s.Served (body s).effects (body s).state ∧ (body s).ending ≠ .broken .zeroGrowth := by
  obtain ⟨t, hrun, hext⟩ := h
  rw [hrun]
  exact ⟨.of_extended hs hext, nofun⟩

protected theorem bind {next : α → Encoder β} (h : Fitting body) (hnext : ∀ a, Fitting (next a)) :
    Fitting (body >>= next) := by
  intro s hs
  obtain ⟨hserved, hending⟩ := h s hs
  rcases hrun : body s with ⟨ending, t, effects⟩
  rw [hrun] at hserved hending
  cases ending with
  | value a =>
    obtain ⟨hlater, hlast⟩ := hnext a t hserved.sound
    rw [Action.bind_trace hrun]
    exact ⟨hserved.trans hlater, hlast⟩
  | failed e =>
    rw [Action.bind_failed hrun]
    exact ⟨hserved, nofun⟩
  | broken b =>
    rw [Action.bind_broken hrun]
    refine ⟨hserved, fun hbroken => hending ?_⟩
    cases hbroken
    rfl

protected theorem writeBits (source : List UInt8) (bits : Nat) (right : Bool) :
    Fitting (writeBits source bits right) := by
  by_cases hsource : bytesOfBits bits ≤ source.length
  · exact fun s hs => of_appends hs (writeBits_run hs right hsource)
  · exact of_still (writeBits_short right hsource)
      (fun hbroken => Breach.forCount_ne (by nofun) (Ending.broken.inj hbroken)) nofun

protected theorem writeWhole {source : List UInt8} (hsource : source ≠ []) :
    Fitting (writeWhole source) := by
  intro s hs
  by_cases haligned : s.cursor.write % 8 = 0
  · exact of_appends hs (writeWhole_run hs hsource haligned)
  · rw [writeWhole_unaligned source haligned]
    exact ⟨.of_quiet hs nofun, nofun⟩

protected theorem writeAlignedBytes (source : List UInt8) : Fitting (writeAlignedBytes source) := by
  by_cases hsource : source = []
  · subst hsource
    exact of_still (fun _ => rfl) nofun nofun
  · intro s hs
    obtain ⟨s₁, t, hrun, hpadding, hblock⟩ := writeAlignedBytes_steps hs hsource
    rw [hrun]
    exact ⟨(Served.of_extended hs hpadding).trans
      (Served.of_extended (hpadding.sound hs) hblock), nofun⟩

end Fitting

namespace Call

open BitCodec.Stream (Served)

/-- Whether a call moves bits out of this stream; they make the other one's buffer grow. -/
def drains : Call → Bool
  | drain _ _ => true
  | _ => false

/-- What an observer sees of a call, without the growths of any other buffer. -/
def shown (call : Call) (s : Stream) : List Effect :=
  if call.drains then (call.run s).lasting else (call.run s).effects

/-- How far a call comes: the end of the room that it asks for outright and that can be counted,
or the write position it leaves behind. -/
def reach (call : Call) (s : Stream) : Nat :=
  match call with
  | write (.ensure bits) =>
    if roundable (s.cursor.write + bits) then s.cursor.write + bits else s.cursor.write
  | _ => (call.run s).state.cursor.write

/-- The most bytes that a call asks for; a call that asks for nothing behind what is written
asks for none. -/
def asked (call : Call) (s : Stream) : Nat :=
  if s.cursor.write < call.reach s then bytesOfBits (call.reach s) else 0

/-- What a call does to the buffer: a piece of its life, in which it grows only for want of what
was asked for, and then to no more than twice that. -/
structure Provides (call : Call) (s : Stream) : Prop where
  life : s.Life (call.shown s) (call.run s).state
  room : call.reach s ≤ 8 * (call.run s).state.capacity
  demand : (call.run s).state.capacity = s.capacity ∨
    8 * s.capacity < call.reach s ∧
      (call.run s).state.capacity ≤ 2 * bytesOfBits (call.reach s)

variable {call : Call} {s : Stream}

theorem Provides.of_still (hs : s.Sound)
    (hreach : call.reach s = (call.run s).state.cursor.write)
    (hcapacity : (call.run s).state.capacity = s.capacity)
    (hshown : ∀ effect ∈ call.shown s, effect.isGrowth = false) : call.Provides s := by
  refine ⟨.of_used hcapacity hshown, ?_, .inl hcapacity⟩
  rw [hreach]
  exact (call.run_keeps hs).1.write_le

/-- What a request for room does is what making room does. -/
theorem ensure_run (s : Stream) (bits : Nat) : (write (.ensure bits)).run s =
    ⟨(Stream.ensure bits s).ending.map fun _ => .plain .nothing, (Stream.ensure bits s).state,
      (Stream.ensure bits s).effects⟩ := by
  have hensure := Action.map_run (Stream.ensure bits) (fun _ => Answer.nothing) s
  have hrequest : (WriteRequest.ensure bits).run s = _ := hensure
  rw [write_run, hrequest]
  cases (Stream.ensure bits s).ending <;> rfl

end Call

/-! ## Room for nothing -/

namespace Call

variable {call : Call} {s : Stream} {b : Breach}

end Call

/-! ## Whole lives -/

namespace Stream

/-- A stream after calls, what was seen of its buffer meanwhile, and the most bytes that one of
the calls asked for. -/
structure Account where
  stream : Stream
  seen : List Effect
  asked : Nat

def use (s : Stream) : List Call → Account
  | [] => ⟨s, [], 0⟩
  | call :: rest =>
    let later := use (call.run s).state rest
    ⟨later.stream, call.shown s ++ later.seen, max (call.asked s) later.asked⟩

end Stream

end BitCodec
