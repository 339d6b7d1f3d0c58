import BitCodec.Codec
import BitCodec.Block
import BitCodec.Dump
import BitCodec.Proofs.Numbers
import BitCodec.Proofs.Reading

/-!
# What every decoder keeps to

`Guarded` says three things about a decoder that runs on a sound payload from a
position inside it.  The position stays inside.  It breaks no contract but the
allowed ones, so no index and no position leaves its bounds.  And it sees the
written bits only: two payloads with the same written bits and the same cap give
the same run, whatever their bytes hold behind the last bit.

Each of the three is kept by every way of putting decoders together, so they are
carried as one.
-/

namespace BitCodec

/-! ## Payloads that read alike -/

/-- Two sound payloads with the same written bits under the same cap. -/
structure Payload.Alike (p q : Payload) : Prop where
  left : p.Sound
  right : q.Sound
  string_eq : p.string = q.string
  limit_eq : p.limit = q.limit

namespace Payload.Alike

variable {p q : Payload} {pos count : Nat}

theorem bits_eq (h : p.Alike q) : p.bits = q.bits := by
  rw [← length_string p, h.string_eq, length_string]

theorem slice_eq (h : p.Alike q) (hpos : pos + count ≤ p.bits) :
    Bits.slice p.data pos count = Bits.slice q.data pos count := by
  rw [Payload.slice_eq hpos, Payload.slice_eq (h.bits_eq ▸ hpos), h.string_eq]

theorem bitAt_eq (h : p.Alike q) (hpos : pos < p.bits) :
    Bits.bitAt p.data pos = Bits.bitAt q.data pos := by
  have hone : pos + 1 ≤ p.bits := hpos
  exact Bits.bitAt_of_slice (h.slice_eq hone) (Nat.le_refl _) (by omega)

theorem boundary_eq (h : p.Alike q) (pos : Nat) :
    Decoder.boundary p pos = Decoder.boundary q pos := by
  rw [Decoder.boundary, Decoder.boundary, h.bits_eq]

theorem short_eq {α : Type} (h : p.Alike q) (pos bits : Nat) :
    (Decoder.short p pos bits : Trace Nat α) = Decoder.short q pos bits := by
  rw [Decoder.short, Decoder.short, h.bits_eq]

end Payload.Alike

namespace Decoder

variable {α β : Type}

/-- The position stays inside the payload, only allowed contracts are broken,
and nothing but the written bits is seen. -/
structure Guarded (allowed : Breach → Prop) (body : Decoder α) : Prop where
  stays : ∀ {p : Payload} {pos : Nat}, p.Sound → pos ≤ p.bits → (body p pos).state ≤ p.bits
  keeps : ∀ {p : Payload} {pos : Nat} {b : Breach}, p.Sound → pos ≤ p.bits →
    (body p pos).ending = .broken b → allowed b
  alike : ∀ {p q : Payload} {pos : Nat}, p.Alike q → pos ≤ p.bits → body p pos = body q pos

namespace Guarded

variable {allowed : Breach → Prop} {body : Decoder α} {next : α → Decoder β}

/-! ## Putting decoders together -/

/-- An operation that ends where it stands, the same way for every payload. -/
theorem of_still {ending : Ending α} {effects : List Effect}
    (hrun : ∀ p pos, body p pos = ⟨ending, pos, effects⟩)
    (hend : ∀ b, ending = .broken b → allowed b) : Guarded allowed body := by
  refine ⟨?_, ?_, ?_⟩
  · intro p pos _ hpos
    rw [hrun]
    exact hpos
  · intro p pos b _ _ hbroken
    rw [hrun] at hbroken
    exact hend b hbroken
  · intro p q pos _ _
    rw [hrun, hrun]

protected theorem pure (a : α) : Guarded allowed (pure a : Decoder α) :=
  of_still (fun _ _ => rfl) (fun _ h => nomatch h)

protected theorem fail (e : Failure) : Guarded allowed (fail e : Decoder α) :=
  of_still (fun _ _ => rfl) (fun _ h => nomatch h)

protected theorem emit (effect : Effect) : Guarded allowed (emit effect) :=
  of_still (fun _ _ => rfl) (fun _ h => nomatch h)

protected theorem inBounds (a : α) : Guarded allowed (inBounds (some a)) :=
  of_still (fun _ _ => rfl) (fun _ h => nomatch h)

protected theorem demand {kept : Bool} {b : Breach} (h : kept = false → allowed b) :
    Guarded allowed (demand kept b) := by
  cases kept with
  | true => exact of_still (fun _ _ => rfl) (fun _ h => nomatch h)
  | false =>
    have hrun : ∀ p pos, demand false b p pos = ⟨.broken b, pos, []⟩ := fun _ _ => rfl
    refine of_still hrun fun c hc => ?_
    cases hc
    exact h rfl

protected theorem bind (h : Guarded allowed body) (hnext : ∀ a, Guarded allowed (next a)) :
    Guarded allowed (body >>= next) := by
  refine ⟨?_, ?_, ?_⟩
  · intro p pos hp hpos
    have hstate := h.stays hp hpos
    rcases hrun : body p pos with ⟨ending, pos', effects⟩
    rw [hrun] at hstate
    cases ending with
    | value a =>
      rw [bind_trace hrun]
      exact (hnext a).stays hp hstate
    | failed e =>
      rw [bind_failed hrun]
      exact hstate
    | broken b =>
      rw [bind_broken hrun]
      exact hstate
  · intro p pos b hp hpos hend
    have hstate := h.stays hp hpos
    have hkeeps := h.keeps (b := b) hp hpos
    rcases hrun : body p pos with ⟨ending, pos', effects⟩
    rw [hrun] at hstate hkeeps
    cases ending with
    | value a =>
      rw [bind_trace hrun] at hend
      exact (hnext a).keeps hp hstate hend
    | failed e =>
      rw [bind_failed hrun] at hend
      cases hend
    | broken c =>
      rw [bind_broken hrun] at hend
      cases hend
      exact hkeeps rfl
  · intro p q pos hpq hpos
    have hstate := h.stays hpq.left hpos
    have halike := h.alike hpq hpos
    rcases hrun : body p pos with ⟨ending, pos', effects⟩
    rw [hrun] at hstate halike
    cases ending with
    | value a => rw [bind_trace hrun, bind_trace halike.symm, (hnext a).alike hpq hstate]
    | failed e => rw [bind_failed hrun, bind_failed halike.symm]
    | broken b => rw [bind_broken hrun, bind_broken halike.symm]

protected theorem map (h : Guarded allowed body) (f : α → β) :
    Guarded allowed (body >>= fun a => pure (f a)) :=
  h.bind fun a => Guarded.pure (f a)

protected theorem rewinding (h : Guarded allowed body) : Guarded allowed (rewinding body) := by
  refine ⟨?_, ?_, ?_⟩
  · intro p pos hp hpos
    have hstate := h.stays hp hpos
    rcases hrun : body p pos with ⟨ending, pos', effects⟩
    rw [hrun] at hstate
    cases ending with
    | failed e =>
      rw [rewinding_failed hrun]
      exact hpos
    | value a => simpa only [rewinding, Action.rewinding, hrun] using hstate
    | broken b => simpa only [rewinding, Action.rewinding, hrun] using hstate
  · intro p pos b hp hpos hend
    have hkeeps := h.keeps (b := b) hp hpos
    rcases hrun : body p pos with ⟨ending, pos', effects⟩
    rw [hrun] at hkeeps
    cases ending with
    | failed e =>
      rw [rewinding_failed hrun] at hend
      cases hend
    | value a =>
      simp only [rewinding, Action.rewinding, hrun] at hend
      cases hend
    | broken c =>
      simp only [rewinding, Action.rewinding, hrun] at hend
      exact hkeeps hend
  · intro p q pos hpq hpos
    unfold rewinding Action.rewinding
    rw [h.alike hpq hpos]

protected theorem ite {condition : Prop} [Decidable condition] {other : Decoder α}
    (h : condition → Guarded allowed body) (hother : ¬condition → Guarded allowed other) :
    Guarded allowed (if condition then body else other) := by
  by_cases hc : condition
  · rw [if_pos hc]
    exact h hc
  · rw [if_neg hc]
    exact hother hc

/-! ## The basic operations -/

theorem of_taking {bits : Nat} {value : Payload → Nat → α}
    (hrun : ∀ {p pos}, p.Sound → pos ≤ p.bits →
      body p pos = if bits ≤ p.bits - pos then ⟨.value (value p pos), pos + bits, []⟩
        else short p pos bits)
    (hvalue : ∀ {p q pos}, p.Alike q → pos + bits ≤ p.bits → value p pos = value q pos) :
    Guarded allowed body := by
  refine ⟨?_, ?_, ?_⟩
  · intro p pos hp hpos
    rw [hrun hp hpos]
    split
    · simp only
      omega
    · exact hpos
  · intro p pos b hp hpos hend
    rw [hrun hp hpos] at hend
    split at hend <;> cases hend
  · intro p q pos hpq hpos
    rw [hrun hpq.left hpos, hrun hpq.right (hpq.bits_eq ▸ hpos), ← hpq.bits_eq, hpq.short_eq]
    split
    · rw [hvalue hpq (by omega)]
    · rfl

protected theorem need (bits : Nat) : Guarded allowed (need bits) := by
  refine ⟨?_, ?_, ?_⟩
  · intro p pos hp hpos
    rw [need_run bits hpos]
    split <;> exact hpos
  · intro p pos b hp hpos hend
    rw [need_run bits hpos] at hend
    split at hend <;> cases hend
  · intro p q pos hpq hpos
    rw [need_run bits hpos, need_run bits (hpq.bits_eq ▸ hpos), ← hpq.bits_eq, hpq.short_eq]

protected theorem skip (bits : Nat) : Guarded allowed (skip bits) :=
  of_taking (fun _ hpos => skip_run bits hpos) (fun _ _ => rfl)

protected theorem available : Guarded allowed available := by
  refine ⟨?_, ?_, ?_⟩
  · intro p pos hp hpos
    rw [available_run hpos]
    exact hpos
  · intro p pos b hp hpos hend
    rw [available_run hpos] at hend
    cases hend
  · intro p q pos hpq hpos
    rw [available_run hpos, available_run (hpq.bits_eq ▸ hpos), hpq.bits_eq]

protected theorem restart : Guarded allowed restart :=
  ⟨fun _ _ => Nat.zero_le _, fun _ _ hend => (nomatch hend), fun _ _ => rfl⟩

protected theorem align : Guarded allowed align := by
  refine ⟨fun _ _ => boundary_le _ _, fun _ _ hend => (nomatch hend), ?_⟩
  intro p q pos hpq _
  rw [align_run, align_run, hpq.boundary_eq]

/-- Reading bits into a destination that holds them, or with leave to find it
too short. -/
protected theorem readBits {destination : List UInt8} {bits : Nat} (right : Bool)
    (h : ¬bytesOfBits bits ≤ destination.length →
      allowed (Breach.forCount bits (.destinationTooShort destination.length bits))) :
    Guarded allowed (readBits destination bits right) := by
  by_cases hroom : bytesOfBits bits ≤ destination.length
  · refine of_taking (fun hp hpos => readBits_run right hp hpos hroom) ?_
    intro p q pos hpq hpos
    rw [hpq.slice_eq hpos]
  · have hbroken : ∀ p pos, readBits destination bits right p pos =
        ⟨.broken (Breach.forCount bits (.destinationTooShort destination.length bits)), pos,
          []⟩ := by
      intro p pos
      unfold readBits
      refine bind_broken ?_
      simp [demand, hroom, Action.demand, Action.breach]
    refine of_still hbroken ?_
    intro b hb
    cases hb
    exact h hroom

protected theorem fillBytes (destination : List UInt8) : Guarded allowed (fillBytes destination) :=
  Guarded.readBits true (fun h => absurd (by unfold bytesOfBits; omega) h)

protected theorem readBytes (count : Nat) : Guarded allowed (readBytes count) :=
  Guarded.fillBytes _

protected theorem readBit : Guarded allowed readBit :=
  of_taking (fun hp hpos => readBit_run hp hpos) (fun hpq hpos => hpq.bitAt_eq (by omega))

protected theorem readWhole (h : allowed .unalignedRead) (count : Nat) :
    Guarded allowed (readWhole count) := by
  refine ⟨?_, ?_, ?_⟩
  · intro p pos hp hpos
    by_cases haligned : pos % 8 = 0
    · rw [readWhole_run count hp hpos haligned]
      split
      · simp only
        omega
      · exact hpos
    · rw [readWhole_unaligned count haligned]
      exact hpos
  · intro p pos b hp hpos hend
    by_cases haligned : pos % 8 = 0
    · rw [readWhole_run count hp hpos haligned] at hend
      split at hend <;> cases hend
    · rw [readWhole_unaligned count haligned] at hend
      cases hend
      exact h
  · intro p q pos hpq hpos
    by_cases haligned : pos % 8 = 0
    · rw [readWhole_run count hpq.left hpos haligned,
        readWhole_run count hpq.right (hpq.bits_eq ▸ hpos) haligned, ← hpq.bits_eq, hpq.short_eq]
      split
      · rw [hpq.slice_eq (by omega)]
      · rfl
    · rw [readWhole_unaligned count haligned, readWhole_unaligned count haligned]

protected theorem readAlignedBytes (count : Nat) : Guarded allowed (readAlignedBytes count) := by
  by_cases hcount : count = 0
  · subst hcount
    exact Guarded.pure []
  have hpos_count : 0 < count := by omega
  refine ⟨?_, ?_, ?_⟩
  · intro p pos hp hpos
    rw [readAlignedBytes_run hpos_count hp]
    split
    · next hbits =>
      have := boundary_aligned hpos_count hbits
      have := boundary_le p pos
      simp only
      omega
    · exact hpos
  · intro p pos b hp hpos hend
    rw [readAlignedBytes_run hpos_count hp] at hend
    split at hend <;> cases hend
  · intro p q pos hpq hpos
    rw [readAlignedBytes_run hpos_count hpq.left, readAlignedBytes_run hpos_count hpq.right,
      ← hpq.bits_eq, ← hpq.boundary_eq]
    split
    · next hbits =>
      have := boundary_aligned hpos_count hbits
      have := boundary_le p pos
      rw [hpq.slice_eq (by omega)]
    · rfl

end Guarded

end Decoder

/-! ## Values -/

section Values

open Decoder

variable {allowed : Breach → Prop}

namespace Prim

theorem readPattern_guarded (count width : Nat) : Guarded allowed (readPattern count width) :=
  (Guarded.readBits true (fun h => absurd (by simp [bytesOfBits]; omega) h)).bind
    fun _ => Guarded.pure _

theorem readAddress_guarded : Guarded allowed readAddress := by
  refine Guarded.rewinding ((readPattern_guarded 1 8).bind fun tag => ?_)
  refine Guarded.ite (fun _ => ?_) (fun _ => Guarded.ite (fun _ => ?_) (fun _ => ?_))
  · exact (readPattern_guarded 4 32).bind fun _ => (readPattern_guarded 2 16).map _
  · exact (readPattern_guarded 16 128).bind fun _ => (readPattern_guarded 2 16).map _
  · exact (Guarded.fail _).bind fun _ => (readPattern_guarded 2 16).map _

theorem read_guarded (t : Prim) : Guarded allowed t.read := by
  cases t with
  | int t => exact readPattern_guarded t.bytes t.bits
  | bool => exact Guarded.readBit
  | float t => exact readPattern_guarded t.bytes t.bits
  | u24 => exact readPattern_guarded 3 24
  | address => exact readAddress_guarded

end Prim

theorem IntType.readCasted_guarded (wire t : IntType) : Guarded allowed (readCasted wire t) := by
  refine (Prim.read_guarded (.int wire)).bind fun value => ?_
  cases t.ofInt? (wire.toInt value) with
  | some widened => exact Guarded.pure _
  | none => exact Guarded.fail _

namespace Mini

/-- However long the code goes on, no more than `width` bytes are read. -/
theorem readMarked_guarded (width : Nat) : Guarded allowed (readMarked width) := by
  induction width with
  | zero => exact Guarded.pure _
  | succ width ih =>
    refine Guarded.readBit.bind fun more => Guarded.ite (fun _ => ?_) (fun _ => Guarded.pure _)
    exact (Guarded.readBits true (fun h => absurd (by decide) h)).bind fun _ =>
      ih.map _

theorem readInt_guarded (t : IntType) : Guarded allowed (readInt t) :=
  (readMarked_guarded t.bytes).map _

theorem readSigned_guarded (t : IntType) : Guarded allowed (readSigned t) :=
  (readMarked_guarded t.bytes).map _

theorem readAddress_guarded : Guarded allowed readAddress := by
  refine Guarded.rewinding ((readInt_guarded .u8).bind fun tag => ?_)
  refine Guarded.ite (fun _ => ?_) (fun _ => Guarded.ite (fun _ => ?_) (fun _ => ?_))
  · exact (readInt_guarded .u32).bind fun _ => (readInt_guarded .u16).map _
  · exact (Prim.readPattern_guarded 16 128).bind fun _ => (readInt_guarded .u16).map _
  · exact (Guarded.fail _).bind fun _ => (readInt_guarded .u16).map _

theorem readU24_guarded : Guarded allowed readU24 := by
  refine Guarded.rewinding ((readInt_guarded .u32).bind fun value => ?_)
  cases U24.ofNat? value.toNat with
  | some number => exact Guarded.pure _
  | none => exact Guarded.fail _

theorem readFloat_guarded (t : FloatType) : Guarded allowed (readFloat t) :=
  (readInt_guarded _).map _

theorem read_guarded (t : Prim) : Guarded allowed (read t) := by
  cases t with
  | int t => exact readInt_guarded t
  | bool => exact Guarded.readBit
  | float t => exact readFloat_guarded t
  | u24 => exact readU24_guarded
  | address => exact readAddress_guarded

end Mini

/-! ## Blocks and ranges -/

theorem Block.read_guarded (max : Nat) : Guarded allowed (Block.read max) := by
  refine (Mini.readInt_guarded .u32).bind fun prefixed => ?_
  refine Guarded.ite (fun _ => Guarded.fail _) fun _ => ?_
  refine Guarded.ite (fun _ => Guarded.pure _) fun _ => ?_
  exact Guarded.align.bind fun _ => (Guarded.need _).bind fun _ => Guarded.readAlignedBytes _

theorem Block.readLimited_guarded : Guarded allowed Block.readLimited := by
  have hread : ∀ max, Guarded allowed (Block.read max) := read_guarded
  have hrun : ∀ (p : Payload) pos, readLimited p pos = Block.read p.limit p pos := fun _ _ => rfl
  refine ⟨?_, ?_, ?_⟩
  · intro p pos hp hpos
    exact (hread p.limit).stays hp hpos
  · intro p pos b hp hpos hend
    exact (hread p.limit).keeps hp hpos hend
  · intro p q pos hpq hpos
    rw [hrun p, hrun q, (hread p.limit).alike hpq hpos, hpq.limit_eq]

namespace IntRange

variable {t : IntType}

theorem readOffset_guarded (r : IntRange t) : Guarded allowed r.readOffset := by
  have hroom : bytesOfBits r.bits ≤ (List.replicate t.bytes (0 : UInt8)).length := by
    rw [List.length_replicate]
    exact r.bytesOfBits_le
  refine (Guarded.readBits true (fun h => absurd hroom h)).bind fun bytes => ?_
  refine Guarded.ite (fun _ => Guarded.pure _) fun _ => ?_
  exact (Guarded.emit _).bind fun _ => Guarded.fail _

theorem read_guarded (r : IntRange t) (escape : Bool) : Guarded allowed (r.read escape) := by
  refine Guarded.ite (fun _ => ?_) fun _ => r.readOffset_guarded
  exact Guarded.readBit.bind fun _ =>
    Guarded.ite (fun _ => Mini.readInt_guarded t) fun _ => r.readOffset_guarded

end IntRange

namespace Ranged

theorem read_guarded (t : IntType) (min max : t.Value) (escape : Bool) :
    Guarded allowed (read t min max escape) := by
  unfold read
  cases IntRange.between t min max with
  | ok r => exact r.read_guarded escape
  | error e => exact Guarded.fail e

/-- Bounds that enclose an interval are in order, so that clamping to them is
allowed. -/
theorem le_of_lt {low high : Float} (h : low < high) : low ≤ high := by
  have hcompare : low.toModel.unpack.compare high.toModel.unpack = some .lt := by
    have hmodel : low.toModel.unpack.lt high.toModel.unpack = true := of_decide_eq_true h
    exact eq_of_beq hmodel
  have hle : low.toModel.unpack.le high.toModel.unpack = true := by
    rw [Float.Model.UnpackedFloat.le, hcompare]
    rfl
  exact decide_eq_true hle

theorem readNumber_guarded (low high : Float) : Guarded allowed (readNumber low high) := by
  refine Guarded.ite (fun hlt => ?_) fun _ => Guarded.fail _
  refine (Prim.read_guarded (.int .u16)).bind fun step => ?_
  refine (Guarded.demand fun hnot => ?_).map _
  exact absurd (le_of_lt hlt) (of_decide_eq_false hnot)

theorem readFloat_guarded (t : FloatType) (min max : t.Value) :
    Guarded allowed (readFloat t min max) :=
  (readNumber_guarded _ _).map _

end Ranged

/-! ## Vectors and rotations -/

theorem Vec3.read_guarded {α : Type} {component : Decoder α} (h : Guarded allowed component) :
    Guarded allowed (Vec3.read component) :=
  h.bind fun _ => h.bind fun _ => h.map _

namespace Geometry

theorem alongAxis_isSome {axis : Nat} (h : ¬axis > 2) (number : Float) :
    ∃ v, alongAxis axis number = some v := by
  match axis, h with
  | 0, _ => exact ⟨_, rfl⟩
  | 1, _ => exact ⟨_, rfl⟩
  | 2, _ => exact ⟨_, rfl⟩
  | _ + 3, h => omega

theorem readAxis_guarded : Guarded allowed readAxis := by
  refine (Guarded.readBits true (fun h => absurd (by decide) h)).bind fun bytes => ?_
  refine Guarded.ite (fun _ => Guarded.fail _) fun haxis => ?_
  refine Guarded.readBit.bind fun backwards => ?_
  obtain ⟨v, hv⟩ := alongAxis_isSome haxis (if backwards then -1.0 else 1.0)
  rw [hv]
  exact Guarded.inBounds v

theorem readUnitVector_guarded : Guarded allowed readUnitVector :=
  Guarded.readBit.bind fun _ => Guarded.ite (fun _ => readAxis_guarded)
    fun _ => Vec3.read_guarded (Ranged.readNumber_guarded _ _)

theorem readVector_guarded (t : FloatType) : Guarded allowed (readVector t) := by
  refine (Prim.read_guarded (.float .f32)).bind fun wire => ?_
  refine Guarded.ite (fun _ => Guarded.pure _) fun _ => ?_
  exact (Vec3.read_guarded (Mini.readFloat_guarded t)).map _

theorem readFraction_guarded : Guarded allowed readFraction :=
  (Mini.readInt_guarded .u16).map _

theorem readRotation_guarded : Guarded allowed readRotation :=
  Guarded.readBit.bind fun _ => (Vec3.read_guarded Guarded.readBit).bind fun _ =>
    (Vec3.read_guarded readFraction_guarded).map _

theorem readMatrix_guarded : Guarded allowed readMatrix :=
  readRotation_guarded.map _

end Geometry

end Values

end BitCodec
