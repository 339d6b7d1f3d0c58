import BitCodec.Proofs.GeometryCodes

/-!
# Geometric fields are read where they were written

Fields of different kinds stand one behind another without marks between them, so a field that
is read with one bit too many or too few spoils every later one.  Here a list of fields is
written by the requests for them, and the requests that read them, of the same types and bounds,
find each of them again: they collect the figures that were sent and end where the writer ended,
field by field, wherever the bits stand and whatever follows them.
-/

namespace BitCodec

open Code (fixed fixed_followedBy_fixed)
open BitCodec.Geometry

/-! ## Plus and minus one -/

namespace FloatType

/-- The pattern of 1 or -1. -/
def one : (t : FloatType) → Bool → t.Value
  | .f32, false => 0x3f800000#32
  | .f32, true => 0xbf800000#32
  | .f64, false => 0x3ff0000000000000#64
  | .f64, true => 0xbff0000000000000#64

theorem ofFloat_one (t : FloatType) (backwards : Bool) :
    t.ofFloat (if backwards then -1.0 else 1.0) = t.one backwards := by
  cases t <;> cases backwards <;> rfl

theorem ofFloat_zero (t : FloatType) : t.ofFloat 0.0 = 0#t.bits := by
  cases t <;> rfl

theorem toFloat_one (t : FloatType) (backwards : Bool) :
    t.toFloat (t.one backwards) = if backwards then -1.0 else 1.0 := by
  cases t <;> cases backwards <;> rfl

theorem toFloat_zero (t : FloatType) : t.toFloat 0#t.bits = 0.0 := by
  cases t <;> rfl

end FloatType

/-! ## Fields -/

/-- A number in a range or a geometric value, with its type and bounds. -/
inductive GeometricField where
  | rangedFloat (t : FloatType) (v min max : t.Value)
  | unitVector (t : FloatType) (v : Vec3 t.Value)
  | vector (t : FloatType) (v : Vec3 t.Value)
  | rotation (t : FloatType) (q : Quaternion t.Value)
  | matrix (t : FloatType) (m : Matrix3 t.Value)

namespace GeometricField

def writeRequest : GeometricField → WriteRequest
  | rangedFloat t v min max => .rangedFloat t v min max
  | unitVector t v => .unitVector t v
  | vector t v => .vector t v
  | rotation t q => .rotation t q
  | matrix t m => .matrix t m

/-- The request that reads a field: of the same type, under the same bounds. -/
def readRequest : GeometricField → ReadRequest
  | rangedFloat t _ min max => .rangedFloat t min max
  | unitVector t _ => .unitVector t
  | vector t _ => .vector t
  | rotation t _ => .rotation t
  | matrix t _ => .matrix t

/-- What goes over the wire for a field of this kind. -/
def Figures : GeometricField → Type
  | rangedFloat _ _ _ _ => IntType.u16.Value
  | unitVector _ _ => UnitFigures
  | vector t _ => VectorFigures t
  | rotation _ _ | matrix _ _ => RotationFigures

def figures? : (field : GeometricField) → Option field.Figures
  | rangedFloat t v min max => Ranged.step? (t.toFloat v) (t.toFloat min) (t.toFloat max)
  | unitVector t v => unitFigures? (v.map t.toFloat)
  | vector t v => vectorFigures? t (v.map t.toFloat)
  | rotation t q => rotationFigures? (q.map t.toFloat)
  | matrix t m => matrixFigures? (m.map (Vec3.map t.toFloat))

def bits : (field : GeometricField) → field.Figures → List Bool
  | rangedFloat _ _ _ _ => Ranged.stepBits
  | unitVector _ _ => UnitFigures.bits
  | vector _ _ => VectorFigures.bits
  | rotation _ _ | matrix _ _ => RotationFigures.bits

/-- The bits of three mini codes. -/
def miniCount (t : IntType) (v : Vec3 t.Value) : Nat :=
  (Mini.intBits t v.x).length + (Mini.intBits t v.y).length + (Mini.intBits t v.z).length

/-- How many bits the figures take. -/
def bitCount : (field : GeometricField) → field.Figures → Nat
  | rangedFloat _ _ _ _, _ => 16
  | unitVector _ _, .axis _ _ => 4
  | unitVector _ _, .steps _ => 49
  | vector _ _, .nought _ => 32
  | vector t _, .long _ direction => 32 + miniCount (Mini.carrier t) direction
  | rotation _ _, figures | matrix _ _, figures => 4 + miniCount .u16 figures.sizes

/-- What a reader makes of the figures. -/
def answer : (field : GeometricField) → field.Figures → Answer
  | rangedFloat t _ min max, (step : IntType.u16.Value) =>
    .value (.float t) (t.ofFloat (Ranged.ofStep step.toNat (t.toFloat min) (t.toFloat max)))
  | unitVector t _, .axis axis backwards => .vector t (onAxis 0#t.bits axis (t.one backwards))
  | unitVector t _, .steps v => .vector t ((UnitFigures.steps v).vector.map t.ofFloat)
  | vector t _, (figures : VectorFigures t) => .vector t (figures.vector.map t.ofFloat)
  | rotation t _, (figures : RotationFigures) => .rotation t (figures.rotation.map t.ofFloat)
  | matrix t _, (figures : RotationFigures) =>
    .matrix t ((matrixOf figures.rotation).map (Vec3.map t.ofFloat))

/-- Collect the figures of a field of this kind. -/
def readFigures : (field : GeometricField) → Decoder field.Figures
  | rangedFloat t _ min max => Ranged.readStep (t.toFloat min) (t.toFloat max)
  | unitVector _ _ => readUnitFigures
  | vector t _ => readVectorFigures t
  | rotation _ _ | matrix _ _ => readRotationFigures

theorem length_components (t : IntType) (v : Vec3 t.Value) :
    (v.bits (Mini.intBits t)).length = miniCount t v := by
  simp only [Vec3.bits, List.length_append, miniCount, Nat.add_assoc]

theorem length_bits (field : GeometricField) (figures : field.Figures) :
    (field.bits figures).length = field.bitCount figures := by
  have hrotation : ∀ figures : RotationFigures,
      figures.bits.length = 4 + miniCount .u16 figures.sizes := fun figures => by
    rw [RotationFigures.bits, List.length_append, length_components]
    rfl
  cases field with
  | rangedFloat t v min max => exact Bits.length_ofNumber 16 _
  | unitVector t v => cases figures <;> rfl
  | vector t v =>
    cases figures with
    | nought size => rfl
    | long size direction =>
      have hsize : (Prim.wireBits (.float .f32) size).length = 32 := Bits.length_ofNumber _ _
      have hlength : (VectorFigures.long size direction).bits.length =
          32 + miniCount (Mini.carrier t) direction := by
        rw [VectorFigures.bits, List.length_append, hsize, length_components]
      exact hlength
  | rotation t q => exact hrotation figures
  | matrix t m => exact hrotation figures

/-! ## One field -/

def writing : GeometricField → Encoder Unit
  | rangedFloat t v min max => Ranged.writeFloat t v min max
  | unitVector t v => writeUnitVector (v.map t.toFloat)
  | vector t v => writeVector t (v.map t.toFloat)
  | rotation t q => writeRotation (q.map t.toFloat)
  | matrix t m => writeMatrix (m.map (Vec3.map t.toFloat))

theorem writeRequest_run (field : GeometricField) :
    field.writeRequest.run = (field.writing >>= fun _ => pure .nothing) := by
  cases field <;> rfl

theorem writing_sends (field : GeometricField) :
    Sends field.writing field.figures? field.bits := by
  cases field with
  | rangedFloat t v min max => exact Ranged.writeNumber_sends _ _ _
  | unitVector t v => exact writeUnitVector_sends _
  | vector t v => exact writeVector_sends t _
  | rotation t q => exact writeRotation_sends _
  | matrix t m => exact writeMatrix_sends _

/-- A field with figures is written as their bits, and one without figures is refused. -/
theorem writeRequest_emits {field : GeometricField} {figures : field.Figures}
    (h : field.figures? = some figures) :
    Emits field.writeRequest.run .nothing (fixed (field.bits figures)) := by
  have hsends := field.writing_sends
  rw [h] at hsends
  have hemits : Emits field.writing () (fixed (field.bits figures)) := hsends
  rw [writeRequest_run]
  exact hemits.map fun _ => Answer.nothing

theorem writeRequest_refuses {field : GeometricField} (h : field.figures? = none) :
    Refuses field.writeRequest.run := by
  have hsends := field.writing_sends
  rw [h] at hsends
  have hrefuses : Refuses field.writing := hsends
  rw [writeRequest_run]
  exact hrefuses.bind

theorem unitVector_answer (t : FloatType) (v : Vec3 t.Value) (figures : UnitFigures) :
    (unitVector t v).answer figures = .vector t (figures.vector.map t.ofFloat) := by
  cases figures with
  | axis axis backwards =>
    have hone := t.ofFloat_one backwards
    have hzero := t.ofFloat_zero
    have haxis : (onAxis 0.0 axis (if backwards then -1.0 else 1.0)).map t.ofFloat =
        onAxis 0#t.bits axis (t.one backwards) := by
      match axis with
      | 0 | 1 | 2 => simp only [onAxis, Vec3.map, hone, hzero]
    rw [UnitFigures.vector, haxis]
    rfl
  | steps v => rfl

/-- A reader collects the figures, and what it makes of them is arithmetic. -/
theorem readRequest_run (field : GeometricField) :
    field.readRequest.run =
      (field.readFigures >>= fun figures => pure (field.answer figures)) := by
  cases field with
  | rangedFloat t v min max =>
    change ((Ranged.readNumber (t.toFloat min) (t.toFloat max) >>= fun number =>
      pure (t.ofFloat number)) >>= fun v => pure (Answer.value (.float t) v)) = _
    rw [Ranged.readNumber_eq, bind_assoc, bind_assoc]
    rfl
  | unitVector t v =>
    change ((readUnitVector >>= fun v => pure (v.map t.ofFloat)) >>= fun v =>
      pure (Answer.vector t v)) = _
    rw [readUnitVector_eq, bind_assoc, bind_assoc]
    simp only [pure_bind, ← unitVector_answer t v]
    rfl
  | vector t v =>
    change ((readVector t >>= fun v => pure (v.map t.ofFloat)) >>= fun v =>
      pure (Answer.vector t v)) = _
    rw [readVector_eq, bind_assoc, bind_assoc]
    rfl
  | rotation t q =>
    change ((readRotation >>= fun q => pure (q.map t.ofFloat)) >>= fun q =>
      pure (Answer.rotation t q)) = _
    rw [readRotation_eq, bind_assoc, bind_assoc]
    rfl
  | matrix t m =>
    change (((readRotation >>= fun q => pure (matrixOf q)) >>= fun m =>
      pure (m.map (Vec3.map t.ofFloat))) >>= fun m => pure (Answer.matrix t m)) = _
    rw [readRotation_eq, bind_assoc, bind_assoc, bind_assoc]
    rfl

theorem readFigures_takes {field : GeometricField} {figures : field.Figures}
    (h : field.figures? = some figures) :
    Takes field.readFigures figures (fixed (field.bits figures)) := by
  cases field with
  | rangedFloat t v min max => exact Ranged.readStep_takes (Ranged.lt_of_step? h) figures
  | unitVector t v => exact readUnitFigures_takes figures
  | vector t v => exact readVectorFigures_takes (alone_iff h).2
  | rotation t q => exact readRotationFigures_takes figures
  | matrix t m => exact readRotationFigures_takes figures

theorem readRequest_takes {field : GeometricField} {figures : field.Figures}
    (h : field.figures? = some figures) :
    Takes field.readRequest.run (field.answer figures) (fixed (field.bits figures)) := by
  rw [readRequest_run]
  exact (readFigures_takes h).map field.answer

/-! ## Many fields -/

/-- A field and the figures that are sent for it. -/
structure Sent where
  field : GeometricField
  figures : field.Figures
  sent : field.figures? = some figures

namespace Sent

def bits (g : Sent) : List Bool :=
  g.field.bits g.figures

def count (g : Sent) : Nat :=
  g.field.bitCount g.figures

def answer (g : Sent) : Answer :=
  g.field.answer g.figures

theorem length_bits (g : Sent) : g.bits.length = g.count :=
  GeometricField.length_bits g.field g.figures

end Sent

/-- Write fields one behind another, and say how many bits each of them took. -/
def writeEach : List GeometricField → Encoder (List Nat)
  | [] => pure []
  | field :: rest => do
    let before ← Action.current
    let _ ← field.writeRequest.run
    let after ← Action.current
    let later ← writeEach rest
    pure ((after.cursor.write - before.cursor.write) :: later)

/-- Read something of each field, one behind another, and say how many bits it took. -/
def readEach {β : GeometricField → Type} (read : (field : GeometricField) → Decoder (β field)) :
    List GeometricField → Decoder (List ((field : GeometricField) × β field × Nat))
  | [] => pure []
  | field :: rest => do
    let before ← Decoder.position
    let value ← read field
    let after ← Decoder.position
    let later ← readEach read rest
    pure (⟨field, value, after - before⟩ :: later)

/-- Behind a field that was written the later ones are written. -/
theorem writeEach_cons {field : GeometricField} {s s₁ : Stream} {effects : List Effect}
    (h : field.writeRequest.run s = ⟨.value .nothing, s₁, effects⟩) (rest : List GeometricField) :
    writeEach (field :: rest) s =
      ⟨(writeEach rest s₁).ending.map ((s₁.cursor.write - s.cursor.write) :: ·),
        (writeEach rest s₁).state, effects ++ (writeEach rest s₁).effects⟩ := by
  have hafter : (Action.current >>= fun after : Stream => writeEach rest >>= fun later =>
      pure ((after.cursor.write - s.cursor.write) :: later) : Encoder (List Nat)) s₁ =
        (writeEach rest >>= fun later =>
          pure ((s₁.cursor.write - s.cursor.write) :: later)) s₁ :=
    Action.bind_value (Stream.current_run s₁)
  rw [writeEach, Action.bind_value (Stream.current_run s), Action.bind_trace h, hafter,
    Action.map_run]

/-- A field without figures ends the writing of the whole list. -/
theorem writeEach_refused {field : GeometricField} (h : field.figures? = none) {s : Stream}
    (hs : s.Sound) (rest : List GeometricField) (counts : List Nat) :
    (writeEach (field :: rest) s).ending ≠ .value counts := by
  rw [writeEach, Action.bind_value (Stream.current_run s)]
  exact Refuses.bind (writeRequest_refuses h) hs counts

/-- When all fields were written, each of them has figures, and their bits were appended in
order. -/
theorem writeEach_run {fields : List GeometricField} {s : Stream} (hs : s.Sound)
    {counts : List Nat} (h : (writeEach fields s).ending = .value counts) :
    ∃ sent : List Sent, sent.map Sent.field = fields ∧ counts = sent.map Sent.count ∧
      s.Grown (sent.flatMap Sent.bits) (writeEach fields s).state := by
  induction fields generalizing s counts with
  | nil =>
    cases h
    exact ⟨[], rfl, rfl, Stream.Grown.refl hs⟩
  | cons field rest ih =>
    cases hfigures : field.figures? with
    | none => exact absurd h (writeEach_refused hfigures hs rest counts)
    | some figures =>
      obtain ⟨s₁, effects, hwrite, hgrown⟩ := writeRequest_emits hfigures hs
      rw [writeEach_cons hwrite] at h ⊢
      obtain ⟨later, hrest, rfl⟩ := Ending.map_eq_value h
      obtain ⟨sent, hfields, hcounts, hlater⟩ := ih hgrown.sound hrest
      have hcount : s₁.cursor.write - s.cursor.write = field.bitCount figures := by
        rw [hgrown.write_eq, fixed, length_bits]
        omega
      refine ⟨⟨field, figures, hfigures⟩ :: sent, ?_, ?_, ?_⟩
      · rw [List.map_cons, hfields]
      · rw [List.map_cons, ← hcounts, hcount]
        rfl
      · rw [List.flatMap_cons]
        exact hgrown.trans hlater

/-- In front of their bits each field is read where it was written, whatever is read of it. -/
theorem readEach_run {β : GeometricField → Type}
    {read : (field : GeometricField) → Decoder (β field)} {value : (g : Sent) → β g.field}
    (h : ∀ g : Sent, Takes (read g.field) (value g) (fixed g.bits)) (sent : List Sent)
    {p : Payload} {pos : Nat} {rest : List Bool} (hp : p.Sound) (hpos : pos ≤ p.bits)
    (hstring : p.string.drop pos = sent.flatMap Sent.bits ++ rest) :
    readEach read (sent.map Sent.field) p pos =
      ⟨.value (sent.map fun g => ⟨g.field, value g, g.count⟩),
        pos + (sent.map Sent.count).sum, []⟩ := by
  induction sent generalizing pos with
  | nil => rfl
  | cons g later ih =>
    rw [List.flatMap_cons, List.append_assoc] at hstring
    have hlen := Takes.length_eq hpos hstring
    rw [g.length_bits] at hlen
    have hread := h g hp hpos hstring
    have hnext := Takes.drop_next hstring
    rw [fixed, g.length_bits] at hread
    rw [g.length_bits] at hnext
    have hrest := ih (by omega) hnext
    have hcount : pos + g.count - pos = g.count := by omega
    rw [List.map_cons, readEach, Decoder.bind_value (Decoder.position_run p pos),
      Decoder.bind_value hread, Decoder.bind_value (Decoder.position_run p _),
      Decoder.bind_value hrest, hcount, List.map_cons, List.map_cons, List.sum_cons,
      Nat.add_assoc]
    rfl

/-- A length takes 32 bits alone, and no three mini codes are empty. -/
theorem vector_bitCount_iff {t : FloatType} {v : Vec3 t.Value} {figures : VectorFigures t}
    (h : (vector t v).figures? = some figures) :
    (vector t v).bitCount figures = 32 ↔ ¬Long figures.size := by
  rw [← (alone_iff h).1]
  cases figures with
  | nought size => exact ⟨fun _ => rfl, fun _ => rfl⟩
  | long size direction =>
    have hsome := Mini.length_intBits_pos (Mini.carrier t) direction.x
    have hcount : (vector t v).bitCount (.long size direction) =
        32 + miniCount (Mini.carrier t) direction := rfl
    rw [hcount, miniCount]
    refine ⟨fun hsame => by omega, nofun⟩

/-- When all fields of a list were written to a sound stream, each of them has sent figures, in
order and in as many bits as `bitCount` says.  In front of these bits, in any source, at any
position and with anything behind them, the requests for the same types and bounds all succeed
and take from the source what each of the fields put there.  What they read are the figures that
were sent, and their answers are arithmetic on these.

A length goes alone when it is not above the one that counts as zero, and on an axis the answer
is exactly 1 or -1 beside two zeros. -/
theorem fields_stay_in_step (fields : List GeometricField) {s : Stream} (hs : s.Sound)
    {counts : List Nat} (h : (writeEach fields s).ending = .value counts) :
    (∃ sent : List Sent,
      sent.map Sent.field = fields ∧ counts = sent.map Sent.count ∧
      s.Grown (sent.flatMap Sent.bits) (writeEach fields s).state ∧
      ∀ (p : Payload) (pos : Nat) (rest : List Bool), p.Sound → pos ≤ p.bits →
        p.string.drop pos = sent.flatMap Sent.bits ++ rest →
          readEach (fun field => field.readRequest.run) fields p pos =
            ⟨.value (sent.map fun g => ⟨g.field, g.answer, g.count⟩), pos + counts.sum, []⟩ ∧
          readEach readFigures fields p pos =
            ⟨.value (sent.map fun g => ⟨g.field, g.figures, g.count⟩), pos + counts.sum, []⟩) ∧
    (∀ field : GeometricField, field.readRequest.run =
      (field.readFigures >>= fun figures => pure (field.answer figures))) ∧
    (∀ (t : FloatType) (v : Vec3 t.Value) (figures : VectorFigures t),
      (vector t v).figures? = some figures →
        ((vector t v).bitCount figures = 32 ↔ ¬Long figures.size)) ∧
    (∀ (t : FloatType) (backwards : Bool),
      t.toFloat (t.one backwards) = if backwards then -1.0 else 1.0) ∧
    ∀ t : FloatType, t.toFloat 0#t.bits = 0.0 := by
  refine ⟨?_, readRequest_run, fun t v figures hfigures => vector_bitCount_iff hfigures,
    FloatType.toFloat_one, FloatType.toFloat_zero⟩
  obtain ⟨sent, hfields, hcounts, hgrown⟩ := writeEach_run hs h
  refine ⟨sent, hfields, hcounts, hgrown, fun p pos rest hp hpos hstring => ?_⟩
  rw [← hfields, hcounts]
  exact ⟨readEach_run (fun g => readRequest_takes g.sent) sent hp hpos hstring,
    readEach_run (fun g => readFigures_takes g.sent) sent hp hpos hstring⟩

/-- Vectors along an axis and off it, without length and with one, a rotation and a number in a
range, written from the middle of a byte. -/
theorem fields_stay_in_step_mixed :
    let s := ((WriteRequest.bits [5] 3 true).run Stream.empty).state
    let fields : List GeometricField :=
      [.unitVector .f32 ⟨0#32, 0xbf800000#32, 0#32⟩,
        .unitVector .f64 ⟨0x3fe3333333333333#64, 0x3fe999999999999a#64, 0#64⟩,
        .vector .f64 ⟨0#64, 0#64, 0#64⟩,
        .vector .f32 ⟨0x40400000#32, 0x40800000#32, 0#32⟩,
        .rotation .f64 ⟨0x3ff0000000000000#64, 0#64, 0#64, 0#64⟩,
        .rangedFloat .f32 0x3f000000#32 0#32 0x3f800000#32]
    s.Sound ∧ (writeEach fields s).ending = .value [4, 49, 32, 86, 7, 16] ∧
      ∃ sent : List Sent, sent.map Sent.field = fields ∧
        sent.map Sent.count = [4, 49, 32, 86, 7, 16] ∧
          s.Grown (sent.flatMap Sent.bits) (writeEach fields s).state := by
  intro s fields
  have hs : s.Sound :=
    WriteRequest.run_sound (.bits [5] 3 true) (Stream.withRoom_sound 0)
  have hsent : (writeEach fields s).ending = .value [4, 49, 32, 86, 7, 16] := by
    decide +kernel
  obtain ⟨⟨sent, hfields, hcounts, hgrown, _⟩, _⟩ := fields_stay_in_step fields hs hsent
  exact ⟨hs, hsent, sent, hfields, hcounts.symm, hgrown⟩

end GeometricField

end BitCodec
