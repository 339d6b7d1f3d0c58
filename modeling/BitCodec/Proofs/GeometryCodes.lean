import BitCodec.Proofs.ChangedCodes
import BitCodec.Proofs.Floats

/-!
# The codes of geometric values

Vectors, rotations and numbers in a range travel as a few whole numbers: steps, carriers of
fixed-point numbers, signs, an axis, a length as its pattern.  What the arithmetic before and
behind them loses is one matter, how many bits there are and which whole number each of them
belongs to is another, and only the second is looked at here.

Every writer is described by the figures that it sends, if it sends any.  Every reader is taken
apart into one that collects figures and arithmetic that cannot fail, so that to be in step is
to collect the figures that were sent.  The reader of vectors finds the layout in what it has
read: it compares the length with the one below which nothing follows, as the writer does, the
other way round.  The two comparisons agree because that length is a number.
-/

namespace BitCodec

open Code (fixed fixed_followedBy_fixed)

/-! ## Writers and their figures -/

/-- A writer sends the figures in these bits, or refuses when there are none. -/
def Sends {γ : Type} (body : Encoder Unit) (sent : Option γ) (bits : γ → List Bool) : Prop :=
  match sent with
  | some figures => Emits body () (fixed (bits figures))
  | none => Refuses body

namespace Sends

variable {γ : Type} {body : Encoder Unit} {sent : Option γ} {bits : γ → List Bool}

theorem of_emits {figures : γ} (h : Emits body () (fixed (bits figures))) :
    Sends body (some figures) bits :=
  h

theorem fail (e : Failure) : Sends (Action.fail e) (none : Option γ) bits :=
  Refuses.fail e

/-- Behind bits that are always sent. -/
theorem behind {δ : Type} {first : Encoder Unit} {front : List Bool} {f : γ → δ}
    {more : δ → List Bool} (hfirst : Emits first () (fixed front)) (h : Sends body sent bits)
    (hmore : ∀ figures, more (f figures) = front ++ bits figures) :
    Sends (first >>= fun _ => body) (sent.map f) more := by
  cases sent with
  | none => exact hfirst.refuses h
  | some figures =>
    have hboth : Emits (first >>= fun _ => body) ()
        ((fixed front).followedBy (fixed (bits figures))) := hfirst.bind h
    rw [fixed_followedBy_fixed, ← hmore] at hboth
    exact hboth

end Sends

namespace Vec3

/-- Three components, if each of them is there. -/
def join {α : Type} (v : Vec3 (Option α)) : Option (Vec3 α) := do
  pure ⟨← v.x, ← v.y, ← v.z⟩

def bits {α : Type} (component : α → List Bool) (v : Vec3 α) : List Bool :=
  component v.x ++ (component v.y ++ component v.z)

variable {α β : Type}

theorem sends {x y z : Encoder Unit} {vx vy vz : Option α} {component : α → List Bool}
    (hx : Sends x vx component) (hy : Sends y vy component) (hz : Sends z vz component) :
    Sends (do x; y; z) (join ⟨vx, vy, vz⟩) (Vec3.bits component) := by
  cases vx with
  | none => exact Refuses.bind hx
  | some a =>
    cases vy with
    | none => exact Emits.refuses hx (Refuses.bind hy)
    | some b =>
      cases vz with
      | none => exact Emits.refuses hx (Emits.refuses hy hz)
      | some c => exact Emits.andThen hx (Emits.andThen hy hz)

theorem read_takes {component : Decoder α} {code : α → List Bool}
    (h : ∀ a, Takes component a (fixed (code a))) (v : Vec3 α) :
    Takes (Vec3.read component) v (fixed (Vec3.bits code v)) := by
  rw [Vec3.bits, ← fixed_followedBy_fixed, ← fixed_followedBy_fixed]
  refine (h v.x).bind ((h v.y).bind ?_)
  exact (h v.z).map (Vec3.mk v.x v.y)

/-- What is made of each component can be made of them once they are read. -/
theorem read_map (component : Decoder α) (f : α → β) :
    Vec3.read (component >>= fun a => pure (f a)) =
      (Vec3.read component >>= fun v => pure (v.map f)) := by
  simp only [Vec3.read, bind_assoc, pure_bind, Vec3.map]

end Vec3

/-! ## Numbers in a range -/

namespace Ranged

/-- The step of a number between two others, if it is a number and they are in order. -/
def step? (number low high : Float) : Option (IntType.u16.Value) :=
  if low < high then
    if number.isNaN then none else some (BitVec.ofNat 16 (toStep number low high))
  else none

def stepBits (step : IntType.u16.Value) : List Bool :=
  Bits.ofNumber 16 step.toNat

/-- Collect a step between two numbers that must be in order. -/
def readStep (low high : Float) : Decoder (IntType.u16.Value) :=
  if low < high then Prim.read (.int .u16) else Decoder.fail (degenerate low high)

theorem writeNumber_sends (number low high : Float) :
    Sends (writeNumber number low high) (step? number low high) stepBits := by
  unfold writeNumber step?
  by_cases hlt : low < high
  · rw [if_pos hlt, if_pos hlt]
    by_cases hnan : number.isNaN = true
    · rw [if_pos hnan, if_pos hnan]
      exact Sends.fail _
    · rw [if_neg hnan, if_neg hnan]
      exact Prim.write_emits (.int .u16) _
  · rw [if_neg hlt, if_neg hlt]
    exact Sends.fail _

/-- The bounds that a clamp demands to be in order are in order when they were told apart. -/
theorem readNumber_eq (low high : Float) :
    readNumber low high =
      (readStep low high >>= fun step => pure (ofStep step.toNat low high)) := by
  unfold readNumber
  by_cases hlt : low < high
  · have hstep : readStep low high = Prim.read (.int .u16) := if_pos hlt
    have hordered : decide (low ≤ high) = true := decide_eq_true (le_of_lt hlt)
    rw [if_pos hlt, hstep, hordered]
    rfl
  · have hstep : readStep low high = Decoder.fail (degenerate low high) := if_neg hlt
    rw [if_neg hlt, hstep]
    rfl

theorem readStep_takes {low high : Float} (h : low < high) (step : IntType.u16.Value) :
    Takes (readStep low high) step (fixed (stepBits step)) := by
  have hread : readStep low high = Prim.read (.int .u16) := if_pos h
  rw [hread]
  exact Prim.read_takes (.int .u16) step

theorem lt_of_step? {number low high : Float} {step : IntType.u16.Value}
    (h : step? number low high = some step) : low < high := by
  unfold step? at h
  split at h
  · next hlt => exact hlt
  · cases h

end Ranged

namespace Mini

/-- The carrier of a float that has a mini code. -/
def fixed? (t : FloatType) (value : t.Value) : Option (carrier t).Value :=
  match nearUnit (t.toFloat value) with
  | .ok unit => some (BitVec.ofNat (carrier t).bits (toFixed t unit))
  | .error _ => none

theorem writeFloat_sends (t : FloatType) (value : t.Value) :
    Sends (writeFloat t value) (fixed? t value) (intBits (carrier t)) := by
  unfold writeFloat fixed?
  cases nearUnit (t.toFloat value) with
  | ok unit => exact writeInt_emits _ _
  | error e => exact Sends.fail e

/-- No mini code is empty. -/
theorem length_intBits_pos (t : IntType) (value : t.Value) : 0 < (intBits t value).length := by
  have hbytes : 0 < t.bytes := by cases t <;> decide
  unfold intBits
  cases intBytes t value with
  | nil =>
    rw [markedBits, if_pos hbytes]
    exact Nat.one_pos
  | cons byte rest => exact Nat.succ_pos _

end Mini

namespace Geometry

/-- What is sent when a check passes. -/
def passed? {γ : Type} (check : Except Failure Unit) (sent : Option γ) : Option γ :=
  match check with
  | .ok () => sent
  | .error _ => none

theorem passing_sends {γ : Type} (check : Except Failure Unit) {body : Encoder Unit}
    {sent : Option γ} {bits : γ → List Bool} (h : Sends body sent bits) :
    Sends (passing check body) (passed? check sent) bits := by
  cases check with
  | ok _ => exact h
  | error e => exact Sends.fail e

/-! ## Unit vectors -/

/-- An axis and a direction along it, or a step for each component. -/
inductive UnitFigures where
  | axis (axis : Fin 3) (backwards : Bool)
  | steps (v : Vec3 (IntType.u16.Value))

/-- The vector of a length along an axis. -/
def onAxis {α : Type} (zero : α) (axis : Fin 3) (size : α) : Vec3 α :=
  match axis with
  | 0 => ⟨size, zero, zero⟩
  | 1 => ⟨zero, size, zero⟩
  | 2 => ⟨zero, zero, size⟩

namespace UnitFigures

def bits : UnitFigures → List Bool
  | axis a backwards => true :: (Bits.ofNumber 2 a ++ [backwards])
  | steps v => false :: v.bits Ranged.stepBits

def vector : UnitFigures → Vec3 Float
  | axis a backwards => onAxis 0.0 a (if backwards then -1.0 else 1.0)
  | steps v => v.map fun step => Ranged.ofStep step.toNat (-1.0) 1.0

end UnitFigures

/-- What a unit vector sends, unless a component is too far from [-1, 1]. -/
def unitFigures? (v : Vec3 Float) : Option UnitFigures :=
  passed? (checkNearUnits v.toList) <|
    match axisOf v with
    | some (axis, backwards) => some (.axis (Fin.ofNat 3 axis) backwards)
    | none => (v.map fun number => Ranged.step? number (-1.0) 1.0).join.map .steps

theorem axisOf_le {v : Vec3 Float} {axis : Nat} {backwards : Bool}
    (h : axisOf v = some (axis, backwards)) : axis ≤ 2 := by
  unfold axisOf at h
  split_ifs at h <;> simp only [Option.some.injEq, Prod.mk.injEq] at h <;> omega

theorem taken_axis (axis : Fin 3) :
    Bits.taken [UInt8.ofNat axis] 2 true = Bits.ofNumber 2 axis := by
  match axis with
  | 0 | 1 | 2 => decide

theorem writeUnitVector_sends (v : Vec3 Float) :
    Sends (writeUnitVector v) (unitFigures? v) UnitFigures.bits := by
  refine passing_sends _ ?_
  cases haxis : axisOf v with
  | some found =>
    obtain ⟨axis, backwards⟩ := found
    have hle := axisOf_le haxis
    have hback : (Fin.ofNat 3 axis : Nat) = axis := Nat.mod_eq_of_lt (by omega)
    have hroom : bytesOfBits 2 ≤ [UInt8.ofNat axis].length := by
      rw [List.length_singleton]
      decide
    have htwo := Emits.writeBits true hroom
    have hcopied := taken_axis (Fin.ofNat 3 axis)
    rw [hback] at hcopied
    rw [hcopied] at htwo
    have hcode : (UnitFigures.axis (Fin.ofNat 3 axis) backwards).bits =
        [true] ++ (Bits.ofNumber 2 (Fin.ofNat 3 axis) ++ [backwards]) := rfl
    refine Sends.of_emits ?_
    rw [hcode, hback, ← fixed_followedBy_fixed, ← fixed_followedBy_fixed]
    exact (Emits.writeBit true).andThen (htwo.andThen (Emits.writeBit backwards))
  | none =>
    exact Sends.behind (Emits.writeBit false)
      (Vec3.sends (Ranged.writeNumber_sends _ _ _) (Ranged.writeNumber_sends _ _ _)
        (Ranged.writeNumber_sends _ _ _)) fun _ => rfl

/-- Collect an axis and a direction along it. -/
def readAxisFigures : Decoder UnitFigures := do
  let bytes ← Decoder.readBits [0] 2 true
  let axis := Octets.ofLe bytes
  if h : axis < 3 then
    let backwards ← Decoder.readBit
    pure (.axis ⟨axis, h⟩ backwards)
  else
    Decoder.fail (.malformed s!"axis-aligned vector carries an invalid axis index: {axis}")

def readUnitFigures : Decoder UnitFigures := do
  if ← Decoder.readBit then readAxisFigures
  else pure (.steps (← Vec3.read (Ranged.readStep (-1.0) 1.0)))

theorem alongAxis_eq (axis : Fin 3) (number : Float) :
    alongAxis axis number = some (onAxis 0.0 axis number) := by
  match axis with
  | 0 | 1 | 2 => rfl

theorem readAxis_eq : readAxis = (readAxisFigures >>= fun figures => pure figures.vector) := by
  unfold readAxis readAxisFigures
  rw [bind_assoc]
  refine congrArg _ (funext fun bytes => ?_)
  by_cases haxis : Octets.ofLe bytes < 3
  · dsimp only
    rw [if_neg (by omega), dif_pos haxis, bind_assoc]
    refine congrArg _ (funext fun backwards => ?_)
    have halong := alongAxis_eq ⟨Octets.ofLe bytes, haxis⟩ (if backwards then -1.0 else 1.0)
    dsimp only at halong
    rw [halong, pure_bind]
    rfl
  · dsimp only
    rw [if_pos (by omega), dif_neg haxis]
    rfl

theorem readUnitVector_eq :
    readUnitVector = (readUnitFigures >>= fun figures => pure figures.vector) := by
  unfold readUnitVector readUnitFigures
  rw [bind_assoc]
  refine congrArg _ (funext fun axial => ?_)
  cases axial with
  | true => exact readAxis_eq
  | false =>
    have hnumber : Ranged.readNumber (-1.0) 1.0 = _ := Ranged.readNumber_eq _ _
    rw [if_neg Bool.false_ne_true, if_neg Bool.false_ne_true, hnumber, Vec3.read_map, bind_assoc]
    simp only [pure_bind, UnitFigures.vector]

theorem readAxisFigures_takes (axis : Fin 3) (backwards : Bool) :
    Takes readAxisFigures (.axis axis backwards)
      (fixed (Bits.ofNumber 2 axis ++ [backwards])) := by
  have hroom : bytesOfBits 2 ≤ [UInt8.ofNat axis].length := by
    rw [List.length_singleton]
    decide
  have hread : Takes (Decoder.readBits [0] 2 true) _
      (fixed (Bits.taken [UInt8.ofNat axis] 2 true)) :=
    Item.readBits_takes true hroom (Nat.le_refl 1)
  have hback : Bits.packed true (Bits.taken [UInt8.ofNat axis] 2 true) ++
      List.drop (bytesOfBits 2) [0] = [UInt8.ofNat axis] := by
    match axis with
    | 0 | 1 | 2 => decide
  have hnumber : Octets.ofLe [UInt8.ofNat axis] = axis := by
    match axis with
    | 0 | 1 | 2 => decide
  rw [hback, taken_axis] at hread
  rw [← fixed_followedBy_fixed]
  refine hread.bind ?_
  dsimp only
  rw [dif_pos (by rw [hnumber]; exact axis.isLt)]
  have hsame : (⟨Octets.ofLe [UInt8.ofNat axis], by rw [hnumber]; exact axis.isLt⟩ : Fin 3) =
      axis := Fin.ext hnumber
  rw [hsame]
  exact (Takes.readBit backwards).map (UnitFigures.axis axis)

theorem readUnitFigures_takes (figures : UnitFigures) :
    Takes readUnitFigures figures (fixed figures.bits) := by
  have hbounds : (-1.0 : Float) < 1.0 := by decide +kernel
  cases figures with
  | axis a backwards =>
    have hcode : (UnitFigures.axis a backwards).bits =
        [true] ++ (Bits.ofNumber 2 a ++ [backwards]) := rfl
    rw [hcode, ← fixed_followedBy_fixed]
    exact (Takes.readBit true).bind (readAxisFigures_takes a backwards)
  | steps v =>
    have hcode : (UnitFigures.steps v).bits = [false] ++ v.bits Ranged.stepBits := rfl
    rw [hcode, ← fixed_followedBy_fixed]
    refine (Takes.readBit false).bind ?_
    exact (Vec3.read_takes (Ranged.readStep_takes hbounds) v).map UnitFigures.steps

/-! ## Vectors -/

/-- A length that goes alone, or a length and the carriers of a direction. -/
inductive VectorFigures (t : FloatType) where
  | nought (size : FloatType.f32.Value)
  | long (size : FloatType.f32.Value) (direction : Vec3 (Mini.carrier t).Value)

/-- Whether a direction follows a length, as the writer asks. -/
def Long (size : FloatType.f32.Value) : Prop :=
  FloatType.f32.toFloat size > FloatType.f32.toFloat minLength

instance (size : FloatType.f32.Value) : Decidable (Long size) :=
  inferInstanceAs (Decidable (FloatType.f32.toFloat size > FloatType.f32.toFloat minLength))

namespace VectorFigures

variable {t : FloatType}

def bits : VectorFigures t → List Bool
  | nought size => Prim.wireBits (.float .f32) size
  | long size direction =>
    Prim.wireBits (.float .f32) size ++ direction.bits (Mini.intBits (Mini.carrier t))

def vector : VectorFigures t → Vec3 Float
  | nought _ => ⟨0.0, 0.0, 0.0⟩
  | long size direction => direction.map fun fixed =>
    t.toFloat (Mini.ofFixed t fixed.toNat) * FloatType.f32.toFloat size

def size : VectorFigures t → FloatType.f32.Value
  | nought size | long size _ => size

def alone : VectorFigures t → Bool
  | nought _ => true
  | long _ _ => false

/-- The reader finds out from the length whether it goes alone. -/
def Plain (figures : VectorFigures t) : Prop :=
  figures.alone = true ↔
    FloatType.f32.toFloat figures.size ≤ FloatType.f32.toFloat minLength

end VectorFigures

/-- What a vector sends, if its length is finite and remains so in f32. -/
def vectorFigures? (t : FloatType) (v : Vec3 Float) : Option (VectorFigures t) :=
  let size := length v
  if !size.isFinite then none
  else
    let wire := FloatType.f32.ofFloat size
    if (FloatType.f32.toFloat wire).isInf then none
    else if Long wire then
      (v.map fun number => Mini.fixed? t (t.ofFloat (number / size))).join.map (.long wire)
    else some (.nought wire)

theorem writeVector_sends (t : FloatType) (v : Vec3 Float) :
    Sends (writeVector t v) (vectorFigures? t v) VectorFigures.bits := by
  unfold writeVector vectorFigures?
  dsimp only
  by_cases hfinite : (!(length v).isFinite) = true
  · rw [if_pos hfinite, if_pos hfinite]
    exact Sends.fail _
  rw [if_neg hfinite, if_neg hfinite]
  by_cases hinf : (FloatType.f32.toFloat (FloatType.f32.ofFloat (length v))).isInf = true
  · rw [if_pos hinf, if_pos hinf]
    exact Sends.fail _
  rw [if_neg hinf, if_neg hinf]
  have hsize := Prim.write_emits (.float .f32) (FloatType.f32.ofFloat (length v))
  by_cases hlong : Long (FloatType.f32.ofFloat (length v))
  · have hmore : FloatType.f32.toFloat (FloatType.f32.ofFloat (length v)) >
        FloatType.f32.toFloat minLength := hlong
    rw [if_pos hlong, if_pos hmore]
    exact Sends.behind hsize (Vec3.sends (Mini.writeFloat_sends t _) (Mini.writeFloat_sends t _)
      (Mini.writeFloat_sends t _)) fun _ => rfl
  · have hmore : ¬FloatType.f32.toFloat (FloatType.f32.ofFloat (length v)) >
        FloatType.f32.toFloat minLength := hlong
    rw [if_neg hlong, if_neg hmore]
    have halone := hsize.andThen (Emits.pure ())
    rw [Code.followedBy_none] at halone
    exact halone

theorem minLength_ne : FloatType.number .f32 minLength ≠ .notANumber := by
  intro hnan
  have hnumber : (FloatType.number .f32 minLength).isNaN = false := rfl
  rw [hnan] at hnumber
  cases hnumber

/-- The writer and the reader ask the two ways round about the length that goes over the wire,
and that is a number. -/
theorem alone_iff {t : FloatType} {v : Vec3 Float} {figures : VectorFigures t}
    (h : vectorFigures? t v = some figures) :
    (figures.alone = true ↔ ¬Long figures.size) ∧ figures.Plain := by
  unfold vectorFigures? at h
  dsimp only at h
  by_cases hfinite : (length v).isFinite = true
  swap
  · rw [if_pos (by simpa using hfinite)] at h
    cases h
  rw [if_neg (by simpa using hfinite)] at h
  have horder := FloatType.le_iff_not_lt minLength_ne (FloatType.number_ofFloat hfinite)
  by_cases hinf : (FloatType.f32.toFloat (FloatType.f32.ofFloat (length v))).isInf = true
  · rw [if_pos hinf] at h
    cases h
  rw [if_neg hinf] at h
  by_cases hlong : Long (FloatType.f32.ofFloat (length v))
  · rw [if_pos hlong] at h
    obtain ⟨direction, _, rfl⟩ := Option.map_eq_some_iff.mp h
    exact ⟨⟨nofun, fun hshort => absurd hlong hshort⟩, nofun, fun hle =>
      absurd hlong (horder.mp hle)⟩
  · rw [if_neg hlong] at h
    cases h
    exact ⟨⟨fun _ => hlong, fun _ => rfl⟩, fun _ => horder.mpr hlong, fun _ => rfl⟩

def readVectorFigures (t : FloatType) : Decoder (VectorFigures t) := do
  let size ← Prim.read (.float .f32)
  if FloatType.f32.toFloat size ≤ FloatType.f32.toFloat minLength then pure (.nought size)
  else pure (.long size (← Vec3.read (Mini.readInt (Mini.carrier t))))

theorem readVector_eq (t : FloatType) :
    readVector t = (readVectorFigures t >>= fun figures => pure figures.vector) := by
  unfold readVector readVectorFigures
  rw [bind_assoc]
  refine congrArg _ (funext fun size => ?_)
  dsimp only
  split
  · rfl
  · have hread : Vec3.read (Mini.readFloat t) = _ :=
      Vec3.read_map (Mini.readInt (Mini.carrier t)) fun fixed => Mini.ofFixed t fixed.toNat
    rw [hread, bind_assoc, bind_assoc]
    rfl

theorem readVectorFigures_takes {t : FloatType} {figures : VectorFigures t}
    (h : figures.Plain) : Takes (readVectorFigures t) figures (fixed figures.bits) := by
  have hsize (size : FloatType.f32.Value) : Takes (Prim.read (.float .f32)) size
      (fixed (Prim.wireBits (.float .f32) size)) := Prim.read_takes (.float .f32) size
  unfold readVectorFigures
  cases figures with
  | nought size =>
    have hcode : (VectorFigures.nought size : VectorFigures t).bits =
        Prim.wireBits (.float .f32) size ++ [] := (List.append_nil _).symm
    rw [hcode, ← fixed_followedBy_fixed]
    refine (hsize size).bind ?_
    have hshort : FloatType.f32.toFloat size ≤ FloatType.f32.toFloat minLength := h.mp rfl
    rw [if_pos hshort]
    exact Takes.pure _
  | long size direction =>
    have hcode : (VectorFigures.long size direction).bits =
        Prim.wireBits (.float .f32) size ++ direction.bits (Mini.intBits (Mini.carrier t)) := rfl
    rw [hcode, ← fixed_followedBy_fixed]
    refine (hsize size).bind ?_
    have hlong : ¬FloatType.f32.toFloat size ≤ FloatType.f32.toFloat minLength := fun hle =>
      Bool.false_ne_true (h.mpr hle)
    rw [if_neg hlong]
    exact (Vec3.read_takes (Mini.readInt_takes (Mini.carrier t)) direction).map
      (VectorFigures.long size)

/-! ## Rotations -/

/-- Four signs and three sizes. -/
structure RotationFigures where
  signs : Quaternion Bool
  sizes : Vec3 (IntType.u16.Value)

namespace RotationFigures

def bits (figures : RotationFigures) : List Bool :=
  figures.signs.toList ++ figures.sizes.bits (Mini.intBits .u16)

def fraction (size : IntType.u16.Value) : Float :=
  floatOfNat size.toNat / 65535.0

def rotation (figures : RotationFigures) : Quaternion Float :=
  rotationWith figures.signs (fraction figures.sizes.x) (fraction figures.sizes.y)
    (fraction figures.sizes.z)

end RotationFigures

/-- What a rotation sends, unless a component is too far from [-1, 1]. -/
def rotationFigures? (q : Quaternion Float) : Option RotationFigures :=
  passed? (checkNearUnits q.toList) <| some
    ⟨q.map fun number => number < 0.0,
      (Vec3.mk q.x q.y q.z).map fun number => BitVec.ofNat 16 (toFraction number)⟩

def matrixFigures? (m : Matrix3 Float) : Option RotationFigures :=
  passed? (checkNearUnits (m.toList.flatMap Vec3.toList)) (rotationFigures? (rotationOf m))

theorem writeRotation_sends (q : Quaternion Float) :
    Sends (writeRotation q) (rotationFigures? q) RotationFigures.bits := by
  refine passing_sends _ (Sends.of_emits ?_)
  have hsize (number : Float) := Mini.writeInt_emits .u16 (BitVec.ofNat 16 (toFraction number))
  exact (Emits.writeBit _).andThen ((Emits.writeBit _).andThen ((Emits.writeBit _).andThen
    ((Emits.writeBit _).andThen ((hsize q.x).andThen ((hsize q.y).andThen (hsize q.z))))))

theorem writeMatrix_sends (m : Matrix3 Float) :
    Sends (writeMatrix m) (matrixFigures? m) RotationFigures.bits :=
  passing_sends _ (writeRotation_sends _)

def readRotationFigures : Decoder RotationFigures := do
  let w ← Decoder.readBit
  let signs ← Vec3.read Decoder.readBit
  let sizes ← Vec3.read (Mini.readInt .u16)
  pure ⟨⟨w, signs.x, signs.y, signs.z⟩, sizes⟩

theorem readRotation_eq :
    readRotation = (readRotationFigures >>= fun figures => pure figures.rotation) := by
  have hsizes : Vec3.read readFraction = _ :=
    Vec3.read_map (Mini.readInt .u16) RotationFigures.fraction
  unfold readRotation readRotationFigures
  rw [hsizes]
  simp only [bind_assoc, pure_bind]
  rfl

theorem readRotationFigures_takes (figures : RotationFigures) :
    Takes readRotationFigures figures (fixed figures.bits) := by
  obtain ⟨⟨w, x, y, z⟩, sizes⟩ := figures
  have hsigns : Takes (Vec3.read Decoder.readBit) ⟨x, y, z⟩
      (fixed (Vec3.bits (fun sign => [sign]) ⟨x, y, z⟩)) :=
    Vec3.read_takes Takes.readBit _
  have hsizes := Vec3.read_takes (Mini.readInt_takes .u16) sizes
  have hcode : (RotationFigures.mk ⟨w, x, y, z⟩ sizes).bits =
      [w] ++ (Vec3.bits (fun sign => [sign]) ⟨x, y, z⟩ ++ sizes.bits (Mini.intBits .u16)) := rfl
  rw [hcode, ← fixed_followedBy_fixed, ← fixed_followedBy_fixed]
  refine (Takes.readBit w).bind (hsigns.bind ?_)
  exact hsizes.map (RotationFigures.mk ⟨w, x, y, z⟩)

end Geometry

end BitCodec
