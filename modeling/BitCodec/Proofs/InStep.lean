import BitCodec.Proofs.GeometryCodes

/-!
# Writers and readers in step

Not every codec gives a value back as it was, and not every value has a code.  What holds
of all codecs that a transfer can use is that the two halves stay in step: either the
writer refuses the value, or it emits some bits and the reader takes exactly these, for
whatever it makes of them.

For the codecs without loss the two halves are known, and geometric values are known by the
figures that they send.  Values that have no code are refused before a bit of them is written,
but for a changed value: one that repeats the last is not looked at.
-/

namespace BitCodec

open Code

/-! ## Halves in step -/

/-- Either the writer refuses, or the reader takes the bits that it emits. -/
def InStep {α : Type} (writer : Encoder Unit) (reader : Decoder α) : Prop :=
  Refuses writer ∨ ∃ a bits, Emits writer () (fixed bits) ∧ Takes reader a (fixed bits)

namespace InStep

variable {α β : Type} {writer : Encoder Unit} {reader : Decoder α} {a : α} {bits : List Bool}

theorem of_codes (hwrite : Emits writer () (fixed bits)) (hread : Takes reader a (fixed bits)) :
    InStep writer reader :=
  .inr ⟨a, bits, hwrite, hread⟩

theorem of_fail (e : Failure) : InStep (Action.fail e) reader :=
  .inl (Refuses.fail e)

/-- A reader that takes the figures that are sent is in step with their writer. -/
theorem of_sends {γ : Type} {sent : Option γ} {code : γ → List Bool} {collect : Decoder γ}
    (h : Sends writer sent code)
    (hread : ∀ figures, sent = some figures → Takes collect figures (fixed (code figures))) :
    InStep writer collect := by
  cases sent with
  | none => exact .inl h
  | some figures => exact of_codes h (hread figures rfl)

protected theorem map (h : InStep writer reader) (f : α → β) :
    InStep writer (reader >>= fun a => pure (f a)) := by
  rcases h with hrefused | ⟨a, bits, hwrite, hread⟩
  · exact .inl hrefused
  · exact of_codes hwrite (hread.map f)

end InStep

/-! ## Codecs of values -/

open InStep

namespace Form

variable {form : Form} {t : Prim} {value : t.Value}

theorem write_refuses {e : Failure} (h : form.check t value = .error e) :
    Refuses (form.write t value) := by
  cases form with
  | plain => cases h
  | mini =>
    cases t with
    | float f =>
      have hmap : (Mini.nearUnit (f.toFloat value)).map (fun _ => ()) = .error e := h
      have hwrite : Form.mini.write (.float f) value = Mini.writeFloat f value := rfl
      rw [hwrite, Mini.writeFloat]
      cases hunit : Mini.nearUnit (f.toFloat value) with
      | ok unit =>
        rw [hunit] at hmap
        cases hmap
      | error e => exact Refuses.fail e
    | int _ | bool | u24 | address => cases h

theorem inStep (form : Form) (t : Prim) (value : t.Value) :
    InStep (form.write t value) (form.read t) := by
  cases hcheck : form.check t value with
  | ok _ => exact of_codes (write_emits hcheck) (read_takes hcheck)
  | error e => exact .inl (write_refuses hcheck)

end Form

theorem IntType.toInt_of_ofInt? {t : IntType} {number : Int} {value : t.Value}
    (h : t.ofInt? number = some value) : t.toInt value = number := by
  simp only [ofInt?] at h
  split at h
  · next heq =>
    cases h
    exact heq
  · cases h

theorem IntType.casted_inStep (wire t : IntType) (value : t.Value) :
    InStep (writeCasted wire t value) (readCasted wire t) := by
  cases hnarrow : wire.ofInt? (t.toInt value) with
  | none =>
    unfold writeCasted
    rw [hnarrow]
    exact of_fail _
  | some narrowed =>
    have hfits : Fits wire t value := ⟨narrowed, toInt_of_ofInt? hnarrow⟩
    exact of_codes (writeCasted_emits hfits) (readCasted_takes hfits)

namespace Ranged

theorem int_inStep (t : IntType) (value min max : t.Value) (escape : Bool) :
    InStep (write t value min max escape) (read t min max escape) := by
  by_cases hsendable : Sendable t value min max escape
  · exact of_codes (write_emits hsendable) (read_takes hsendable)
  refine .inl ?_
  unfold write
  by_cases hordered : t.toInt min ≤ t.toInt max
  · have hinside : IntRange.contains ⟨min, max, hordered⟩ value = false := by
      refine Bool.eq_false_iff.mpr fun hinside => hsendable ⟨hordered, .inr ?_⟩
      exact IntRange.le_of_contains hinside
    have hescape : escape = false := Bool.eq_false_iff.mpr fun hescape =>
      hsendable ⟨hordered, .inl hescape⟩
    rw [between_ok hordered, hescape]
    unfold IntRange.write
    simp only [hinside]
    exact Refuses.fail _
  · unfold IntRange.between
    rw [dif_neg hordered]
    exact Refuses.fail _

theorem number_inStep (number low high : Float) :
    InStep (writeNumber number low high) (readNumber low high) := by
  rw [readNumber_eq]
  exact (of_sends (writeNumber_sends number low high) fun step hstep =>
    readStep_takes (lt_of_step? hstep) step).map _

end Ranged

theorem bits_inStep {source held : List UInt8} (hheld : held.length = source.length)
    (count : Nat) :
    InStep (Stream.writeBits source count true) (Decoder.readBits held count true) := by
  by_cases hsource : bytesOfBits count ≤ source.length
  · exact of_codes (Emits.writeBits true hsource)
      (Item.readBits_takes true hsource (by rw [hheld]; exact hsource))
  · refine .inl ?_
    unfold Stream.writeBits
    rw [decide_eq_false hsource]
    exact Refuses.bind fun _ _ _ => nofun

/-! ## Vectors and rotations -/

namespace Geometry

theorem unitVector_inStep (v : Vec3 Float) : InStep (writeUnitVector v) readUnitVector := by
  rw [readUnitVector_eq]
  exact (of_sends (writeUnitVector_sends v) fun figures _ => readUnitFigures_takes figures).map _

theorem vector_inStep (t : FloatType) (v : Vec3 Float) :
    InStep (writeVector t v) (readVector t) := by
  rw [readVector_eq]
  exact (of_sends (writeVector_sends t v) fun _ hfigures =>
    readVectorFigures_takes (alone_iff hfigures).2).map _

theorem rotation_inStep (q : Quaternion Float) : InStep (writeRotation q) readRotation := by
  rw [readRotation_eq]
  exact (of_sends (writeRotation_sends q) fun figures _ => readRotationFigures_takes figures).map _

theorem matrix_inStep (m : Matrix3 Float) : InStep (writeMatrix m) readMatrix := by
  have hrotation : InStep (writeMatrix m) readRotation := by
    rw [readRotation_eq]
    exact (of_sends (writeMatrix_sends m) fun figures _ => readRotationFigures_takes figures).map _
  exact hrotation.map matrixOf

end Geometry

/-! ## Changed values -/

theorem Prim.lossless_of_direct {t : Prim} (h : t.direct = true) : Mini.Lossless t := by
  intro f hfloat
  rw [hfloat] at h
  cases h

namespace Changed

variable {form : Form} {t : Prim} {value last : t.Value}

/-- A receiver that holds the last value is told of a change when the sender sees one. -/
theorem updated_flag (form : Form) (t : Prim) (value last : t.Value) :
    (updated form t value (t.same value last) last).1 = !t.same value last := by
  unfold updated
  by_cases hdirect : t.direct = true
  · rw [if_pos hdirect, Form.arrived_eq (Prim.lossless_of_direct hdirect),
      Prim.arrived_of_direct hdirect]
  · rw [if_neg hdirect]
    cases t.same value last <;> rfl

theorem write_refuses {e : Failure} (hcheck : form.check t value = .error e)
    (hsame : t.same value last = false) : Refuses (write form t value last) := by
  unfold write writeAlways
  by_cases hdirect : t.direct = true
  · rw [if_pos hdirect]
    exact Form.write_refuses hcheck
  · rw [if_neg hdirect, if_neg hdirect, hsame, hcheck]
    exact Refuses.fail e

theorem inStep (form : Form) (t : Prim) (value last : t.Value) :
    Refuses (write form t value last) ∨
      ∃ now bits, Emits (write form t value last) () (fixed bits) ∧
        Takes (received form t last) (!t.same value last, now) (fixed bits) := by
  cases hcheck : form.check t value with
  | ok _ =>
    have htakes := received_takes hcheck (t.same value last) last
    refine .inr ⟨(updated form t value (t.same value last) last).2, _, write_emits hcheck, ?_⟩
    rwa [← updated_flag form]
  | error e =>
    cases hsame : t.same value last with
    | false => exact .inl (write_refuses hcheck hsame)
    | true =>
      -- A value without a code is not looked at when it is the last one.
      have hdirect : t.direct = false := by
        refine Bool.eq_false_iff.mpr fun hdirect => ?_
        rw [Form.check_ok (Prim.lossless_of_direct hdirect)] at hcheck
        cases hcheck
      refine .inr ⟨last, [false], ?_, received_same form hdirect last⟩
      rw [write_same form hsame hdirect]
      exact Emits.writeBit false

end Changed

end BitCodec
