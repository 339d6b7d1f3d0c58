import BitCodec.Proofs.RoundTrip

/-!
# The codes of changed values

What a changed value puts on the wire depends on whether the sender finds that it
repeats the last one.  Its reader knows the value it holds instead, and what it makes of
the code depends on that.

A float in its mini code arrives as the nearest fixed-point number, every other value
arrives as from its fixed form.
-/

namespace BitCodec

open Code

/-! ## Floats in fixed point -/

namespace Mini

/-- The bits of a float that has a mini code. -/
def fixedBits (t : FloatType) (value : t.Value) : List Bool :=
  match nearUnit (t.toFloat value) with
  | .ok unit => intBits (carrier t) (BitVec.ofNat (carrier t).bits (toFixed t unit))
  | .error _ => []

/-- What becomes of a float on the wire; one without a mini code is not sent. -/
def quantized (t : FloatType) (value : t.Value) : t.Value :=
  match nearUnit (t.toFloat value) with
  | .ok unit => ofFixed t (BitVec.ofNat (carrier t).bits (toFixed t unit)).toNat
  | .error _ => value

theorem nearUnit_of_check {t : FloatType} {value : t.Value}
    (h : check (.float t) value = .ok ()) : ∃ unit, nearUnit (t.toFloat value) = .ok unit := by
  have hmap : (nearUnit (t.toFloat value)).map (fun _ => ()) = .ok () := h
  cases hunit : nearUnit (t.toFloat value) with
  | ok unit => exact ⟨unit, rfl⟩
  | error e =>
    rw [hunit] at hmap
    cases hmap

theorem writeFloat_emits {t : FloatType} {value : t.Value}
    (h : check (.float t) value = .ok ()) :
    Emits (writeFloat t value) () (fixed (fixedBits t value)) := by
  obtain ⟨unit, hunit⟩ := nearUnit_of_check h
  unfold writeFloat fixedBits
  rw [hunit]
  exact writeInt_emits _ _

theorem readFloat_takes {t : FloatType} {value : t.Value}
    (h : check (.float t) value = .ok ()) :
    Takes (readFloat t) (quantized t value) (fixed (fixedBits t value)) := by
  obtain ⟨unit, hunit⟩ := nearUnit_of_check h
  unfold quantized fixedBits
  rw [hunit]
  exact (readInt_takes (carrier t) _).map fun fixed => ofFixed t fixed.toNat

end Mini

/-! ## Both forms -/

namespace Form

def wireBits : Form → (t : Prim) → t.Value → List Bool
  | .plain, t, value => t.wireBits value
  | .mini, .float t, value => Mini.fixedBits t value
  | .mini, t, value => Mini.wireBits t value

/-- What the receiver makes of a value. -/
def arrived : Form → (t : Prim) → t.Value → t.Value
  | .plain, t, value => t.arrived value
  | .mini, .float t, value => Mini.quantized t value
  | .mini, t, value => t.arrived value

variable {form : Form} {t : Prim} {value : t.Value}

theorem arrived_eq (h : Mini.Lossless t) : form.arrived t value = t.arrived value := by
  cases form with
  | plain => rfl
  | mini =>
    cases t with
    | float f => exact absurd rfl (h f)
    | _ => rfl

theorem check_ok (h : Mini.Lossless t) : form.check t value = .ok () := by
  cases form with
  | plain => rfl
  | mini =>
    cases t with
    | float f => exact absurd rfl (h f)
    | _ => rfl

theorem write_emits (h : form.check t value = .ok ()) :
    Emits (form.write t value) () (fixed (form.wireBits t value)) := by
  cases form with
  | plain => exact t.write_emits value
  | mini =>
    cases t with
    | float f => exact Mini.writeFloat_emits h
    | int t | bool | u24 | address => exact Mini.write_emits (fun f hfloat => by cases hfloat) value

theorem read_takes (h : form.check t value = .ok ()) :
    Takes (form.read t) (form.arrived t value) (fixed (form.wireBits t value)) := by
  cases form with
  | plain => exact t.read_takes value
  | mini =>
    cases t with
    | float f => exact Mini.readFloat_takes h
    | int t | bool | u24 | address => exact Mini.read_takes (fun f hfloat => by cases hfloat) value

end Form

/-! ## Changed values -/

namespace Changed

/-- A value that repeats the last one is a zero bit, another one follows a one bit; a
boolean goes alone. -/
def wireBits (form : Form) (t : Prim) (value : t.Value) (repeated : Bool) : List Bool :=
  if t.direct then form.wireBits t value
  else if repeated then [false]
  else true :: form.wireBits t value

/-- Whether the receiver is told of a change, and what it holds then. -/
def updated (form : Form) (t : Prim) (value : t.Value) (repeated : Bool) (held : t.Value) :
    Bool × t.Value :=
  if t.direct then (!t.same (form.arrived t value) held, form.arrived t value)
  else if repeated then (false, held)
  else (true, form.arrived t value)

variable {form : Form} {t : Prim} {value last : t.Value}

theorem fixed_cons (bit : Bool) (bits : List Bool) :
    fixed (bit :: bits) = (fixed [bit]).followedBy (fixed bits) := rfl

theorem writeAlways_emits (h : form.check t value = .ok ()) :
    Emits (writeAlways form t value) () (fixed (wireBits form t value false)) := by
  unfold writeAlways wireBits
  by_cases hdirect : t.direct = true
  · rw [if_pos hdirect, if_pos hdirect]
    exact Form.write_emits h
  · rw [if_neg hdirect, if_neg hdirect, if_neg Bool.false_ne_true, h, fixed_cons]
    exact (Emits.writeBit true).bind (Form.write_emits h)

theorem write_emits (h : form.check t value = .ok ()) :
    Emits (write form t value last) () (fixed (wireBits form t value (t.same value last))) := by
  have halways := writeAlways_emits h
  unfold write wireBits at *
  by_cases hdirect : t.direct = true
  · rw [if_pos hdirect, if_pos hdirect]
    exact Form.write_emits h
  · rw [if_neg hdirect] at halways ⊢
    rw [if_neg hdirect]
    cases hsame : t.same value last with
    | true => exact Emits.writeBit false
    | false => exact halways

/-- A value that repeats the last one is a zero bit, and is not checked. -/
theorem write_same (form : Form) (hsame : t.same value last = true) (hdirect : t.direct = false) :
    write form t value last = Stream.writeBit false := by
  have hindirect : ¬t.direct = true := by
    rw [hdirect]
    exact Bool.false_ne_true
  unfold write
  rw [if_neg hindirect, if_pos hsame]

/-- A zero bit leaves what is held as it is. -/
theorem received_same (form : Form) (hdirect : t.direct = false) (held : t.Value) :
    Takes (received form t held) (false, held) (fixed [false]) := by
  have hindirect : ¬t.direct = true := by
    rw [hdirect]
    exact Bool.false_ne_true
  unfold received
  rw [if_neg hindirect, ← followedBy_none (fixed _)]
  exact (Takes.readBit false).bind (Takes.pure (false, held))

theorem received_takes (h : form.check t value = .ok ()) (repeated : Bool) (held : t.Value) :
    Takes (received form t held) (updated form t value repeated held)
      (fixed (wireBits form t value repeated)) := by
  unfold updated wireBits
  by_cases hdirect : t.direct = true
  · unfold received
    rw [if_pos hdirect, if_pos hdirect, if_pos hdirect]
    exact (Form.read_takes h).map fun arrived => (!t.same arrived held, arrived)
  · rw [if_neg hdirect, if_neg hdirect]
    cases repeated with
    | true => exact received_same form (Bool.eq_false_iff.mpr hdirect) held
    | false =>
      unfold received
      rw [if_neg hdirect, if_neg Bool.false_ne_true, if_neg Bool.false_ne_true, fixed_cons]
      refine (Takes.readBit true).bind ?_
      exact (Form.read_takes h).map fun arrived => (true, arrived)

/-! ### Transfers of changed values -/

theorem field_encode_emits {code : Code} (h : Emits (write form t value last) () code) :
    Emits ((Field.changed form t value last).transfer .encode)
      (.value t value, some (t.direct || !t.same value last)) code := by
  intro s hs
  obtain ⟨s', effects, hrun, hgrown⟩ := h hs
  refine ⟨s', effects, ?_, hgrown⟩
  rw [field_encode, hrun]
  rfl

/-- In front of its code a changed value is received into the destination beside the
stream. -/
theorem receive_run {held : t.Value} {flag : Bool} {now : t.Value} {code : Code}
    (h : Takes (received form t held) (flag, now) code) {s : Stream} {rest : List Bool}
    (hs : s.Sound) (hunread : s.unread = code s.cursor.read ++ rest) :
    receive form t (s, held) =
      ⟨.value flag, (s.readOn (code s.cursor.read).length, now), []⟩ := by
  rw [Stream.unread, ← Stream.payload_string] at hunread
  have hrun := h hs.payload hs.read_le hunread
  unfold receive Action.onPart
  rw [read_run, hrun]
  rfl

theorem field_decode_receives {held : t.Value} {flag : Bool} {now : t.Value} {code : Code}
    (h : Takes (received form t held) (flag, now) code) (last : t.Value) :
    Receives ((Field.changed form t held last).transfer .decode) (.value t now, some flag)
      code := by
  intro s rest hs hunread
  have hreceive : transfer form t last .decode (s, held) =
      ⟨.value flag, (s.readOn (code s.cursor.read).length, now), []⟩ :=
    receive_run h hs hunread
  have hrun := Field.exchange_run held (transfer form t last .decode)
    (fun u => (Answer.value t u.2, some u.1)) s
  rw [hreceive] at hrun
  exact hrun

end Changed

end BitCodec
