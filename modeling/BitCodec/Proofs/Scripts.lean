import BitCodec.Proofs.InStep

/-!
# Messages that branch on changes

A message can be described by one script for both directions, which transfers one field
after another and may look at the flag of each to see how to go on.  The receiver then
visits the fields that the sender visited, provided that both are given the same flags.

They are, with one exception.  A boolean travels without a presence bit, so the sender
counts it as changed whenever it is sent; the receiver compares it with what it holds.
When the boolean is what the receiver holds already, the sender goes on as for a change
and the receiver as for none.  Scripts that do not look at the flag in that case keep both
sides in step, and no others can be relied on to do so.
-/

namespace BitCodec

open Code

/-! ## Entries -/

/-- What one side or the other puts into a transfer. -/
def Direction.pick {α : Type} (direction : Direction) (sent held : α) : α :=
  match direction with
  | .encode => sent
  | .decode => held

/-- A field of a message: the value that is sent, and what the receiver holds before.  For
a changed value that is the last one.  Bits go from one buffer to another of its size. -/
inductive Entry where
  | plain (t : Prim) (v held : t.Value)
  | mini (t : Prim) (v held : t.Value)
  | changed (form : Form) (t : Prim) (v last : t.Value)
  | casted (wire t : IntType) (v held : t.Value)
  | ranged (t : IntType) (v held min max : t.Value) (escape : Bool)
  | rangedFloat (t : FloatType) (v held min max : t.Value)
  | unitVector (t : FloatType) (v held : Vec3 t.Value)
  | vector (t : FloatType) (v held : Vec3 t.Value)
  | rotation (t : FloatType) (v held : Quaternion t.Value)
  | matrix (t : FloatType) (v held : Matrix3 t.Value)
  | bits (source held : List UInt8) (count : Nat) (room : held.length = source.length)

namespace Entry

def field (direction : Direction) : Entry → Field
  | plain t v held => .plain t (direction.pick v held)
  | mini t v held => .mini t (direction.pick v held)
  | changed form t v last => .changed form t (direction.pick v last) last
  | casted wire t v held => .casted wire t (direction.pick v held)
  | ranged t v held min max escape => .ranged t (direction.pick v held) min max escape
  | rangedFloat t v held min max => .rangedFloat t (direction.pick v held) min max
  | unitVector t v held => .unitVector t (direction.pick v held)
  | vector t v held => .vector t (direction.pick v held)
  | rotation t v held => .rotation t (direction.pick v held)
  | matrix t v held => .matrix t (direction.pick v held)
  | bits source held count _ => .bits (direction.pick source held) count

/-- A boolean that is what the receiver holds already. -/
def restated : Entry → Bool
  | changed _ .bool v last => v == last
  | _ => false

/-- What the receiver is told when the sender is told this. -/
def heard (e : Entry) (flag : Option Bool) : Option Bool :=
  if e.restated then some false else flag

/-- The two transfers of an entry are in step. -/
def TransfersInStep (e : Entry) : Prop :=
  Refuses ((e.field .encode).transfer .encode) ∨
    ∃ after got flag bits,
      Emits ((e.field .encode).transfer .encode) (after, flag) (fixed bits) ∧
      Receives ((e.field .decode).transfer .decode) (got, e.heard flag) (fixed bits) ∧
      (e.restated = true → flag = some true)

end Entry

theorem Field.along_inStep {α : Type} {sending receiving : Codec α} {v : α}
    (h : InStep (sending.write v) receiving.read) (held : α) (answer : α → Answer) :
    Refuses (along sending .encode v answer) ∨
      ∃ got bits, Emits (along sending .encode v answer) (answer v, none) (fixed bits) ∧
        Receives (along receiving .decode held answer) (answer got, none) (fixed bits) := by
  rcases h with hrefused | ⟨got, bits, hwrite, hread⟩
  · exact .inl (hrefused.of_map fun s => by rw [along_encode])
  · exact .inr ⟨got, bits, along_emits hwrite answer, along_receives hread held answer⟩

namespace Entry

theorem of_along {α : Type} {e : Entry} {sending receiving : Codec α} {v held : α}
    {answer : α → Answer} (hplain : e.restated = false)
    (hencode : (e.field .encode).transfer .encode = Field.along sending .encode v answer)
    (hdecode : (e.field .decode).transfer .decode = Field.along receiving .decode held answer)
    (h : InStep (sending.write v) receiving.read) : e.TransfersInStep := by
  unfold TransfersInStep heard
  rw [hencode, hdecode, hplain]
  rcases Field.along_inStep h held answer with hrefused | ⟨got, bits, hemits, hreceives⟩
  · exact .inl hrefused
  · exact .inr ⟨answer v, answer got, none, bits, hemits, hreceives, nofun⟩

theorem changed_inStep (form : Form) (t : Prim) (v last : t.Value) :
    (changed form t v last).TransfersInStep := by
  rcases Changed.inStep form t v last with hrefused | ⟨now, bits, hwrite, hread⟩
  · exact .inl (hrefused.of_map fun s => by
      rw [field, Direction.pick, Changed.field_encode])
  refine .inr ⟨.value t v, .value t now, some (t.direct || !t.same v last), bits,
    Changed.field_encode_emits hwrite, ?_, ?_⟩
  · have hreceives := Changed.field_decode_receives hread last
    have hheard : (changed form t v last).heard (some (t.direct || !t.same v last)) =
        some (!t.same v last) := by
      cases t with
      | bool =>
        have hsame : Prim.bool.same v last = (v == last) := rfl
        unfold heard restated
        cases hrestated : (v == last) <;> simp [hsame, hrestated, Prim.direct]
      | int _ | float _ | u24 | address => rfl
    rw [hheard]
    exact hreceives
  · intro hrestated
    cases t with
    | bool => rfl
    | int _ | float _ | u24 | address => cases hrestated

theorem inStep (e : Entry) : e.TransfersInStep := by
  cases e with
  | plain t v held => exact of_along rfl rfl rfl (Form.plain.inStep t v)
  | mini t v held => exact of_along rfl rfl rfl (Form.mini.inStep t v)
  | changed form t v last => exact changed_inStep form t v last
  | casted wire t v held => exact of_along rfl rfl rfl (IntType.casted_inStep wire t v)
  | ranged t v held min max escape =>
    exact of_along rfl rfl rfl (Ranged.int_inStep t v min max escape)
  | rangedFloat t v held min max =>
    exact of_along rfl rfl rfl ((Ranged.number_inStep _ _ _).map t.ofFloat)
  | unitVector t v held =>
    exact of_along rfl rfl rfl ((Geometry.unitVector_inStep _).map (Vec3.map t.ofFloat))
  | vector t v held =>
    exact of_along rfl rfl rfl ((Geometry.vector_inStep t _).map (Vec3.map t.ofFloat))
  | rotation t v held =>
    exact of_along rfl rfl rfl ((Geometry.rotation_inStep _).map (Quaternion.map t.ofFloat))
  | matrix t v held =>
    exact of_along rfl rfl rfl ((Geometry.matrix_inStep _).map (Vec3.map (Vec3.map t.ofFloat)))
  | bits source held count room =>
    exact of_along rfl (Field.transfer_bits .encode source count)
      (Field.transfer_bits .decode held count) (bits_inStep room count)

end Entry

/-! ## Scripts -/

/-- The fields of a message, each with what comes behind it once its flag is known. -/
inductive Script where
  | finish
  | entry (e : Entry) (next : Option Bool → Script)

/-- An entry that was transferred, and the flag that the script was given for it. -/
structure Visit where
  entry : Entry
  flag : Option Bool

/-- The visit as the receiver makes it. -/
def Visit.heard (v : Visit) : Visit :=
  { v with flag := v.entry.heard v.flag }

namespace Script

/-- Transfer the entries one after another; the first failure ends the script. -/
def run (direction : Direction) : Script → Encoder (List Visit)
  | finish => pure []
  | entry e next => do
    let (_, flag) ← (e.field direction).transfer direction
    let later ← (next flag).run direction
    pure (⟨e, flag⟩ :: later)

/-- Nothing depends on the flag of a boolean that is restated. -/
def IgnoresRestated : Script → Prop
  | finish => True
  | entry e next =>
    (e.restated = true → next (some true) = next (some false)) ∧
      ∀ flag, (next flag).IgnoresRestated

theorem inStep {script : Script} (h : script.IgnoresRestated) :
    Refuses (script.run .encode) ∨
      ∃ visits bits, Emits (script.run .encode) visits (fixed bits) ∧
        Receives (script.run .decode) (visits.map Visit.heard) (fixed bits) := by
  induction script with
  | finish =>
    have hnothing : Takes (pure [] : Decoder (List Visit)) [] (fixed []) := Takes.pure []
    exact .inr ⟨[], [], Emits.pure [], hnothing.receives⟩
  | entry e next ih =>
    obtain ⟨hignored, hlater⟩ := h
    rcases e.inStep with hrefused | ⟨after, got, flag, bits, hemits, hreceives, hflag⟩
    · exact .inl hrefused.bind
    -- Both sides go on with the same script, whatever they were told.
    have hsame : next (e.heard flag) = next flag := by
      unfold Entry.heard
      cases hrestated : e.restated with
      | false => rfl
      | true =>
        rw [hflag hrestated]
        exact (hignored hrestated).symm
    rcases ih flag (hlater flag) with hrefused | ⟨visits, more, hemitsLater, hreceivesLater⟩
    · exact .inl (hemits.refuses hrefused.bind)
    refine .inr ⟨⟨e, flag⟩ :: visits, bits ++ more, ?_, ?_⟩
    · rw [run, ← fixed_followedBy_fixed]
      refine hemits.bind ?_
      exact hemitsLater.map fun later => (⟨e, flag⟩ :: later : List Visit)
    · rw [run, ← fixed_followedBy_fixed]
      refine hreceives.bind ?_
      dsimp only
      rw [hsame]
      exact hreceivesLater.map fun later => (⟨e, e.heard flag⟩ :: later : List Visit)

/-- Whatever was done with a stream before, when the sender's run of a script that ignores
restated booleans succeeds on it, it appends some bits.  In front of these bits, on
whatever stream, the receiver's run of the script succeeds, visits the same entries, is
given the same flags but for restated booleans, and moves exactly behind the bits. -/
theorem decoding_follows_encoding {slot : Slot} (hslot : slot.Reached) {s : Stream}
    (hstream : slot.stream? = some s) {script : Script} (hscript : script.IgnoresRestated)
    {visits : List Visit} (hsent : (script.run .encode s).ending = .value visits) :
    ∃ bits, s.Grown bits (script.run .encode s).state ∧
      Receives (script.run .decode) (visits.map Visit.heard) (fixed bits) := by
  have hs := hslot.sound.stream hstream
  rcases inStep hscript with hrefused | ⟨sent, bits, hemits, hreceives⟩
  · exact absurd hsent (hrefused hs visits)
  obtain ⟨s', effects, hrun, hgrown⟩ := hemits hs
  rw [hrun] at hsent
  cases hsent
  refine ⟨bits, ?_, hreceives⟩
  rw [hrun]
  exact hgrown

set_option maxRecDepth 20000 in
/-- A score that is sent when a health changed, and a flag that stays as it was. -/
theorem decoding_follows_encoding_score :
    let script : Script := .entry (.changed .plain (.int .u16) 300 7) fun flag =>
      .entry (.changed .mini .bool true true) fun _ =>
        if flag = some true then .entry (.mini (.int .u32) 12 0) fun _ => .finish else .finish
    let visits : List Visit := [⟨.changed .plain (.int .u16) 300 7, some true⟩,
      ⟨.changed .mini .bool true true, some true⟩, ⟨.mini (.int .u32) 12 0, none⟩]
    (Slot.owned Stream.empty).Reached ∧ script.IgnoresRestated ∧
      (script.run .encode Stream.empty).ending = .value visits ∧
      ∃ bits, Stream.empty.Grown bits (script.run .encode Stream.empty).state ∧
        Receives (script.run .decode) (visits.map Visit.heard) (fixed bits) := by
  intro script visits
  have hscript : script.IgnoresRestated := by
    refine ⟨nofun, fun flag => ⟨fun _ => rfl, fun _ => ?_⟩⟩
    by_cases hflag : flag = some true
    · rw [if_pos hflag]
      exact ⟨nofun, fun _ => trivial⟩
    · rw [if_neg hflag]
      trivial
  have hsent : (script.run .encode Stream.empty).ending = .value visits := rfl
  exact ⟨Slot.reached_empty, hscript, hsent,
    decoding_follows_encoding Slot.reached_empty rfl hscript hsent⟩

/-- A boolean that is sent as it was: the sender goes on as for a change and the receiver
as for none, so that a byte is left over. -/
theorem restated_boolean_diverges :
    let script : Script := .entry (.changed .plain .bool true true) fun flag =>
      if flag = some true then .entry (.plain (.int .u8) 5 0) fun _ => .finish else .finish
    let sent := script.run .encode Stream.empty
    let received := script.run .decode sent.state
    sent.ending.map (List.map Visit.flag) = .value [some true, none] ∧
      received.ending.map (List.map Visit.flag) = .value [some false] ∧
      received.state.cursor = ⟨9, 1⟩ := by
  decide +kernel

end Script

end BitCodec
