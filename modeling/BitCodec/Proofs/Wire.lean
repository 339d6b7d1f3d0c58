import BitCodec.Proofs.Writing

/-!
# What goes over the wire

A `Code` is a string of bits that may depend on the position it begins at, as padding
does.  A writer emits a code when it appends exactly that string wherever it starts.
A reader takes a code for a value when, in front of the string and whatever follows
it, it gives the value and moves to the end of the string.

Both notions follow the way operations are put together, so a codec that is put
together in the same way on both sides is read back by matching its parts.
-/

namespace BitCodec

/-- A string of bits, given the position it begins at. -/
def Code : Type :=
  Nat → List Bool

namespace Code

def fixed (bits : List Bool) : Code :=
  fun _ => bits

def none : Code :=
  fixed []

def followedBy (first second : Code) : Code := fun pos =>
  first pos ++ second (pos + (first pos).length)

def padding : Code :=
  Stream.padding

/-- An aligned block; an empty one is not aligned. -/
def block (bytes : List UInt8) : Code :=
  if bytes = [] then none else padding.followedBy (fixed (Bits.ofBytes bytes))

theorem fixed_followedBy_fixed (first second : List Bool) :
    (fixed first).followedBy (fixed second) = fixed (first ++ second) := rfl

theorem followedBy_none (code : Code) : code.followedBy none = code := by
  funext pos
  exact List.append_nil _

theorem none_followedBy (code : Code) : none.followedBy code = code := rfl

/-- Behind padding no more padding is needed. -/
theorem padding_followedBy_block {bytes : List UInt8} (h : bytes ≠ []) :
    padding.followedBy (block bytes) = block bytes := by
  funext pos
  have hend : pos + (padding pos).length = alignUp pos := Stream.add_padding pos
  have hnone : padding (alignUp pos) = [] := by
    have hgap : alignUp (alignUp pos) - alignUp pos = 0 := by
      unfold alignUp
      omega
    rw [padding, Stream.padding, hgap]
    rfl
  simp only [block, if_neg h, followedBy, hend, hnone, List.nil_append]
  rfl

theorem le_length_block (bytes : List UInt8) (pos : Nat) :
    8 * bytes.length ≤ (block bytes pos).length := by
  unfold block
  split
  · next h => simp [h]
  · simp [followedBy, fixed]

end Code

/-! ## Writers -/

/-- The writer ends with a value and appends the code, from any sound stream. -/
def Emits {α : Type} (body : Encoder α) (a : α) (code : Code) : Prop :=
  ∀ ⦃s : Stream⦄, s.Sound →
    ∃ s' effects, body s = ⟨.value a, s', effects⟩ ∧ s.Grown (code s.cursor.write) s'

namespace Emits

variable {α β : Type} {body : Encoder α} {next : α → Encoder β} {a : α} {b : β}
  {first second code : Code}

protected theorem pure (a : α) : Emits (pure a : Encoder α) a .none :=
  fun s hs => ⟨s, [], rfl, Stream.Grown.refl hs⟩

protected theorem emit (effect : Effect) : Emits (Action.emit effect) () .none :=
  fun s hs => ⟨s, [effect], rfl, Stream.Grown.refl hs⟩

protected theorem bind (h : Emits body a first) (hnext : Emits (next a) b second) :
    Emits (body >>= next) b (first.followedBy second) := by
  intro s hs
  obtain ⟨s₁, effects₁, hrun₁, hgrown₁⟩ := h hs
  obtain ⟨s₂, effects₂, hrun₂, hgrown₂⟩ := hnext hgrown₁.sound
  rw [hgrown₁.write_eq] at hgrown₂
  refine ⟨s₂, effects₁ ++ effects₂, ?_, hgrown₁.trans hgrown₂⟩
  rw [Action.bind_trace hrun₁, hrun₂]

/-- One writer behind another that has no value to go on with. -/
theorem andThen {front : Encoder Unit} {rest : Encoder β} (h : Emits front () first)
    (hrest : Emits rest b second) : Emits (front >>= fun _ => rest) b (first.followedBy second) :=
  h.bind hrest

protected theorem map (h : Emits body a code) (f : α → β) :
    Emits (body >>= fun a => pure (f a)) (f a) code := by
  have hbind : Emits (body >>= fun a => pure (f a)) (f a) (code.followedBy .none) :=
    h.bind (Emits.pure (f a))
  rwa [Code.followedBy_none] at hbind

theorem of_appends {body : Encoder Unit} {code : Code}
    (h : ∀ s : Stream, s.Sound → Stream.Appends body s (code s.cursor.write)) :
    Emits body () code := by
  intro s hs
  obtain ⟨s', hrun, hext⟩ := h s hs
  exact ⟨s', _, hrun, hext.grown hs⟩

protected theorem writeBits {source : List UInt8} {bits : Nat} (right : Bool)
    (h : bytesOfBits bits ≤ source.length) :
    Emits (Stream.writeBits source bits right) () (.fixed (Bits.taken source bits right)) :=
  of_appends fun _ hs => Stream.writeBits_run hs right h

protected theorem writeBytes (source : List UInt8) :
    Emits (Stream.writeBits source (8 * source.length) true) () (.fixed (Bits.ofBytes source)) :=
  of_appends fun _ hs => Stream.writeBytes_run hs source

protected theorem writeBit (bit : Bool) : Emits (Stream.writeBit bit) () (.fixed [bit]) :=
  of_appends fun _ hs => Stream.writeBit_run hs bit

protected theorem align : Emits Stream.align () .padding :=
  of_appends fun _ hs => Stream.align_run hs

protected theorem writeAlignedBytes (source : List UInt8) :
    Emits (Stream.writeAlignedBytes source) () (.block source) := by
  by_cases h : source = []
  · subst h
    exact Emits.pure ()
  · rw [Code.block, if_neg h]
    exact fun _ hs => Stream.writeAlignedBytes_run hs h

end Emits

/-! ## Writers that refuse -/

/-- The writer does not end with a value, whatever sound stream it is given. -/
def Refuses {α : Type} (body : Encoder α) : Prop :=
  ∀ ⦃s : Stream⦄, s.Sound → ∀ a, (body s).ending ≠ .value a

namespace Refuses

variable {α β : Type} {body : Encoder α} {next : α → Encoder β} {a : α} {code : Code}

protected theorem fail (e : Failure) : Refuses (Action.fail e : Encoder α) :=
  fun _ _ _ => nofun

protected theorem bind (h : Refuses body) : Refuses (body >>= next) := by
  intro s hs b hended
  rcases hrun : body s with ⟨ending, s', effects⟩
  cases ending with
  | value a =>
    have hvalue : (body s).ending = .value a := by rw [hrun]
    exact h hs a hvalue
  | failed e =>
    rw [Action.bind_failed hrun] at hended
    cases hended
  | broken c =>
    rw [Action.bind_broken hrun] at hended
    cases hended

/-- What runs as another writer does, but for what is made of the value. -/
theorem of_map {other : Encoder β} {f : α → β} (h : Refuses body)
    (hrun : ∀ s, (other s).ending = (body s).ending.map f) : Refuses other := by
  intro s hs b hended
  rw [hrun] at hended
  cases hbody : (body s).ending with
  | value a => exact h hs a hbody
  | failed e =>
    rw [hbody] at hended
    cases hended
  | broken c =>
    rw [hbody] at hended
    cases hended

end Refuses

theorem Emits.refuses {α β : Type} {body : Encoder α} {next : α → Encoder β} {a : α} {code : Code}
    (h : Emits body a code) (hnext : Refuses (next a)) : Refuses (body >>= next) := by
  intro s hs b hended
  obtain ⟨s', effects, hrun, hgrown⟩ := h hs
  rw [Action.bind_trace hrun] at hended
  exact hnext hgrown.sound b hended

/-! ## Readers -/

/-- In front of the code, the reader gives the value and moves behind the code. -/
def Takes {α : Type} (body : Decoder α) (a : α) (code : Code) : Prop :=
  ∀ ⦃p : Payload⦄ ⦃pos : Nat⦄ ⦃rest : List Bool⦄, p.Sound → pos ≤ p.bits →
    p.string.drop pos = code pos ++ rest →
      body p pos = ⟨.value a, pos + (code pos).length, []⟩

namespace Takes

variable {α β : Type} {body : Decoder α} {next : α → Decoder β} {a : α} {b : β}
  {first second code : Code} {p : Payload} {pos : Nat} {bits rest : List Bool}

theorem length_eq (hpos : pos ≤ p.bits) (h : p.string.drop pos = bits ++ rest) :
    p.bits = pos + bits.length + rest.length := by
  have hlen := congrArg List.length h
  rw [List.length_drop, Payload.length_string, List.length_append] at hlen
  omega

theorem drop_next (h : p.string.drop pos = bits ++ rest) :
    p.string.drop (pos + bits.length) = rest := by
  rw [← List.drop_drop, h, List.drop_left]

theorem slice_eq (hpos : pos ≤ p.bits) (h : p.string.drop pos = bits ++ rest) :
    Bits.slice p.data pos bits.length = bits := by
  have hlen := length_eq hpos h
  rw [Payload.slice_eq (by omega), h, List.take_left]

protected theorem pure (a : α) : Takes (pure a : Decoder α) a .none :=
  fun _ _ _ _ _ _ => rfl

protected theorem bind (h : Takes body a first) (hnext : Takes (next a) b second) :
    Takes (body >>= next) b (first.followedBy second) := by
  intro p pos rest hp hpos hstring
  rw [Code.followedBy, List.append_assoc] at hstring
  have hlen := length_eq hpos hstring
  rw [List.length_append] at hlen
  have hfit : pos + (first pos).length ≤ p.bits := by omega
  have hrun := hnext hp hfit (drop_next hstring)
  rw [Decoder.bind_value (h hp hpos hstring), hrun, Code.followedBy, List.length_append,
    Nat.add_assoc]

protected theorem map (h : Takes body a code) (f : α → β) :
    Takes (body >>= fun a => pure (f a)) (f a) code := by
  have hbind : Takes (body >>= fun a => pure (f a)) (f a) (code.followedBy .none) :=
    h.bind (Takes.pure (f a))
  rwa [Code.followedBy_none] at hbind

/-- A reader that succeeds puts nothing back. -/
protected theorem rewinding (h : Takes body a code) : Takes (Decoder.rewinding body) a code :=
  fun _ _ _ hp hpos hstring => Decoder.rewinding_value (h hp hpos hstring)

protected theorem readBits {destination : List UInt8} {bits : List Bool} (right : Bool)
    (h : bytesOfBits bits.length ≤ destination.length) :
    Takes (Decoder.readBits destination bits.length right)
      (Bits.packed right bits ++ destination.drop (bytesOfBits bits.length)) (.fixed bits) := by
  intro p pos rest hp hpos hstring
  have hlen := length_eq hpos hstring
  simp only [Code.fixed] at hlen hstring ⊢
  rw [Decoder.readBits_run right hp hpos h, if_pos (by omega), slice_eq hpos hstring]

protected theorem readBit (bit : Bool) : Takes Decoder.readBit bit (.fixed [bit]) := by
  intro p pos rest hp hpos hstring
  have hlen := length_eq hpos hstring
  have hslice := slice_eq hpos hstring
  simp only [Code.fixed, List.length_singleton, Bits.slice_one, List.cons.injEq, and_true]
    at hlen hslice ⊢
  rw [Decoder.readBit_run hp hpos, if_pos (by omega), hslice]

protected theorem align : Takes Decoder.align () .padding := by
  intro p pos rest hp hpos hstring
  have hlen := length_eq hpos hstring
  have hend : pos + (Code.padding pos).length = alignUp pos := Stream.add_padding pos
  rw [Decoder.align_run, hend, Decoder.boundary, Nat.min_eq_left (by omega)]

/-- Asking first whether enough is left makes no difference in front of the code. -/
protected theorem need {count : Nat} (h : Takes body a code)
    (hcount : ∀ pos, count ≤ (code pos).length) :
    Takes (Decoder.need count >>= fun _ => body) a code := by
  intro p pos rest hp hpos hstring
  have hlen := length_eq hpos hstring
  have hcode := hcount pos
  have hneed : Decoder.need count p pos = ⟨.value (), pos, []⟩ := by
    rw [Decoder.need_run count hpos, if_pos (by omega)]
  rw [Decoder.bind_value hneed]
  exact h hp hpos hstring

protected theorem readAlignedBytes (bytes : List UInt8) :
    Takes (Decoder.readAlignedBytes bytes.length) bytes (.block bytes) := by
  by_cases hempty : bytes = []
  · subst hempty
    exact Takes.pure []
  have hcount : 0 < bytes.length := List.length_pos_iff.mpr hempty
  intro p pos rest hp hpos hstring
  have hcode : Code.block bytes pos = Code.padding pos ++ Bits.ofBytes bytes := by
    rw [Code.block, if_neg hempty]
    rfl
  have hend : pos + (Code.padding pos).length = alignUp pos := Stream.add_padding pos
  have hlen := length_eq hpos hstring
  rw [hcode, List.length_append, Bits.length_ofBytes] at hlen
  rw [hcode, List.append_assoc] at hstring
  have hnext := drop_next hstring
  rw [hend] at hnext
  have hfit : alignUp pos ≤ p.bits := by omega
  have hslice := slice_eq hfit hnext
  rw [Bits.length_ofBytes] at hslice
  have hboundary : Decoder.boundary p pos = alignUp pos := Nat.min_eq_left (by omega)
  rw [Decoder.readAlignedBytes_run hcount hp, hboundary, if_pos (by omega), hslice,
    Bits.packed_ofBytes, hcode, List.length_append, Bits.length_ofBytes, ← hend, Nat.add_assoc]

end Takes

/-- What a writer appends to a stream, a reader takes there. -/
theorem Emits.comes_back {α β : Type} {writer : Encoder α} {reader : Decoder β} {a : α} {b : β}
    {code : Code} (hwriter : Emits writer a code) (hreader : Takes reader b code) {s : Stream}
    (hs : s.Sound) :
    ∃ s' effects, writer s = ⟨.value a, s', effects⟩ ∧ s.Grown (code s.cursor.write) s' ∧
      reader s'.payload s.cursor.write = ⟨.value b, s'.cursor.write, []⟩ := by
  obtain ⟨s', effects, hrun, hgrown⟩ := hwriter hs
  have hend := hgrown.write_eq
  have hstart : s.cursor.write ≤ s'.cursor.write := by omega
  have hstring : s'.payload.string.drop s.cursor.write = code s.cursor.write ++ [] := by
    rw [Stream.payload_string, hgrown.string_eq, ← Stream.length_string s, List.drop_left,
      List.append_nil]
  have hread := hreader hgrown.sound.payload hstart hstring
  rw [← hend] at hread
  exact ⟨s', effects, hrun, hgrown, hread⟩

end BitCodec
