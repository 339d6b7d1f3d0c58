import BitCodec.Proofs.Copying

/-!
# A caller's bytes, bit by bit

`taken` lists the bits a caller hands over.  Here each of them is found in its
byte: a whole byte gives its bits from the high end on, the partial one at the end
gives those of its low end (`right`) or of its high end, and no other bit of it
counts.  With that the splice of a copy can be said one position at a time.
-/

namespace BitCodec.Bits

/-- Where in its byte the caller keeps a bit: bits of a partial byte may sit at
its low end. -/
def callerPlace (bits : Nat) (right : Bool) (i : Nat) : Nat :=
  if right && i / 8 == bits / 8 then 8 - bits % 8 + i % 8 else i % 8

/-- The bit of so many that a caller hands over. -/
def callerBit (source : List UInt8) (bits : Nat) (right : Bool) (i : Nat) : Bool :=
  inByte (source[i / 8]?.getD 0) (callerPlace bits right i)

section Place

variable {bits i : Nat} (right : Bool)

/-- Behind the first byte the places are those of the shorter string. -/
theorem callerPlace_behind (hbits : 8 ≤ bits) (hi : 8 ≤ i) :
    callerPlace bits right i = callerPlace (bits - 8) right (i - 8) := by
  have hbyte : (i - 8) / 8 = (bits - 8) / 8 ↔ i / 8 = bits / 8 := by omega
  have hmod : (i - 8) % 8 = i % 8 := by omega
  have hpart : (bits - 8) % 8 = bits % 8 := by omega
  simp only [callerPlace, hbyte, hmod, hpart, Bool.and_eq_true, beq_iff_eq]

theorem callerPlace_whole (hbits : 8 ≤ bits) (hi : i < 8) : callerPlace bits right i = i := by
  have hbyte : i / 8 ≠ bits / 8 := by omega
  have hmod : i % 8 = i := by omega
  simp [callerPlace, hbyte, hmod]

theorem callerPlace_part (hbits : bits < 8) (hi : i < bits) :
    callerPlace bits right i = if right then 8 - bits + i else i := by
  have hbyte : i / 8 = bits / 8 := by omega
  have hmod : i % 8 = i := by omega
  have hpart : bits % 8 = bits := by omega
  simp [callerPlace, hbyte, hmod, hpart]

end Place

/-- Every bit of the string a caller hands over is the one at its place in its
byte. -/
theorem getElem_taken {source : List UInt8} {bits i : Nat} (right : Bool)
    (hsource : bytesOfBits bits ≤ source.length) (hi : i < bits) :
    (taken source bits right)[i]? = some (callerBit source bits right i) := by
  induction source generalizing bits i with
  | nil =>
    simp only [bytesOfBits, List.length_nil] at hsource
    omega
  | cons byte rest ih =>
    unfold taken
    split
    case isTrue hwhole =>
      by_cases hfirst : i < 8
      · have hbyte : i / 8 = 0 := by omega
        rw [List.getElem?_append_left (by simpa using hfirst),
          List.getElem?_eq_getElem (by simpa using hfirst), getElem_ofByte]
        simp [callerBit, callerPlace_whole right hwhole hfirst, hbyte]
      · have hroom : bytesOfBits (bits - 8) ≤ rest.length := by
          simp only [bytesOfBits, List.length_cons] at hsource ⊢
          omega
        have hbyte : i / 8 = (i - 8) / 8 + 1 := by omega
        rw [List.getElem?_append_right (by simp; omega), length_ofByte,
          ih hroom (by omega), callerBit, callerBit,
          callerPlace_behind right hwhole (by omega), hbyte, List.getElem?_cons_succ]
    case isFalse hpart =>
      have hbyte : i / 8 = 0 := by omega
      have hplace := callerPlace_part right (by omega) hi
      cases right with
      | true =>
        have hget : 8 - bits + i < (ofByte byte).length := by
          rw [length_ofByte]
          omega
        rw [if_pos rfl, List.getElem?_drop, List.getElem?_eq_getElem hget, getElem_ofByte]
        simp [callerBit, hplace, hbyte]
      | false =>
        have hget : i < (ofByte byte).length := by
          rw [length_ofByte]
          omega
        rw [if_neg (by decide), List.getElem?_take_of_lt hi, List.getElem?_eq_getElem hget,
          getElem_ofByte]
        simp [callerBit, hplace, hbyte]

/-- A byte all of whose bits are kept is kept. -/
theorem Spliced.byte_after {buffer out : Array UInt8} {pos index : Nat} {bits : List Bool}
    (h : Spliced buffer pos bits out) (hindex : bytesOfBits (pos + bits.length) ≤ index) :
    out[index]? = buffer[index]? := by
  by_cases hin : index < buffer.size
  · have hout : index < out.size := by rwa [h.size_eq]
    rw [Array.getElem?_eq_getElem hin, Array.getElem?_eq_getElem hout]
    congr 1
    apply byte_ext
    intro place hplace
    have hbit := h.after (8 * index + place) (by omega)
    rwa [bitAt_eq_inByte (Array.getElem?_eq_getElem hin) hplace,
      bitAt_eq_inByte (Array.getElem?_eq_getElem hout) hplace] at hbit
  · have hout : out.size ≤ index := by
      rw [h.size_eq]
      omega
    rw [Array.getElem?_eq_none hout, Array.getElem?_eq_none (by omega)]

/-- A splice of what a caller hands over holds at every position the caller's
bit. -/
theorem Spliced.bitAt_taken {buffer out : Array UInt8} {pos bits i : Nat} {source : List UInt8}
    {right : Bool} (h : Spliced buffer pos (taken source bits right) out)
    (hsource : bytesOfBits bits ≤ source.length) (hi : i < bits) :
    bitAt out (pos + i) = callerBit source bits right i := by
  have hget : (slice out pos bits)[i]? = some (callerBit source bits right i) := by
    have hinside := h.inside
    rw [length_taken right hsource] at hinside
    rw [hinside, getElem_taken right hsource hi]
  simpa [slice, hi] using hget

/-- What a copy into a buffer does, at every bit and at every byte.  It never
looks outside the caller's bytes or the buffer. -/
theorem copyIn_bitwise (buffer : Array UInt8) (pos : Nat) (source : List UInt8) (bits : Nat)
    (right : Bool) (hsource : bytesOfBits bits ≤ source.length)
    (hroom : pos + bits ≤ 8 * buffer.size) :
    ∃ out, copyIn buffer pos source bits right = some out ∧
      out.size = buffer.size ∧
      (∀ i < pos, bitAt out i = bitAt buffer i) ∧
      (∀ i < bits, bitAt out (pos + i) = callerBit source bits right i) ∧
      (0 < bits → ∀ i, pos + bits ≤ i → i < 8 * bytesOfBits (pos + bits) → bitAt out i = false) ∧
      (∀ index, bytesOfBits (pos + bits) ≤ index → out[index]? = buffer[index]?) ∧
      (bits = 0 → out = buffer) := by
  obtain ⟨out, hrun, hsplice⟩ := copyIn_spliced right hsource hroom
  have hlen := length_taken right hsource
  refine ⟨out, hrun, hsplice.size_eq, hsplice.before,
    fun i hi => hsplice.bitAt_taken hsource hi, ?tail, ?after, ?empty⟩
  case tail =>
    intro hbits
    have hsome : taken source bits right ≠ [] := by
      intro hnone
      rw [hnone, List.length_nil] at hlen
      omega
    simpa only [hlen] using hsplice.tail hsome
  case after =>
    intro index hindex
    exact hsplice.byte_after (by rwa [hlen])
  case empty =>
    intro hbits
    subst hbits
    exact hsplice.empty (taken_zero source right)

theorem copyIn_bitwise_across_bytes :
    bytesOfBits 11 ≤ [(0xAB : UInt8), 0xFD].length ∧
      3 + 11 ≤ 8 * #[(0xFF : UInt8), 0xFF, 0xFF].size ∧
      ∃ out, copyIn #[0xFF, 0xFF, 0xFF] 3 [0xAB, 0xFD] 11 true = some out ∧
        out = #[0xF5, 0x74, 0xFF] ∧
        ∀ i < 11, bitAt out (3 + i) = callerBit [0xAB, 0xFD] 11 true i := by
  have hsource : bytesOfBits 11 ≤ [(0xAB : UInt8), 0xFD].length := by decide
  have hroom : 3 + 11 ≤ 8 * #[(0xFF : UInt8), 0xFF, 0xFF].size := by decide
  obtain ⟨out, hrun, -, -, hbits, -⟩ :=
    copyIn_bitwise #[0xFF, 0xFF, 0xFF] 3 [0xAB, 0xFD] 11 true hsource hroom
  refine ⟨hsource, hroom, out, hrun, ?_, hbits⟩
  have hvalue : copyIn #[0xFF, 0xFF, 0xFF] 3 [0xAB, 0xFD] 11 true = some #[0xF5, 0x74, 0xFF] := by
    decide
  exact Option.some.inj (hrun.symm.trans hvalue)

/-- Bits of a partial byte that were not asked for do not matter, nor do bytes
behind it. -/
theorem copyIn_congr {source other : List UInt8} {bits : Nat} {right : Bool}
    (buffer : Array UInt8) (pos : Nat) (hsource : bytesOfBits bits ≤ source.length)
    (hother : bytesOfBits bits ≤ other.length) (hroom : pos + bits ≤ 8 * buffer.size)
    (hsame : ∀ i < bits, callerBit source bits right i = callerBit other bits right i) :
    copyIn buffer pos source bits right = copyIn buffer pos other bits right := by
  have htaken : taken source bits right = taken other bits right := by
    apply List.ext_getElem?
    intro i
    by_cases hi : i < bits
    · rw [getElem_taken right hsource hi, getElem_taken right hother hi, hsame i hi]
    · rw [List.getElem?_eq_none (by rw [length_taken right hsource]; omega),
        List.getElem?_eq_none (by rw [length_taken right hother]; omega)]
  have hleft : ∃ out, copyIn buffer pos source bits right = some out ∧
      Spliced buffer pos (taken source bits right) out := copyIn_spliced right hsource hroom
  have hright : ∃ out, copyIn buffer pos other bits right = some out ∧
      Spliced buffer pos (taken other bits right) out := copyIn_spliced right hother hroom
  obtain ⟨first, hfirst, hspliced⟩ := hleft
  obtain ⟨second, hsecond, hspliced'⟩ := hright
  rw [htaken] at hspliced
  rw [hfirst, hsecond, hspliced.unique hspliced']

end BitCodec.Bits
