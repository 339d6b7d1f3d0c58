import BitCodec.Stream
import BitCodec.Proofs.BitString

/-!
# What the copies of bits do

`Spliced` says what a buffer looks like after a string of bits was put into it:
the bits before are kept, the string stands at its position, the rest of the last
byte it touches is zero, and every byte behind that one is kept.  All ways of
writing into a buffer are of this form: `copyIn`, `setBytes`, `zeroFill`, and
`putBit` where nothing but zeros is left behind the position.
-/

namespace BitCodec.Bits

/-! ## Splices -/

/-- One buffer is another with a string of bits put over a position. -/
structure Spliced (buffer : Array UInt8) (pos : Nat) (bits : List Bool) (out : Array UInt8) :
    Prop where
  size_eq : out.size = buffer.size
  before : ∀ i < pos, bitAt out i = bitAt buffer i
  inside : slice out pos bits.length = bits
  tail : bits ≠ [] → ∀ i, pos + bits.length ≤ i → i < 8 * bytesOfBits (pos + bits.length) →
    bitAt out i = false
  after : ∀ i, 8 * bytesOfBits (pos + bits.length) ≤ i → bitAt out i = bitAt buffer i
  empty : bits = [] → out = buffer

namespace Spliced

variable {buffer mid out : Array UInt8} {pos : Nat} {bits first second : List Bool}

theorem refl (buffer : Array UInt8) (pos : Nat) : Spliced buffer pos [] buffer :=
  ⟨rfl, fun _ _ => rfl, rfl, fun h => absurd rfl h, fun _ _ => rfl, fun _ => rfl⟩

/-- A splice behind another one is a splice of both strings. -/
theorem append (h1 : Spliced buffer pos first mid)
    (h2 : Spliced mid (pos + first.length) second out) :
    Spliced buffer pos (first ++ second) out := by
  have hlen : pos + (first ++ second).length = pos + first.length + second.length := by
    simp
    omega
  by_cases hsecond : second = []
  · have hout : out = mid := h2.empty hsecond
    subst hsecond hout
    simpa using h1
  refine ⟨h2.size_eq.trans h1.size_eq, ?_, ?_, ?_, ?_, ?_⟩
  · intro i hi
    rw [h2.before i (by omega), h1.before i hi]
  · have hfirst : slice out pos first.length = first := by
      rw [← h1.inside, length_slice]
      exact slice_congr fun i _ hi => h2.before i hi
    rw [List.length_append, slice_add, hfirst, h2.inside]
  · intro _ i hlow hhigh
    rw [hlen] at hlow hhigh
    exact h2.tail hsecond i hlow hhigh
  · intro i hi
    rw [hlen] at hi
    have hmid : 8 * bytesOfBits (pos + first.length) ≤ i := by
      unfold bytesOfBits at hi ⊢
      omega
    rw [h2.after i hi, h1.after i hmid]
  · intro h
    exact absurd (List.append_eq_nil_iff.mp h).2 hsecond

theorem unique {other : Array UInt8} (h1 : Spliced buffer pos bits out)
    (h2 : Spliced buffer pos bits other) : out = other := by
  by_cases hbits : bits = []
  · rw [h1.empty hbits, h2.empty hbits]
  apply buffer_ext (h1.size_eq.trans h2.size_eq.symm)
  intro i _
  by_cases hbefore : i < pos
  · rw [h1.before i hbefore, h2.before i hbefore]
  by_cases hin : i < pos + bits.length
  · exact bitAt_of_slice (h1.inside.trans h2.inside.symm) (by omega) hin
  by_cases htail : i < 8 * bytesOfBits (pos + bits.length)
  · rw [h1.tail hbits i (by omega) htail, h2.tail hbits i (by omega) htail]
  · rw [h1.after i (by omega), h2.after i (by omega)]

theorem slice_eq (h : Spliced buffer pos bits out) :
    slice out 0 (pos + bits.length) = slice buffer 0 pos ++ bits := by
  have hfront : slice out 0 pos = slice buffer 0 pos :=
    slice_congr fun i _ hi => h.before i (by omega)
  rw [slice_add, hfront, Nat.zero_add, h.inside]

end Spliced

/-- Behind a position the byte it stands in holds zeros only. -/
def ClearFrom (buffer : Array UInt8) (pos : Nat) : Prop :=
  ∀ i, pos ≤ i → i < 8 * bytesOfBits pos → bitAt buffer i = false

theorem clearFrom_of_aligned {buffer : Array UInt8} {pos : Nat} (h : pos % 8 = 0) :
    ClearFrom buffer pos := by
  intro i hlow hhigh
  unfold bytesOfBits at hhigh
  omega

/-- The bytes of the first bits are these bits, packed with zeros behind them, exactly
where nothing else lies there. -/
theorem extract_eq_packed_iff {buffer : Array UInt8} {bits : Nat} (h : bits ≤ 8 * buffer.size) :
    buffer.extract 0 (bytesOfBits bits) = (packed false (slice buffer 0 bits)).toArray ↔
      ClearFrom buffer bits := by
  have hpacked : ∀ i < 8 * bytesOfBits bits,
      bitAt (packed false (slice buffer 0 bits)).toArray i =
        (slice buffer 0 bits)[i]?.getD false := by
    intro i hi
    exact bitAt_packed (by simpa using hi)
  constructor
  · intro heq i hlow hhigh
    rw [← bitAt_extract hhigh, heq, hpacked i hhigh, List.getElem?_eq_none (by simpa using hlow)]
    rfl
  · intro hclear
    have hsize : (buffer.extract 0 (bytesOfBits bits)).size = bytesOfBits bits := by
      simp only [Array.size_extract, bytesOfBits]
      omega
    apply buffer_ext (by simp [hsize])
    intro i hi
    rw [hsize] at hi
    rw [bitAt_extract hi, hpacked i hi]
    by_cases hin : i < bits
    · simp [slice, hin]
    · rw [hclear i (by omega) hi, List.getElem?_eq_none (by simpa using hin)]
      rfl

/-- A splice leaves zeros behind it where there were zeros before. -/
theorem Spliced.clearFrom {buffer out : Array UInt8} {pos : Nat} {bits : List Bool}
    (h : Spliced buffer pos bits out) (hclear : ClearFrom buffer pos) :
    ClearFrom out (pos + bits.length) := by
  by_cases hbits : bits = []
  · rw [h.empty hbits, hbits]
    exact hclear
  · exact h.tail hbits

/-! ## Single bytes -/

theorem bitAt_set {buffer : Array UInt8} {index : Nat} (h : index < buffer.size) (byte : UInt8)
    (i : Nat) :
    bitAt (buffer.set index byte h) i =
      if i / 8 = index then inByte byte (i % 8) else bitAt buffer i := by
  unfold bitAt
  rw [Array.getElem?_set]
  by_cases hi : i / 8 = index
  · simp [hi]
  · have : ¬index = i / 8 := fun heq => hi heq.symm
    simp [hi, this]

theorem setByte_eq {buffer : Array UInt8} {index : Nat} (h : index < buffer.size) (byte : UInt8) :
    setByte buffer index byte = some (buffer.set index byte h) := by
  simp [setByte, h]

theorem spliced_set {buffer : Array UInt8} {index : Nat} (h : index < buffer.size) (byte : UInt8) :
    Spliced buffer (8 * index) (ofByte byte) (buffer.set index byte h) := by
  refine ⟨by simp, ?_, ?_, ?_, ?_, ?_⟩
  · intro i hi
    have : ¬i / 8 = index := by omega
    rw [bitAt_set, if_neg this]
  · rw [length_ofByte]
    exact slice_byte (by simp [h])
  · intro _ i hlow hhigh
    simp only [length_ofByte, bytesOfBits] at hlow hhigh
    omega
  · intro i hi
    simp only [length_ofByte, bytesOfBits] at hi
    have : ¬i / 8 = index := by omega
    rw [bitAt_set, if_neg this]
  · intro hnil
    have := congrArg List.length hnil
    simp at this

/-! ## Whole bytes -/

theorem setBytes_spliced {buffer : Array UInt8} {index : Nat} {bytes : List UInt8}
    (h : index + bytes.length ≤ buffer.size) :
    ∃ out, setBytes buffer index bytes = some out ∧
      Spliced buffer (8 * index) (ofBytes bytes) out := by
  induction bytes generalizing buffer index with
  | nil => exact ⟨buffer, rfl, Spliced.refl buffer _⟩
  | cons byte rest ih =>
    simp only [List.length_cons] at h
    have hindex : index < buffer.size := by omega
    have hroom : index + 1 + rest.length ≤ (buffer.set index byte hindex).size := by
      rw [Array.size_set]
      omega
    obtain ⟨out, hout, hspliced⟩ := ih hroom
    refine ⟨out, ?_, ?_⟩
    · simp only [setBytes, setByte_eq hindex, Option.bind_eq_bind, Option.bind_some, hout]
    · have hnext : 8 * (index + 1) = 8 * index + (ofByte byte).length := by
        simp
        omega
      rw [hnext] at hspliced
      exact (spliced_set hindex byte).append hspliced

theorem getBytes_eq {buffer : Array UInt8} {index count : Nat} (h : index + count ≤ buffer.size) :
    getBytes buffer index count = some (packed true (slice buffer (8 * index) (8 * count))) := by
  induction count generalizing index with
  | zero => simp [getBytes]
  | succ count ih =>
    have hindex : index < buffer.size := by omega
    have hbyte : buffer[index]? = some buffer[index] := Array.getElem?_eq_getElem hindex
    have hcount : 8 * (count + 1) = 8 + 8 * count := by omega
    have hnext : 8 * index + 8 = 8 * (index + 1) := by omega
    have hlen : 8 ≤ (slice buffer (8 * index) (8 + 8 * count)).length := by simp
    have hpacked := packed_byte true hlen
    have hroom : index + 1 + count ≤ buffer.size := by omega
    rw [slice_add, slice_byte hbyte, hnext] at hpacked
    rw [hcount, slice_add, slice_byte hbyte, hnext, hpacked]
    simp [getBytes, hbyte, ih hroom, byteOf_ofByte]

/-- The same as bytes of the buffer. -/
theorem getBytes_drop {buffer : Array UInt8} {index count : Nat}
    (h : index + count ≤ buffer.size) :
    getBytes buffer index count = some ((buffer.toList.drop index).take count) := by
  induction count generalizing index with
  | zero => rfl
  | succ count ih =>
    have hindex : index < buffer.toList.length := by
      rw [Array.length_toList]
      omega
    have hbyte : buffer[index]? = some buffer.toList[index] := by
      rw [← Array.getElem?_toList, List.getElem?_eq_getElem hindex]
    have hroom : index + 1 + count ≤ buffer.size := by omega
    simp only [getBytes, hbyte, ih hroom, Option.bind_eq_bind, Option.bind_some, Option.pure_def,
      List.drop_eq_getElem_cons hindex, List.take_succ_cons]

/-! ## Bits into a buffer -/

/-- The bits of a byte that a copy puts down: the top `count` of them. -/
def topBits (byte : UInt8) (count : Nat) : List Bool :=
  (ofByte byte).take count

@[simp] theorem length_topBits (byte : UInt8) (count : Nat) :
    (topBits byte count).length = min count 8 := by
  simp [topBits]

theorem getElem_topBits (byte : UInt8) (count i : Nat) (h : i < (topBits byte count).length) :
    (topBits byte count)[i] = inByte byte i := by
  simp [topBits, ofByte]

/-- A buffer that takes its bits from a byte, up to the end of the last byte it touches, is a
splice when the byte has no bits but the counted ones. -/
theorem Spliced.of_bits {buffer out : Array UInt8} {pos count : Nat} {byte : UInt8}
    (hcount : 1 ≤ count) (hcount8 : count ≤ 8) (hsize : out.size = buffer.size)
    (hrest : ∀ place, count ≤ place → inByte byte place = false)
    (hbits : ∀ i, bitAt out i =
      if pos ≤ i ∧ i < 8 * bytesOfBits (pos + count) then inByte byte (i - pos)
      else bitAt buffer i) :
    Spliced buffer pos (topBits byte count) out := by
  have hlen : (topBits byte count).length = count := by simp; omega
  have hend : pos + count ≤ 8 * bytesOfBits (pos + count) := by
    unfold bytesOfBits
    omega
  refine ⟨hsize, ?_, ?_, ?_, ?_, ?_⟩
  · intro i hi
    rw [hbits, if_neg (by omega)]
  · apply List.ext_getElem (by simp)
    intro i h1 h2
    have h3 : i < count := by omega
    rw [getElem_slice, getElem_topBits, hbits, if_pos (by omega)]
    congr 1
    omega
  · intro _ i hlow hhigh
    rw [hlen] at hlow hhigh
    rw [hbits, if_pos (by omega)]
    exact hrest _ (by omega)
  · intro i hi
    rw [hlen] at hi
    rw [hbits, if_neg (by omega)]
  · intro hnil
    rw [hnil] at hlen
    simp at hlen
    omega

/-- The head of one byte in front of the bits of another. -/
def merged (old byte : UInt8) (offset : Nat) : UInt8 :=
  (old &&& ~~~((0xFF : UInt8) >>> UInt8.ofNat offset)) ||| byte >>> UInt8.ofNat offset

theorem inByte_merged (old byte : UInt8) {offset place : Nat} (hoff : offset < 8) (hp : place < 8) :
    inByte (merged old byte offset) place =
      if place < offset then inByte old place else inByte byte (place - offset) := by
  simp only [merged, inByte_or, inByte_and, inByte_not, inByte_shiftRight _ hoff, inByte_ones]
  by_cases h : place < offset
  · have hnot : ¬offset ≤ place := by omega
    simp [hp, h, hnot]
  · have hle : offset ≤ place := by omega
    have hlt : place - offset < 8 := by omega
    simp [hp, h, hle, hlt]

theorem bitAt_set_merged {buffer : Array UInt8} {pos : Nat} (hindex : pos / 8 < buffer.size)
    (byte : UInt8) (i : Nat) :
    bitAt (buffer.set (pos / 8) (merged buffer[pos / 8] byte (pos % 8)) hindex) i =
      if i / 8 = pos / 8 ∧ pos ≤ i then inByte byte (i - pos) else bitAt buffer i := by
  have hold : buffer[pos / 8]? = some buffer[pos / 8] := Array.getElem?_eq_getElem hindex
  have hoff : pos % 8 < 8 := Nat.mod_lt _ (by decide)
  have hi : i % 8 < 8 := Nat.mod_lt _ (by decide)
  rw [bitAt_set, inByte_merged _ _ hoff hi]
  by_cases hin : i / 8 = pos / 8
  · by_cases h : i % 8 < pos % 8
    · have hback : 8 * (pos / 8) + i % 8 = i := by omega
      rw [if_pos hin, if_pos h, if_neg (by omega), ← bitAt_eq_inByte hold hi, hback]
    · have hplace : i % 8 - pos % 8 = i - pos := by omega
      rw [if_pos hin, if_neg h, if_pos (by omega), hplace]
  · rw [if_neg hin, if_neg (by omega)]

section Place

variable {buffer : Array UInt8} {pos count : Nat} {byte : UInt8}

theorem place_aligned (hcount : 1 ≤ count) (hcount8 : count ≤ 8)
    (hroom : pos + count ≤ 8 * buffer.size)
    (hrest : ∀ place, count ≤ place → inByte byte place = false) (haligned : pos % 8 = 0) :
    ∃ out, place buffer pos count byte = some out ∧
      Spliced buffer pos (topBits byte count) out := by
  have hindex : pos / 8 < buffer.size := by omega
  refine ⟨buffer.set (pos / 8) byte hindex, by simp [place, haligned, setByte_eq hindex], ?_⟩
  apply Spliced.of_bits hcount hcount8 (by simp) hrest
  intro i
  rw [bitAt_set]
  by_cases hin : i / 8 = pos / 8
  · have hplace : i % 8 = i - pos := by omega
    rw [if_pos hin, hplace, if_pos (by unfold bytesOfBits; omega)]
  · rw [if_neg hin, if_neg (by unfold bytesOfBits; omega)]

/-- A byte inside another one, whose head stays. -/
theorem place_within (hcount : 1 ≤ count) (hcount8 : count ≤ 8)
    (hroom : pos + count ≤ 8 * buffer.size)
    (hrest : ∀ place, count ≤ place → inByte byte place = false) (hacross : ¬pos % 8 = 0)
    (hfits : ¬pos % 8 + count > 8) :
    ∃ out, place buffer pos count byte = some out ∧
      Spliced buffer pos (topBits byte count) out := by
  have hindex : pos / 8 < buffer.size := by omega
  have hold : buffer[pos / 8]? = some buffer[pos / 8] := Array.getElem?_eq_getElem hindex
  refine ⟨buffer.set (pos / 8) (merged buffer[pos / 8] byte (pos % 8)) hindex, ?_, ?_⟩
  · simp only [place, if_neg hacross, hold, Option.bind_eq_bind, Option.bind_some,
      setByte_eq hindex, if_neg hfits, merged]
  · apply Spliced.of_bits hcount hcount8 (by simp) hrest
    intro i
    have hsame : i / 8 = pos / 8 ∧ pos ≤ i ↔
        pos ≤ i ∧ i < 8 * bytesOfBits (pos + count) := by
      unfold bytesOfBits
      omega
    simp only [bitAt_set_merged, hsame]

/-- A byte across a boundary: what does not fit goes to the next one. -/
theorem place_across (hcount : 1 ≤ count) (hcount8 : count ≤ 8)
    (hroom : pos + count ≤ 8 * buffer.size)
    (hrest : ∀ place, count ≤ place → inByte byte place = false) (hacross : ¬pos % 8 = 0)
    (hspill : pos % 8 + count > 8) :
    ∃ out, place buffer pos count byte = some out ∧
      Spliced buffer pos (topBits byte count) out := by
  have hindex : pos / 8 < buffer.size := by omega
  have hold : buffer[pos / 8]? = some buffer[pos / 8] := Array.getElem?_eq_getElem hindex
  have hnext : pos / 8 + 1 <
      (buffer.set (pos / 8) (merged buffer[pos / 8] byte (pos % 8)) hindex).size := by
    rw [Array.size_set]
    omega
  refine ⟨(buffer.set (pos / 8) (merged buffer[pos / 8] byte (pos % 8)) hindex).set (pos / 8 + 1)
    (byte <<< UInt8.ofNat (8 - pos % 8)) hnext, ?_, ?_⟩
  · unfold merged at hnext ⊢
    simp only [place, if_neg hacross, hold, Option.bind_eq_bind, Option.bind_some,
      setByte_eq hindex, if_pos hspill, setByte_eq hnext]
  · have hshift : 8 - pos % 8 < 8 := by omega
    apply Spliced.of_bits hcount hcount8 (by simp) hrest
    intro i
    rw [bitAt_set, inByte_shiftLeft _ hshift]
    by_cases hin : i / 8 = pos / 8 + 1
    · have hplace : i % 8 + (8 - pos % 8) = i - pos := by omega
      rw [if_pos hin, hplace, if_pos (by unfold bytesOfBits; omega)]
    · have hsame : i / 8 = pos / 8 ∧ pos ≤ i ↔
          pos ≤ i ∧ i < 8 * bytesOfBits (pos + count) := by
        unfold bytesOfBits
        omega
      rw [if_neg hin]
      simp only [bitAt_set_merged, hsame]

/-- Putting the top bits of a byte down at any position, when the other bits of
the byte are zero. -/
theorem place_spliced (hcount : 1 ≤ count) (hcount8 : count ≤ 8)
    (hroom : pos + count ≤ 8 * buffer.size)
    (hrest : ∀ place, count ≤ place → inByte byte place = false) :
    ∃ out, place buffer pos count byte = some out ∧
      Spliced buffer pos (topBits byte count) out := by
  by_cases haligned : pos % 8 = 0
  · exact place_aligned hcount hcount8 hroom hrest haligned
  · by_cases hspill : pos % 8 + count > 8
    · exact place_across hcount hcount8 hroom hrest haligned hspill
    · exact place_within hcount hcount8 hroom hrest haligned hspill

end Place

/-- What a caller's byte contributes has no bits but the counted ones. -/
theorem inByte_gather_past (byte : UInt8) (right : Bool) {count place : Nat} (hcount : count ≤ 8)
    (h : count ≤ place) : inByte (gather byte count right) place = false := by
  have : ¬place < count := by omega
  simp [gather, inByte_highMask hcount, this]

theorem topBits_gather {byte : UInt8} {count : Nat} (right : Bool) (hcount : count ≤ 8) :
    topBits (gather byte count right) count =
      if right then (ofByte byte).drop (8 - count) else (ofByte byte).take count := by
  apply List.ext_getElem
  · cases right <;> simp
    omega
  · intro i h1 h2
    have hi : i < count := by
      simp only [length_topBits] at h1
      omega
    rw [getElem_topBits]
    simp only [gather, inByte_and, inByte_highMask hcount, hi, decide_true, Bool.and_true]
    cases right with
    | false => simp [ofByte]
    | true =>
      simp only [if_true, Bool.and_true, List.getElem_drop, getElem_ofByte]
      by_cases h8 : count < 8
      · rw [if_pos (by simpa using h8), inByte_shiftLeft _ (by omega)]
        congr 1
        omega
      · rw [if_neg (by simpa using h8)]
        congr 1
        omega

/-- Copying a caller's bits into a buffer that has room for them puts exactly
these bits at the position. -/
theorem copyIn_spliced {buffer : Array UInt8} {pos bits : Nat} {source : List UInt8} (right : Bool)
    (hsource : bytesOfBits bits ≤ source.length) (hroom : pos + bits ≤ 8 * buffer.size) :
    ∃ out, copyIn buffer pos source bits right = some out ∧
      Spliced buffer pos (taken source bits right) out := by
  induction source generalizing buffer pos bits with
  | nil =>
    have hbits : bits = 0 := by
      simp only [bytesOfBits, List.length_nil] at hsource
      omega
    subst hbits
    exact ⟨buffer, by simp [copyIn], Spliced.refl buffer pos⟩
  | cons byte rest ih =>
    by_cases hbits : bits = 0
    · subst hbits
      rw [taken_zero]
      exact ⟨buffer, by simp [copyIn], Spliced.refl buffer pos⟩
    have hrest : bytesOfBits (bits - min bits 8) ≤ rest.length := by
      simp only [bytesOfBits, List.length_cons] at hsource ⊢
      omega
    have hcount : 1 ≤ min bits 8 := by omega
    have hfit : pos + min bits 8 ≤ 8 * buffer.size := by omega
    obtain ⟨mid, hmid, hfirst⟩ := place_spliced hcount (by omega) hfit
      (fun place hp => inByte_gather_past byte right (by omega) hp)
    have hleft : pos + min bits 8 + (bits - min bits 8) ≤ 8 * mid.size := by
      rw [hfirst.size_eq]
      omega
    obtain ⟨out, hout, hsecond⟩ := ih hrest hleft
    refine ⟨out, by simp [copyIn, hbits, hmid, hout], ?_⟩
    have hnext : pos + min bits 8 =
        pos + (topBits (gather byte (min bits 8) right) (min bits 8)).length := by simp
    rw [hnext] at hsecond
    have hall := hfirst.append hsecond
    rw [topBits_gather right (by omega)] at hall
    -- Only the last byte can be a partial one, and only there `right` matters.
    by_cases h8 : 8 ≤ bits
    · have hmin : min bits 8 = 8 := by omega
      have hwhole : (if right then (ofByte byte).drop (8 - 8) else (ofByte byte).take 8) =
          ofByte byte := by
        cases right <;> simp [List.take_of_length_le]
      rw [hmin, hwhole] at hall
      rw [taken, if_pos h8]
      exact hall
    · have hmin : min bits 8 = bits := by omega
      rw [hmin, Nat.sub_self, taken_zero, List.append_nil] at hall
      rw [taken, if_neg h8]
      exact hall

/-- The byte that holds a bit that is put, when the byte was zero from there on. -/
theorem putBit_byte {buffer : Array UInt8} {pos : Nat} (bit : Bool) (hindex : pos / 8 < buffer.size)
    (hclear : ClearFrom buffer pos) :
    ∃ byte, putBit buffer pos bit = some (buffer.set (pos / 8) byte hindex) ∧
      ∀ place < 8, inByte byte place =
        if place = pos % 8 then bit
        else decide (place < pos % 8) && inByte buffer[pos / 8] place := by
  have hold : buffer[pos / 8]? = some buffer[pos / 8] := Array.getElem?_eq_getElem hindex
  have hmask : ∀ place < 8, inByte ((0x80 : UInt8) >>> UInt8.ofNat (pos % 8)) place =
      decide (place = pos % 8) := by
    intro place hp
    rw [inByte_shiftRight _ (Nat.mod_lt _ (by decide)), inByte_top]
    grind
  by_cases haligned : pos % 8 = 0
  · refine ⟨if bit then (0x80 : UInt8) >>> UInt8.ofNat (pos % 8) else 0,
      by simp only [putBit, if_pos haligned, setByte_eq hindex], ?_⟩
    intro place hp
    have hlow : ¬place < pos % 8 := by omega
    cases bit with
    | false => simp [hlow]
    | true => simp [hmask place hp, hlow]
  · refine ⟨if bit then buffer[pos / 8] ||| (0x80 : UInt8) >>> UInt8.ofNat (pos % 8)
        else buffer[pos / 8] &&& ~~~((0x80 : UInt8) >>> UInt8.ofNat (pos % 8)),
      by simp only [putBit, if_neg haligned, hold, Option.bind_eq_bind, Option.bind_some,
        setByte_eq hindex], ?_⟩
    intro place hp
    -- Without this a bit that is cleared would leave stale bits behind it.
    have hzero : pos % 8 < place → inByte buffer[pos / 8] place = false := by
      intro h
      rw [← bitAt_eq_inByte hold hp]
      exact hclear _ (by omega) (by unfold bytesOfBits; omega)
    cases bit with
    | false =>
      simp only [Bool.false_eq_true, if_false, inByte_and, inByte_not, hmask place hp]
      grind
    | true =>
      simp only [if_true, inByte_or, hmask place hp]
      grind

theorem putBit_spliced {buffer : Array UInt8} {pos : Nat} (bit : Bool)
    (hroom : pos < 8 * buffer.size) (hclear : ClearFrom buffer pos) :
    ∃ out, putBit buffer pos bit = some out ∧ Spliced buffer pos [bit] out := by
  have hindex : pos / 8 < buffer.size := by omega
  have hoff : pos % 8 < 8 := Nat.mod_lt _ (by decide)
  have hold : buffer[pos / 8]? = some buffer[pos / 8] := Array.getElem?_eq_getElem hindex
  obtain ⟨byte, hbyte, hput⟩ := putBit_byte bit hindex hclear
  refine ⟨_, hbyte, by simp, ?_, ?_, ?_, ?_, by simp⟩
  · intro i hi
    rw [bitAt_set]
    by_cases hin : i / 8 = pos / 8
    · have hback : 8 * (pos / 8) + i % 8 = i := by omega
      rw [if_pos hin, hput _ (by omega), if_neg (by omega), ← bitAt_eq_inByte hold (by omega),
        hback]
      have hlow : i % 8 < pos % 8 := by omega
      simp [hlow]
    · rw [if_neg hin]
  · simp [bitAt_set, hput _ hoff]
  · intro _ i hlow hhigh
    simp only [List.length_singleton, bytesOfBits] at hlow hhigh
    have hnot : ¬i % 8 < pos % 8 := by omega
    rw [bitAt_set, if_pos (by omega), hput _ (by omega), if_neg (by omega)]
    simp [hnot]
  · intro i hi
    simp only [List.length_singleton, bytesOfBits] at hi
    rw [bitAt_set, if_neg (by omega)]

theorem ofBytes_zeros (count : Nat) :
    ofBytes (List.replicate count 0) = List.replicate (8 * count) false := by
  rw [List.eq_replicate_iff]
  refine ⟨by simp, ?_⟩
  intro bit hbit
  simp only [ofBytes, List.mem_flatMap, List.mem_replicate] at hbit
  obtain ⟨byte, ⟨_, rfl⟩, hin⟩ := hbit
  simp only [ofByte, List.mem_map, inByte_zero] at hin
  obtain ⟨_, _, hfalse⟩ := hin
  exact hfalse.symm

theorem taken_zeros {bits : Nat} (right : Bool) (h : bits ≤ 8) :
    taken [0] bits right = List.replicate bits false := by
  have hzero : ofByte 0 = List.replicate 8 false := by decide
  by_cases h8 : 8 ≤ bits
  · have : bits = 8 := by omega
    subst this
    rfl
  · rw [taken, if_neg h8, hzero]
    cases right with
    | false =>
      have hmin : min bits 8 = bits := by omega
      simp only [Bool.false_eq_true, if_false, List.take_replicate, hmin]
    | true =>
      have hsub : 8 - (8 - bits) = bits := by omega
      simp only [if_true, List.drop_replicate, hsub]

/-- Overwriting everything up to a byte boundary with zeros. -/
theorem zeroFill_spliced {buffer : Array UInt8} {pos target : Nat} (hpos : pos < target)
    (htarget : target % 8 = 0) (hroom : target ≤ 8 * buffer.size) :
    ∃ out, Stream.zeroFill buffer pos target = some out ∧
      Spliced buffer pos (List.replicate (target - pos) false) out := by
  -- The rest of the open byte is one splice, the whole bytes behind it are another.
  obtain ⟨lead, hlead⟩ : ∃ lead, lead = (8 - pos % 8) % 8 := ⟨_, rfl⟩
  obtain ⟨mid, hmid, hfirst⟩ : ∃ mid, Stream.zeroFill buffer pos target =
      setBytes mid (bytesOfBits pos) (List.replicate (bytesOfBits target - bytesOfBits pos) 0) ∧
      Spliced buffer pos (List.replicate lead false) mid := by
    by_cases h : lead > 0
    · have hmin : min lead (target - pos) = lead := by omega
      have hsource : bytesOfBits lead ≤ [(0 : UInt8)].length := by
        rw [List.length_singleton, bytesOfBits]
        omega
      have hfit : pos + lead ≤ 8 * buffer.size := by omega
      obtain ⟨mid, hmid, hspliced⟩ := copyIn_spliced true hsource hfit
      rw [taken_zeros true (by omega)] at hspliced
      refine ⟨mid, ?_, hspliced⟩
      simp only [Stream.zeroFill, ← hlead, if_pos h, hmin, hmid, Option.bind_eq_bind,
        Option.bind_some]
    · have hnone : lead = 0 := by omega
      refine ⟨buffer, ?_, by rw [hnone]; exact Spliced.refl buffer pos⟩
      simp only [Stream.zeroFill, ← hlead, if_neg h, Option.bind_eq_bind, Option.bind_some]
  have hstart : 8 * bytesOfBits pos = pos + lead := by
    unfold bytesOfBits
    omega
  have hcount : lead + 8 * (bytesOfBits target - bytesOfBits pos) = target - pos := by
    unfold bytesOfBits at hstart ⊢
    omega
  have hfit : bytesOfBits pos +
      (List.replicate (bytesOfBits target - bytesOfBits pos) (0 : UInt8)).length ≤ mid.size := by
    rw [hfirst.size_eq]
    simp only [List.length_replicate, bytesOfBits]
    omega
  obtain ⟨out, hout, hsecond⟩ := setBytes_spliced hfit
  refine ⟨out, hmid.trans hout, ?_⟩
  rw [ofBytes_zeros, hstart] at hsecond
  have hall := hfirst.append (by simpa using hsecond)
  rwa [List.replicate_append_replicate, hcount] at hall

/-! ## Bits out of a buffer -/

theorem getBit_eq {buffer : Array UInt8} {pos : Nat} (h : pos < 8 * buffer.size) :
    getBit buffer pos = some (bitAt buffer pos) := by
  have hindex : pos / 8 < buffer.size := by omega
  have hold : buffer[pos / 8]? = some buffer[pos / 8] := Array.getElem?_eq_getElem hindex
  simp only [getBit, bitAt, hold, Option.bind_eq_bind, Option.bind_some, Option.getD_some]
  rw [and_mask_ne_zero _ (Nat.mod_lt _ (by decide))]
  rfl

/-- A byte that begins with bits of a buffer is these bits, once the mask has dropped the others. -/
theorem masked_eq_byteOf {buffer : Array UInt8} {pos count : Nat} {loaded : UInt8}
    (hcount8 : count ≤ 8)
    (hloaded : ∀ place < count, inByte loaded place = bitAt buffer (pos + place)) :
    loaded &&& highMask count = byteOf false (slice buffer pos count) := by
  apply byte_ext
  intro place _
  rw [inByte_and, inByte_highMask hcount8, inByte_byteOf_left (by simpa using hcount8)]
  by_cases hin : place < count
  · simp [slice, hin, hloaded place hin]
  · simp [slice, hin]

/-- Up to eight bits at any position, gathered at the high end of a byte. -/
theorem pick_eq {buffer : Array UInt8} {pos count : Nat} (hcount : 1 ≤ count) (hcount8 : count ≤ 8)
    (hroom : pos + count ≤ 8 * buffer.size) :
    pick buffer pos count = some (byteOf false (slice buffer pos count)) := by
  have hindex : pos / 8 < buffer.size := by omega
  have hoff : pos % 8 < 8 := Nat.mod_lt _ (by decide)
  have hold : buffer[pos / 8]? = some buffer[pos / 8] := Array.getElem?_eq_getElem hindex
  have hfirst : ∀ place, pos % 8 + place < 8 →
      inByte buffer[pos / 8] (place + pos % 8) = bitAt buffer (pos + place) := by
    intro place hp
    have hback : 8 * (pos / 8) + (place + pos % 8) = pos + place := by omega
    rw [← bitAt_eq_inByte hold (by omega), hback]
  by_cases hspill : pos % 8 ≠ 0 ∧ pos % 8 + count > 8
  · have hnext : pos / 8 + 1 < buffer.size := by omega
    have hshift : 8 - pos % 8 < 8 := by omega
    have hsecond : buffer[pos / 8 + 1]? = some buffer[pos / 8 + 1] :=
      Array.getElem?_eq_getElem hnext
    simp only [pick, hold, if_pos hspill, hsecond, Option.bind_eq_bind, Option.bind_some]
    refine congrArg some (masked_eq_byteOf hcount8 fun place hin => ?_)
    have hp : place < 8 := by omega
    rw [inByte_or, inByte_shiftLeft _ hoff, inByte_shiftRight _ hshift]
    by_cases hlow : pos % 8 + place < 8
    · have hnot : ¬8 - pos % 8 ≤ place := by omega
      simp [hfirst place hlow, hnot]
    · have hback : 8 * (pos / 8 + 1) + (place - (8 - pos % 8)) = pos + place := by omega
      have hle : 8 - pos % 8 ≤ place := by omega
      have hpast : 8 ≤ place + pos % 8 := by omega
      have hinside : place - (8 - pos % 8) < 8 := by omega
      rw [inByte_past hpast, ← bitAt_eq_inByte hsecond hinside, hback]
      simp [hp, hle]
  · simp only [pick, hold, if_neg hspill, Option.bind_eq_bind, Option.bind_some]
    refine congrArg some (masked_eq_byteOf hcount8 fun place hin => ?_)
    rw [inByte_shiftLeft _ hoff, hfirst place (by omega)]

theorem scatter_byteOf {bits : List Bool} (right : Bool) (h0 : 0 < bits.length)
    (h8 : bits.length ≤ 8) :
    scatter (byteOf false bits) bits.length right = byteOf right bits := by
  cases right with
  | false => simp [scatter]
  | true =>
    apply byte_ext
    intro place hp
    rw [inByte_byteOf_right h8]
    by_cases hlt : bits.length < 8
    · rw [scatter, if_pos (by simpa using hlt), inByte_shiftRight _ (by omega),
        inByte_byteOf_left h8]
      simp [hp]
    · have hfull : 8 - bits.length = 0 := by omega
      rw [scatter, if_neg (by simpa using hlt), inByte_byteOf_left h8, hfull]
      simp

/-- Copying bits of a buffer over the front of a caller's bytes. -/
theorem copyOut_eq {buffer : Array UInt8} {pos bits : Nat} {destination : List UInt8} (right : Bool)
    (hdestination : bytesOfBits bits ≤ destination.length)
    (hroom : pos + bits ≤ 8 * buffer.size) :
    copyOut buffer pos destination bits right =
      some (packed right (slice buffer pos bits) ++ destination.drop (bytesOfBits bits)) := by
  induction destination generalizing pos bits with
  | nil =>
    have hbits : bits = 0 := by
      simp only [bytesOfBits, List.length_nil] at hdestination
      omega
    subst hbits
    simp [copyOut]
  | cons old rest ih =>
    by_cases hbits : bits = 0
    · subst hbits
      simp [copyOut, bytesOfBits]
    have hrest : bytesOfBits (bits - min bits 8) ≤ rest.length := by
      simp only [bytesOfBits, List.length_cons] at hdestination ⊢
      omega
    have hsome : 1 ≤ min bits 8 := by omega
    have hfit : pos + min bits 8 ≤ 8 * buffer.size := by omega
    have hbyte := pick_eq hsome (by omega) hfit
    have hlen : (slice buffer pos (min bits 8)).length = min bits 8 := by simp
    have hscatter := scatter_byteOf right (Nat.lt_of_lt_of_eq hsome hlen.symm) (by omega)
    rw [hlen] at hscatter
    have hleft : pos + min bits 8 + (bits - min bits 8) ≤ 8 * buffer.size := by omega
    have hcount : bytesOfBits bits = bytesOfBits (bits - min bits 8) + 1 := by
      unfold bytesOfBits
      omega
    have hsplit : slice buffer pos bits =
        slice buffer pos (min bits 8) ++ slice buffer (pos + min bits 8) (bits - min bits 8) := by
      rw [← slice_add]
      congr 1
      omega
    have hlast : (slice buffer pos (min bits 8)).length < 8 →
        slice buffer (pos + min bits 8) (bits - min bits 8) = [] := by
      intro hshort
      have hnone : bits - min bits 8 = 0 := by omega
      rw [hnone, slice_zero]
    simp only [copyOut, if_neg hbits, hbyte, Option.bind_eq_bind, Option.bind_some, hscatter,
      ih hrest hleft, Option.pure_def]
    rw [hsplit, packed_group right (by omega) (by omega) hlast, hcount, List.drop_succ_cons,
      List.cons_append]

end BitCodec.Bits
