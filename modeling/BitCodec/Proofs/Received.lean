import BitCodec.Proofs.CallerBytes

/-!
# What a caller receives

`CallerBytes` says which bits a caller hands over; here the same places are read the
other way.  `Received` fixes every bit of a caller's bytes after a copy out of a
buffer: the bits copied stand at their places, a partial byte holds nothing else, and
the bytes behind keep what they had.  A copy looks at the bytes that hold its bits and
at no others, so that it may end where the buffer ends, and `copyOut_copyIn` puts both
directions together for every choice of the two ends.
-/

namespace BitCodec.Bits

/-! ## The bytes after a copy -/

/-- A caller's bytes with so many bits put over their front: the bits are found at their
places, the rest of a partial byte is zero, and the bytes behind are those of before. -/
structure Received (destination : List UInt8) (bits : Nat) (right : Bool) (bit : Nat → Bool)
    (out : List UInt8) : Prop where
  length_eq : out.length = destination.length
  inside : ∀ i < bits, callerBit out bits right i = bit i
  clear : 0 < bits % 8 → ∀ place < 8,
    (if right then place < 8 - bits % 8 else bits % 8 ≤ place) →
      inByte (out[bits / 8]?.getD 0) place = false
  behind : ∀ index, bytesOfBits bits ≤ index → out[index]? = destination[index]?

theorem Received.congr {destination out : List UInt8} {bits : Nat} {right : Bool}
    {bit other : Nat → Bool} (h : Received destination bits right bit out)
    (hsame : ∀ i < bits, bit i = other i) : Received destination bits right other out :=
  ⟨h.length_eq, fun i hi => (h.inside i hi).trans (hsame i hi), h.clear, h.behind⟩

theorem received_packed {string : List Bool} {destination : List UInt8} (right : Bool)
    (hdestination : bytesOfBits string.length ≤ destination.length) :
    Received destination string.length right (fun i => string[i]?.getD false)
      (packed right string ++ destination.drop (bytesOfBits string.length)) := by
  have hlen := length_packed right string
  refine ⟨?length, ?inside, ?clear, ?behind⟩
  case length =>
    rw [List.length_append, hlen, List.length_drop]
    omega
  case inside =>
    intro i hi
    have hroom : bytesOfBits string.length ≤
        (packed right string ++ destination.drop (bytesOfBits string.length)).length := by
      rw [List.length_append, hlen]
      omega
    have hget := getElem_taken right hroom hi
    rw [taken_packed] at hget
    rw [hget, Option.getD_some]
  case clear =>
    intro hpart place _ hplace
    have hindex : string.length / 8 < (packed right string).length := by
      rw [hlen, bytesOfBits]
      omega
    rw [List.getElem?_append_left hindex]
    exact inByte_packed_part hpart hplace
  case behind =>
    intro index hindex
    have hback : bytesOfBits string.length + (index - bytesOfBits string.length) = index := by
      omega
    rw [List.getElem?_append_right (by rwa [hlen]), hlen, List.getElem?_drop, hback]

section CopyOut

variable {buffer : Array UInt8} {pos bits : Nat} {destination : List UInt8}

theorem copyOut_received (right : Bool) (hdestination : bytesOfBits bits ≤ destination.length)
    (hroom : pos + bits ≤ 8 * buffer.size) :
    ∃ out, copyOut buffer pos destination bits right = some out ∧
      Received destination bits right (fun i => bitAt buffer (pos + i)) out := by
  have hlen := length_slice buffer pos bits
  have hwhole : bytesOfBits (slice buffer pos bits).length ≤ destination.length := by rwa [hlen]
  have hpacked := received_packed right hwhole
  rw [hlen] at hpacked
  refine ⟨_, copyOut_eq right hdestination hroom, hpacked.congr fun i hi => ?_⟩
  simp [slice, hi]

/-- Two buffers that hold the same bits at a position are copied out alike, whatever their
sizes and their other bits are. -/
theorem copyOut_congr {other : Array UInt8} (right : Bool)
    (hdestination : bytesOfBits bits ≤ destination.length)
    (hroom : pos + bits ≤ 8 * buffer.size) (hother : pos + bits ≤ 8 * other.size)
    (hsame : ∀ i < bits, bitAt other (pos + i) = bitAt buffer (pos + i)) :
    copyOut other pos destination bits right = copyOut buffer pos destination bits right := by
  have hslice : slice other pos bits = slice buffer pos bits := by
    apply slice_congr
    intro i hlow hhigh
    have hback : pos + (i - pos) = i := by omega
    rw [← hback]
    exact hsame (i - pos) (by omega)
  rw [copyOut_eq right hdestination hother, hslice, copyOut_eq right hdestination hroom]

/-- What was copied into a buffer is copied out again, its partial byte at the end where it is
asked for. -/
theorem copyOut_copyIn {source : List UInt8} (rightIn rightOut : Bool)
    (hsource : bytesOfBits bits ≤ source.length)
    (hdestination : bytesOfBits bits ≤ destination.length)
    (hroom : pos + bits ≤ 8 * buffer.size) :
    ∃ filled out, copyIn buffer pos source bits rightIn = some filled ∧
      copyOut filled pos destination bits rightOut = some out ∧
      Received destination bits rightOut (callerBit source bits rightIn) out := by
  obtain ⟨filled, hin, hspliced⟩ := copyIn_spliced rightIn hsource hroom
  have hfilled : pos + bits ≤ 8 * filled.size := by rwa [hspliced.size_eq]
  obtain ⟨out, hout, hreceived⟩ := copyOut_received rightOut hdestination hfilled
  exact ⟨filled, out, hin, hout,
    hreceived.congr fun i hi => hspliced.bitAt_taken hsource hi⟩

end CopyOut

/-! ## The bytes a copy looks at -/

/-- How many of so many bits go into one of the caller's bytes. -/
def share (bits index : Nat) : Nat :=
  min (bits - 8 * index) 8

/-- A pick looks at exactly the bytes that hold some of its bits: it fails where one of these
is missing, and nowhere else. -/
theorem pick_isSome_iff {buffer : Array UInt8} {pos count : Nat} (hcount : 1 ≤ count)
    (hcount8 : count ≤ 8) : (pick buffer pos count).isSome ↔ pos + count ≤ 8 * buffer.size := by
  constructor
  · intro hsome
    obtain ⟨byte, hbyte⟩ := Option.isSome_iff_exists.mp hsome
    simp only [pick, Option.bind_eq_bind, Option.bind_eq_some_iff] at hbyte
    obtain ⟨first, hfirst, hrest⟩ := hbyte
    have hindex : pos / 8 < buffer.size := (Array.getElem?_eq_some_iff.mp hfirst).1
    by_cases hspill : pos % 8 ≠ 0 ∧ pos % 8 + count > 8
    · rw [if_pos hspill, Option.bind_eq_some_iff] at hrest
      obtain ⟨second, hsecond, -⟩ := hrest
      have hnext : pos / 8 + 1 < buffer.size := (Array.getElem?_eq_some_iff.mp hsecond).1
      omega
    · omega
  · intro hroom
    rw [pick_eq hcount hcount8 hroom]
    rfl

/-- Every byte that a copy fills comes from one pick of its share of the bits. -/
theorem pick_of_copyOut {buffer : Array UInt8} {pos bits index : Nat}
    {destination out : List UInt8} {right : Bool}
    (hrun : copyOut buffer pos destination bits right = some out)
    (hindex : index < bytesOfBits bits) :
    ∃ byte, pick buffer (pos + 8 * index) (share bits index) = some byte ∧
      out[index]? = some (scatter byte (share bits index) right) := by
  have hbits : bits ≠ 0 := by
    rintro rfl
    simp [bytesOfBits] at hindex
  induction destination generalizing pos bits out index with
  | nil => simp [copyOut, hbits] at hrun
  | cons old rest ih =>
    simp only [copyOut, if_neg hbits, Option.bind_eq_bind, Option.bind_eq_some_iff,
      Option.pure_def, Option.some.injEq] at hrun
    obtain ⟨byte, hbyte, tail, htail, rfl⟩ := hrun
    cases index with
    | zero => exact ⟨byte, by simpa [share] using hbyte, by simp [share]⟩
    | succ index =>
      -- The first byte was a whole one, so the rest of the run is a copy eight bits further on.
      have hmore : 8 * (index + 1) < bits := by
        unfold bytesOfBits at hindex
        omega
      have hpos : pos + min bits 8 + 8 * index = pos + 8 * (index + 1) := by omega
      have hshare : share (bits - min bits 8) index = share bits (index + 1) := by
        unfold share
        omega
      have hleft : index < bytesOfBits (bits - min bits 8) := by
        unfold bytesOfBits
        omega
      obtain ⟨next, hnext, hget⟩ := ih htail hleft (by omega)
      rw [hpos, hshare] at hnext
      rw [hshare] at hget
      exact ⟨next, hnext, by rwa [List.getElem?_cons_succ]⟩

/-- What a copy out of a buffer does, at every bit and at every byte.  It never looks outside
the buffer or the caller's bytes, at a byte that holds none of the bits, or at another bit; and
it takes back what a copy into the buffer put there, whichever end either caller uses. -/
theorem copyOut_bitwise (buffer : Array UInt8) (pos : Nat) (destination : List UInt8) (bits : Nat)
    (right : Bool) (hdestination : bytesOfBits bits ≤ destination.length)
    (hroom : pos + bits ≤ 8 * buffer.size) :
    ∃ out, copyOut buffer pos destination bits right = some out ∧
      Received destination bits right (fun i => bitAt buffer (pos + i)) out ∧
      (∀ index < bytesOfBits bits, ∃ byte,
        pick buffer (pos + 8 * index) (share bits index) = some byte ∧
        out[index]? = some (scatter byte (share bits index) right) ∧
        ∀ other : Array UInt8, (pick other (pos + 8 * index) (share bits index)).isSome ↔
          pos + 8 * index + share bits index ≤ 8 * other.size) ∧
      (∀ other : Array UInt8, pos + bits ≤ 8 * other.size →
        (∀ i < bits, bitAt other (pos + i) = bitAt buffer (pos + i)) →
        copyOut other pos destination bits right = some out) ∧
      ∀ (source : List UInt8) (rightIn : Bool), bytesOfBits bits ≤ source.length →
        ∃ filled back, copyIn buffer pos source bits rightIn = some filled ∧
          copyOut filled pos destination bits right = some back ∧
          Received destination bits right (callerBit source bits rightIn) back := by
  obtain ⟨out, hrun, hreceived⟩ := copyOut_received right hdestination hroom
  refine ⟨out, hrun, hreceived, ?looks, ?outside, ?inverse⟩
  case looks =>
    intro index hindex
    obtain ⟨byte, hbyte, hget⟩ := pick_of_copyOut hrun hindex
    refine ⟨byte, hbyte, hget, fun other => pick_isSome_iff ?_ (Nat.min_le_right _ _)⟩
    unfold share
    unfold bytesOfBits at hindex
    omega
  case outside =>
    intro other hother hsame
    rw [copyOut_congr right hdestination hroom hother hsame, hrun]
  case inverse =>
    intro source rightIn hsource
    exact copyOut_copyIn rightIn right hsource hdestination hroom

theorem copyOut_bitwise_at_the_end :
    bytesOfBits 11 ≤ [(1 : UInt8), 2, 3].length ∧ 3 + 11 ≤ 8 * #[(0xF5 : UInt8), 0x75].size ∧
      ∃ out, copyOut #[0xF5, 0x75] 3 [1, 2, 3] 11 true = some out ∧ out = [0xAB, 0x05, 3] ∧
        Received [1, 2, 3] 11 true (fun i => bitAt #[0xF5, 0x75] (3 + i)) out ∧
        copyOut #[0x15, 0x76, 0xFF] 3 [1, 2, 3] 11 true = some out ∧
        ∃ filled back, copyIn #[0xF5, 0x75] 3 [0xCD, 0x3F] 11 false = some filled ∧
          copyOut filled 3 [1, 2, 3] 11 true = some back ∧ back = [0xCD, 0x01, 3] := by
  have hdestination : bytesOfBits 11 ≤ [(1 : UInt8), 2, 3].length := by decide
  have hroom : 3 + 11 ≤ 8 * #[(0xF5 : UInt8), 0x75].size := by decide
  obtain ⟨out, hrun, hreceived, -, hother, hinverse⟩ :=
    copyOut_bitwise #[0xF5, 0x75] 3 [1, 2, 3] 11 true hdestination hroom
  obtain ⟨filled, back, hin, hback, -⟩ := hinverse [0xCD, 0x3F] false (by decide)
  have hvalue : copyOut #[0xF5, 0x75] 3 [1, 2, 3] 11 true = some [0xAB, 0x05, 3] := by decide
  have hfilled : copyIn #[0xF5, 0x75] 3 [0xCD, 0x3F] 11 false = some #[0xF9, 0xA4] := by decide
  have hagain : copyOut #[0xF9, 0xA4] 3 [1, 2, 3] 11 true = some [0xCD, 0x01, 3] := by decide
  refine ⟨hdestination, hroom, out, hrun, Option.some.inj (hrun.symm.trans hvalue), hreceived,
    hother #[0x15, 0x76, 0xFF] (by decide) (by decide), filled, back, hin, hback, ?_⟩
  obtain rfl : filled = #[0xF9, 0xA4] := Option.some.inj (hin.symm.trans hfilled)
  exact Option.some.inj (hback.symm.trans hagain)

end BitCodec.Bits
