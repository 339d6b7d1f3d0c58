/-!
# Byte strings of a fixed length

A whole number as a list of bytes, least significant first (`le`) or most
significant first (`be`), and the way back.  The numbers are plain naturals:
one that needs more bytes than it is given keeps only its low bytes.
-/

namespace BitCodec.Octets

/-- The low `count` bytes of a number, least significant first. -/
def le : Nat → Nat → List UInt8
  | 0, _ => []
  | count + 1, number => UInt8.ofNat number :: le count (number / 256)

/-- The low `count` bytes of a number, most significant first. -/
def be (count number : Nat) : List UInt8 :=
  (le count number).reverse

/-- The number whose bytes these are, least significant first. -/
def ofLe : List UInt8 → Nat
  | [] => 0
  | byte :: rest => byte.toNat + 256 * ofLe rest

/-- The number whose bytes these are, most significant first. -/
def ofBe (bytes : List UInt8) : Nat :=
  ofLe bytes.reverse

@[simp] theorem length_le (count number : Nat) : (le count number).length = count := by
  induction count generalizing number with
  | zero => rfl
  | succ count ih => simp [le, ih]

@[simp] theorem length_be (count number : Nat) : (be count number).length = count := by
  simp [be]

/-- Every byte string is the form of the number it stands for. -/
theorem le_ofLe (bytes : List UInt8) : le bytes.length (ofLe bytes) = bytes := by
  induction bytes with
  | nil => rfl
  | cons byte rest ih =>
    have bound := byte.toNat_lt
    have low : UInt8.ofNat (byte.toNat + 256 * ofLe rest) = byte := by
      apply UInt8.toNat_inj.mp
      simp only [UInt8.toNat_ofNat']
      omega
    have high : (byte.toNat + 256 * ofLe rest) / 256 = ofLe rest := by omega
    simp only [List.length_cons, ofLe, le, low, high, ih]

end BitCodec.Octets
