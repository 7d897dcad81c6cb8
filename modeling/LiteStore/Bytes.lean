-- Byte strings. The store keeps every key and every value as a byte string,
-- ordered byte by byte. A 64-bit number is written as eight bytes, most
-- significant first, so the order of the bytes is the order of the numbers.
import Mathlib

namespace litestore

open List

/-- A `std::string` that holds bytes. `compare` on it is the order of RocksDB. -/
abbrev Bytes := List UInt8

instance : LawfulBEq Bytes := inferInstance

theorem compare_byte (x y : UInt8) : compare x y = compare x.toNat y.toNat := by
  simp only [compare, compareOfLessAndEq, UInt8.lt_iff_toNat_lt, ← UInt8.toNat_inj]

/-! ## Numbers in keys -/

section

variable (n : Nat) (b : Bytes) (v : UInt64)

/-- The byte of weight `256 ^ i` of a number. -/
def byteAt (i : Nat) : UInt8 := UInt8.ofNat (n / 256 ^ i)

/-- The eight bytes that `appendUint64` and `appendKeyUint64` add. -/
def uint64Bytes : Bytes :=
  [byteAt v.toNat 7, byteAt v.toNat 6, byteAt v.toNat 5, byteAt v.toNat 4,
   byteAt v.toNat 3, byteAt v.toNat 2, byteAt v.toNat 1, byteAt v.toNat 0]

/-- The size of a string as the eight bytes in front of it. -/
def sizeBytes : Bytes := uint64Bytes (UInt64.ofNat n)

/-- The number of some bytes, most significant first. -/
def bigEndian : Nat := b.foldl (fun acc x => acc * 256 + x.toNat) 0

/-- `readUint64`: at most eight bytes from the front. -/
def readUint64 : UInt64 := UInt64.ofNat (bigEndian (b.take 8))

@[simp] theorem uint64Bytes_length : (uint64Bytes v).length = 8 := rfl

@[simp] theorem sizeBytes_length : (sizeBytes n).length = 8 := rfl

theorem byteAt_toNat (i : Nat) : (byteAt n i).toNat = n / 256 ^ i % 256 := by
  simp [byteAt]

theorem bigEndian_uint64Bytes : bigEndian (uint64Bytes v) = v.toNat := by
  have hv : v.toNat < 2 ^ 64 := v.toNat_lt
  simp only [bigEndian, uint64Bytes, foldl_cons, foldl_nil, byteAt_toNat]
  norm_num
  omega

@[simp] theorem readUint64_uint64Bytes_append (rest : Bytes) :
    readUint64 (uint64Bytes v ++ rest) = v := by
  have htake : (uint64Bytes v ++ rest).take 8 = uint64Bytes v := by
    rw [take_append_of_le_length (by simp)]
    exact take_of_length_le (by simp)
  simp [readUint64, htake, bigEndian_uint64Bytes]

@[simp] theorem readUint64_uint64Bytes : readUint64 (uint64Bytes v) = v := by
  have h := readUint64_uint64Bytes_append v []
  rwa [append_nil] at h

/-- Different numbers have different bytes. -/
theorem uint64Bytes_inj {v w : UInt64} (h : uint64Bytes v = uint64Bytes w) : v = w := by
  rw [← readUint64_uint64Bytes v, h, readUint64_uint64Bytes]

/-- A prefix of eight bytes is read back, whatever stands behind it. -/
theorem uint64Bytes_append_inj {v w : UInt64} {r s : Bytes}
    (h : uint64Bytes v ++ r = uint64Bytes w ++ s) : v = w ∧ r = s := by
  have hp := append_inj h (by simp)
  exact ⟨uint64Bytes_inj hp.1, hp.2⟩

theorem sizeBytes_toNat {n : Nat} (h : n < 2 ^ 64) (rest : Bytes) :
    (readUint64 (sizeBytes n ++ rest)).toNat = n := by
  rw [sizeBytes, readUint64_uint64Bytes_append, UInt64.toNat_ofNat', Nat.mod_eq_of_lt h]

/-! ## Numbers in rows -/

/-- The number of some bytes, least significant first, as the machine stores it. -/
def littleEndian : Nat := b.foldr (fun x acc => x.toNat + 256 * acc) 0

theorem littleEndian_lt : littleEndian b < 256 ^ b.length := by
  induction b with
  | nil => simp [littleEndian]
  | cons x b ih =>
    have hx : x.toNat < 256 := x.toNat_lt
    have hcons : littleEndian (x :: b) = x.toNat + 256 * littleEndian b := rfl
    rw [hcons, length_cons, pow_succ']
    omega

theorem littleEndian_append (a b : Bytes) :
    littleEndian (a ++ b) = littleEndian a + 256 ^ a.length * littleEndian b := by
  induction a with
  | nil => simp [littleEndian]
  | cons x a ih =>
    have hcons : ∀ l, littleEndian (x :: l) = x.toNat + 256 * littleEndian l := fun l => rfl
    rw [cons_append, hcons, hcons, ih, length_cons, pow_succ']
    ring

/-- A byte of a row; a read past the end gives zero. -/
def byteOf (row : Bytes) (i : Nat) : UInt8 := row.getD i 0

/-- The `n` bytes of a row from `offset` on. -/
def slice (row : Bytes) (offset n : Nat) : Bytes := (row.drop offset).take n

/-- The bytes of a text of single-byte characters. -/
def textBytes (s : String) : Bytes := s.toList.map fun c => UInt8.ofNat c.toNat

def charsOf (bytes : Bytes) : List Char := bytes.map fun b => Char.ofNat b.toNat

/-- The text of a `c_str`: it ends at the first zero byte. -/
def cText : List Char := (b.takeWhile (· ≠ 0)).map fun c => Char.ofNat c.toNat

end

end litestore
