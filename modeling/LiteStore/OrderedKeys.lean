-- Ordered index keys. The payload of a row is a code of the values of its index
-- columns: the order of the payloads is the order of the values, column after
-- column, each ascending or descending.
import LiteStore.Values
import LiteStore.Lib.OrderedCode

namespace litestore

open checked orderedcode List

/-! ## Numbers, most significant byte first -/

theorem highFirst_map_toNat (n length : Nat) :
    (highFirst n length).map UInt8.toNat = digits.fixed 256 length n := by
  simp only [highFirst, digits.fixed, map_map]
  apply map_congr_left
  intro i _
  exact byteAt_toNat n i

@[simp] theorem highFirst_length (n length : Nat) : (highFirst n length).length = length := by
  simp [highFirst]

/-- The order of the bytes is the order of the numbers. -/
theorem compare_highFirst {m n length : Nat} (hm : m < 256 ^ length) (hn : n < 256 ^ length) :
    compare (highFirst m length) (highFirst n length) = compare m n := by
  have hlt : ∀ k, ∀ d ∈ digits.fixed 256 length k, d < 256 := fun k d hd =>
    digits.fixed_lt (by decide) hd
  rw [← compare_map fun x _ y _ => (compare_byte x y).symm, highFirst_map_toNat,
    highFirst_map_toNat, digits.compare_eq (by simp) (hlt m) (hlt n), digits.value_fixed, digits.value_fixed,
    Nat.mod_eq_of_lt hm, Nat.mod_eq_of_lt hn]

theorem ranked_highFirst {m n length : Nat} (hm : m < 256 ^ length) (hn : n < 256 ^ length) :
    Ranked (compare m n) (highFirst m length) (highFirst n length) := by
  rw [← compare_highFirst hm hn]
  exact ranked_of_length (by simp)

theorem highFirst_cons (x : UInt8) (n length : Nat) :
    highFirst (x.toNat + 256 * n) (length + 1) = highFirst n length ++ [x] := by
  have hx : x.toNat < 256 := x.toNat_lt
  have hlow : byteAt (x.toNat + 256 * n) 0 = x := by
    apply UInt8.toNat_inj.mp
    rw [byteAt_toNat]
    omega
  have hhigh : ∀ i, byteAt (x.toNat + 256 * n) (i + 1) = byteAt n i := by
    intro i
    unfold byteAt
    rw [pow_succ', ← Nat.div_div_eq_div_mul]
    congr 2
    omega
  unfold highFirst
  rw [range_succ_eq_map, reverse_cons, map_append, map_singleton, hlow, ← map_reverse, map_map]
  congr 1
  apply map_congr_left
  intro i _
  exact hhigh i

/-- The bytes of a number in the row, turned around. -/
theorem highFirst_littleEndian (b : Bytes) : highFirst (littleEndian b) b.length = b.reverse := by
  induction b with
  | nil => rfl
  | cons x b ih =>
    rw [reverse_cons, ← ih]
    exact highFirst_cons x (littleEndian b) b.length

/-! ## The code of a value -/

/-- The bytes of some fields, one field behind the other. -/
def encodeFields : List Nat → List Nat → Bytes
  | w :: ws, f :: fs => highFirst f w ++ encodeFields ws fs
  | _, _ => []

/-- A sign and the digits; those of a negative number are turned over. -/
def signedDigits (precision : Nat) (n : Int) : Bytes :=
  (if n < 0 then 1 else 2) :: (digits.fixed 10 precision n.natAbs).map fun d =>
    UInt8.ofNat (if n < 0 then 57 - d else 48 + d)

def LiteStoredColumn.digitForm (col : LiteStoredColumn) : Bool :=
  decide (col.type = .numeric) && (col.decimalStorage || decide (col.precision > 18))

/-- What is added to a number of the machine so that it is not negative. -/
def LiteStoredColumn.bias (col : LiteStoredColumn) : Int :=
  if col.unsignedNumeric then 0 else 2 ^ (8 * col.length - 1)

/-- The bytes of a value, before zeros are marked. -/
def orderedRaw (col : LiteStoredColumn) : SqlValue → Bytes
  | .text bytes => bytes
  | .datetime fields => encodeFields (datetimeWidths col.length) fields
  | .number n => if col.digitForm then signedDigits col.precision n
    else highFirst (n + col.bias).toNat col.length

/-- The types that keep a number. -/
def numberTypes : List LiteCodecType :=
  [.int8, .int16, .int32, .int64, .interval, .boolean, .numeric]

/-- The values that a column can hold. -/
def ValueOf (col : LiteStoredColumn) : SqlValue → Prop
  | .text _ => col.type ∈ [LiteCodecType.varchar, .varbinary, .char, .binary]
  | .datetime fields => col.type = .datetime ∧
    Forall₂ (fun w f => f < 256 ^ w) (datetimeWidths col.length) fields
  | .number n => col.type ∈ numberTypes ∧
    if col.digitForm then n.natAbs < 10 ^ col.precision
    else 0 ≤ n + col.bias ∧ n + col.bias < 256 ^ col.length

theorem ranked_fields {ws fs gs : List Nat} (hf : Forall₂ (fun w f => f < 256 ^ w) ws fs)
    (hg : Forall₂ (fun w f => f < 256 ^ w) ws gs) :
    Ranked (compare fs gs) (encodeFields ws fs) (encodeFields ws gs) := by
  induction hf generalizing gs with
  | nil =>
    cases hg
    exact Ranked.refl []
  | @cons w f ws fs hw _ ih =>
    obtain _ | ⟨hw', hg⟩ := hg
    rw [List.compare_cons_cons]
    exact (ranked_highFirst hw hw').append (ih hg)

variable {n : Int} {ds : Bytes} {signed : Bool}

theorem compare_int_eq_nat {m : Int} {k l : Nat} (hlt : m < n ↔ k < l) (heq : m = n ↔ k = l) :
    compare m n = compare k l := by
  simp only [compare, compareOfLessAndEq, hlt, heq]

/-- The order of signed digits is the order of the numbers. -/
theorem compare_signedDigits {p : Nat} {m : Int} (hm : m.natAbs < 10 ^ p) (hn : n.natAbs < 10 ^ p) :
    compare (signedDigits p m) (signedDigits p n) = compare m n := by
  have hlt : ∀ k, ∀ d ∈ digits.fixed 10 p k, d < 10 := fun k d hd =>
    digits.fixed_lt (by decide) hd
  have hfixed : ∀ k l : Int, k.natAbs < 10 ^ p → l.natAbs < 10 ^ p →
      compare (digits.fixed 10 p k.natAbs) (digits.fixed 10 p l.natAbs) =
        compare k.natAbs l.natAbs := by
    intro k l hk hl
    rw [digits.compare_eq (by simp) (hlt _) (hlt _), digits.value_fixed, digits.value_fixed,
      Nat.mod_eq_of_lt hk, Nat.mod_eq_of_lt hl]
  have hup : ∀ x < 10, ∀ y < 10,
      compare (UInt8.ofNat (48 + x)) (UInt8.ofNat (48 + y)) = compare x y := by decide
  have hdown : ∀ x < 10, ∀ y < 10,
      compare (UInt8.ofNat (57 - x)) (UInt8.ofNat (57 - y)) = compare y x := by decide
  unfold signedDigits
  rw [List.compare_cons_cons]
  by_cases hm0 : m < 0
  · by_cases hn0 : n < 0
    · simp only [hm0, hn0, if_true]
      rw [compare_map_swap (by simp) fun x hx y hy => hdown x (hlt _ x hx) y (hlt _ y hy),
        hfixed n m hn hm]
      exact (compare_int_eq_nat (by omega) (by omega)).symm
    · simp only [hm0, hn0, if_true, if_false]
      exact (compare_lt_iff_lt.mpr (by omega : m < n)).symm
  · by_cases hn0 : n < 0
    · simp only [hm0, hn0, if_true, if_false]
      exact (compare_gt_iff_gt.mpr (by omega : m > n)).symm
    · simp only [hm0, hn0, if_false]
      rw [compare_map fun x hx y hy => hup x (hlt _ x hx) y (hlt _ y hy), hfixed m n hm hn]
      exact (compare_int_eq_nat (by omega) (by omega)).symm

def columnKind : LiteCodecType → Nat
  | .varchar | .varbinary | .char | .binary => 1
  | .datetime => 2
  | _ => 0

variable {col : LiteStoredColumn}

theorem ValueOf.kind_eq {v : SqlValue} (h : ValueOf col v) : v.kind = columnKind col.type := by
  cases v with
  | text bytes =>
    simp only [ValueOf, mem_cons, not_mem_nil, or_false] at h
    rcases h with h | h | h | h <;> rw [h] <;> rfl
  | datetime fields =>
    rw [h.1]
    rfl
  | number n =>
    have htype := h.1
    simp only [numberTypes, mem_cons, not_mem_nil, or_false] at htype
    rcases htype with h | h | h | h | h | h | h <;> rw [h] <;> rfl

/-- The bytes of two values of one column are in the order of the values. -/
theorem compare_orderedRaw {a b : SqlValue} (ha : ValueOf col a) (hb : ValueOf col b) :
    compare (orderedRaw col a) (orderedRaw col b) = a.cmp b := by
  have hkind : a.kind = b.kind := by rw [ha.kind_eq, hb.kind_eq]
  cases a with
  | text x =>
    cases b with
    | text y => rfl
    | datetime y | number y => cases hkind
  | datetime x =>
    cases b with
    | datetime y => exact (ranked_fields ha.2 hb.2).compare
    | text y | number y => cases hkind
  | number x =>
    cases b with
    | text y | datetime y => cases hkind
    | number y =>
      have hx := ha.2
      have hy := hb.2
      simp only [orderedRaw, SqlValue.cmp]
      by_cases hdigits : col.digitForm = true
      · rw [if_pos hdigits] at hx hy
        rw [if_pos hdigits, if_pos hdigits]
        exact compare_signedDigits hx hy
      · rw [if_neg hdigits] at hx hy
        have hpow : ((256 ^ col.length : Nat) : Int) = 256 ^ col.length := by push_cast; rfl
        rw [if_neg hdigits, if_neg hdigits, compare_highFirst (by omega) (by omega)]
        exact (compare_int_eq_nat (by omega) (by omega)).symm

open LiteStoredColumn

/-! ## Numbers of the machine -/

/-- A number of `n` bytes, with its sign bit. -/
theorem pow_bits {n : Nat} (hn : 0 < n) :
    (256 ^ n : Int) = 2 * 2 ^ (8 * n - 1) ∧ (2 ^ (8 * n) : Int) = 2 * 2 ^ (8 * n - 1) ∧
      ((256 ^ n : Nat) : Int) = 256 ^ n ∧ ((2 ^ (8 * n - 1) : Nat) : Int) = 2 ^ (8 * n - 1) := by
  have hbits : (2 ^ (8 * n) : Int) = 2 * 2 ^ (8 * n - 1) := by
    rw [← pow_succ']
    congr 1
    omega
  refine ⟨?_, hbits, by push_cast; rfl, by push_cast; rfl⟩
  rw [← hbits, pow_mul]
  norm_num

theorem binaryNumber_range {b : Bytes} (hlen : b.length = col.length) (hpos : 0 < col.length) :
    0 ≤ binaryNumber b col.unsignedNumeric + col.bias ∧
      binaryNumber b col.unsignedNumeric + col.bias < 256 ^ col.length := by
  have hlt := littleEndian_lt b
  obtain ⟨hbytes, hbits, hcast, hsign⟩ := pow_bits hpos
  unfold binaryNumber bias
  rw [hlen] at hlt ⊢
  cases col.unsignedNumeric with
  | true =>
    simp only [Bool.true_or, if_true]
    omega
  | false =>
    simp only [Bool.false_or, decide_eq_true_eq, Bool.false_eq_true, if_false]
    split <;> omega

theorem orderedIntBits_eq {b : Bytes} (hlen : b.length = col.length) (hpos : 0 < col.length) :
    orderedIntBits (littleEndian b) (col.length * 8) col.unsignedNumeric =
      (binaryNumber b col.unsignedNumeric + col.bias).toNat := by
  obtain ⟨-, hbits, -, hsign⟩ := pow_bits hpos
  unfold orderedIntBits binaryNumber bias
  rw [Nat.mul_comm col.length 8, hlen]
  cases col.unsignedNumeric with
  | true => simp
  | false =>
    simp only [Bool.false_or, decide_eq_true_eq, Bool.false_eq_true, if_false]
    by_cases h : littleEndian b < 2 ^ (8 * col.length - 1)
    · rw [if_neg (by omega), if_pos h]
      omega
    · rw [if_pos (by omega), if_neg h]
      omega

/-! ## Digits -/

theorem isDigitByte_iff {d : UInt8} : isDigitByte d = true ↔ 48 ≤ d.toNat ∧ d.toNat ≤ 57 := by
  unfold isDigitByte
  rw [Bool.and_eq_true, decide_eq_true_eq, decide_eq_true_eq, UInt8.le_iff_toNat_le,
    UInt8.le_iff_toNat_le]
  rfl

/-- The numbers of some digit bytes. -/
def digitNumbers (ds : Bytes) : List Nat := ds.map fun d => d.toNat - 48

theorem digitNumbers_lt (h : ∀ d ∈ ds, isDigitByte d = true) : ∀ n ∈ digitNumbers ds, n < 10 := by
  intro n hn
  obtain ⟨d, hd, rfl⟩ := mem_map.mp hn
  have := isDigitByte_iff.mp (h d hd)
  omega

theorem natAbs_digitsNumber (signed : Bool) (ds : Bytes) :
    (digitsNumber signed ds).natAbs = digits.value 10 (digitNumbers ds) := by
  unfold digitsNumber digitNumbers
  cases signed <;> simp

theorem digitsNumber_lt (h : ∀ d ∈ ds, isDigitByte d = true) :
    (digitsNumber signed ds).natAbs < 10 ^ ds.length := by
  have hlen : ds.length = (digitNumbers ds).length := by simp [digitNumbers]
  rw [natAbs_digitsNumber, hlen]
  exact digits.value_lt (digitNumbers_lt h)

/-- The digits that `appendOrderedDecimalDigits` writes are those of the value. -/
theorem signedDigits_of_digits (h : ∀ d ∈ ds, isDigitByte d = true) :
    ((if signed && ds.any (· ≠ 48) then 1 else 2) ::
        ds.map fun d => if signed && ds.any (· ≠ 48) then 57 - (d - 48) else d) =
      signedDigits ds.length (digitsNumber signed ds) := by
  have hvalue : digitsNumber signed ds = if signed then
      -(digits.value 10 (digitNumbers ds) : Int) else digits.value 10 (digitNumbers ds) := rfl
  have hfixed : digits.fixed 10 ds.length (digitsNumber signed ds).natAbs = digitNumbers ds := by
    have hlen : ds.length = (digitNumbers ds).length := by simp [digitNumbers]
    rw [natAbs_digitsNumber, hlen]
    exact digits.fixed_value (digitNumbers_lt h)
  have hneg : (signed && ds.any (· ≠ 48)) = decide (digitsNumber signed ds < 0) := by
    have hzero : digits.value 10 (digitNumbers ds) = 0 ↔ ∀ d ∈ ds, d = 48 := by
      rw [digits.value_eq_zero_iff (by decide)]
      unfold digitNumbers
      rw [forall_mem_map]
      refine forall₂_congr fun d hd => ?_
      have hdigit := isDigitByte_iff.mp (h d hd)
      rw [← UInt8.toNat_inj]
      show d.toNat - 48 = 0 ↔ d.toNat = 48
      omega
    rw [hvalue]
    cases signed with
    | false => simp
    | true =>
      simp only [Bool.true_and, if_true, ne_eq, decide_not]
      rw [Bool.eq_iff_iff, decide_eq_true_eq, any_eq_true]
      simp only [Bool.not_eq_true', decide_eq_false_iff_not]
      constructor
      · rintro ⟨d, hd, hne⟩
        have hpos : digits.value 10 (digitNumbers ds) ≠ 0 := fun hz => hne (hzero.mp hz d hd)
        omega
      · intro hlt
        by_contra hall
        push Not at hall
        have := hzero.mpr hall
        omega
  unfold signedDigits
  rw [hfixed, hneg]
  simp only [decide_eq_true_eq, digitNumbers, map_map]
  congr 1
  apply map_congr_left
  intro d hd
  have hdigit := isDigitByte_iff.mp (h d hd)
  have hbyte : ∀ k < 10, UInt8.ofNat (57 - k) = 57 - (UInt8.ofNat (48 + k) - 48) := by decide
  have hd' : d = UInt8.ofNat (48 + (d.toNat - 48)) := by
    rw [show 48 + (d.toNat - 48) = d.toNat by omega, UInt8.ofNat_toNat]
  rw [Function.comp_apply]
  split
  · rw [hbyte _ (by omega), ← hd']
  · exact hd'

/-- A magnitude that fits is written with all its digits. -/
theorem decimalDigits_of_lt {magnitude precision : Nat} (h : magnitude < 10 ^ precision) :
    ∃ ds, decimalDigits magnitude precision = some ds ∧ ds.length = precision ∧
      (∀ d ∈ ds, isDigitByte d = true) ∧ digits.value 10 (digitNumbers ds) = magnitude := by
  have hlen : (Nat.digits 10 magnitude).length ≤ precision :=
    (Nat.digits_length_le_iff (by decide) magnitude).mpr h
  have hlt : ∀ d ∈ Nat.digits 10 magnitude, d < 10 := fun d hd =>
    Nat.digits_lt_base (by decide) hd
  have hnumber : ∀ k < 10, (UInt8.ofNat (48 + k)).toNat - 48 = k ∧
      isDigitByte (UInt8.ofNat (48 + k)) = true := by decide
  refine ⟨replicate (precision - (Nat.digits 10 magnitude).reverse.length) 48 ++
    (Nat.digits 10 magnitude).reverse.map fun d => UInt8.ofNat (48 + d), ?_, ?_, ?_, ?_⟩
  · unfold decimalDigits
    dsimp only
    rw [if_neg (by simpa using hlen)]
  · simp
    omega
  · intro d hd
    rcases mem_append.mp hd with hd | hd
    · rw [eq_of_mem_replicate hd]
      rfl
    · obtain ⟨k, hk, rfl⟩ := mem_map.mp hd
      exact (hnumber k (hlt k (mem_reverse.mp hk))).2
  · have hpad : digitNumbers (replicate
        (precision - (Nat.digits 10 magnitude).reverse.length) 48) =
        replicate (precision - (Nat.digits 10 magnitude).reverse.length) 0 := by
      simp [digitNumbers]
    have hdigits : digitNumbers ((Nat.digits 10 magnitude).reverse.map
        fun d => UInt8.ofNat (48 + d)) = (Nat.digits 10 magnitude).reverse := by
      unfold digitNumbers
      rw [map_map]
      conv_rhs => rw [← map_id (Nat.digits 10 magnitude).reverse]
      apply map_congr_left
      intro k hk
      exact (hnumber k (hlt k (mem_reverse.mp hk))).1
    have happend : ∀ a b : Bytes, digitNumbers (a ++ b) = digitNumbers a ++ digitNumbers b :=
      fun a b => map_append
    rw [happend, digits.value_append, hpad, hdigits, digits.value_replicate_zero,
      digits.value_reverse_digits]
    omega

/-- What the builder writes for digits that stand for a value. -/
theorem appendOrderedDecimalDigits_of_digits {row : Bytes}
    (h : orderedDigits row col = .ok (signed, ds)) (hdigits : ∀ d ∈ ds, isDigitByte d = true)
    (hlen : ds.length = col.precision) :
    appendOrderedDecimalDigits row col =
      .ok (orderedEscaped (signedDigits col.precision (digitsNumber signed ds))) := by
  have hvalid : ds.any (fun d => d < 48 || d > 57) = false := by
    rw [any_eq_false]
    intro d hd
    have hdigit := hdigits d hd
    simp only [isDigitByte, Bool.and_eq_true, decide_eq_true_eq] at hdigit
    simp only [Bool.or_eq_true, decide_eq_true_eq, not_or, UInt8.not_lt]
    exact hdigit
  unfold appendOrderedDecimalDigits
  rw [h]
  simp only [ok_bind, hvalid, Bool.false_eq_true, if_false]
  rw [← hlen, ← signedDigits_of_digits hdigits]

/-! ## Datetimes -/

/-- The blocks of some fields, each turned around. -/
def turnedBlocks : List Nat → Bytes → Bytes
  | [], _ => []
  | w :: ws, bytes => (bytes.take w).reverse ++ turnedBlocks ws (bytes.drop w)

theorem encodeFields_fieldValues {ws : List Nat} {bytes : Bytes} (h : ws.sum ≤ bytes.length) :
    encodeFields ws (fieldValues ws bytes) = turnedBlocks ws bytes := by
  induction ws generalizing bytes with
  | nil => rfl
  | cons w ws ih =>
    rw [sum_cons] at h
    have htake : (bytes.take w).length = w := by
      rw [length_take]
      omega
    have hblock := highFirst_littleEndian (bytes.take w)
    rw [htake] at hblock
    rw [fieldValues, encodeFields, turnedBlocks, hblock, ih]
    rw [length_drop]
    omega

theorem fieldValues_lt (ws : List Nat) (bytes : Bytes) :
    Forall₂ (fun w f => f < 256 ^ w) ws (fieldValues ws bytes) := by
  induction ws generalizing bytes with
  | nil => exact .nil
  | cons w ws ih =>
    refine .cons ?_ (ih _)
    calc littleEndian (bytes.take w) < 256 ^ (bytes.take w).length := littleEndian_lt _
      _ ≤ 256 ^ w := Nat.pow_le_pow_right (by decide) (length_take_le _ _)

theorem appendOrderedDatetime_eq {row : Bytes}
    (hlen : col.length = 4 ∨ col.length = 8 ∨ col.length = 11)
    (hrange : hasRange row col.offset col.length = true) :
    appendOrderedDatetime row col = .ok (orderedEscaped (encodeFields (datetimeWidths col.length)
      (fieldValues (datetimeWidths col.length) (slice row col.offset col.length)))) := by
  have hslice := slice_eq_map hrange
  have hbytes := slice_length hrange
  rcases hlen with h | h | h <;>
  · rw [encodeFields_fieldValues (by rw [hbytes, h]; decide), hslice]
    rw [h] at hrange
    simp [appendOrderedDatetime, hrange, h, datetimeWidths, turnedBlocks, range_succ]

/-! ## The component of a column -/

/-- A `DECIMAL` has at most eighteen digits. The parser refuses others (error 3016). A wider one
would be stored as a big number and read as digits here. -/
def LiteStoredColumn.decimalFits (col : LiteStoredColumn) : Prop :=
  col.decimalStorage = true → col.precision ≤ 18

section Component

variable {row : Bytes} {v : SqlValue}

theorem orderedComponentBytes_number (h : col.type ∈ numberTypes) :
    orderedComponentBytes row col =
      if col.digitForm then appendOrderedDecimalDigits row col
      else if !hasRange row col.offset col.length || col.length = 0 || col.length > 8 then
        .error "invalid lite ordered numeric index value"
      else .ok (orderedEscaped (highFirst (orderedIntBits
        (littleEndian (slice row col.offset col.length)) (col.length * 8) col.unsignedNumeric)
        col.length)) := by
  unfold numberTypes at h
  simp only [mem_cons, not_mem_nil, or_false] at h
  rcases h with h | h | h | h | h | h | h <;>
    simp [orderedComponentBytes, digitForm, h]

/-- A column that keeps a number of the machine. -/
theorem binary_component (hsound : col.toMappedType.Sound) (hmem : col.type ∈ numberTypes)
    (hform : col.digitForm = false)
    (hv : (fixedBytes row col).map (fun b => SqlValue.number (binaryNumber b col.unsignedNumeric)) =
      some v) :
    ValueOf col v ∧ orderedComponentBytes row col = .ok (orderedEscaped (orderedRaw col v)) := by
  obtain ⟨hrange, rfl⟩ := map_fixedBytes_eq_some.mp hv
  have hbinary : 0 < col.length ∧ col.length ≤ 8 := by
    apply hsound.binary
    by_cases hnum : col.type = .numeric
    · right
      simpa [digitForm, hnum] using hform
    · left
      simp only [numberTypes, mem_cons, not_mem_nil, or_false] at hmem ⊢
      tauto
  have hlen := slice_length hrange
  constructor
  · refine ⟨hmem, ?_⟩
    rw [hform]
    exact binaryNumber_range hlen hbinary.1
  · have hok : (!hasRange row col.offset col.length || decide (col.length = 0) ||
        decide (col.length > 8)) = false := by
      simp [hrange]
      omega
    rw [orderedComponentBytes_number hmem, hok, hform, orderedIntBits_eq hlen hbinary.1]
    simp only [orderedRaw, hform, Bool.false_eq_true, if_false]

theorem slice_succ {offset n : Nat} (h : hasRange row offset (n + 1) = true) :
    slice row offset (n + 1) = byteOf row offset :: slice row (offset + 1) n := by
  have hrest : hasRange row (offset + 1) n = true := by
    simp only [hasRange, Bool.and_eq_true, decide_eq_true_eq] at h ⊢
    omega
  rw [slice_eq_map h, slice_eq_map hrest, range_succ_eq_map]
  simp [Function.comp_def, Nat.add_assoc, Nat.add_comm 1]

/-- A `DECIMAL` that is stored as digits. -/
theorem decimal_component (hsound : col.toMappedType.Sound) (hnum : col.type = .numeric)
    (hdec : col.decimalStorage = true) (hrange : hasRange row col.offset col.length = true)
    (hn : decimalNumber (slice row col.offset col.length) = some n) :
    ValueOf col (.number n) ∧
      orderedComponentBytes row col = .ok (orderedEscaped (orderedRaw col (.number n))) := by
  have hlen := hsound.decimal hnum hdec
  have hform : col.digitForm = true := by simp [digitForm, hnum, hdec]
  obtain ⟨k, hk⟩ : ∃ k, col.length = k + 1 := by
    have := hsound.precise hnum
    exact ⟨col.length - 1, by omega⟩
  have hslice : slice row col.offset col.length =
      byteOf row col.offset :: slice row (col.offset + 1) (col.length - 1) := by
    rw [hk] at hrange ⊢
    exact slice_succ hrange
  rw [hslice] at hn
  simp only [decimalNumber, Option.ite_none_right_eq_some, Option.some.injEq, all_eq_true] at hn
  obtain ⟨hdigits, rfl⟩ := hn
  have hread : orderedDigits row col = .ok (decide (byteOf row col.offset ≥ 128),
      (byteOf row col.offset &&& 127) :: slice row (col.offset + 1) (col.length - 1)) := by
    simp [orderedDigits, hdec, ← hlen, hrange]
  have hcount : ((byteOf row col.offset &&& 127) ::
      slice row (col.offset + 1) (col.length - 1)).length = col.precision := by
    have hbytes := slice_length hrange
    rw [hslice, length_cons] at hbytes
    rw [length_cons]
    omega
  constructor
  · refine ⟨by simp [hnum, numberTypes], ?_⟩
    rw [if_pos hform, ← hcount]
    exact digitsNumber_lt hdigits
  · rw [orderedComponentBytes_number (by simp [hnum, numberTypes]), if_pos hform,
      appendOrderedDecimalDigits_of_digits hread hdigits hcount]
    simp only [orderedRaw, hform, if_true]

/-- A number of more than eighteen digits. -/
theorem bigNumber_component (hnum : col.type = .numeric) (hdec : col.decimalStorage = false)
    (hprec : 18 < col.precision) (hrange : hasRange row col.offset col.length = true)
    (hn : bigNumber (slice row col.offset col.length) col.precision = some n) :
    ValueOf col (.number n) ∧
      orderedComponentBytes row col = .ok (orderedEscaped (orderedRaw col (.number n))) := by
  have hform : col.digitForm = true := by simp [digitForm, hnum, hprec]
  simp only [bigNumber, Option.ite_none_right_eq_some, Option.some.injEq] at hn
  obtain ⟨hfit, rfl⟩ := hn
  obtain ⟨ds, hds, hcount, hdigits, hvalue⟩ := decimalDigits_of_lt hfit
  have hread : orderedDigits row col = .ok (decide
      (littleEndian (slice row col.offset col.length) ≥
        2 ^ (8 * (slice row col.offset col.length).length - 1)), ds) := by
    unfold orderedDigits bigNumAscii
    simp only [hdec, hrange, Bool.not_true, Bool.false_or, Bool.false_eq_true, if_false,
      decide_eq_true_eq, if_neg (Nat.not_le.mpr hprec), hds, Option.map_some]
  have hnumber : digitsNumber (decide (littleEndian (slice row col.offset col.length) ≥
      2 ^ (8 * (slice row col.offset col.length).length - 1))) ds =
      if littleEndian (slice row col.offset col.length) ≥
        2 ^ (8 * (slice row col.offset col.length).length - 1) then
      -((littleEndian (slice row col.offset col.length) %
        2 ^ (8 * (slice row col.offset col.length).length - 1) : Nat) : Int) else
      ((littleEndian (slice row col.offset col.length) %
        2 ^ (8 * (slice row col.offset col.length).length - 1) : Nat) : Int) := by
    simp only [digitsNumber, decide_eq_true_eq]
    rw [← hvalue]
    rfl
  rw [← hnumber]
  constructor
  · refine ⟨by simp [hnum, numberTypes], ?_⟩
    rw [if_pos hform, ← hcount]
    exact digitsNumber_lt hdigits
  · rw [orderedComponentBytes_number (by simp [hnum, numberTypes]), if_pos hform,
      appendOrderedDecimalDigits_of_digits hread hdigits hcount]
    simp only [orderedRaw, hform, if_true]

/-- A text, of variable or of fixed length. -/
theorem text_component (htype : col.type ∈ [LiteCodecType.varchar, .varbinary, .char, .binary])
    {len : Nat} (hlen : len = if isVariableType col.type then varLength row col.vcLenIndOffset
      else col.length) (hrange : hasRange row col.offset len = true) :
    ValueOf col (.text (slice row col.offset len)) ∧ orderedComponentBytes row col =
      .ok (orderedEscaped (orderedRaw col (.text (slice row col.offset len)))) := by
  refine ⟨htype, ?_⟩
  simp only [mem_cons, not_mem_nil, or_false] at htype
  rcases htype with h | h | h | h <;>
  · rw [h] at hlen
    simp only [isVariableType, if_true, Bool.false_eq_true, if_false] at hlen
    rw [hlen] at hrange
    simp [orderedComponentBytes, h, isVariableType, hlen, hrange, orderedRaw]

/-- What the builder writes for a column is the code of its value. -/
theorem orderedComponentBytes_eq (hsound : col.toMappedType.Sound)
    (hfits : col.decimalFits) (hv : storedValue row col = some v) :
    ValueOf col v ∧ orderedComponentBytes row col = .ok (orderedEscaped (orderedRaw col v)) := by
  unfold storedValue at hv
  split at hv
  iterate 2
    · rename_i htype
      simp only [Option.ite_none_right_eq_some, Bool.and_eq_true, Option.some.injEq] at hv
      obtain ⟨⟨-, hrange⟩, rfl⟩ := hv
      exact text_component (by simp [htype]) (by simp [htype, isVariableType]) hrange
  iterate 2
    · rename_i htype
      obtain ⟨hrange, rfl⟩ := map_fixedBytes_eq_some.mp hv
      exact text_component (by simp [htype]) (by simp [htype, isVariableType]) hrange
  · cases hv
  · cases hv
  · rename_i htype
    obtain ⟨hrange, rfl⟩ := map_fixedBytes_eq_some.mp hv
    refine ⟨⟨htype, fieldValues_lt _ _⟩, ?_⟩
    have hdate := appendOrderedDatetime_eq (hsound.datetime htype) hrange
    simpa only [orderedComponentBytes, htype, orderedRaw] using hdate
  · rename_i hnum
    by_cases hprec : col.precision > 18
    · rw [if_pos hprec] at hv
      have hdec : col.decimalStorage = false :=
        Bool.eq_false_iff.mpr fun hdec => absurd (hfits hdec) (Nat.not_le.mpr hprec)
      obtain ⟨hrange, n, hn, rfl⟩ := bind_fixedBytes_eq_some.mp hv
      exact bigNumber_component hnum hdec hprec hrange hn
    · rw [if_neg hprec] at hv
      by_cases hdec : col.decimalStorage = true
      · rw [if_pos hdec] at hv
        obtain ⟨hrange, n, hn, rfl⟩ := bind_fixedBytes_eq_some.mp hv
        exact decimal_component hsound hnum hdec hrange hn
      · rw [if_neg hdec] at hv
        exact binary_component hsound (by simp [hnum, numberTypes])
          (by simp [digitForm, hprec, hdec]) hv
  all_goals
    rename_i htype
    exact binary_component hsound (by simp [htype, numberTypes])
      (by simp [digitForm, htype]) hv

end Component

end litestore
