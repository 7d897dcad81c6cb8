-- What a text says and what `writeValue` stores for it. The stored value is the
-- value of the text for the texts that fit their column; the codec takes many
-- others as well, and then keeps another value than the text says.
import LiteStore.DatetimeReading
import LiteStore.KeyBuilders

namespace litestore

open checked List

/-! ## The value of a text -/

def characterType : LiteCodecType → Bool
  | .char | .varchar | .binary | .varbinary => true
  | _ => false

/-- A fraction of `precision` digits counted at another scale. It is whole there and fits in
four bytes, or there is none. -/
def exactFraction (fraction precision scale : Nat) : Option Nat :=
  if 10 ^ precision ∣ fraction * 10 ^ scale ∧ fraction * 10 ^ scale / 10 ^ precision < 2 ^ 32 then
    some (fraction * 10 ^ scale / 10 ^ precision)
  else none

/-- The fields of a datetime in a column. A date has no fraction. -/
def datetimeFields (col : LiteStoredColumn) (t : Datetime) : Option (List Nat) :=
  let fields := (fieldsFrom (datetimeStart col) (datetimeEnd col)).map t.field
  if datetimeEnd col = .second then (exactFraction t.fraction 9 col.scale).map (fields ++ [·])
  else some fields

def datetimeMeant (col : LiteStoredColumn) (text : List Char) : Option (List Nat) :=
  (datetimeText (datetimeStart col) (datetimeEnd col) text).bind (datetimeFields col)

def intervalText (col : LiteStoredColumn) (text : List Char) : Option Nat :=
  intervalValue col.intervalStart (col.precision % 2 ^ 32) col.intervalEnd (col.scale % 2 ^ 32) text

def booleanText (text : List Char) : Option Int :=
  if upper text = "TRUE".toList ∨ upper text = "1".toList then some 1
  else if upper text = "FALSE".toList ∨ upper text = "0".toList then some 0
  else none

/-- The numbers that a column of the type can hold. -/
def Representable (col : LiteStoredColumn) (n : Int) : Prop :=
  if col.type = .numeric then
    n.natAbs < 10 ^ col.precision ∧ (col.unsignedNumeric = true → 0 ≤ n)
  else InBinaryRange col.unsignedNumeric col.length n

instance (col : LiteStoredColumn) (n : Int) : Decidable (Representable col n) := by
  unfold Representable
  infer_instance

/-- The number that a text says, for the types of numbers. -/
def textNumber (col : LiteStoredColumn) (value : Bytes) : Option Int :=
  match col.type with
  | .numeric => numberText (charsOf value) col.scale
  | .boolean => booleanText (charsOf value)
  | .interval => if (0 : UInt8) ∈ value then none else (intervalText col (charsOf value)).map (↑)
  | _ => numberText (charsOf value) 0

/-- The value of a text in a column, where the column can hold it. A text with a zero byte is
no number, datetime or interval. -/
def textValue (col : LiteStoredColumn) (value : Bytes) : Option SqlValue :=
  match col.type with
  | .float32 | .float64 => none
  | .int8 | .int16 | .int32 | .int64 | .numeric | .boolean | .interval =>
    (textNumber col value).bind fun n => if Representable col n then some (.number n) else none
  | .datetime =>
    if (0 : UInt8) ∈ value then none else (datetimeMeant col (charsOf value)).map .datetime
  | .char => if value.length ≤ col.length then some (.text (padded value col.length 32)) else none
  | .binary => if value.length ≤ col.length then some (.text (padded value col.length 0)) else none
  | .varchar | .varbinary => if value.length ≤ col.length then some (.text value) else none

/-- What a text means: NULL, a value, or nothing that the column can hold. Only the empty text
of a type that has no characters is NULL. -/
def textMeaning (col : LiteStoredColumn) (value : Bytes) :
    Option (Option SqlValue) :=
  if value.isEmpty && !characterType col.type then if col.nullable then some none else none
  else (textValue col value).map some

/-! ## The value of stored bytes -/

/-- The value of the bytes of a column. -/
def contentValue (col : LiteStoredColumn) (b : Bytes) : Option SqlValue :=
  match col.type with
  | .varchar | .varbinary | .char | .binary => some (.text b)
  | .float32 | .float64 => none
  | .datetime => some (.datetime (fieldValues (datetimeWidths col.length) b))
  | .numeric =>
    if col.precision > 18 then (bigNumber b col.precision).map .number
    else if col.decimalStorage then (decimalNumber b).map .number
    else some (.number (binaryNumber b col.unsignedNumeric))
  | .int8 | .int16 | .int32 | .int64 | .interval | .boolean =>
    some (.number (binaryNumber b col.unsignedNumeric))

variable {first : Nat} {n : Int} {negative : Bool} {columns : List LiteStoredColumn}

theorem storedValue_eq {rowLen : Nat} (hp : Placed columns rowLen first) {c : LiteStoredColumn}
    (hc : c ∈ columns) {row : Bytes} (hlen : row.length = rowLen)
    (hshort : isVariableType c.type = true → varLength row c.vcLenIndOffset ≤ c.length) :
    storedValue row c = contentValue c (columnBytes row c) := by
  have hstop : c.offset + c.length ≤ row.length := hlen ▸ hp.inside c hc
  have hfixed : fixedBytes row c = some (slice row c.offset c.length) := by
    unfold fixedBytes
    rw [if_pos (hasRange_iff.mpr hstop)]
  unfold storedValue contentValue columnBytes
  rw [hfixed]
  cases htype : c.type with
  | varchar | varbinary =>
    have hv : isVariableType c.type = true := by rw [htype]; rfl
    have ho := hp.lengthFirst c hc hv
    have hs := hshort hv
    have hin : (hasRange row c.vcLenIndOffset variableLenSize &&
        hasRange row c.offset (varLength row c.vcLenIndOffset)) = true := by
      rw [Bool.and_eq_true, hasRange_iff, hasRange_iff]
      have hfour : variableLenSize = 4 := rfl
      omega
    simp [hin, isVariableType]
  | numeric => simp [isVariableType]
  | _ => rfl

/-- The value of a cell, NULL included. -/
def cellValue (col : LiteStoredColumn) : Cell → Option (Option SqlValue)
  | none => some none
  | some bytes => (contentValue col (cellContent col (some bytes))).map some

/-- What the row of a cell holds in its column. -/
theorem columnValue_storeCell {rowLen : Nat} (hp : Placed columns rowLen first)
    (hbits : (columns.filter (·.nullable)).length ≤ 2 ^ 15) {c : LiteStoredColumn}
    (hc : c ∈ columns) {row : Bytes} (hlen : row.length = rowLen) (hblank : Blank row c)
    {cell : Cell} (hfits : CellFits c cell) :
    columnValue (storeCell row c cell) c = cellValue c cell := by
  obtain ⟨hwrite, hholds⟩ := storeCell_spec hp hbits hc hlen hblank hfits
  unfold columnValue
  rw [hholds.isNull]
  cases cell with
  | none => rfl
  | some bytes =>
    rw [storedValue_eq hp hc (hwrite.length.trans hlen) hholds.short, hholds.bytes]
    rfl

/-! ## Numbers -/

/-- The bytes that a text becomes have its value, and a text without a value becomes none. -/
def KeepsValue (engine : Engine) (col : LiteStoredColumn) (value : Bytes) : Prop :=
  ∀ bytes, valueBytes engine col value = .ok bytes → ∃ v, textValue col value = some v ∧
    contentValue col (cellContent col (some bytes)) = some v

theorem padded_self {bytes : Bytes} {length : Nat} (h : bytes.length = length) (pad : UInt8) :
    padded bytes length pad = bytes := by
  unfold padded
  rw [h, Nat.sub_self, replicate_zero, append_nil]

def integerTypes : List LiteCodecType := [.int8, .int16, .int32, .int64]

variable {col : LiteStoredColumn}

/-- An integer type takes every text: `strtoll` reads what it can, and the cast drops the rest. -/
theorem valueBytes_integer (engine : Engine) (value : Bytes) (hexact : col.toMappedType.Exact)
    (htype : col.type ∈ integerTypes) :
    valueBytes engine col value = .ok (intBytes (strtol (cText value)) col.length) := by
  simp only [integerTypes, mem_cons, not_mem_nil, or_false] at htype
  unfold valueBytes
  rcases htype with h | h | h | h
  · rw [h, hexact.width 1 (by rw [h]; rfl)]
  · rw [h, hexact.width 2 (by rw [h]; rfl)]
  · rw [h, hexact.width 4 (by rw [h]; rfl)]
  · rw [h, hexact.width 8 (by rw [h]; rfl)]

variable {value : Bytes}

theorem strtol_of_number (h : numberText (charsOf value) 0 = some n) :
    strtol (cText value) = max (min n (2 ^ 63 - 1)) (-2 ^ 63) := by
  have hzero := no_zero_of_numberText h
  unfold numberText at h
  split at h
  · cases h
  · rename_i m f htext
    simp only [pow_zero, mul_one, Option.ite_none_right_eq_some, Option.some.injEq] at h
    obtain ⟨hdvd, rfl⟩ := h
    rw [cText_eq, cBytes_of_no_zero hzero, strtol_of_decimal htext, Int.tdiv_eq_ediv_of_dvd hdvd]

variable {engine : Engine}

theorem keepsValue_integer (hexact : col.toMappedType.Exact) (hsound : col.toMappedType.Sound)
    (htype : col.type ∈ integerTypes) :
    KeepsValue engine col value ↔ ∃ n, numberText (charsOf value) 0 = some n ∧
      InBinaryRange col.unsignedNumeric col.length n ∧ n < 2 ^ 63 := by
  have hbytes := valueBytes_integer engine value hexact htype
  obtain ⟨hpos, hle⟩ := hsound.binary (.inl (by
    simp only [integerTypes, mem_cons, not_mem_nil, or_false] at htype ⊢
    tauto))
  have htext : textValue col value = (numberText (charsOf value) 0).bind fun n =>
      if InBinaryRange col.unsignedNumeric col.length n then some (.number n) else none := by
    simp only [integerTypes, mem_cons, not_mem_nil, or_false] at htype
    rcases htype with h | h | h | h <;> simp [textValue, textNumber, Representable, h]
  have hcontent : contentValue col (cellContent col (some (intBytes (strtol (cText value))
      col.length))) = some (.number (binaryNumber (intBytes (strtol (cText value)) col.length)
        col.unsignedNumeric)) := by
    simp only [integerTypes, mem_cons, not_mem_nil, or_false] at htype
    rcases htype with h | h | h | h <;>
      simp [contentValue, cellContent, h, isVariableType, padded_self]
  have hbits : (2 : Int) ^ (8 * col.length - 1) ≤ 2 ^ 63 :=
    pow_le_pow_right₀ (by norm_num) (by omega)
  unfold KeepsValue
  rw [hbytes]
  simp only [Except.ok.injEq, forall_eq', htext, hcontent, Option.some.injEq,
    Option.bind_eq_some_iff, Option.ite_none_right_eq_some]
  constructor
  · rintro ⟨v, ⟨n, hn, hrange, rfl⟩, hstored⟩
    refine ⟨n, hn, hrange, ?_⟩
    by_contra hlarge
    -- such a number is read as the largest `long`, which is in range too
    have hlong : strtol (cText value) = 2 ^ 63 - 1 := by
      rw [strtol_of_number hn]
      omega
    have hmax : InBinaryRange col.unsignedNumeric col.length (2 ^ 63 - 1) := by
      unfold InBinaryRange at hrange ⊢
      cases hu : col.unsignedNumeric with
      | true =>
        rw [hu, if_pos rfl] at hrange
        rw [if_pos rfl]
        omega
      | false =>
        rw [hu, if_neg (by simp)] at hrange
        omega
    rw [hlong, binaryNumber_intBytes hpos hmax, SqlValue.number.injEq] at hstored
    omega
  · rintro ⟨n, hn, hrange, hlt⟩
    have hlow : -2 ^ 63 ≤ n := by
      unfold InBinaryRange at hrange
      split at hrange <;> omega
    have hlong : strtol (cText value) = n := by
      rw [strtol_of_number hn]
      omega
    exact ⟨.number n, ⟨n, hn, hrange, rfl⟩, by rw [hlong, binaryNumber_intBytes hpos hrange]⟩

/-! ## Scaled numbers -/

/-- A scaled number takes a text with not too many digits behind the point. Where the digits are
stored one by one, the precision bounds them. -/
def NumericTaken (col : LiteStoredColumn) (text : List Char) (n : Int) : Prop :=
  ∃ m f, decimalText text = some (m, f) ∧ f ≤ col.scale ∧ n = m * 10 ^ (col.scale - f) ∧
    (col.digitForm = true → n.natAbs < 10 ^ col.precision)

theorem textValue_numeric (htype : col.type = .numeric) (h : NumericTaken col (cText value) n) :
    textValue col value =
      if (0 : UInt8) ∉ value ∧ Representable col n then some (.number n) else none := by
  obtain ⟨m, f, htext, hf, rfl, -⟩ := h
  have hvalue : textValue col value = (numberText (charsOf value) col.scale).bind fun n =>
      if Representable col n then some (.number n) else none := by
    simp [textValue, textNumber, htype]
  rw [hvalue]
  by_cases hzero : (0 : UInt8) ∈ value
  · rw [if_neg fun h => h.1 hzero]
    cases hnumber : numberText (charsOf value) col.scale with
    | none => rfl
    | some k => exact absurd hzero (no_zero_of_numberText hnumber)
  · rw [cText_eq, cBytes_of_no_zero hzero] at htext
    rw [numberText_of_decimal htext hf, Option.bind_some]
    by_cases hr : Representable col (m * 10 ^ (col.scale - f))
    · rw [if_pos hr, if_pos ⟨hzero, hr⟩]
    · rw [if_neg hr, if_neg fun h => hr h.2]

theorem signedNumber_inj {a b : Nat} :
    signedNumber negative a = signedNumber negative b ↔ a = b := by
  cases negative <;> simp [signedNumber]

theorem signedNumber_eq_zero {a : Nat} : signedNumber negative a = 0 ↔ a = 0 := by
  cases negative <;> simp [signedNumber]

/-- Leading digits have the value of all digits where none is cut off, or where all are zero. -/
theorem value_take_eq_iff {ds : List Nat} {k : Nat} (hk : k < ds.length) :
    digits.value 10 (ds.take k) = digits.value 10 ds ↔ digits.value 10 ds = 0 := by
  have hsplit : digits.value 10 ds = digits.value 10 (ds.take k) * 10 ^ (ds.length - k) +
      digits.value 10 (ds.drop k) := by
    rw [← length_drop, ← digits.value_append, take_append_drop]
  have hten : 10 ≤ 10 ^ (ds.length - k) := Nat.le_self_pow (by omega) 10
  constructor
  · intro h
    nlinarith
  · intro h
    rw [h] at hsplit ⊢
    nlinarith

section Digits

variable {text : List Char}

theorem not_numericTaken (hdigit : col.digitForm = true) (hpos : 0 < col.precision)
    (hparse : parseScaledDigits text col.scale col.precision = none) :
    ¬ NumericTaken col text n := by
  rintro ⟨m, f, htext, hf, rfl, hn⟩
  have := (parseScaledDigits_eq_none hpos).mp hparse m f htext hf
  have := hn hdigit
  omega

theorem numericTaken_of_parse {ds : List Nat}
    (hparse : parseScaledDigits text col.scale col.precision = some (negative, ds)) :
    NumericTaken col text (signedNumber negative (digits.value 10 ds)) ∧
      ds.length = col.precision ∧ ∀ d ∈ ds, d < 10 := by
  obtain ⟨m, f, htext, hf, hlen, hlt, hvalue⟩ := parseScaledDigits_eq_some hparse
  refine ⟨⟨m, f, htext, hf, hvalue, fun _ => ?_⟩, hlen, hlt⟩
  rw [natAbs_signedNumber, ← hlen]
  exact digits.value_lt hlt

end Digits

section Numeric

variable (hexact : col.toMappedType.Exact)
  (hsound : col.toMappedType.Sound) (htype : col.type = .numeric) (text : List Char)

include hexact htype

/-- A large number has room for the digits that are kept. -/
theorem bigNum_room (hbig : 18 < col.precision) : 0 < col.length ∧
    10 ^ digitsKept col.precision ≤ 2 ^ (8 * col.length - 1) ∧
    10 ^ digitsKept col.precision ≤ 2 ^ (16 * (col.length / 2)) := by
  have hlength := (hexact.numeric htype).2
  cases hdec : col.decimalStorage with
  | true =>
    rw [hdec, if_pos rfl] at hlength
    have hpow : 10 ^ digitsKept col.precision ≤ 2 ^ (4 * col.precision) :=
      calc 10 ^ digitsKept col.precision ≤ 16 ^ digitsKept col.precision :=
            Nat.pow_le_pow_left (by decide) _
        _ ≤ 16 ^ col.precision := Nat.pow_le_pow_right (by decide) (digitsKept_le _)
        _ = 2 ^ (4 * col.precision) := by rw [pow_mul]; norm_num
    exact ⟨by omega, hpow.trans (Nat.pow_le_pow_right (by decide) (by omega)),
      hpow.trans (Nat.pow_le_pow_right (by decide) (by omega))⟩
  | false =>
    have hroom := pow_le_bigNumStorage col.precision
    rw [hdec, if_neg (by simp), if_pos hbig] at hlength
    have heven : 16 * (col.length / 2) = 8 * col.length := by
      rw [hlength, bigNumStorageSize]
      omega
    have hpos : 0 < col.length := by
      rw [hlength, bigNumStorageSize]
      omega
    rw [← hlength] at hroom
    exact ⟨hpos, hroom, hroom.trans (Nat.pow_le_pow_right (by decide) (by omega))⟩

theorem bigNumCell_spec (hbig : 18 < col.precision) :
    (∀ n, NumericTaken col text n → ∃ bytes, bigNumCell col text = .ok bytes) ∧
    ∀ bytes, bigNumCell col text = .ok bytes → ∃ n, NumericTaken col text n ∧
      (bigNumber bytes col.precision = some n ↔ (2 ^ 31 ≤ col.precision + 1 → n = 0)) := by
  obtain ⟨hpos, hroom, hwords⟩ := bigNum_room hexact htype hbig
  have hdigit : col.digitForm = true := by
    simp [LiteStoredColumn.digitForm, htype, hbig]
  unfold bigNumCell
  cases hparse : parseScaledDigits text col.scale col.precision with
  | none =>
    exact ⟨fun n hn => absurd hn (not_numericTaken hdigit (by omega) hparse), fun _ h => by cases h⟩
  | some parsed =>
    obtain ⟨negative, ds⟩ := parsed
    obtain ⟨htaken, hlen, hlt⟩ := numericTaken_of_parse hparse
    have hkept : (lng32 (ds.length + 1) - 1).toNat = digitsKept col.precision := by
      rw [hlen]
      rfl
    have htake : (ds.take (digitsKept col.precision)).length ≤ digitsKept col.precision := by simp
    have hmag : digits.value 10 (ds.take (digitsKept col.precision)) <
        10 ^ digitsKept col.precision :=
      (digits.value_lt fun d hd => hlt d (mem_of_mem_take hd)).trans_le
        (Nat.pow_le_pow_right (by decide) htake)
    dsimp only
    rw [hkept, if_neg (by omega)]
    refine ⟨fun n _ => ⟨_, rfl⟩, fun bytes h => ?_⟩
    obtain rfl := Except.ok.inj h
    refine ⟨_, htaken, ?_⟩
    have hle := Nat.pow_le_pow_right (show 0 < 10 by decide) (digitsKept_le col.precision)
    rw [bigNumber_lowFirst hpos (hmag.trans_le hle) (hmag.trans_le hroom) negative,
      Option.some.injEq, signedNumber_inj]
    by_cases hcut : 2 ^ 31 ≤ col.precision + 1
    · have hk := digitsKept_lt hcut
      rw [value_take_eq_iff (by omega), signedNumber_eq_zero]
      exact ⟨fun h _ => h, fun h => h hcut⟩
    · rw [digitsKept_eq (by omega), ← hlen, take_length, hlen]
      exact iff_of_true rfl fun h => absurd h hcut

theorem decimalCell_spec (hpos : 0 < col.precision) (hdec : col.decimalStorage = true) :
    (∀ n, NumericTaken col text n → ∃ bytes, decimalCell col text = .ok bytes) ∧
    ∀ bytes, decimalCell col text = .ok bytes → ∃ n, NumericTaken col text n ∧
      decimalNumber bytes = some n := by
  have hlength := (hexact.numeric htype).2
  rw [hdec, if_pos rfl] at hlength
  have hdigit : col.digitForm = true := by
    simp [LiteStoredColumn.digitForm, htype, hdec]
  unfold decimalCell
  cases hparse : parseScaledDigits text col.scale col.precision with
  | none =>
    exact ⟨fun n hn => absurd hn (not_numericTaken hdigit hpos hparse), fun _ h => by cases h⟩
  | some parsed =>
    obtain ⟨negative, ds⟩ := parsed
    obtain ⟨htaken, hlen, hlt⟩ := numericTaken_of_parse hparse
    dsimp only
    rw [if_neg (by omega)]
    refine ⟨fun n _ => ⟨_, rfl⟩, fun bytes h => ?_⟩
    obtain rfl := Except.ok.inj h
    have hne : ds ≠ [] := by
      rintro rfl
      simp at hlen
      omega
    refine ⟨_, htaken, ?_⟩
    rw [decimalNumber_digitBytes hne hlt]

theorem binaryCell_spec (hpos : 0 < col.precision) (hdec : col.decimalStorage = false)
    (hsmall : col.precision ≤ 18) :
    (∀ n, NumericTaken col text n → ∃ bytes, numericCell col text = .ok bytes) ∧
    ∀ bytes, numericCell col text = .ok bytes → ∃ n, NumericTaken col text n ∧
      bytes = intBytes n col.length := by
  have hlength := (hexact.numeric htype).2
  rw [hdec, if_neg (by simp), if_neg (by omega)] at hlength
  have hsize : col.length ∈ [1, 2, 4, 8] := by
    rw [hlength]
    unfold numericStorageSize
    split
    · simp
    split
    · simp
    split
    · simp
    · simp
  have hdigit : col.digitForm = false := by
    simp [LiteStoredColumn.digitForm, hdec, hsmall]
  have hle := numericStorageSize_bounds col.precision
  unfold numericCell
  rw [if_neg (by omega), if_neg (by simp [hdec])]
  cases hparse : parseScaledInt64 text col.scale with
  | none =>
    refine ⟨?_, fun bytes h => by cases h⟩
    rintro n ⟨m, f, htext, hf, -, -⟩
    have := parseScaledInt64_eq_none.mp hparse m f htext
    omega
  | some z =>
    obtain ⟨m, f, htext, hf, hz⟩ := parseScaledInt64_eq_some hparse
    dsimp only
    rw [if_pos hsize]
    refine ⟨fun n _ => ⟨_, rfl⟩, fun bytes h => ?_⟩
    obtain rfl := Except.ok.inj h
    refine ⟨_, ⟨m, f, htext, hf, rfl, fun h => ?_⟩, intBytes_congr hz (by omega)⟩
    rw [hdigit] at h
    cases h

/-- A representable number has room in its binary storage. -/
theorem inBinaryRange_of_representable (hdec : col.decimalStorage = false)
    (hsmall : col.precision ≤ 18) (h : Representable col n) :
    InBinaryRange col.unsignedNumeric col.length n := by
  have hlength := (hexact.numeric htype).2
  rw [hdec, if_neg (by simp), if_neg (by omega)] at hlength
  have hroom : ∀ p ≤ 18, 10 ^ p ≤ 2 ^ (8 * numericStorageSize p - 1) := by decide
  have hpow := hroom col.precision hsmall
  obtain ⟨hpos, -⟩ := numericStorageSize_bounds col.precision
  rw [← hlength] at hpow hpos
  obtain ⟨-, hbits, -, hsign⟩ := pow_bits hpos
  unfold Representable at h
  rw [if_pos htype] at h
  unfold InBinaryRange
  split
  · rename_i hu
    have := h.2 hu
    omega
  · omega

include hsound

/-- What a scaled number becomes. The digits of a very long one go lost. -/
theorem numericCell_spec :
    (∀ n, NumericTaken col text n → ∃ bytes, numericCell col text = .ok bytes) ∧
    ∀ bytes, numericCell col text = .ok bytes → ∃ n, NumericTaken col text n ∧
      (Representable col n → (contentValue col (cellContent col (some bytes)) = some (.number n) ↔
        (2 ^ 31 ≤ col.precision + 1 → n = 0))) := by
  have hpos := hsound.precise htype
  have hcontent : ∀ bytes, numericCell col text = .ok bytes →
      cellContent col (some bytes) = bytes := by
    intro bytes h
    simp [cellContent, htype, isVariableType, padded_self (numericCell_length h)]
  by_cases hbig : 18 < col.precision
  · have hcell : numericCell col text = bigNumCell col text := by
      unfold numericCell
      rw [if_pos hbig]
    obtain ⟨htaken, hspec⟩ := bigNumCell_spec hexact htype text hbig
    rw [hcell] at hcontent ⊢
    refine ⟨htaken, fun bytes h => ?_⟩
    obtain ⟨n, hn, hiff⟩ := hspec bytes h
    refine ⟨n, hn, fun _ => ?_⟩
    rw [← hiff, hcontent bytes h]
    simp [contentValue, htype, hbig]
  · have hshort : ∀ n : Int, 2 ^ 31 ≤ col.precision + 1 → n = 0 := fun n h => by omega
    cases hdec : col.decimalStorage with
    | true =>
      have hcell : numericCell col text = decimalCell col text := by
        unfold numericCell
        rw [if_neg hbig, if_pos hdec]
      obtain ⟨htaken, hspec⟩ := decimalCell_spec hexact htype text hpos hdec
      rw [hcell] at hcontent ⊢
      refine ⟨htaken, fun bytes h => ?_⟩
      obtain ⟨n, hn, hvalue⟩ := hspec bytes h
      refine ⟨n, hn, fun _ => iff_of_true ?_ (hshort n)⟩
      rw [hcontent bytes h]
      simp [contentValue, htype, hbig, hdec, hvalue]
    | false =>
      obtain ⟨htaken, hspec⟩ := binaryCell_spec hexact htype text hpos hdec (by omega)
      refine ⟨htaken, fun bytes h => ?_⟩
      obtain ⟨n, hn, hvalue⟩ := hspec bytes h
      refine ⟨n, hn, fun hr => iff_of_true ?_ (hshort n)⟩
      have hrange := inBinaryRange_of_representable hexact htype hdec (by omega) hr
      have hlen : 0 < col.length :=
        (hsound.binary (.inr ⟨htype, hdec, by omega⟩)).1
      rw [hcontent bytes h, hvalue]
      simp [contentValue, htype, hbig, hdec, binaryNumber_intBytes hlen hrange]

theorem keepsValue_numeric :
    KeepsValue engine col value ↔ ∀ n, NumericTaken col (cText value) n →
      (0 : UInt8) ∉ value ∧ Representable col n ∧ (2 ^ 31 ≤ col.precision + 1 → n = 0) := by
  obtain ⟨htaken, hspec⟩ := numericCell_spec hexact hsound htype (cText value)
  have hcell : valueBytes engine col value = numericCell col (cText value) := by
    simp [valueBytes, htype]
  have hunique : ∀ n n', NumericTaken col (cText value) n → NumericTaken col (cText value) n' →
      n = n' := by
    rintro n n' ⟨m, f, htext, -, rfl, -⟩ ⟨m', f', htext', -, rfl, -⟩
    rw [htext] at htext'
    cases htext'
    rfl
  unfold KeepsValue
  rw [hcell]
  constructor
  · intro h n hn
    obtain ⟨bytes, hbytes⟩ := htaken n hn
    obtain ⟨n', hn', hstored⟩ := hspec bytes hbytes
    obtain rfl := hunique n n' hn hn'
    obtain ⟨v, hv, hcontent⟩ := h bytes hbytes
    rw [textValue_numeric htype hn] at hv
    simp only [Option.ite_none_right_eq_some, Option.some.injEq] at hv
    obtain ⟨⟨hzero, hr⟩, rfl⟩ := hv
    exact ⟨hzero, hr, (hstored hr).mp hcontent⟩
  · intro h bytes hbytes
    obtain ⟨n, hn, hstored⟩ := hspec bytes hbytes
    obtain ⟨hzero, hr, hlong⟩ := h n hn
    refine ⟨.number n, ?_, (hstored hr).mpr hlong⟩
    rw [textValue_numeric htype hn, if_pos ⟨hzero, hr⟩]

end Numeric

/-! ## Booleans and intervals -/

theorem booleanCell_eq (value : Bytes) : booleanCell value =
    match booleanText (charsOf value) with
    | none => .error "invalid lite BOOLEAN literal"
    | some n => .ok (intBytes n 1) := by
  unfold booleanCell booleanText
  dsimp only
  split
  · rfl
  · split
    · rfl
    · rfl

theorem keepsValue_boolean (hexact : col.toMappedType.Exact) (htype : col.type = .boolean) :
    KeepsValue engine col value := by
  have hlength : col.length = 1 := hexact.width 1 (by rw [htype]; rfl)
  intro bytes h
  have hcell : valueBytes engine col value = booleanCell value := by simp [valueBytes, htype]
  rw [hcell, booleanCell_eq] at h
  cases htext : booleanText (charsOf value) with
  | none =>
    rw [htext] at h
    cases h
  | some n =>
    rw [htext] at h
    obtain rfl := Except.ok.inj h
    have hrange : InBinaryRange col.unsignedNumeric 1 n := by
      have hbit : n = 0 ∨ n = 1 := by
        unfold booleanText at htext
        split at htext
        · exact .inr (Option.some.inj htext).symm
        · split at htext
          · exact .inl (Option.some.inj htext).symm
          · cases htext
      unfold InBinaryRange
      split <;> rcases hbit with rfl | rfl <;> norm_num
    refine ⟨.number n, ?_, ?_⟩
    · simp [textValue, textNumber, htype, htext, Representable, hlength, hrange]
    · simp [contentValue, cellContent, htype, isVariableType, padded_self, hlength,
        binaryNumber_intBytes (by decide) hrange]

section Intervals

theorem valueBytes_interval (hexact : col.toMappedType.Exact) (hsound : col.toMappedType.Sound)
    (htype : col.type = .interval) {bytes : Bytes} : valueBytes engine col value = .ok bytes ↔
      ∃ total, intervalText col (cText value) = some total ∧ bytes = intBytes total col.length := by
  have hpos := (hsound.binary (.inl (by simp [htype]))).1
  have hcell : valueBytes engine col value = intervalCell col (cText value) := by
    simp [valueBytes, htype]
  rw [hcell]
  unfold intervalCell intervalText
  dsimp only
  rw [← hexact.interval htype]
  generalize intervalValue col.intervalStart (col.precision % 2 ^ 32) col.intervalEnd
    (col.scale % 2 ^ 32) (cText value) = read
  cases read with
  | none => simp
  | some total => simp [hpos.ne', eq_comm]

theorem contentValue_interval (htype : col.type = .interval) (total : Nat) :
    contentValue col (cellContent col (some (intBytes total col.length))) =
      some (.number (binaryNumber (intBytes total col.length) col.unsignedNumeric)) := by
  simp [contentValue, cellContent, htype, isVariableType, padded_self]

theorem textValue_interval (htype : col.type = .interval) :
    textValue col value = if (0 : UInt8) ∈ value then none
      else (intervalText col (charsOf value)).bind fun total =>
        if InBinaryRange col.unsignedNumeric col.length total then some (.number total)
        else none := by
  by_cases hzero : (0 : UInt8) ∈ value
  · simp [textValue, textNumber, htype, hzero]
  · simp [textValue, textNumber, htype, hzero, Representable, Option.bind_map]

theorem keepsValue_interval (hexact : col.toMappedType.Exact) (hsound : col.toMappedType.Sound)
    (htype : col.type = .interval) :
    KeepsValue engine col value ↔ ∀ total, intervalText col (cText value) = some total →
      (0 : UInt8) ∉ value ∧ InBinaryRange col.unsignedNumeric col.length total := by
  have hpos := (hsound.binary (.inl (by simp [htype]))).1
  unfold KeepsValue
  simp only [valueBytes_interval hexact hsound htype]
  cases hread : intervalText col (cText value) with
  | none => simp
  | some total =>
    simp only [Option.some.injEq, exists_eq_left', forall_eq, forall_eq',
      contentValue_interval htype, textValue_interval htype]
    by_cases hzero : (0 : UInt8) ∈ value
    · simp [hzero]
    · rw [cText_eq, cBytes_of_no_zero hzero] at hread
      simp only [hzero, if_false, hread, Option.bind_some, not_false_eq_true, true_and,
        Option.ite_none_right_eq_some, Option.some.injEq]
      constructor
      · rintro ⟨v, ⟨hrange, -⟩, -⟩
        exact hrange
      · intro hrange
        exact ⟨_, ⟨hrange, rfl⟩, by rw [binaryNumber_intBytes hpos hrange]⟩

end Intervals

/-! ## Datetimes -/

theorem fieldValues_append (ws vs : List Nat) (bytes : Bytes) :
    fieldValues (ws ++ vs) bytes = fieldValues ws bytes ++ fieldValues vs (bytes.drop ws.sum) := by
  induction ws generalizing bytes with
  | nil => rfl
  | cons w ws ih =>
    rw [cons_append, fieldValues, fieldValues, ih, drop_drop, sum_cons, cons_append]

theorem scaleFraction_of_exact {fraction precision scale f : Nat}
    (h : exactFraction fraction precision scale = some f) :
    scaleFraction fraction precision scale = f ∧ f < 2 ^ 32 := by
  simp only [exactFraction, Option.ite_none_right_eq_some, Option.some.injEq] at h
  obtain ⟨⟨-, hlt⟩, rfl⟩ := h
  refine ⟨?_, hlt⟩
  unfold scaleFraction
  split
  · rename_i hle
    have hpow : 10 ^ scale = 10 ^ (scale - precision) * 10 ^ precision := by
      rw [← pow_add, Nat.sub_add_cancel hle]
    rw [hpow, ← mul_assoc, Nat.mul_div_cancel _ (by positivity)] at hlt ⊢
    exact Nat.mod_eq_of_lt hlt
  · rename_i hgt
    have hpow : 10 ^ precision = 10 ^ (precision - scale) * 10 ^ scale := by
      rw [← pow_add, Nat.sub_add_cancel (by omega)]
    rw [hpow, Nat.mul_div_mul_right _ _ (by positivity)]

/-- The fraction of the text counts as many nanoseconds. -/
theorem exactFraction_nine {v precision : Nat} (h : precision ≤ 9) (scale : Nat) :
    exactFraction (v * 10 ^ (9 - precision)) 9 scale = exactFraction v precision scale := by
  have hpow : 10 ^ 9 = 10 ^ precision * 10 ^ (9 - precision) := by
    rw [← pow_add, Nat.add_sub_cancel' h]
  have hmul : v * 10 ^ (9 - precision) * 10 ^ scale =
      v * 10 ^ scale * 10 ^ (9 - precision) := by ring
  unfold exactFraction
  rw [hmul, hpow, Nat.mul_div_mul_right _ _ (by positivity)]
  simp only [Nat.mul_dvd_mul_iff_right (show 0 < 10 ^ (9 - precision) by positivity)]

/-- Each field fits in its bytes. -/
def FieldsFit (t : Datetime) : Prop := ∀ f, t.field f < 256 ^ f.width

theorem fieldValues_source {t : Datetime} (hfit : FieldsFit t) (fs : List DatetimeField)
    (rest : Bytes) :
    fieldValues (fs.map (·.width)) (fs.flatMap (fun f => lowFirst (t.field f) f.width) ++ rest) =
      fs.map t.field := by
  induction fs with
  | nil => rfl
  | cons f fs ih =>
    have hlen : (lowFirst (t.field f) f.width).length = f.width := by simp
    rw [map_cons, map_cons, flatMap_cons, append_assoc, fieldValues, take_left' hlen,
      drop_left' hlen, ih, littleEndian_lowFirst, Nat.mod_eq_of_lt (hfit f)]

theorem length_source (t : Datetime) (fs : List DatetimeField) :
    (fs.flatMap fun f => lowFirst (t.field f) f.width).length = (fs.map (·.width)).sum := by
  rw [length_flatMap]
  simp

/-- The fraction stands behind the fields, or the text had none. -/
theorem sourceFraction_eq {t : Datetime} {scale v : Nat} (front : Bytes) (hscale : scale ≤ 9)
    (hv : v < 10 ^ scale) (hfraction : t.fraction = v * 10 ^ (9 - scale)) :
    let source := front ++ if scale = 0 then [] else lowFirst (t.fraction / 10 ^ (9 - scale)) 4
    (if source.length ≥ front.length + 4 then littleEndian (slice source front.length 4) else 0) =
      v := by
  dsimp only
  have hlt : v < 256 ^ 4 :=
    hv.trans_le ((Nat.pow_le_pow_right (by decide) hscale).trans (by decide))
  rw [hfraction, Nat.mul_div_cancel _ (by positivity)]
  split
  · subst scale
    rw [if_neg (by simp)]
    omega
  · have hslice : slice (front ++ lowFirst v 4) front.length 4 = lowFirst v 4 := by
      rw [slice, drop_left, take_of_length_le (by simp)]
    rw [if_pos (by simp), hslice, littleEndian_lowFirst, Nat.mod_eq_of_lt hlt]

/-- The widths of a column and the places of its fields. -/
theorem datetime_shape (hlength : col.length = 4 ∨ col.length = 8 ∨ col.length = 11) :
    ExpDatetime.ColumnFields (datetimeStart col) (datetimeEnd col) ∧
      ((fieldsFrom (datetimeStart col) (datetimeEnd col)).map (·.width)).sum = datetimeBase col ∧
      (datetimeEnd col = .second ∧ datetimeBase col + 4 ≤ col.length ∧ datetimeWidths col.length =
          (fieldsFrom (datetimeStart col) (datetimeEnd col)).map (·.width) ++ [4] ∨
        datetimeEnd col = .day ∧ datetimeBase col = col.length ∧ datetimeWidths col.length =
          (fieldsFrom (datetimeStart col) (datetimeEnd col)).map (·.width)) := by
  unfold datetimeBase datetimeStart datetimeEnd ExpDatetime.ColumnFields
  rcases hlength with h | h | h
  all_goals
    rw [h]
    decide

/-- The bytes of a datetime are always stored, and they have its fields where the fraction is
exact. -/
theorem datetimeBytes_spec (htype : col.type = .datetime)
    (hlength : col.length = 4 ∨ col.length = 8 ∨ col.length = 11) {t : Datetime} {scale : Nat}
    (hread : ExpDatetime.FractionRead t scale) :
    ∃ bytes, datetimeBytes col (datetimeBase col) (datetimeEnd col = .second)
        (datetimeSource (datetimeStart col) (datetimeEnd col) t scale) scale = .ok bytes ∧
      ∀ fields, FieldsFit t → datetimeFields col t = some fields →
        contentValue col (cellContent col (some bytes)) = some (.datetime fields) := by
  have hcontent : ∀ bytes, contentValue col (cellContent col (some bytes)) =
      some (.datetime (fieldValues (datetimeWidths col.length) (padded bytes col.length 0))) := by
    intro bytes
    simp [contentValue, cellContent, htype, isVariableType]
  obtain ⟨-, hsum, hshape⟩ := datetime_shape hlength
  obtain ⟨hscale, v, hv, hfraction⟩ := hread
  unfold datetimeSource datetimeFields
  generalize fieldsFrom (datetimeStart col) (datetimeEnd col) = fs at *
  have hlen := (length_source t fs).trans hsum
  unfold datetimeBytes
  rw [if_neg (by rw [length_append, hlen]; omega), take_left' hlen]
  rcases hshape with ⟨hend, hbase, hwidths⟩ | ⟨hend, hbase, hwidths⟩
  · rw [if_pos ⟨by simpa using hend, hbase⟩]
    refine ⟨_, rfl, ?_⟩
    intro fields hfit hfields
    rw [if_pos hend, hfraction, exactFraction_nine hscale] at hfields
    obtain ⟨f, hf, rfl⟩ := Option.map_eq_some_iff.mp hfields
    obtain ⟨hscaled, hlt⟩ := scaleFraction_of_exact hf
    have hsource := sourceFraction_eq (fs.flatMap fun f => lowFirst (t.field f) f.width) hscale hv
      hfraction
    rw [hlen] at hsource
    dsimp only at hsource ⊢
    rw [hsource, hscaled, hcontent, hwidths, padded, append_assoc, fieldValues_append,
      fieldValues_source hfit, hsum, drop_left' hlen, fieldValues, take_left' (lowFirst_length f 4),
      littleEndian_lowFirst, Nat.mod_eq_of_lt (by norm_num; omega)]
    rfl
  · rw [if_neg (by simp [hend])]
    refine ⟨_, rfl, ?_⟩
    intro fields hfit hfields
    rw [if_neg (by simp [hend])] at hfields
    obtain rfl := Option.some.inj hfields
    rw [hcontent, hwidths, padded, fieldValues_source hfit]

theorem fieldsFit_of_valid {t : Datetime} (h : t.Valid) : FieldsFit t := by
  obtain ⟨⟨-, hmonth⟩, ⟨-, hday⟩, ⟨-, hyear⟩, hhour, hminute, hsecond⟩ := h
  have hdays : monthDays t.year t.month ≤ 31 := by
    unfold monthDays
    split_ifs <;> decide
  intro f
  cases f <;> simp only [Datetime.field, DatetimeField.width] <;> omega

theorem datetimeText_valid {startField endField : DatetimeField} {text : List Char} {t : Datetime}
    (h : datetimeText startField endField text = some t) : t.Valid := by
  obtain ⟨t', -, h⟩ := Option.bind_eq_some_iff.mp h
  obtain ⟨hvalid, h⟩ := Option.ite_none_right_eq_some.mp h
  exact Option.some.inj h ▸ hvalid

theorem keepsValue_datetime (hsound : col.toMappedType.Sound) (htype : col.type = .datetime) :
    KeepsValue engine col value ↔ ∀ t scale, ExpDatetime.convAsciiToDatetime (cText value)
        (datetimeStart col) (datetimeEnd col) = some (t, scale) →
      (0 : UInt8) ∉ value ∧ (ExpDatetime.tzdOf (cText value)).1 = none ∧
        (datetimeFields col t).isSome := by
  have hcell : valueBytes engine col value = datetimeCell col (cText value) := by
    simp [valueBytes, htype]
  have htext : textValue col value = if (0 : UInt8) ∈ value then none
      else (datetimeMeant col (charsOf value)).map .datetime := by
    simp [textValue, htype]
  unfold KeepsValue
  rw [hcell]
  unfold datetimeCell datetimeValue
  cases hread : ExpDatetime.convAsciiToDatetime (cText value) (datetimeStart col)
      (datetimeEnd col) with
  | none => simp
  | some read =>
    obtain ⟨t, scale⟩ := read
    have hlength := hsound.datetime htype
    obtain ⟨hfraction, hmeant⟩ :=
      ExpDatetime.convAsciiToDatetime_spec (datetime_shape hlength).1 hread
    obtain ⟨bytes, hbytes, hstored⟩ := datetimeBytes_spec htype hlength hfraction
    simp only [Option.map_some, hbytes, Except.ok.injEq, forall_eq', Option.some.injEq,
      Prod.mk.injEq, and_imp]
    by_cases hzero : (0 : UInt8) ∈ value
    · simp [htext, hzero]
    · rw [cText_eq, cBytes_of_no_zero hzero] at hmeant ⊢
      rw [htext, if_neg hzero, datetimeMeant, hmeant]
      cases htzd : (ExpDatetime.tzdOf (charsOf value)).1 with
      | some tzd => simp
      | none =>
        rw [htzd] at hmeant
        have hfit := fieldsFit_of_valid (datetimeText_valid hmeant)
        cases hfields : datetimeFields col t with
        | none => simp [hfields]
        | some fields => simp [hfields, hstored fields hfit hfields, hzero]

/-! ## Characters -/

/-- The columns of a layout count bytes, so no character is cut in two. -/
theorem characterBytes_eq (hexact : col.toMappedType.Exact)
    (htype : col.type = .char ∨ col.type = .varchar) (value : Bytes) :
    characterBytes col value = value.take col.length := by
  have hprecision := hexact.text htype
  have hwidth : (if col.precision ≠ 0 then col.length / col.precision else 1) = 1 := by
    rw [hprecision]
    split
    · rename_i hne
      exact Nat.div_self (Nat.pos_of_ne_zero hne)
    · rfl
  unfold characterBytes
  rw [hwidth]
  show value.take (min value.length col.length) = _
  rw [take_eq_take_iff]
  omega

theorem take_mod_eq_self : value.take (value.length % 2 ^ 32) = value ↔ value.length < 2 ^ 32 := by
  rw [take_eq_self_iff]
  omega

theorem keepsValue_text (hexact : col.toMappedType.Exact) (htype : characterType col.type = true) :
    KeepsValue engine col value ↔ value.length ≤ col.length ∧
      (isVariableType col.type = true → value.length < 2 ^ 32) := by
  have hpad : ∀ pad, (padded (value.take col.length) col.length pad).length = col.length :=
    fun pad => padded_length (by simp)
  have hself : value.length ≤ col.length → value.take col.length = value := fun h =>
    take_of_length_le h
  unfold KeepsValue
  cases ht : col.type with
  | char | binary =>
    simp only [valueBytes, textValue, contentValue, cellContent, ht, isVariableType,
      characterBytes_eq hexact, true_or, Except.ok.injEq, forall_eq', padded_self (hpad _)]
    by_cases h : value.length ≤ col.length
    · simp [h, hself h]
    · simp [h]
  | varchar | varbinary =>
    simp only [valueBytes, textValue, contentValue, cellContent, ht, isVariableType, if_true,
      characterBytes_eq hexact, or_true, Except.ok.injEq, forall_eq']
    by_cases h : value.length ≤ col.length
    · simp only [h, if_true, Option.some.injEq, exists_eq_left', hself h, SqlValue.text.injEq,
        take_mod_eq_self, true_and, forall_const]
    · simp [h]
  | _ =>
    rw [ht] at htype
    cases htype

/-! ## Texts that fit -/

/-- The texts whose value is kept. An integer type must be given an integer in its range, and
one below `2 ^ 63` since `strtoll` reads it; characters must not be more than the column has.
For the other types the text must not be one that the parser takes although it says nothing, or
something that the column cannot hold. -/
def TextFits (col : LiteStoredColumn) (value : Bytes) : Prop :=
  match col.type with
  | .int8 | .int16 | .int32 | .int64 => value = [] ∨ ∃ n, numberText (charsOf value) 0 = some n ∧
      InBinaryRange col.unsignedNumeric col.length n ∧ n < 2 ^ 63
  | .numeric => value = [] ∨ ∀ n, NumericTaken col (cText value) n →
      (0 : UInt8) ∉ value ∧ Representable col n ∧ (2 ^ 31 ≤ col.precision + 1 → n = 0)
  | .interval => value = [] ∨ ∀ total, intervalText col (cText value) = some total →
      (0 : UInt8) ∉ value ∧ InBinaryRange col.unsignedNumeric col.length total
  | .datetime => value = [] ∨ ∀ t scale, ExpDatetime.convAsciiToDatetime (cText value)
        (datetimeStart col) (datetimeEnd col) = some (t, scale) →
      (0 : UInt8) ∉ value ∧ (ExpDatetime.tzdOf (cText value)).1 = none ∧
        (datetimeFields col t).isSome
  | .char | .varchar | .binary | .varbinary => (col.nullable = true → value ≠ []) ∧
      value.length ≤ col.length ∧ (isVariableType col.type = true → value.length < 2 ^ 32)
  | .boolean | .float32 | .float64 => True

def floatingType : LiteCodecType → Bool
  | .float32 | .float64 => true
  | _ => false

/-- `writeValue` on a row. -/
def writeValue (engine : Engine) (row : Bytes) (col : LiteStoredColumn) (value : Bytes) :
    Except String Bytes :=
  (textCell engine col value).map (storeCell row col)

/-- The stored value is the value of the text, and a text that says nothing is refused. -/
def StoresText (engine : Engine) (rowLen : Nat) (col : LiteStoredColumn) (value : Bytes) : Prop :=
  ∀ row row', row.length = rowLen → Blank row col → writeValue engine row col value = .ok row' →
    ∃ v, textMeaning col value = some v ∧ columnValue row' col = some v

/-- NULL apart, a text fits when its bytes keep its value. -/
theorem textFits_iff (hexact : col.toMappedType.Exact) (hsound : col.toMappedType.Sound)
    (hfloat : floatingType col.type = false) :
    TextFits col value ↔
      if value = [] then col.nullable = true → characterType col.type = false
      else KeepsValue engine col value := by
  by_cases hempty : value = []
  · subst hempty
    unfold TextFits
    cases col.type <;> simp [characterType]
  · rw [if_neg hempty]
    unfold TextFits
    cases ht : col.type with
    | int8 | int16 | int32 | int64 =>
      exact (or_iff_right hempty).trans
        (keepsValue_integer hexact hsound (by simp [integerTypes, ht])).symm
    | numeric => exact (or_iff_right hempty).trans (keepsValue_numeric hexact hsound ht).symm
    | interval => exact (or_iff_right hempty).trans (keepsValue_interval hexact hsound ht).symm
    | datetime => exact (or_iff_right hempty).trans (keepsValue_datetime hsound ht).symm
    | boolean => exact iff_of_true trivial (keepsValue_boolean hexact ht)
    | char | varchar | binary | varbinary =>
      rw [keepsValue_text hexact (by rw [ht]; rfl), ht]
      simp [hempty]
    | float32 | float64 =>
      rw [ht] at hfloat
      cases hfloat

theorem storesText_iff {rowLen : Nat} (hp : Placed columns rowLen first)
    (hbits : (columns.filter (·.nullable)).length ≤ 2 ^ 15) (hc : col ∈ columns)
    (hexact : col.toMappedType.Exact) :
    StoresText engine rowLen col value ↔
      if value = [] then col.nullable = true → characterType col.type = false
      else KeepsValue engine col value := by
  have hread : ∀ {cell}, textCell engine col value = .ok cell → ∀ {row}, row.length = rowLen →
      Blank row col → columnValue (storeCell row col cell) col = cellValue col cell :=
    fun hcell _ hlen hblank =>
      columnValue_storeCell hp hbits hc hlen hblank (textCell_fits hexact hcell)
  have hwrite : ∀ {row row'}, writeValue engine row col value = .ok row' ↔
      ∃ cell, textCell engine col value = .ok cell ∧ row' = storeCell row col cell := by
    intro row row'
    unfold writeValue
    cases textCell engine col value <;> simp [Except.map, eq_comm]
  obtain ⟨hlen₀, hblank₀⟩ := initializeCanonicalRow_blank hp hbits
  have hrow₀ := hblank₀ col hc
  unfold StoresText
  simp only [hwrite]
  by_cases hempty : value = []
  · subst hempty
    have hcell : textCell engine col [] = if col.nullable then .ok none
        else .error "NULL is not allowed for lite NOT NULL column" := rfl
    rw [if_pos rfl]
    rw [hcell] at hread ⊢
    cases hn : col.nullable with
    | false => simp
    | true =>
      have hnull := @hread none (by rw [hn]; rfl)
      constructor
      · intro h _
        obtain ⟨v, hv, hstored⟩ := h _ _ hlen₀ hrow₀ ⟨none, rfl, rfl⟩
        rw [hnull hlen₀ hrow₀] at hstored
        obtain rfl := Option.some.inj hstored
        by_contra hchar
        simp [textMeaning, hchar] at hv
      · rintro h row row' hlen hblank ⟨cell, hok, rfl⟩
        obtain rfl := Except.ok.inj hok
        refine ⟨none, ?_, hnull hlen hblank⟩
        simp [textMeaning, h rfl, hn]
  · have hmeaning : textMeaning col value = (textValue col value).map some := by
      unfold textMeaning
      rw [if_neg (by simp [hempty])]
    rw [if_neg hempty, hmeaning]
    unfold KeepsValue
    constructor
    · intro h bytes hbytes
      have hok := textCell_eq_some.mpr ⟨hempty, hbytes⟩
      obtain ⟨v, hv, hstored⟩ := h _ _ hlen₀ hrow₀ ⟨some bytes, hok, rfl⟩
      rw [hread hok hlen₀ hrow₀] at hstored
      obtain ⟨w, hw, rfl⟩ := Option.map_eq_some_iff.mp hv
      obtain ⟨w', hw', heq⟩ := Option.map_eq_some_iff.mp hstored
      obtain rfl := Option.some.inj heq
      exact ⟨w', hw, hw'⟩
    · rintro h row row' hlen hblank ⟨cell, hok, rfl⟩
      have hstored := hread hok hlen hblank
      cases cell with
      | none =>
        unfold textCell at hok
        rw [if_neg (by simpa using hempty)] at hok
        cases hbytes : valueBytes engine col value <;> rw [hbytes] at hok <;> cases hok
      | some bytes =>
        obtain ⟨v, hv, hcontent⟩ := h bytes (textCell_eq_some.mp hok).2
        refine ⟨some v, by rw [hv]; rfl, ?_⟩
        rw [hstored, cellValue, hcontent]
        rfl

/-! ## Keys of texts -/

/-- What the texts of a key mean, column by column. -/
def keyMeanings (columns : List LiteStoredColumn) (keyColumns : List Nat)
    (texts : List Bytes) : List (Option (Option SqlValue)) :=
  (keyColumns.zip texts).map fun entry =>
    columns[entry.1]?.bind fun col => textMeaning col entry.2

/-- Every text of two keys is stored as it says, and two keys of different values differ. -/
structure KeyTextLaws (engine : Engine) (table : LiteTableDef) (columns : List LiteStoredColumn)
    (rowLen : Nat) (texts texts' : List Bytes) : Prop where
  stored : ∀ entry ∈ table.primaryKeyColumns.zip texts ++ table.primaryKeyColumns.zip texts',
    ∀ col, columns[entry.1]? = some col → StoresText engine rowLen col entry.2
  distinct : ∀ key, liteBuildPrimaryKeyFromTextFields engine table texts = .ok key →
    liteBuildPrimaryKeyFromTextFields engine table texts' = .ok key →
    keyMeanings columns table.primaryKeyColumns texts =
      keyMeanings columns table.primaryKeyColumns texts'

theorem length_le_joinParts {keyColumns : List Nat} {values : List Bytes}
    (hlen : values.length = keyColumns.length) {b : Bytes} (hb : b ∈ values) :
    b.length ≤ (joinParts keyColumns values).length := by
  induction keyColumns generalizing values with
  | nil =>
    obtain rfl := length_eq_zero_iff.mp hlen
    cases hb
  | cons index rest ih =>
    cases values with
    | nil => cases hb
    | cons v values =>
      rw [joinParts_cons, length_append, keyPart, length_append]
      rcases mem_cons.mp hb with rfl | hb
      · omega
      · have := ih (by simpa using hlen) hb
        omega

/-- The value that a column of a key holds. -/
def partValue (columns : List LiteStoredColumn) (index : Nat) (value : Bytes) :
    Option (Option SqlValue) :=
  columns[index]?.bind fun col => (contentValue col value).map some

theorem keyMeanings_eq {keyColumns : List Nat} {texts values : List Bytes}
    (hlen : texts.length = keyColumns.length)
    (h : Forall₂ (fun (entry : Nat × Bytes) value =>
      (columns[entry.1]?.bind fun col => textMeaning col entry.2) =
        partValue columns entry.1 value) (keyColumns.zip texts) values) :
    keyMeanings columns keyColumns texts =
      zipWith (partValue columns) keyColumns values := by
  unfold keyMeanings
  induction keyColumns generalizing texts values with
  | nil => simp
  | cons index rest ih =>
    cases texts with
    | nil => simp at hlen
    | cons text texts =>
      rw [zip_cons_cons] at h ⊢
      obtain ⟨value, values', hfirst, hrest, rfl⟩ := forall₂_cons_left_iff.mp h
      rw [map_cons, zipWith_cons_cons, hfirst, ih (by simpa using hlen) hrest]

section Keys

variable {table : LiteTableDef} (ha : table.Addressable) (hdistinct : table.primaryKeyColumns.Nodup)
  {rowLen : Nat} (hlayout : computeLayout table = .ok (columns, rowLen))

include ha hlayout

theorem storesText_iff_fits (hc : col ∈ columns) (hfloat : floatingType col.type = false)
    (value : Bytes) : StoresText engine rowLen col value ↔ TextFits col value := by
  obtain ⟨first, hp⟩ := computeLayout_placed hlayout ha
  have hbits := ha.bits hlayout
  have hexact := computeLayout_exact hlayout col hc
  rw [storesText_iff hp hbits hc hexact,
    textFits_iff hexact (computeLayout_sound hlayout col hc) hfloat]

include hdistinct

/-- A key that is built from texts holds what the texts mean. -/
theorem key_of_texts {texts : List Bytes} {key : Bytes}
    (h : liteBuildPrimaryKeyFromTextFields engine table texts = .ok key)
    (hstored : ∀ entry ∈ table.primaryKeyColumns.zip texts,
      ∀ col, columns[entry.1]? = some col → StoresText engine rowLen col entry.2) :
    ∃ values, values.length = table.primaryKeyColumns.length ∧ (∀ b ∈ values, b.length < 2 ^ 64) ∧
      key = letterP :: sizeBytes table.primaryKeyColumns.length ++
        joinParts table.primaryKeyColumns values ∧
      keyMeanings columns table.primaryKeyColumns texts =
        zipWith (partValue columns) table.primaryKeyColumns values := by
  obtain ⟨first, hp⟩ := computeLayout_placed hlayout ha
  have hbits := ha.bits hlayout
  unfold liteBuildPrimaryKeyFromTextFields at h
  split at h
  · cases h
  · rename_i hlen
    have hlen' : texts.length = table.primaryKeyColumns.length := not_not.mp hlen
    obtain ⟨encoded, hencoded, hkey⟩ := bind_eq_ok.mp h
    obtain ⟨hne, values, hvalues, rfl, hshort⟩ := liteBuildPrimaryKey_eq_ok.mp hkey
    have hforall := encodeCells_values ha hlayout (fun _ _ _ => textCell_fits) hdistinct hlen'
      hencoded hvalues
    have hcount := storedKeyValues_length hvalues
    refine ⟨values, hcount, fun b hb => ?_, rfl, keyMeanings_eq hlen' ?_⟩
    · have := length_le_joinParts hcount hb
      simp only [cons_append, length_cons, length_append] at hshort
      omega
    · refine forall₂_imp_mem (fun entry hentry value => ?_) hforall
      rintro ⟨col, bytes, hcol, hcell, hvalue⟩
      have hc := mem_of_getElem? hcol
      obtain ⟨hne', hbytes⟩ := textCell_eq_some.mp hcell
      have hkeeps := (storesText_iff hp hbits hc (computeLayout_exact hlayout col hc)).mp
        (hstored entry hentry col hcol)
      rw [if_neg hne'] at hkeeps
      obtain ⟨v, hv, hcontent⟩ := hkeeps bytes hbytes
      rw [← hvalue] at hcontent
      simp [partValue, hcol, textMeaning, hne', hv, hcontent]

end Keys

/-! ### A key of one integer -/

/-- A table whose only column, an `INT`, is its primary key. -/
def numberTable : LiteTableDef where
  catalog := "TRAFODION"
  schema := "S"
  name := "T"
  columns := [⟨"K", "INT", false⟩]
  primaryKeyColumns := [0]
  ordinalsFit := no_ordinals_fit

def numberColumn : LiteStoredColumn where
  type := .int32
  length := 4
  precision := 4
  unsignedNumeric := false
  nullable := false
  offset := 8

theorem numberTable_layout : computeLayout numberTable = .ok ([numberColumn], 12) := rfl

/-- No floating number is written here. -/
def plainEngine : Engine := ⟨fun _ => 0, fun _ => 0⟩

end litestore
