-- The rows of a table that ALTER rewrites. A column that stays is copied byte by
-- byte when type, length, precision and scale of its two definitions agree; the
-- sign, the storage form, the character set and the interval fields, which say
-- what the bytes mean, are not compared.
import LiteStore.TextValues

namespace litestore

open checked

/-! ## `LiteRebuildBinaryRow` -/

/-- What becomes of a column of the old row. -/
def rebuildCell (oldRow : Bytes) (src dest : LiteStoredColumn) : Except String Cell :=
  if src.type ≠ dest.type ∨ src.length ≠ dest.length ∨ src.precision ≠ dest.precision ∨
      src.scale ≠ dest.scale then
    .error "lite ALTER COLUMN type conversion is not supported"
  else if src.nullable && nullBitSet oldRow src.nullIndOffset src.nullBitIndex then
    if dest.nullable then .ok none else .error "NULL is not allowed for lite NOT NULL column"
  else if isVariableType src.type then
    if varLength oldRow src.vcLenIndOffset > src.length then
      .error "invalid lite VARCHAR row payload"
    else .ok (some (slice oldRow src.offset (varLength oldRow src.vcLenIndOffset)))
  else .ok (some (slice oldRow src.offset src.length))

/-- A column of the new row, from the number of an old column or, below zero, from a text. -/
def alteredCell (engine : Engine) (oldColumns : List LiteStoredColumn) (oldRow : Bytes)
    (dest : LiteStoredColumn) (source : Int × Bytes) : Except String Cell :=
  if source.1 < 0 then textCell engine dest source.2
  else match oldColumns[source.1.toNat]? with
    | none => .error "lite ALTER row mapping is out of range"
    | some src => rebuildCell oldRow src dest

def liteRebuildBinaryRow (engine : Engine) (oldTable newTable : LiteTableDef) (original : Bytes)
    (newToOldColumn : List Int) (addedValues : List Bytes) : Except String Bytes :=
  if newToOldColumn.length ≠ newTable.columns.length ∨
      addedValues.length ≠ newTable.columns.length then
    .error "invalid lite ALTER row mapping"
  else do
    let oldRow ← storedRowOf original "invalid lite binary row payload"
    let (oldColumns, oldRowLen) ← computeLayout oldTable
    let (newColumns, newRowLen) ← computeLayout newTable
    if oldRow.length < oldRowLen then .error "truncated lite binary row payload"
    else do
      let row ← writeCells "" (alteredCell engine oldColumns oldRow) newColumns
        (List.range newColumns.length) (newToOldColumn.zip addedValues)
        (initializeCanonicalRow newColumns newRowLen)
      .ok (liteBinaryRowMagic ++ row.take (adjustDataLength newRowLen))

/-! ## What a type text says -/

def DatetimeField.word : DatetimeField → String
  | .year => "YEAR"
  | .month => "MONTH"
  | .day => "DAY"
  | .hour => "HOUR"
  | .minute => "MINUTE"
  | .second => "SECOND"

/-- The fields that the type text of an interval names, coarsest first. -/
def namedFields (typeName : List Char) : List DatetimeField :=
  [DatetimeField.year, .month, .day, .hour, .minute, .second].filter fun f =>
    containsWord typeName f.word

def behindWord (s : List Char) (word : String) : Option (List Char) :=
  (s.tails.find? fun rest => word.toList.isPrefixOf rest).map fun rest => rest.drop word.length

/-- The digits of the fraction of the seconds: the second number of `SECOND(p, f)`, the number of
`TO SECOND(f)`. -/
def namedFraction (typeName : List Char) : Nat :=
  match behindWord typeName "SECOND" with
  | none => 0
  | some rest =>
    if namedFields typeName = [.second] then secondTypeArg typeName 6
    else match afterChar '(' rest with
      | none => 6
      | some args => (strtol args).toNat

section

variable (typeText : String) (m m' : MappedType) (b : Bytes)

/-- The type as its text says it. `mapType` finds no `MONTH` behind `YEAR TO`, takes `SECOND` alone
for `MINUTE TO SECOND`, and reads no fraction behind `TO SECOND`. -/
def declared : MappedType :=
  let typeName := upper typeText.toList
  if m.type = .interval then
    { m with
      intervalStart := (namedFields typeName).headD m.intervalStart
      intervalEnd := (namedFields typeName).getLastD m.intervalEnd
      scale := namedFraction typeName }
  else m

/-- The digits that a datetime shows behind its seconds. `mapType` keeps six for `TIMESTAMP(0)`. -/
def namedDigits : Nat :=
  match afterChar '(' (upper typeText.toList) with
  | none => m.scale
  | some args => (strtol args).toNat

/-- The characters that the type text asks for. -/
def characterLimit : Nat :=
  let typeName := upper typeText.toList
  typeArg typeName (if startsWithWord typeName "LONG VARCHAR" then 2000 else 1)

def characterWidth : Nat := characterByteWidth (upper typeText.toList)

/-! ## What the bytes of a type mean -/

/-- A value in units of its own. -/
inductive Datum
  | exact (n : Int) (scale : Nat)
  | floating (bits : Nat)
  | datetime (fields : List Nat) (scale : Nat)
  | interval (months : Bool) (size : ℚ)
  | truth (value : Bool)
  | characters (codes : List Nat)
  | octets (bytes : Bytes)
deriving DecidableEq

def ucs2Codes : Bytes → Option (List Nat)
  | [] => some []
  | [_] => none
  | low :: high :: rest => (ucs2Codes rest).map (littleEndian [low, high] :: ·)

def utf8Codes : Option (List Nat) :=
  (String.fromUTF8? ⟨b.toArray⟩).map fun text => text.toList.map Char.toNat

/-- The characters of a text, by the character set that `characterByteWidth` finds. -/
def characterCodes (width : Nat) (b : Bytes) : Option (List Nat) :=
  if width = 4 then utf8Codes b
  else if width = 2 then ucs2Codes b
  else some (b.map UInt8.toNat)

def yearMonth (last : DatetimeField) : Bool := last = .year || last = .month

/-- How many months or seconds the last field of an interval counts. -/
def intervalUnit : DatetimeField → Nat
  | .year => 12
  | .month => 1
  | .day => 86400
  | .hour => 3600
  | .minute => 60
  | .second => 1

/-- The count of an interval in months, or in seconds with a fraction. -/
def intervalDatum (n : Int) : Datum :=
  .interval (yearMonth m.intervalEnd) (n * intervalUnit m.intervalEnd / 10 ^ m.scale)

/-- The value of the bytes of a column that is not NULL. -/
def datum : Option Datum :=
  match m.type with
  | .int8 | .int16 | .int32 | .int64 => some (.exact (binaryNumber b m.unsignedNumeric) 0)
  | .float32 | .float64 => some (.floating (littleEndian b))
  | .numeric =>
    if m.precision > 18 then (bigNumber b m.precision).map (.exact · m.scale)
    else if m.decimalStorage then (decimalNumber b).map (.exact · m.scale)
    else some (.exact (binaryNumber b m.unsignedNumeric) m.scale)
  | .datetime => some (.datetime (fieldValues (datetimeWidths m.length) b) m.scale)
  | .interval => some (intervalDatum (declared typeText m) (binaryNumber b m.unsignedNumeric))
  | .boolean => some (.truth (littleEndian b ≠ 0))
  | .char | .varchar => (characterCodes (characterWidth typeText) b).map .characters
  | .binary | .varbinary => some (.octets b)

/-- How many of its last fields an interval holds at most. -/
def intervalRange : Nat :=
  10 ^ m.precision * ((fieldsBetween m.intervalStart m.intervalEnd).map
    fun f => f.maxITVal + 1).prod

/-- The characters that count against the limit: blanks at the end of a fixed column do not. -/
def countedCharacters (type : LiteCodecType) (codes : List Nat) : Nat :=
  if type = .char then (codes.rdropWhile (· = 32)).length else codes.length

/-- A fraction of `scale` digits, the last of them zeros, so that `digits` are left. -/
def ShowsFraction (fields : List Nat) (scale digits : Nat) : Prop :=
  10 ^ (scale - digits) ∣ fields.getLastD 0

/-- A value that a column of the type can hold. For the values that are not listed the bytes can
say no more than the type holds. -/
def DatumFits : Datum → Prop
  | .exact n _ => m.type = .numeric →
      n.natAbs < 10 ^ m.precision ∧ (m.unsignedNumeric = true → 0 ≤ n)
  | .datetime fields scale => m.length ≠ 4 → ShowsFraction fields scale (namedDigits typeText m)
  | .interval _ size => |size| < intervalRange (declared typeText m) *
      intervalUnit (declared typeText m).intervalEnd
  | .characters codes => countedCharacters m.type codes ≤ characterLimit typeText
  | .floating _ | .truth _ | .octets _ => True

/-- The value of a column of a row. -/
def columnDatum (row : Bytes) (col : LiteStoredColumn) : Option Datum :=
  (storedKeyBytes row col).toOption.bind (datum typeText col.toMappedType)

/-! ## Columns that stay -/

/-- The sign is read alike: both types have one, or none, or the top bit is clear. -/
def SignAlike : Prop :=
  m.unsignedNumeric = m'.unsignedNumeric ∨ littleEndian b < 2 ^ (8 * b.length - 1)

/-- The bytes of a scaled number say one number to both types, and one that the new type holds. -/
def NumericAlike : Prop :=
  if m.precision > 18 then
    m'.unsignedNumeric = true → ∀ n, bigNumber b m.precision = some n → 0 ≤ n
  else if m.decimalStorage then
    if m'.decimalStorage then m'.unsignedNumeric = true → ∀ n, decimalNumber b = some n → 0 ≤ n
    else decimalNumber b = none
  else m'.decimalStorage = false ∧ SignAlike m m' b ∧
    (binaryNumber b m.unsignedNumeric).natAbs < 10 ^ m.precision

/-- The count of an interval is in one unit for both types, or is zero in units of one kind, and
the new type holds it. -/
def IntervalAlike (n : Int) : Prop :=
  yearMonth m.intervalEnd = yearMonth m'.intervalEnd ∧
    (n = 0 ∨
      intervalUnit m.intervalEnd * 10 ^ m'.scale = intervalUnit m'.intervalEnd * 10 ^ m.scale) ∧
    n.natAbs < intervalRange m' * 10 ^ m'.scale

/-- The bytes of a column say to the new type what they say to the old one. -/
def ReadsAlike (typeText' : String) (m m' : MappedType) (b : Bytes) : Prop :=
  match m.type with
  | .int8 | .int16 | .int32 | .int64 => SignAlike m m' b
  | .numeric => NumericAlike m m' b
  | .interval => SignAlike m m' b ∧ IntervalAlike (declared typeText m) (declared typeText' m')
      (binaryNumber b m.unsignedNumeric)
  | .datetime => m.length ≠ 4 →
      ShowsFraction (fieldValues (datetimeWidths m.length) b) m.scale (namedDigits typeText' m')
  | .char | .varchar => ∀ codes, characterCodes (characterWidth typeText) b = some codes →
      characterCodes (characterWidth typeText') b = some codes ∧
        countedCharacters m.type codes ≤ characterLimit typeText'
  | .float32 | .float64 | .boolean | .binary | .varbinary => True

end

/-- What `LiteRebuildBinaryRow` compares. -/
structure MappedType.Compatible (m m' : MappedType) : Prop where
  type : m.type = m'.type
  length : m.length = m'.length
  precision : m.precision = m'.precision
  scale : m.scale = m'.scale

theorem binaryNumber_eq_iff {b : Bytes} {u u' : Bool} :
    binaryNumber b u = binaryNumber b u' ↔ u = u' ∨ littleEndian b < 2 ^ (8 * b.length - 1) := by
  have hpow : (0 : Int) < 2 ^ (8 * b.length) := by positivity
  unfold binaryNumber
  by_cases htop : littleEndian b < 2 ^ (8 * b.length - 1)
  · simp [htop]
  · by_cases hsame : u = u'
    · simp [hsame]
    · cases u <;> cases u'
      case false.false | true.true => exact absurd rfl hsame
      all_goals
        simp only [htop, decide_false, Bool.or_false, Bool.false_eq_true, if_false, if_true, or_false]
        constructor
        · intro h
          omega
        · intro h
          cases h

/-- A digit is no small number: `NUMERIC(1)` and `DECIMAL(1)` have no byte in common that says the
same. -/
theorem decimalNumber_ne_binary {b : Bytes} (hlen : b.length = 1) (u : Bool) :
    decimalNumber b ≠ some (binaryNumber b u) := by
  obtain ⟨x, rfl⟩ := List.length_eq_one_iff.mp hlen
  have hall : ∀ x : UInt8, ∀ u : Bool, decimalNumber [x] ≠ some (binaryNumber [x] u) := by
    decide +kernel
  exact hall x u

variable {n : Int}

theorem bigNumber_lt {b : Bytes} {precision : Nat} (h : bigNumber b precision = some n) :
    n.natAbs < 10 ^ precision := by
  unfold bigNumber at h
  dsimp only at h
  split at h
  · rename_i hlt
    rw [Option.some.injEq] at h
    split at h <;> omega
  · cases h

theorem decimalNumber_lt {b : Bytes} (h : decimalNumber b = some n) : n.natAbs < 10 ^ b.length := by
  cases b with
  | nil => cases h
  | cons first rest =>
    unfold decimalNumber at h
    dsimp only at h
    split at h
    · rename_i hdigits
      rw [Option.some.injEq] at h
      subst h
      exact digitsNumber_lt (by simpa using hdigits)
    · cases h

section Alike

variable {typeText typeText' : String} {m m' : MappedType} {b : Bytes}

/-- What the new type must make of the bytes. -/
def KeepsDatum (typeText typeText' : String) (m m' : MappedType) (b : Bytes) : Prop :=
  ∀ d, datum typeText m b = some d → datum typeText' m' b = some d ∧ DatumFits typeText' m' d

theorem keepsDatum_numeric (hc : m.Compatible m') (hexact : m.Exact) (hexact' : m'.Exact)
    (htype : m.type = .numeric) (hb : b.length = m.length) :
    KeepsDatum typeText typeText' m m' b ↔ NumericAlike m m' b := by
  have htype' : m'.type = .numeric := hc.type ▸ htype
  have hlength := (hexact.numeric htype).2
  have hlength' := (hexact'.numeric htype').2
  rw [← hc.length, ← hc.precision] at hlength'
  unfold KeepsDatum NumericAlike
  by_cases hbig : m.precision > 18
  · have hdatum : ∀ text : String, ∀ k : MappedType, k.type = .numeric → k.precision = m.precision →
        k.scale = m.scale → datum text k b = (bigNumber b m.precision).map (.exact · m.scale) := by
      intro text k hk hp hs
      simp [datum, hk, hp, hs, hbig]
    rw [hdatum typeText m htype rfl rfl, hdatum typeText' m' htype' hc.precision.symm hc.scale.symm,
      if_pos hbig]
    constructor
    · intro h hu n hn
      exact ((h (.exact n m.scale) (by rw [hn]; rfl)).2 htype').2 hu
    · intro h d hd
      refine ⟨hd, ?_⟩
      obtain ⟨n, hn, rfl⟩ := Option.map_eq_some_iff.mp hd
      exact fun _ => ⟨hc.precision ▸ bigNumber_lt hn, fun hu => h hu n hn⟩
  · have hdatum : ∀ text : String, ∀ k : MappedType, k.type = .numeric → k.precision = m.precision →
        k.scale = m.scale → datum text k b = if k.decimalStorage then
          (decimalNumber b).map (.exact · m.scale)
          else some (.exact (binaryNumber b k.unsignedNumeric) m.scale) := by
      intro text k hk hp hs
      simp [datum, hk, hp, hs, hbig]
    rw [hdatum typeText m htype rfl rfl, hdatum typeText' m' htype' hc.precision.symm hc.scale.symm,
      if_neg hbig]
    -- equal lengths of the two storage forms leave one digit
    have hone : m.decimalStorage ≠ m'.decimalStorage → b.length = 1 := by
      intro hne
      have hsize : ∀ p ≤ 18, p = numericStorageSize p → p = 1 := by decide
      rw [hb]
      cases hd : m.decimalStorage <;> cases hd' : m'.decimalStorage <;>
        simp only [hd, hd', hbig, if_true, if_false, Bool.false_eq_true] at hne hlength hlength'
      · exact absurd rfl hne
      iterate 2
        · have := hsize m.precision (by omega) (by omega)
          omega
      · exact absurd rfl hne
    cases hd : m.decimalStorage with
    | true =>
      cases hd' : m'.decimalStorage with
      | true =>
        rw [hd, if_neg hbig] at hlength
        simp only [if_true]
        constructor
        · intro h hu n hn
          exact ((h (.exact n m.scale) (by rw [hn]; rfl)).2 htype').2 hu
        · intro h d hd
          refine ⟨hd, ?_⟩
          obtain ⟨n, hn, rfl⟩ := Option.map_eq_some_iff.mp hd
          have hlt := decimalNumber_lt hn
          rw [hb, hlength, if_pos rfl, hc.precision] at hlt
          exact fun _ => ⟨hlt, fun hu => h hu n hn⟩
      | false =>
        have hlen := hone (by rw [hd, hd']; decide)
        simp only [if_true, Bool.false_eq_true, if_false]
        constructor
        · intro h
          cases hn : decimalNumber b with
          | none => rfl
          | some n =>
            have heq := (h (.exact n m.scale) (by rw [hn]; rfl)).1
            simp only [Option.some.injEq, Datum.exact.injEq] at heq
            exact absurd (by rw [hn, heq.1]) (decimalNumber_ne_binary hlen m'.unsignedNumeric)
        · intro h d hd
          rw [h] at hd
          cases hd
    | false =>
      cases hd' : m'.decimalStorage with
      | true =>
        have hlen := hone (by rw [hd, hd']; decide)
        simp only [Bool.false_eq_true, if_false, if_true]
        constructor
        · intro h
          obtain ⟨n, hn, heq⟩ := Option.map_eq_some_iff.mp (h _ rfl).1
          rw [Datum.exact.injEq] at heq
          exact absurd (by rw [hn, heq.1]) (decimalNumber_ne_binary hlen m.unsignedNumeric)
        · rintro ⟨h, -⟩
          cases h
      | false =>
        simp only [Bool.false_eq_true, if_false, true_and, Option.some.injEq, forall_eq',
          Datum.exact.injEq, and_true]
        unfold SignAlike
        rw [eq_comm (a := binaryNumber b m'.unsignedNumeric), binaryNumber_eq_iff]
        refine and_congr_right fun hsign => ?_
        have heq := binaryNumber_eq_iff.mpr hsign
        constructor
        · intro h
          exact hc.precision ▸ (h htype').1
        · intro h _
          refine ⟨hc.precision ▸ h, fun hu => ?_⟩
          rw [heq, hu]
          simp [binaryNumber]

theorem intervalUnit_pos (f : DatetimeField) : 0 < intervalUnit f := by cases f <;> decide

theorem intervalUnit_pos_rat (f : DatetimeField) : (0 : ℚ) < intervalUnit f := by
  exact_mod_cast intervalUnit_pos f

/-- The sign of an interval is the sign of its count. -/
theorem size_neg_iff (m : MappedType) (n : Int) :
    (n * intervalUnit m.intervalEnd / 10 ^ m.scale : ℚ) < 0 ↔ n < 0 := by
  have hunit := intervalUnit_pos_rat m.intervalEnd
  rw [div_lt_iff₀ (by positivity), zero_mul, ← Int.cast_lt_zero (R := ℚ)]
  constructor
  · intro h
    by_contra hn
    have := mul_nonneg (not_lt.mp hn) hunit.le
    linarith
  · intro h
    exact mul_neg_of_neg_of_pos h hunit

theorem size_eq_iff :
    (n * intervalUnit m'.intervalEnd / 10 ^ m'.scale : ℚ) =
      n * intervalUnit m.intervalEnd / 10 ^ m.scale ↔
    n = 0 ∨ intervalUnit m.intervalEnd * 10 ^ m'.scale =
      intervalUnit m'.intervalEnd * 10 ^ m.scale := by
  rw [div_eq_div_iff (by positivity) (by positivity), mul_assoc, mul_assoc, mul_eq_mul_left_iff,
    Int.cast_eq_zero, or_comm]
  refine or_congr_right ?_
  norm_cast
  exact eq_comm

theorem abs_size_lt_iff :
    |(n * intervalUnit m'.intervalEnd / 10 ^ m'.scale : ℚ)| <
      intervalRange m' * intervalUnit m'.intervalEnd ↔ n.natAbs < intervalRange m' * 10 ^ m'.scale := by
  have hunit := intervalUnit_pos_rat m'.intervalEnd
  have hscale : (0 : ℚ) < 10 ^ m'.scale := by positivity
  rw [abs_div, abs_mul, abs_of_pos hunit, abs_of_pos hscale, div_lt_iff₀ hscale, mul_right_comm,
    mul_lt_mul_iff_left₀ hunit, ← Int.cast_abs, ← Nat.cast_natAbs]
  norm_cast

/-- Where the sign is read otherwise, one count is below zero and the other is not. -/
theorem signAlike_of_sign (h : binaryNumber b m.unsignedNumeric < 0 ↔
    binaryNumber b m'.unsignedNumeric < 0) : SignAlike m m' b := by
  unfold SignAlike
  by_contra hno
  obtain ⟨hne, htop⟩ := not_or.mp hno
  have hlt : (littleEndian b : Int) < 2 ^ (8 * b.length) := by
    have := littleEndian_lt b
    rw [show (256 : Nat) = 2 ^ 8 by rfl, ← pow_mul] at this
    exact_mod_cast this
  have hsigned : binaryNumber b false < 0 := by
    simp only [binaryNumber, htop, decide_false, Bool.or_false, Bool.false_eq_true, if_false]
    omega
  have hunsigned : ¬ binaryNumber b true < 0 := by simp [binaryNumber]
  cases hu : m.unsignedNumeric <;> cases hu' : m'.unsignedNumeric <;> rw [hu, hu'] at h hne
  · exact hne rfl
  · exact hunsigned (h.mp hsigned)
  · exact hunsigned (h.mpr hsigned)
  · exact hne rfl

theorem keepsDatum_interval (hc : m.Compatible m') (htype : m.type = .interval) :
    KeepsDatum typeText typeText' m m' b ↔ SignAlike m m' b ∧
      IntervalAlike (declared typeText m) (declared typeText' m')
        (binaryNumber b m.unsignedNumeric) := by
  have hdatum : datum typeText m b =
      some (intervalDatum (declared typeText m) (binaryNumber b m.unsignedNumeric)) := by
    simp [datum, htype]
  have hdatum' : datum typeText' m' b =
      some (intervalDatum (declared typeText' m') (binaryNumber b m'.unsignedNumeric)) := by
    simp [datum, ← hc.type, htype]
  unfold KeepsDatum
  simp only [hdatum, hdatum', Option.some.injEq, forall_eq']
  constructor
  · rintro ⟨heq, hfits⟩
    simp only [intervalDatum, Datum.interval.injEq] at heq
    have hsign : SignAlike m m' b := by
      apply signAlike_of_sign
      rw [← size_neg_iff (declared typeText m), ← size_neg_iff (declared typeText' m'), heq.2]
    rw [← binaryNumber_eq_iff.mpr hsign] at heq
    refine ⟨hsign, heq.1.symm, size_eq_iff.mp heq.2, ?_⟩
    simp only [DatumFits, intervalDatum] at hfits
    rwa [← heq.2, abs_size_lt_iff] at hfits
  · rintro ⟨hsign, hkind, hsize, hfits⟩
    have heq := size_eq_iff.mpr hsize
    rw [← binaryNumber_eq_iff.mpr hsign]
    simp only [intervalDatum, Datum.interval.injEq, DatumFits]
    refine ⟨⟨hkind.symm, heq⟩, ?_⟩
    rw [← heq, abs_size_lt_iff]
    exact hfits

theorem keepsDatum_iff (hc : m.Compatible m') (hexact : m.Exact) (hexact' : m'.Exact)
    (hb : isVariableType m.type = false → b.length = m.length) :
    KeepsDatum typeText typeText' m m' b ↔ ReadsAlike typeText typeText' m m' b := by
  have htype' := hc.type
  unfold ReadsAlike
  cases ht : m.type with
  | numeric => exact keepsDatum_numeric hc hexact hexact' ht (hb (by rw [ht]; rfl))
  | interval => exact keepsDatum_interval hc ht
  | int8 | int16 | int32 | int64 =>
    simp only [KeepsDatum, datum, ← htype', ht, Option.some.injEq, forall_eq', Datum.exact.injEq,
      and_true, DatumFits, reduceCtorEq, false_imp_iff]
    rw [eq_comm, binaryNumber_eq_iff]
    rfl
  | datetime =>
    simp only [KeepsDatum, datum, ← htype', ht, Option.some.injEq, forall_eq', DatumFits,
      ← hc.length, ← hc.scale, true_and]
  | char | varchar =>
    simp only [KeepsDatum, datum, ← htype', ht, Option.map_eq_some_iff, forall_exists_index, and_imp,
      forall_apply_eq_imp_iff₂, DatumFits, Datum.characters.injEq, exists_eq_right]
  | float32 | float64 | boolean | binary | varbinary =>
    simp only [KeepsDatum, datum, ← htype', ht, Option.some.injEq, forall_eq', DatumFits, and_true]

end Alike

/-! ## Rows cut short -/

/-- A value is read where the bytes of its column are. -/
theorem storedValue_eq_bind (row : Bytes) (col : LiteStoredColumn) :
    storedValue row col = (storedKeyBytes row col).toOption.bind (contentValue col) := by
  unfold storedValue storedKeyBytes contentValue fixedBytes
  cases ht : col.type with
  | varchar | varbinary =>
    cases hasRange row col.vcLenIndOffset variableLenSize <;>
      cases hasRange row col.offset (varLength row col.vcLenIndOffset) <;>
        simp [isVariableType, Except.toOption]
  | numeric =>
    cases hasRange row col.offset col.length <;> simp [isVariableType, Except.toOption]
  | _ => cases hasRange row col.offset col.length <;> simp [isVariableType, Except.toOption]

/-- The end of what a row holds of a column: of a NULL, its bit. -/
def cellEnd (col : LiteStoredColumn) : Option Nat → Nat
  | none => col.nullIndOffset + col.nullBitIndex.toNat / 8 + 1
  | some length => col.offset + length

section Cut

variable {columns : List LiteStoredColumn} {rowLen first : Nat} (hp : Placed columns rowLen first)
  (hbits : (columns.filter (·.nullable)).length ≤ 2 ^ 15) {c : LiteStoredColumn} (hc : c ∈ columns)
  {row : Bytes} (hlen : row.length = rowLen) {cut : Nat} (hcut : cut ≤ rowLen)

include hp hbits hc hlen hcut

theorem isNull_take_iff (hn : c.nullable = true) : storedColumnIsNull (row.take cut) c = true ↔
    storedColumnIsNull row c = true ∧ cellEnd c none ≤ cut := by
  obtain ⟨k, hk, hk15, hfirst, hroom, heq⟩ := isNull_eq hp hbits hc hn hlen
  have htake : (row.take cut).length = cut := by
    rw [List.length_take]
    omega
  have hend : cellEnd c none = c.nullIndOffset + k / 8 + 1 := by
    unfold cellEnd
    rw [hk]
    rfl
  rw [heq, hend]
  by_cases hin : c.nullIndOffset + k / 8 < cut
  · have hbyte : byteOf (row.take cut) (c.nullIndOffset + k / 8) =
        byteOf row (c.nullIndOffset + k / 8) := by
      unfold byteOf
      rw [List.getD_eq_getElem?_getD, List.getD_eq_getElem?_getD,
        agreeOn_take row cut _ (Nat.zero_le _) hin]
    have hoffset : ¬ c.nullIndOffset ≥ (row.take cut).length := by omega
    simp only [storedColumnIsNull, hn, Bool.not_true, Bool.false_eq_true, if_false, if_neg hoffset, hk]
    rw [nullBitSet_eq _ _ _ hk15, nullBitSet_eq _ _ _ hk15, hbyte]
    constructor
    · exact fun h => ⟨h, hin⟩
    · exact fun h => h.1
  · -- a byte behind the end reads as zero
    have hbyte : byteOf (row.take cut) (c.nullIndOffset + k / 8) = 0 := by
      unfold byteOf
      rw [List.getD_eq_getElem?_getD, List.getElem?_eq_none (by omega), Option.getD_none]
    constructor
    · intro h
      exfalso
      simp only [storedColumnIsNull, hn, Bool.not_true, Bool.false_eq_true, if_false, hk] at h
      split at h
      · cases h
      · rw [nullBitSet_eq _ _ _ hk15, hbyte] at h
        simp at h
    · intro h
      omega

theorem Holds.isNull_take_none (h : Holds row c none) :
    storedColumnIsNull (row.take cut) c = true ↔ cellEnd c none ≤ cut := by
  have hnull : storedColumnIsNull row c = true := h.isNull
  have hn : c.nullable = true := by
    unfold storedColumnIsNull at hnull
    by_contra hn
    simp [hn] at hnull
  rw [isNull_take_iff hp hbits hc hlen hcut hn]
  exact and_iff_right hnull

theorem Holds.isNull_take_some {bytes : Bytes} (h : Holds row c (some bytes)) :
    storedColumnIsNull (row.take cut) c = false := by
  have hnull : storedColumnIsNull row c = false := h.isNull
  cases hn : c.nullable with
  | false => simp [storedColumnIsNull, hn]
  | true =>
    rw [← Bool.not_eq_true, isNull_take_iff hp hbits hc hlen hcut hn, hnull]
    simp

omit hbits in
/-- What is read of a column is what was stored there, if it ends inside the row. -/
theorem Holds.bind_take {β : Type} {cell : Cell} (h : Holds row c cell) {f : Bytes → Option β} {v : β} :
    (storedKeyBytes (row.take cut) c).toOption.bind f = some v ↔
      cellEnd c (some (cellContent c cell).length) ≤ cut ∧ f (cellContent c cell) = some v := by
  have hbytes := fun b => storedKeyBytes_take hp hc hlen hcut h (b := b)
  unfold cellEnd
  cases hread : storedKeyBytes (row.take cut) c with
  | error e =>
    simp only [Except.toOption, Option.bind_none, reduceCtorEq, false_iff, not_and]
    intro hin
    have hok := (hbytes (cellContent c cell)).mpr ⟨rfl, hin⟩
    rw [hread] at hok
    cases hok
  | ok b =>
    obtain ⟨rfl, hin⟩ := (hbytes b).mp hread
    simp only [Except.toOption, Option.bind_some]
    exact (and_iff_right hin).symm

end Cut

end litestore
