-- The keys that the codec cuts out of a stored row: primary keys, unique keys,
-- constraint keys and the ordered payload of a secondary index.
import LiteStore.Layout
import LiteStore.Lib.Checked

namespace litestore

open checked

/-! ## Columns of a stored row -/

/-- The letters that mark the kind of a key. -/
def letterP : UInt8 := 80
def letterU : UInt8 := 85
def letterI : UInt8 := 73
def letterJ : UInt8 := 74
def letterR : UInt8 := 82

def liteBinaryRowMagic : Bytes := [76, 84, 66, 82, 49]

/-- The row behind the magic bytes. -/
def storedRowOf (encoded : Bytes) (message : String) : Except String Bytes :=
  if liteBinaryRowMagic.isPrefixOf encoded then .ok (encoded.drop liteBinaryRowMagic.length)
  else .error message

def hasRange (row : Bytes) (offset length : Nat) : Bool :=
  offset ≤ row.length && length ≤ row.length - offset

theorem slice_length {row : Bytes} {offset n : Nat} (h : hasRange row offset n = true) :
    (slice row offset n).length = n := by
  simp only [hasRange, Bool.and_eq_true, decide_eq_true_eq] at h
  simp [slice]
  omega

theorem slice_eq_map {row : Bytes} {offset n : Nat} (h : hasRange row offset n = true) :
    slice row offset n = (List.range n).map fun i => byteOf row (offset + i) := by
  apply List.ext_getElem
  · rw [slice_length h]
    simp
  · intro i hi hi'
    have hlen := slice_length h
    simp only [hasRange, Bool.and_eq_true, decide_eq_true_eq] at h
    simp only [slice, List.getElem_take, List.getElem_drop, List.getElem_map, List.getElem_range,
      byteOf]
    rw [List.getD_eq_getElem _ _ (by omega)]

/-- `isNullValue` of the aligned format: the bit of a column in the null bitmap. The
index of the bit is cut to sixteen bits. -/
def nullBitSet (row : Bytes) (bitmap : Nat) (bitIndex : Int) : Bool :=
  let bit := (bitIndex % 65536).toNat
  (byteOf row (bitmap + bit / 8)).toNat / 2 ^ (7 - bit % 8) % 2 = 1

def storedColumnIsNull (row : Bytes) (col : LiteStoredColumn) : Bool :=
  if !col.nullable then false
  else if col.nullIndOffset ≥ row.length then false
  else nullBitSet row col.nullIndOffset col.nullBitIndex

/-- `getVarLength`: four bytes, least significant first. -/
def varLength (row : Bytes) (offset : Nat) : Nat :=
  littleEndian [byteOf row offset, byteOf row (offset + 1), byteOf row (offset + 2),
    byteOf row (offset + 3)]

/-- The bytes of one column, as the key builders of the codec take them. -/
def storedKeyBytes (row : Bytes) (col : LiteStoredColumn) : Except String Bytes :=
  if isVariableType col.type then
    if !hasRange row col.vcLenIndOffset variableLenSize then
      .error "truncated lite binary row payload"
    else if !hasRange row col.offset (varLength row col.vcLenIndOffset) then
      .error "truncated lite binary row payload"
    else .ok (slice row col.offset (varLength row col.vcLenIndOffset))
  else if !hasRange row col.offset col.length then .error "truncated lite binary row payload"
  else .ok (slice row col.offset col.length)

/-- A string of the program never grows to `2 ^ 63` bytes; an append past that throws. -/
def boundedKey (key : Bytes) : Except String Bytes :=
  if key.length < 2 ^ 63 then .ok key else .error "basic_string::append"

/-- The loop over the key columns. `onNull` is what a NULL column gives. -/
def keyParts (outOfRange : String) (onNull : Except String (Option Bytes))
    (columns : List LiteStoredColumn) (row : Bytes) : List Nat → Except String (Option Bytes)
  | [] => .ok (some [])
  | sourceIndex :: rest =>
    match columns[sourceIndex]? with
    | none => .error outOfRange
    | some col =>
      if storedColumnIsNull row col then onNull
      else do
        let bytes ← storedKeyBytes row col
        let tail ← keyParts outOfRange onNull columns row rest
        .ok (tail.map fun t => sizeBytes sourceIndex ++ sizeBytes bytes.length ++ bytes ++ t)

/-! ## Primary and unique keys -/

/-- The columns of a stored row. A row with no byte at all is cut short. -/
def openRow (table : LiteTableDef) (encoded : Bytes) :
    Except String (List LiteStoredColumn × Bytes) := do
  let row ← storedRowOf encoded "invalid lite binary row payload"
  let (columns, rowLen) ← computeLayout table
  if row.isEmpty && rowLen > 0 then .error "truncated lite binary row payload"
  else .ok (columns, row)

def liteBuildPrimaryKey (table : LiteTableDef) (encoded : Bytes) : Except String Bytes := do
  if table.primaryKeyColumns.isEmpty then .error "lite table has no primary key"
  else
    let (columns, row) ← openRow table encoded
    let parts ← keyParts "lite primary key column index out of range"
      (.error "NULL is not allowed for lite primary key column") columns row
      table.primaryKeyColumns
    boundedKey (letterP :: sizeBytes table.primaryKeyColumns.length ++ parts.getD [])

variable {encoded key : Bytes}

/-- A primary key starts with its letter, is longer than a row id and fits in a string. -/
theorem liteBuildPrimaryKey_shape {table : LiteTableDef}
    (h : liteBuildPrimaryKey table encoded = .ok key) :
    key.head? = some letterP ∧ 9 ≤ key.length ∧ key.length < 2 ^ 63 := by
  unfold liteBuildPrimaryKey at h
  split at h
  · simp at h
  · simp only [bind_eq_ok] at h
    obtain ⟨⟨columns, row⟩, -, parts, -, hkey⟩ := h
    unfold boundedKey at hkey
    split at hkey
    · rename_i hlen
      cases hkey
      refine ⟨rfl, ?_, hlen⟩
      simp
    · simp at hkey

section

variable (table : LiteTableDef) (row : Bytes) (column : LiteStoredColumn)

/-- The key of a unique constraint; none when a column of it is NULL. -/
def liteBuildUniqueKey (encoded : Bytes) (keyColumns : List Nat) (keyOrdinal : Nat) :
    Except String (Option Bytes) := do
  if keyColumns.isEmpty then .error "lite unique key has no columns"
  else
    let (columns, row) ← openRow table encoded
    let parts ← keyParts "lite unique key column index out of range" (.ok none)
      columns row keyColumns
    .ok (parts.map fun p => letterU :: sizeBytes keyOrdinal ++ sizeBytes keyColumns.length ++ p)

/-- A unique key starts with its letter and its ordinal. -/
theorem liteBuildUniqueKey_shape {table : LiteTableDef} {keyColumns : List Nat} {ordinal : Nat}
    (h : liteBuildUniqueKey table encoded keyColumns ordinal = .ok (some key)) :
    ∃ rest, key = letterU :: sizeBytes ordinal ++ rest := by
  unfold liteBuildUniqueKey at h
  split at h
  · simp at h
  · simp only [bind_eq_ok, Except.ok.injEq, Option.map_eq_some_iff] at h
    obtain ⟨⟨columns, row⟩, -, parts, -, p, -, hkey⟩ := h
    exact ⟨sizeBytes keyColumns.length ++ p, by rw [← hkey]; simp⟩

/-! ## Ordered index payloads -/

/-- Every type of the codec has an ordered form. -/
def orderedIndexColumnSupported : Bool :=
  match column.type with
  | .int8 | .int16 | .int32 | .int64 | .float32 | .float64 | .char | .varchar | .binary
  | .varbinary | .boolean | .interval | .datetime | .numeric => true

def orderedEscapedByte (value : UInt8) : Bytes := if value = 0 then [0, 255] else [value]

def orderedEscaped (bytes : Bytes) : Bytes := bytes.flatMap orderedEscapedByte

/-- The low bytes of a number, most significant first. -/
def highFirst (n length : Nat) : Bytes := (List.range length).reverse.map (byteAt n)

/-- The digits of a magnitude, padded to `precision`; none when they do not fit. -/
def decimalDigits (magnitude precision : Nat) : Option Bytes :=
  let digits := (Nat.digits 10 magnitude).reverse
  if digits.length > precision then none
  else some (List.replicate (precision - digits.length) 48 ++
    digits.map fun d => UInt8.ofNat (48 + d))

/-- A number stored as sign and magnitude, the sign in the top bit. -/
def bigNumAscii (bytes : Bytes) (precision : Nat) : Option (Bool × Bytes) :=
  let bits := littleEndian bytes
  let signBit := 2 ^ (8 * bytes.length - 1)
  (decimalDigits (bits % signBit) precision).map fun digits => (decide (bits ≥ signBit), digits)

/-- The sign and the digits of a stored decimal or big number. -/
def orderedDigits : Except String (Bool × Bytes) :=
  if column.decimalStorage then
    if !hasRange row column.offset column.length || column.length ≠ column.precision then
      .error "invalid lite ordered decimal value"
    else
      let first := byteOf row column.offset
      .ok (decide (first ≥ 128),
        (first &&& 127) :: slice row (column.offset + 1) (column.length - 1))
  else if !hasRange row column.offset column.length || column.precision ≤ 18 then
    .error "invalid lite ordered BigNum value"
  else match bigNumAscii (slice row column.offset column.length) column.precision with
    | none => .error "invalid lite ordered BigNum value"
    | some signed => .ok signed

def appendOrderedDecimalDigits : Except String Bytes := do
  let (signed, digits) ← orderedDigits row column
  let negative := signed && digits.any (· ≠ 48)
  if digits.any (fun d => d < 48 || d > 57) then .error "invalid lite ordered decimal digit"
  else .ok (orderedEscaped ((if negative then 1 else 2) ::
    digits.map fun d => if negative then 57 - (d - 48) else d))

def appendOrderedDatetime : Except String Bytes :=
  if !hasRange row column.offset column.length ||
      (column.length ≠ 4 && column.length ≠ 8 && column.length ≠ 11) then
    .error "invalid lite ordered datetime value"
  else
    let at_ := fun i => byteOf row (column.offset + i)
    let date := if column.length ≠ 8 then [at_ 1, at_ 0, at_ 2, at_ 3] else []
    let pos := if column.length ≠ 8 then 4 else 0
    let time := if column.length ≠ 4 then
      [at_ pos, at_ (pos + 1), at_ (pos + 2),
       at_ (pos + 6), at_ (pos + 5), at_ (pos + 4), at_ (pos + 3)] else []
    .ok (orderedEscaped (date ++ time))

/-- The order of floating numbers: a negative one is turned over, and both zeros are one. -/
def orderedFloatBits (bits width : Nat) : Nat :=
  let signBit := 2 ^ (width - 1)
  let canonical := if bits % signBit = 0 then 0 else bits
  if canonical ≥ signBit then 2 ^ width - 1 - canonical else canonical + signBit

/-- The order of binary numbers: the sign bit is turned over. -/
def orderedIntBits (bits width : Nat) (unsigned : Bool) : Nat :=
  if unsigned then bits
  else if bits ≥ 2 ^ (width - 1) then bits - 2 ^ (width - 1)
  else bits + 2 ^ (width - 1)

/-- The bytes of a column that is not NULL, before the end mark. -/
def orderedComponentBytes : Except String Bytes :=
  match column.type with
  | .varchar | .varbinary | .char | .binary =>
    let len := if isVariableType column.type then varLength row column.vcLenIndOffset
      else column.length
    if !hasRange row column.offset len then .error "truncated lite ordered index value"
    else .ok (orderedEscaped (slice row column.offset len))
  | .float32 | .float64 =>
    if !hasRange row column.offset column.length ||
        (column.length ≠ 4 && column.length ≠ 8) then
      .error "invalid lite ordered floating index value"
    else
      let bits := littleEndian (slice row column.offset column.length)
      .ok (orderedEscaped (highFirst (orderedFloatBits bits (column.length * 8)) column.length))
  | .datetime => appendOrderedDatetime row column
  | _ =>
    if column.type = .numeric ∧ (column.decimalStorage ∨ column.precision > 18) then
      appendOrderedDecimalDigits row column
    else if !hasRange row column.offset column.length || column.length = 0 ||
        column.length > 8 then
      .error "invalid lite ordered numeric index value"
    else
      let bits := littleEndian (slice row column.offset column.length)
      .ok (orderedEscaped (highFirst
        (orderedIntBits bits (column.length * 8) column.unsignedNumeric) column.length))

/-- One component of an ordered key, and whether it stands for NULL. -/
def appendOrderedIndexComponent (descending : Bool) : Except String (Bytes × Bool) := do
  if storedColumnIsNull row column then .ok ([if descending then 255 else 0], true)
  else if !orderedIndexColumnSupported column then
    .error "unsupported ordered lite index column type"
  else
    let body ← orderedComponentBytes row column
    let component := 1 :: body ++ [0, 0]
    .ok (if descending then component.map (fun b => ~~~b) else component, false)

/-- The components of the key columns, each with its direction. -/
def orderedComponents (columns : List LiteStoredColumn) (row : Bytes) (descending : List Bool) :
    List Nat → Nat → Except String (Bytes × Bool)
  | [], _ => .ok ([], false)
  | column :: rest, i =>
    match columns[column]? with
    | none => .error ""
    | some col => do
      let (component, isNull) ← appendOrderedIndexComponent row col (descending.getD i false)
      let (tail, tailNull) ← orderedComponents columns row descending rest (i + 1)
      .ok (component ++ tail, isNull || tailNull)

/-- The payload of an index of version two and later, and whether it contains a NULL. -/
def liteBuildOrderedSecondaryKeyPayload (index : LiteIndexDef) (encodedRow : Bytes) :
    Except String (Bytes × Bool) := do
  let row ← storedRowOf encodedRow "invalid lite ordered index input"
  let (columns, _) ← computeLayout table
  orderedComponents columns row index.descending index.keyColumns 0

end

/-! ## What a key depends on -/

section Congr

variable {table table' : LiteTableDef} (hcolumns : table'.columns = table.columns)

include hcolumns

/-- The layout follows from the columns alone. -/
theorem computeLayout_congr : computeLayout table' = computeLayout table := by
  unfold computeLayout
  rw [hcolumns]

theorem openRow_congr (encoded : Bytes) : openRow table' encoded = openRow table encoded := by
  unfold openRow
  rw [computeLayout_congr hcolumns]

theorem liteBuildPrimaryKey_congr
    (hprimary : table'.primaryKeyColumns = table.primaryKeyColumns) (encoded : Bytes) :
    liteBuildPrimaryKey table' encoded = liteBuildPrimaryKey table encoded := by
  unfold liteBuildPrimaryKey
  rw [hprimary, openRow_congr hcolumns]

theorem liteBuildUniqueKey_congr (encoded : Bytes) (keyColumns : List Nat) (ordinal : Nat) :
    liteBuildUniqueKey table' encoded keyColumns ordinal =
      liteBuildUniqueKey table encoded keyColumns ordinal := by
  unfold liteBuildUniqueKey
  rw [openRow_congr hcolumns]

theorem liteBuildOrderedSecondaryKeyPayload_congr (index : LiteIndexDef) (encoded : Bytes) :
    liteBuildOrderedSecondaryKeyPayload table' index encoded =
      liteBuildOrderedSecondaryKeyPayload table index encoded := by
  unfold liteBuildOrderedSecondaryKeyPayload
  rw [computeLayout_congr hcolumns]

end Congr

end litestore
