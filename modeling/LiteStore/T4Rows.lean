-- The rows of an answer on the T4 wire. The server prints every cell as text, and
-- the encoder puts that text into a field whose room comes from the type of the
-- column. The client reads a field at the place and with the type that it was told.
import LiteStore.TextNumbers
import LiteStore.T4Parameters

namespace litestore

open List

/-! ## Columns and cells -/

/-- The storage types that the server tells apart. -/
inductive FsType
  | boolean
  | bin8Signed
  | bin8Unsigned
  | bin16Signed
  | bpintUnsigned
  | bin16Unsigned
  | bin32Signed
  | bin32Unsigned
  | bin64Signed
  | bin64Unsigned
  | float32
  | float64
  | decimal
  | numBig
  | binaryString
  | datetime
  | fixedCharacter
  | varyingCharacter
  | other (code : Int32)
  deriving DecidableEq, Repr

/-- A column as `loadColumns` describes it. -/
structure T4Column where
  fsType : FsType
  length : Int32
  precision : Int32
  scale : Int32
  deriving DecidableEq, Repr

/-- A cell of a result; none is NULL. -/
abbrev T4Cell := Option Bytes

structure QueryResult where
  columns : List T4Column
  rows : List (List T4Cell)

/-- The printing of the engine: the text that `Formatter` puts into its buffer, none when there
is nothing to display, and the digits of floating numbers. -/
structure Display where
  buffer : T4Column → Bytes → Option Bytes
  single : Bytes → Bytes
  double : Bytes → Bytes

/-- The codes of a datetime type that the server knows. -/
def dtcodeDate : Int32 := 1

def dtcodeTime : Int32 := 2

section

variable (engine : Engine) (info : T4TypeInfo) (columns : List T4Column) (display : Display)
  (column : T4Column)

def oidForType : Nat :=
  match column.fsType with
  | .boolean => 16
  | .bin8Signed | .bin8Unsigned | .bin16Signed => if column.scale = 0 then 21 else 1700
  | .bpintUnsigned | .bin16Unsigned | .bin32Signed => if column.scale = 0 then 23 else 1700
  | .bin32Unsigned | .bin64Signed => if column.scale = 0 then 20 else 1700
  | .bin64Unsigned => 1700
  | .float32 => 700
  | .float64 => 701
  | .decimal | .numBig => 1700
  | .binaryString => 17
  | .datetime =>
    if column.precision = dtcodeDate then 1082
    else if column.precision = dtcodeTime then 1083
    else 1114
  | .fixedCharacter => 1042
  | .varyingCharacter => 1043
  | .other _ => 25

/-- The size of a binary number, and whether it is unsigned. -/
def numberShape : FsType → Option (Nat × Bool)
  | .bin8Signed => some (1, false)
  | .bin8Unsigned => some (1, true)
  | .bin16Signed => some (2, false)
  | .bpintUnsigned | .bin16Unsigned => some (2, true)
  | .bin32Signed => some (4, false)
  | .bin32Unsigned => some (4, true)
  | .bin64Signed => some (8, false)
  | .bin64Unsigned => some (8, true)
  | _ => none

/-- The number of `width` bytes at an address. -/
def numberAt (data : Bytes) (width : Nat) (unsigned : Bool) : Int :=
  binaryNumber (data.takeD width 0) unsigned

def printedDigits (n : Nat) : List Nat := if n = 0 then [0] else (Nat.digits 10 n).reverse

/-- A number as a stream prints it. -/
def numberBytes (n : Int) : Bytes :=
  if n < 0 then 45 :: digitBytes (printedDigits n.natAbs) else digitBytes (printedDigits n.natAbs)

/-- What `formatCell` does with the text of the formatter. -/
def trimmedText (text : Bytes) : Bytes :=
  let value := text.rdropWhile (· = 32)
  let oid := oidForType column
  let kept := if oid ≠ 25 ∧ oid ≠ 1042 ∧ oid ≠ 1043 ∧ oid ≠ 17 then value.dropWhile (· = 32)
    else value
  if oid = 17 then textBytes "\\x" ++ kept else kept

def displayedText (data : Bytes) : Bytes :=
  match display.buffer column data with
  | none => []
  | some text => trimmedText column text

def formatValue (data : Bytes) : Bytes :=
  match column.fsType with
  | .boolean => if byteOf data 0 ≠ 0 then textBytes "t" else textBytes "f"
  | .float32 => display.single (data.takeD 4 0)
  | .float64 => display.double (data.takeD 8 0)
  | fsType =>
    match numberShape fsType with
    | some (width, unsigned) =>
      if column.scale ≠ 0 then displayedText display column data
      else numberBytes (numberAt data width unsigned)
    | none => displayedText display column data

/-- The data of a cell is none when the indicator of the descriptor is negative. -/
def formatCell (data : Option Bytes) : T4Cell :=
  data.map (formatValue display column)

/-! ## The encoder -/

structure T4TypeInfo where
  sqlType : Int
  odbcType : Int
  capacity : Nat
  precision : Nat
  datetimeCode : Int32
  signedType : Bool
  variableLength : Bool
  deriving DecidableEq, Repr

def declaredLength : Nat :=
  if 0 < column.length then column.length.toNatClampNeg else 256

/-- The type of everything that travels as a text with its length. -/
def varcharInfo : T4TypeInfo :=
  let capacity := min (max (declaredLength column) 32) 0x7fff
  ⟨-601, 12, capacity, capacity, 0, false, true⟩

def datetimeInfo : T4TypeInfo :=
  let capacity :=
    if column.precision = dtcodeDate then 10
    else if column.precision = dtcodeTime then 8
    else max (declaredLength column) 19
  { sqlType := 9
    odbcType :=
      if column.precision = dtcodeDate then 91
      else if column.precision = dtcodeTime then 92
      else 93
    capacity := capacity
    precision := capacity
    datetimeCode := column.precision
    signedType := false
    variableLength := false }

def t4TypeInfo : T4TypeInfo :=
  if column.scale ≠ 0 then varcharInfo column
  else
    match column.fsType with
    | .boolean => ⟨-701, 16, 1, 1, 0, false, false⟩
    | .bin8Signed => ⟨-403, -6, 1, 3, 0, true, false⟩
    | .bin8Unsigned => ⟨-404, -6, 1, 3, 0, false, false⟩
    | .bin16Signed => ⟨5, 5, 2, 5, 0, true, false⟩
    | .bpintUnsigned | .bin16Unsigned => ⟨-502, 5, 2, 5, 0, false, false⟩
    | .bin32Signed => ⟨4, 4, 4, 10, 0, true, false⟩
    | .bin32Unsigned => ⟨-401, 4, 4, 10, 0, false, false⟩
    | .bin64Signed => ⟨-402, -5, 8, 19, 0, true, false⟩
    | .float32 => ⟨7, 7, 4, 7, 0, true, false⟩
    | .float64 => ⟨8, 8, 8, 15, 0, true, false⟩
    | .datetime => datetimeInfo column
    | _ => varcharInfo column

def t4ColumnCapacity : Nat :=
  (t4TypeInfo column).capacity + if (t4TypeInfo column).variableLength then 2 else 0

/-- The bytes of the fields of a row, without a bound. -/
def rowWidth : Nat :=
  (columns.map fun column => 2 + t4ColumnCapacity column).sum

def t4RowLength : Nat := min (rowWidth columns) 0x7fffffff

/-- A number cut to `width` bytes, most significant first, as on the wire. -/
def networkBytes (v : Int) (width : Nat) : Bytes := (intBytes v width).reverse

def zeros (n : Nat) : Bytes := replicate n 0

/-- A text cut to the room of a field. The size of the text is cast to 32 bits. -/
def cutLength (value : Bytes) : Nat :=
  min (value.length % 2 ^ 32) info.capacity

def cutText (value : Bytes) : Bytes :=
  value.take (cutLength info value) ++ zeros (info.capacity - cutLength info value)

def encodeT4Value (value : Bytes) : Bytes :=
  if info.variableLength then networkBytes (cutLength info value) 2 ++ cutText info value
  else if info.sqlType = -701 then
    [if value.map toupper = textBytes "TRUE" ∨ value = textBytes "1" then 1 else 0]
  else if info.sqlType = -403 ∨ info.sqlType = -404 then networkBytes (strtol (cText value)) 1
  else if info.capacity = 2 then networkBytes (strtol (cText value)) 2
  else if info.capacity = 4 ∧ info.sqlType ≠ 7 then networkBytes (strtol (cText value)) 4
  else if info.capacity = 8 ∧ info.sqlType = -402 then networkBytes (strtol (cText value)) 8
  else if info.sqlType = 7 then networkBytes (engine.single (cBytes value)).toNat 4
  else if info.sqlType = 8 then networkBytes (engine.double (cBytes value)).toNat 8
  else cutText info value

def encodeT4Cell (cell : T4Cell) : Bytes :=
  match cell with
  | none => networkBytes 0xffff 2 ++ zeros (t4ColumnCapacity column)
  | some value => networkBytes 0 2 ++ encodeT4Value engine (t4TypeInfo column) value

def encodeT4Cells (row : List T4Cell) : Bytes :=
  (columns.zip row).flatMap fun field => encodeT4Cell engine field.1 field.2

/-- One turn of the loop over the rows. -/
def encodeT4Row (row : List T4Cell) : Bytes :=
  let values := encodeT4Cells engine columns row
  values ++ zeros (t4RowLength columns - values.length)

def encodeT4Rows (result : QueryResult) (start stop : Nat) : Bytes :=
  ((result.rows.take stop).drop start).flatMap (encodeT4Row engine result.columns)

/-! ## The client -/

/-- The fields of a descriptor by which a client reads a value. -/
structure T4Descriptor where
  valueOffset : Nat
  nullOffset : Nat
  sqlType : Int
  datetimeCode : Int32
  maxLength : Nat
  signedType : Bool

def appendT4Descriptor (valueOffset : Nat) : T4Descriptor where
  valueOffset := (valueOffset + 2) % 2 ^ 32
  nullOffset := valueOffset
  sqlType := (t4TypeInfo column).sqlType
  datetimeCode := (t4TypeInfo column).datetimeCode
  maxLength := (t4TypeInfo column).capacity
  signedType := (t4TypeInfo column).signedType

end

/-- The loop of `appendT4ExecuteReply` over the columns; the offset has 32 bits. -/
def descriptorsFrom (offset : Nat) : List T4Column → List T4Descriptor
  | [] => []
  | column :: columns => appendT4Descriptor column offset ::
      descriptorsFrom ((offset + 2 + t4ColumnCapacity column) % 2 ^ 32) columns

inductive T4Value
  | flag (value : Bool)
  | number (value : Int)
  | bits (value : Nat)
  | text (value : Bytes)
  deriving DecidableEq, Repr

/-- A value as the announced type says. A text with a length in front ends there, and a text in
a field of fixed size is filled up with zeros. -/
def decodeT4Value (d : T4Descriptor) (field : Bytes) : T4Value :=
  if d.sqlType = -601 then
    .text ((field.drop 2).take (littleEndian (field.take 2).reverse))
  else if d.sqlType = -701 then .flag (byteOf field 0 ≠ 0)
  else if d.sqlType = 9 then
    .text ((field.take d.maxLength).rdropWhile (· = 0))
  else if d.sqlType = 7 ∨ d.sqlType = 8 then .bits (littleEndian (field.take d.maxLength).reverse)
  else .number (binaryNumber (field.take d.maxLength).reverse !d.signedType)

def decodeT4Cell (d : T4Descriptor) (row : Bytes) : Option T4Value :=
  if slice row d.nullOffset 2 = [0xff, 0xff] then none
  else some (decodeT4Value d (row.drop d.valueOffset))

def decodeT4Row (columns : List T4Column) (row : Bytes) : List (Option T4Value) :=
  (descriptorsFrom 0 columns).map fun d => decodeT4Cell d row

/-- The value of some data under the type that is announced for its column. -/
def dataValue (display : Display) (engine : Engine) (column : T4Column) (data : Bytes) : T4Value :=
  let value := formatValue display column data
  let sqlType := (t4TypeInfo column).sqlType
  if sqlType = -601 ∨ sqlType = 9 then .text value
  else if sqlType = -701 then .flag (byteOf data 0 ≠ 0)
  else if sqlType = 7 then .bits (engine.single (cBytes value)).toNat
  else if sqlType = 8 then .bits (engine.double (cBytes value)).toNat
  else
    match numberShape column.fsType with
    | some (width, unsigned) => .number (numberAt data width unsigned)
    | none => .text value

/-- The room for a text in bytes, from the declared size of its column. -/
def textRoom (column : T4Column) : Nat := min (max (declaredLength column) 32) 0x7fff

/-- The room for the text of a date or a time. -/
def datetimeRoom (column : T4Column) : Nat :=
  if column.precision = dtcodeDate then 10
  else if column.precision = dtcodeTime then 8
  else max (declaredLength column) 19

/-- The text of a cell has room in its field, and a boolean is not true. -/
def ValueFits (display : Display) (column : T4Column) (data : Bytes) : Prop :=
  let value := formatValue display column data
  if column.scale ≠ 0 then value.length ≤ textRoom column
  else
    match column.fsType with
    | .boolean => byteOf data 0 = 0
    | .datetime => value.length ≤ datetimeRoom column ∧ value.getLast? ≠ some 0
    | .bin8Signed | .bin8Unsigned | .bin16Signed | .bpintUnsigned | .bin16Unsigned
    | .bin32Signed | .bin32Unsigned | .bin64Signed | .float32 | .float64 => True
    | _ => value.length ≤ textRoom column

/-! ## Lengths -/

@[simp] theorem networkBytes_length (v : Int) (width : Nat) :
    (networkBytes v width).length = width := by
  simp [networkBytes, intBytes]

@[simp] theorem zeros_length (n : Nat) : (zeros n).length = n := length_replicate

theorem cutLength_le (info : T4TypeInfo) (value : Bytes) :
    cutLength info value ≤ value.length ∧ cutLength info value ≤ info.capacity := by
  have hmod := Nat.mod_le value.length (2 ^ 32)
  unfold cutLength
  omega

@[simp] theorem cutText_length (info : T4TypeInfo) (value : Bytes) :
    (cutText info value).length = info.capacity := by
  have hle := cutLength_le info value
  simp only [cutText, length_append, length_take, zeros_length]
  omega

/-! ## The kinds of fields -/

/-- The ways in which a value travels: what the encoder writes, what the client reads, which
value is meant and when it fits. -/
inductive FieldKind (column : T4Column) : Prop
  | text (info : T4TypeInfo) (hinfo : t4TypeInfo column = info)
      (hcapacity : info.capacity = textRoom column) (hvariable : info.variableLength = true)
      (hdecode : ∀ offset field, decodeT4Value (appendT4Descriptor column offset) field =
        .text ((field.drop 2).take (littleEndian (field.take 2).reverse)))
      (hvalue : ∀ display engine data, dataValue display engine column data =
        .text (formatValue display column data))
      (hfits : ∀ display data, ValueFits display column data ↔
        (formatValue display column data).length ≤ textRoom column)
  | flag (hcapacity : t4ColumnCapacity column = 1)
      (hencode : ∀ engine value, encodeT4Value engine (t4TypeInfo column) value =
        [if value.map toupper = textBytes "TRUE" ∨ value = textBytes "1" then 1 else 0])
      (hdecode : ∀ offset field, decodeT4Value (appendT4Descriptor column offset) field =
        .flag (byteOf field 0 ≠ 0))
      (hprinted : ∀ display data, formatValue display column data =
        if byteOf data 0 ≠ 0 then textBytes "t" else textBytes "f")
      (hvalue : ∀ display engine data, dataValue display engine column data =
        .flag (byteOf data 0 ≠ 0))
      (hfits : ∀ display data, ValueFits display column data ↔ byteOf data 0 = 0)
  | number (width : Nat) (unsigned : Bool) (hpos : 0 < width) (hle : width ≤ 8)
      (hwidth : width < 8 ∨ unsigned = false) (hcapacity : t4ColumnCapacity column = width)
      (hencode : ∀ engine value, encodeT4Value engine (t4TypeInfo column) value =
        networkBytes (strtol (cText value)) width)
      (hdecode : ∀ offset field, decodeT4Value (appendT4Descriptor column offset) field =
        .number (binaryNumber (field.take width).reverse unsigned))
      (hprinted : ∀ display data, formatValue display column data =
        numberBytes (numberAt data width unsigned))
      (hvalue : ∀ display engine data, dataValue display engine column data =
        .number (numberAt data width unsigned))
      (hfits : ∀ display data, ValueFits display column data)
  | bits (width : Nat) (bits : Engine → Bytes → Nat)
      (hbits : ∀ engine value, bits engine value < 2 ^ (8 * width))
      (hcapacity : t4ColumnCapacity column = width)
      (hencode : ∀ engine value, encodeT4Value engine (t4TypeInfo column) value =
        networkBytes (bits engine value) width)
      (hdecode : ∀ offset field, decodeT4Value (appendT4Descriptor column offset) field =
        .bits (littleEndian (field.take width).reverse))
      (hvalue : ∀ display engine data, dataValue display engine column data =
        .bits (bits engine (formatValue display column data)))
      (hfits : ∀ display data, ValueFits display column data)
  | datetime (hinfo : t4TypeInfo column = datetimeInfo column)
      (hdecode : ∀ offset field, decodeT4Value (appendT4Descriptor column offset) field =
        .text ((field.take (datetimeRoom column)).rdropWhile (· = 0)))
      (hvalue : ∀ display engine data, dataValue display engine column data =
        .text (formatValue display column data))
      (hfits : ∀ display data, ValueFits display column data ↔
        (formatValue display column data).length ≤ datetimeRoom column ∧
          (formatValue display column data).getLast? ≠ some 0)

/-- A number with a scale travels as the text that the formatter prints. -/
theorem fieldKind_scaled {column : T4Column} (h : column.scale ≠ 0) : FieldKind column := by
  have hinfo : t4TypeInfo column = varcharInfo column := if_pos h
  refine .text (varcharInfo column) hinfo rfl rfl ?_ ?_ ?_
  · intro offset field
    unfold decodeT4Value appendT4Descriptor
    rw [hinfo]
    rfl
  · intro display engine data
    unfold dataValue
    rw [hinfo]
    rfl
  · intro display data
    unfold ValueFits
    rw [if_pos h]

variable {width : Nat} {info : T4TypeInfo} {columns : List T4Column} {row : List (Option Bytes)}
  {unsigned : Bool}

theorem formatValue_number (display : Display) {column : T4Column} (data : Bytes)
    (hscale : column.scale = 0) (hshape : numberShape column.fsType = some (width, unsigned)) :
    formatValue display column data = numberBytes (numberAt data width unsigned) := by
  unfold formatValue
  split
  iterate 3
    · rename_i htype
      rw [htype] at hshape
      cases hshape
  · rw [hshape]
    simp only [hscale, ne_eq, not_true_eq_false, if_false]

theorem fieldKind_number {fsType : FsType} {length precision : Int32}
    (hshape : numberShape fsType = some (width, unsigned)) (hwidth : width < 8 ∨ unsigned = false) :
    FieldKind ⟨fsType, length, precision, 0⟩ := by
  have hprinted : ∀ display data, formatValue display ⟨fsType, length, precision, 0⟩ data =
      numberBytes (numberAt data width unsigned) :=
    fun display data => formatValue_number display data rfl hshape
  cases fsType <;> cases hshape <;> first
    | exact .number _ _ (by decide) (by decide) hwidth rfl (fun _ _ => rfl) (fun _ _ => rfl)
        hprinted (fun _ _ _ => rfl) fun _ _ => trivial
    | simp at hwidth

theorem fieldKind_unscaled (fsType : FsType) (length precision : Int32) :
    FieldKind ⟨fsType, length, precision, 0⟩ := by
  cases fsType with
  | boolean =>
    exact .flag rfl (fun _ _ => rfl) (fun _ _ => rfl) (fun _ _ => rfl) (fun _ _ _ => rfl)
      fun _ _ => Iff.rfl
  | float32 =>
    exact .bits 4 (fun engine value => (engine.single (cBytes value)).toNat)
      (fun _ _ => UInt32.toNat_lt _) rfl (fun _ _ => rfl) (fun _ _ => rfl) (fun _ _ _ => rfl)
      fun _ _ => trivial
  | float64 =>
    exact .bits 8 (fun engine value => (engine.double (cBytes value)).toNat)
      (fun _ _ => UInt64.toNat_lt _) rfl (fun _ _ => rfl) (fun _ _ => rfl) (fun _ _ _ => rfl)
      fun _ _ => trivial
  | datetime =>
    exact .datetime rfl (fun _ _ => rfl) (fun _ _ _ => rfl) fun _ _ => Iff.rfl
  | bin8Signed | bin8Unsigned | bin16Signed | bpintUnsigned | bin16Unsigned | bin32Signed
  | bin32Unsigned | bin64Signed =>
    exact fieldKind_number rfl (by decide)
  | _ =>
    exact .text (varcharInfo _) rfl rfl rfl (fun _ _ => rfl) (fun _ _ _ => rfl)
      fun _ _ => Iff.rfl

section

variable (engine : Engine) (column : T4Column) (value : Bytes)

theorem fieldKind : FieldKind column := by
  by_cases hscale : column.scale = 0
  · obtain ⟨fsType, length, precision, scale⟩ := column
    obtain rfl : scale = 0 := hscale
    exact fieldKind_unscaled fsType length precision
  · exact fieldKind_scaled hscale

theorem encodeT4Value_variable (h : info.variableLength = true) : encodeT4Value engine info value =
      networkBytes (cutLength info value) 2 ++ cutText info value := if_pos h

/-- A date or a time falls through to the last branch of the encoder. -/
theorem encodeT4Value_datetime :
    encodeT4Value engine (datetimeInfo column) value = cutText (datetimeInfo column) value := by
  have hroom : 8 ≤ (datetimeInfo column).capacity := by
    simp only [datetimeInfo]
    split
    · decide
    · split <;> omega
  have htype : (datetimeInfo column).sqlType = 9 := rfl
  have hfixed : (datetimeInfo column).variableLength = false := rfl
  unfold encodeT4Value
  rw [htype, hfixed, if_neg (by decide), if_neg (by decide), if_neg (by decide),
    if_neg (by omega), if_neg (by omega), if_neg (by omega), if_neg (by decide),
    if_neg (by decide)]

/-- Every value fills the field of its column. -/
theorem encodeT4Value_length :
    (encodeT4Value engine (t4TypeInfo column) value).length = t4ColumnCapacity column := by
  cases fieldKind column with
  | text info hinfo _ hvariable _ _ _ =>
    rw [t4ColumnCapacity, hinfo, encodeT4Value_variable engine value hvariable, if_pos hvariable,
      length_append, networkBytes_length, cutText_length, Nat.add_comm]
  | flag hcapacity hencode _ _ _ _ =>
    rw [hencode, hcapacity]
    rfl
  | number width unsigned _ _ _ hcapacity hencode _ _ _ _ =>
    rw [hencode, networkBytes_length, hcapacity]
  | bits width bits _ hcapacity hencode _ _ _ =>
    rw [hencode, networkBytes_length, hcapacity]
  | datetime hinfo _ _ _ =>
    rw [t4ColumnCapacity, hinfo, encodeT4Value_datetime, cutText_length]
    rfl

@[simp] theorem encodeT4Cell_length (cell : T4Cell) :
    (encodeT4Cell engine column cell).length = 2 + t4ColumnCapacity column := by
  cases cell with
  | none => simp [encodeT4Cell]
  | some value => simp [encodeT4Cell, encodeT4Value_length]

theorem encodeT4Cells_length {row : List T4Cell} (h : row.length = columns.length) :
    (encodeT4Cells engine columns row).length = rowWidth columns := by
  induction columns generalizing row with
  | nil => rfl
  | cons column columns ih =>
    obtain _ | ⟨cell, row⟩ := row
    · cases h
    · have hrest := ih (Nat.succ.inj h)
      simp only [encodeT4Cells, rowWidth] at hrest ⊢
      simp only [zip_cons_cons, flatMap_cons, length_append, encodeT4Cell_length,
        map_cons, sum_cons, hrest]

/-- A row has the announced length as long as that length is not cut off. -/
theorem encodeT4Row_length_iff {row : List T4Cell} (h : row.length = columns.length) :
    (encodeT4Row engine columns row).length = t4RowLength columns ↔
      rowWidth columns ≤ 0x7fffffff := by
  simp only [encodeT4Row, t4RowLength, length_append, zeros_length, encodeT4Cells_length engine h]
  omega

/-! ## What arrives -/

theorem toNat_digitChar : ∀ d, d < 10 →
    (Char.ofNat (UInt8.ofNat (48 + d)).toNat).toNat = 48 + d := by
  decide

theorem isDigit_digitBytes {ds : List Nat} (h : ∀ d ∈ ds, d < 10) :
    ∀ c ∈ charsOf (digitBytes ds), c.isDigit = true := by
  intro c hc
  simp only [charsOf, digitBytes, map_map, mem_map, Function.comp_apply] at hc
  obtain ⟨d, hd, rfl⟩ := hc
  have hd' := h d hd
  rw [isDigit_iff, toNat_digitChar d hd']
  omega

theorem leadingDigits_digitBytes {ds : List Nat} (h : ∀ d ∈ ds, d < 10) :
    leadingDigits (charsOf (digitBytes ds)) = digits.value 10 ds := by
  unfold leadingDigits
  rw [takeWhile_eq_self_iff.mpr (isDigit_digitBytes h)]
  simp only [charsOf, digitBytes, map_map, foldl_map, Function.comp_apply, digits.value]
  refine foldl_ext _ _ _ fun acc d hd => ?_
  rw [toNat_digitChar d (h d hd)]
  simp

/-- In front of digits there is nothing to pass over. -/
theorem splitSign_digits {s : List Char} (h : ∀ c ∈ s, c.isDigit = true) :
    splitSign (s.dropWhile isSpace) = (false, s) := by
  obtain _ | ⟨c, rest⟩ := s
  · rfl
  · have hc := isDigit_iff.mp (h c mem_cons_self)
    have hspace : ¬ isSpace c = true := by
      simp only [isSpace, Bool.or_eq_true, Bool.and_eq_true, decide_eq_true_eq]
      omega
    rw [dropWhile_cons_of_neg hspace]
    unfold splitSign
    split
    iterate 2
      · rename_i heq
        cases heq
        exact absurd hc (by decide)
    · rfl

theorem printedDigits_spec (n : Nat) :
    digits.value 10 (printedDigits n) = n ∧ ∀ d ∈ printedDigits n, d < 10 := by
  unfold printedDigits
  split
  · subst_vars
    exact ⟨rfl, by simp⟩
  · refine ⟨digits.value_reverse_digits n, fun d hd => ?_⟩
    exact Nat.digits_lt_base (by decide) (mem_reverse.mp hd)

theorem cBytes_numberBytes (n : Int) : cBytes (numberBytes n) = numberBytes n := by
  have hdigits : ∀ b ∈ digitBytes (printedDigits n.natAbs), b ≠ 0 := by
    intro b hb
    obtain ⟨d, hd, rfl⟩ := mem_map.mp hb
    have hlt := (printedDigits_spec n.natAbs).2 d hd
    have hall : ∀ d, d < 10 → UInt8.ofNat (48 + d) ≠ 0 := by decide
    exact hall d hlt
  refine takeWhile_eq_self_iff.mpr fun b hb => ?_
  rw [decide_eq_true_eq]
  unfold numberBytes at hb
  split at hb
  · obtain rfl | hb := mem_cons.mp hb
    · decide
    · exact hdigits b hb
  · exact hdigits b hb

/-- A printed number is read back. -/
theorem strtol_numberBytes {n : Int} (hlow : -2 ^ 63 ≤ n) (hhigh : n < 2 ^ 63) :
    strtol (cText (numberBytes n)) = n := by
  obtain ⟨hvalue, hlt⟩ := printedDigits_spec n.natAbs
  have hread := leadingDigits_digitBytes hlt
  rw [hvalue] at hread
  rw [cText_eq, cBytes_numberBytes]
  unfold numberBytes
  split
  · have hminus : charsOf (45 :: digitBytes (printedDigits n.natAbs)) =
        '-' :: charsOf (digitBytes (printedDigits n.natAbs)) := rfl
    rw [hminus]
    show max (-(leadingDigits (charsOf (digitBytes (printedDigits n.natAbs))) : Int)) (-2 ^ 63) = n
    rw [hread]
    omega
  · rw [strtol_eq, splitSign_digits (isDigit_digitBytes hlt)]
    show min (leadingDigits (charsOf (digitBytes (printedDigits n.natAbs))) : Int) (2 ^ 63 - 1) = n
    rw [hread]
    omega

theorem numberAt_inRange (data : Bytes) (unsigned : Bool) (hpos : 0 < width) :
    InBinaryRange unsigned width (numberAt data width unsigned) := by
  have hlength : (data.takeD width 0).length = width := takeD_length _ _ _
  have h : InBinaryRange unsigned (data.takeD width 0).length (numberAt data width unsigned) :=
    binaryNumber_inRange (by omega)
  rwa [hlength] at h

/-- Every number that has a field of its own fits a `long`. -/
theorem InBinaryRange.long {n : Int} (h : InBinaryRange unsigned width n)
    (hwidth : width < 8 ∨ unsigned = false) (hle : width ≤ 8) : -2 ^ 63 ≤ n ∧ n < 2 ^ 63 := by
  unfold InBinaryRange at h
  interval_cases width <;> cases unsigned <;> simp at h hwidth ⊢ <;> omega

@[simp] theorem networkBytes_reverse (v : Int) (width : Nat) :
    (networkBytes v width).reverse = intBytes v width := reverse_reverse _

theorem littleEndian_networkBytes {n : Nat} (h : n < 2 ^ (8 * width)) :
    littleEndian (networkBytes n width).reverse = n := by
  have hbytes := littleEndian_intBytes n width
  have hmod : ((n : Int) % 2 ^ (8 * width)) = n := Int.emod_eq_of_lt (by omega) (by exact_mod_cast h)
  rw [networkBytes_reverse]
  omega

theorem declaredLength_lt : declaredLength column < 2 ^ 31 := by
  unfold declaredLength
  split
  · exact column.length.toNatClampNeg_lt
  · decide

/-- A cut text is the whole text exactly when there is room. -/
theorem take_cutLength_iff {value : Bytes} (h : info.capacity < 2 ^ 32) :
    value.take (cutLength info value) = value ↔ value.length ≤ info.capacity := by
  rw [take_eq_self_iff]
  unfold cutLength
  constructor
  · intro hle
    omega
  · intro hle
    rw [Nat.mod_eq_of_lt (by omega)]
    omega

theorem rdropWhile_zeros (n : Nat) :
    (value ++ zeros n).rdropWhile (· = 0) = value.rdropWhile (· = 0) := by
  induction n with
  | zero => simp [zeros]
  | succ n ih =>
    have hlast : zeros (n + 1) = zeros n ++ [0] := replicate_succ'
    rw [hlast, ← append_assoc, rdropWhile_concat_pos _ _ _ (by simp), ih]

end

/-- A text in a field of fixed size comes back when it has room and does not end in a zero. -/
theorem rdropWhile_cutText_iff {value : Bytes} (h : info.capacity < 2 ^ 32) :
    (cutText info value).rdropWhile (· = 0) = value ↔
      value.length ≤ info.capacity ∧ value.getLast? ≠ some 0 := by
  have hself : value.rdropWhile (· = 0) = value ↔ value.getLast? ≠ some 0 := by
    rw [rdropWhile_eq_self_iff]
    cases value using reverseRecOn with
    | nil => simp
    | append_singleton front b => simp
  unfold cutText
  rw [rdropWhile_zeros]
  constructor
  · intro heq
    have hle : value.length ≤ info.capacity := by
      have hpart : (value.take (cutLength info value)).rdropWhile (· = 0) <+:
          value.take (cutLength info value) := rdropWhile_prefix _ _
      have hlen := hpart.length_le
      have hcut := (cutLength_le info value).2
      rw [heq, length_take] at hlen
      omega
    rw [(take_cutLength_iff h).mpr hle] at heq
    exact ⟨hle, hself.mp heq⟩
  · rintro ⟨hle, hlast⟩
    rw [(take_cutLength_iff h).mpr hle]
    exact hself.mpr hlast

section Arrival

variable (display : Display) (engine : Engine) (column : T4Column)

/-- A value arrives exactly when it fits, whatever stands behind its field. -/
theorem decodeT4Value_iff (data rest : Bytes) (offset : Nat) :
    decodeT4Value (appendT4Descriptor column offset)
        (encodeT4Value engine (t4TypeInfo column) (formatValue display column data) ++ rest) =
      dataValue display engine column data ↔ ValueFits display column data := by
  cases fieldKind column with
  | text info hinfo hcapacity hvariable hdecode hvalue hfits =>
    have hroom : textRoom column ≤ 0x7fff := Nat.min_le_right _ _
    rw [hfits, hvalue, hinfo, hdecode, encodeT4Value_variable engine _ hvariable]
    generalize formatValue display column data = value
    have hcut := cutLength_le info value
    rw [append_assoc, take_left' (networkBytes_length _ _),
      drop_left' (networkBytes_length _ _), littleEndian_networkBytes (by omega), cutText,
      append_assoc, take_left' (by rw [length_take]; omega), T4Value.text.injEq,
      take_cutLength_iff (by omega), hcapacity]
  | flag _ hencode hdecode hprinted hvalue hfits =>
    -- Neither text of a boolean is one that the encoder takes for true.
    have hsent : encodeT4Value engine (t4TypeInfo column) (formatValue display column data) =
        [0] := by
      rw [hencode, hprinted]
      split <;> decide
    rw [hsent, hdecode, hvalue, hfits, T4Value.flag.injEq]
    simp [byteOf]
  | number width unsigned hpos hle hwidth _ hencode hdecode hprinted hvalue hfits =>
    have hrange := numberAt_inRange data unsigned hpos
    have hlong := hrange.long hwidth hle
    rw [hencode, hdecode, hvalue, hprinted, strtol_numberBytes hlong.1 hlong.2, take_left'
      (networkBytes_length _ _), networkBytes_reverse, binaryNumber_intBytes hpos hrange]
    simp [hfits]
  | bits width bits hbits _ hencode hdecode hvalue hfits =>
    rw [hencode, hdecode, hvalue, take_left' (networkBytes_length _ _),
      littleEndian_networkBytes (hbits _ _)]
    simp [hfits]
  | datetime hinfo hdecode hvalue hfits =>
    have hcapacity : (datetimeInfo column).capacity = datetimeRoom column := rfl
    have hlength := declaredLength_lt column
    have hroom : datetimeRoom column < 2 ^ 31 := by
      unfold datetimeRoom
      split
      · decide
      · split <;> omega
    rw [hfits, hvalue, hinfo, hdecode, encodeT4Value_datetime, ← hcapacity,
      take_left' (cutText_length _ _), T4Value.text.injEq,
      rdropWhile_cutText_iff (by omega)]

theorem decodeT4Cell_iff (data : Option Bytes) (front rest : Bytes) (h : front.length + 2 < 2 ^ 32) :
    decodeT4Cell (appendT4Descriptor column front.length)
        (front ++ (encodeT4Cell engine column (formatCell display column data) ++ rest)) =
      data.map (dataValue display engine column) ↔
        ∀ value ∈ data, ValueFits display column value := by
  have hindicator : ∀ (v : Int) (field : Bytes),
      slice (front ++ ((networkBytes v 2 ++ field) ++ rest))
        (appendT4Descriptor column front.length).nullOffset 2 = networkBytes v 2 := by
    intro v field
    unfold slice appendT4Descriptor
    rw [drop_left' rfl, append_assoc, take_left' (networkBytes_length _ _)]
  cases data with
  | none =>
    have hnull : networkBytes 0xffff 2 = [0xff, 0xff] := by decide
    have hcell : encodeT4Cell engine column (formatCell display column none) =
        networkBytes 0xffff 2 ++ zeros (t4ColumnCapacity column) := rfl
    unfold decodeT4Cell
    rw [hcell, if_pos ((hindicator _ _).trans hnull)]
    simp
  | some value =>
    have hnot : networkBytes 0 2 ≠ [0xff, 0xff] := by decide
    have hcell : encodeT4Cell engine column (formatCell display column (some value)) =
        networkBytes 0 2 ++
          encodeT4Value engine (t4TypeInfo column) (formatValue display column value) := rfl
    have hoffset : (appendT4Descriptor column front.length).valueOffset =
        (front ++ networkBytes 0 2).length := by
      rw [length_append, networkBytes_length]
      exact Nat.mod_eq_of_lt h
    unfold decodeT4Cell
    rw [hcell, if_neg (fun heq => hnot ((hindicator _ _).symm.trans heq)), append_assoc,
      ← append_assoc front, drop_left' hoffset.symm, Option.map_some, Option.some.injEq,
      decodeT4Value_iff]
    simp

section

variable (columns : List T4Column) (row : List (Option Bytes))

/-- The cells of a row of data. -/
def formatRow : List T4Cell :=
  zipWith (formatCell display) columns row

/-- The values that a row of data should arrive with. -/
def rowValues : List (Option T4Value) :=
  zipWith (fun column data => data.map (dataValue display engine column)) columns row

def RowFits : Prop :=
  ∀ field ∈ columns.zip row, ∀ value ∈ field.2, ValueFits display field.1 value

end

variable {display engine}

theorem decodeT4Cells_iff {front rest : Bytes} (hlength : row.length = columns.length)
    (h : front.length + rowWidth columns < 2 ^ 32) :
    (descriptorsFrom front.length columns).map (fun d => decodeT4Cell d
        (front ++ (encodeT4Cells engine columns (formatRow display columns row) ++ rest))) =
      rowValues display engine columns row ↔ RowFits display columns row := by
  induction columns generalizing row front with
  | nil => simp [descriptorsFrom, rowValues, RowFits]
  | cons column columns ih =>
    obtain _ | ⟨data, row⟩ := row
    · cases hlength
    · have hwidth : rowWidth (column :: columns) =
          2 + t4ColumnCapacity column + rowWidth columns := rfl
      have hcells : encodeT4Cells engine (column :: columns)
          (formatRow display (column :: columns) (data :: row)) =
          encodeT4Cell engine column (formatCell display column data) ++
            encodeT4Cells engine columns (formatRow display columns row) := rfl
      have hfits : RowFits display (column :: columns) (data :: row) ↔
          (∀ value ∈ data, ValueFits display column value) ∧ RowFits display columns row := by
        unfold RowFits
        rw [zip_cons_cons, forall_mem_cons]
      have hfront : (front ++ encodeT4Cell engine column (formatCell display column data)).length =
          (front.length + 2 + t4ColumnCapacity column) % 2 ^ 32 := by
        rw [length_append, encodeT4Cell_length, Nat.mod_eq_of_lt (by omega), Nat.add_assoc]
      have hrest := @ih row (front ++ encodeT4Cell engine column (formatCell display column data))
        (Nat.succ.inj hlength) (by rw [length_append, encodeT4Cell_length]; omega)
      rw [hfront, append_assoc] at hrest
      have hvalues : rowValues display engine (column :: columns) (data :: row) =
          data.map (dataValue display engine column) :: rowValues display engine columns row := rfl
      rw [hcells, hfits, hvalues, descriptorsFrom, map_cons, List.cons.injEq,
        append_assoc, decodeT4Cell_iff display engine column data front _ (by omega), hrest]

theorem formatRow_length (h : row.length = columns.length) :
    (formatRow display columns row).length = columns.length := by
  simp [formatRow, h]

/-- A row arrives exactly when all of its values fit. -/
theorem decodeT4Row_iff (hlength : row.length = columns.length)
    (h : rowWidth columns ≤ 0x7fffffff) :
    decodeT4Row columns (encodeT4Row engine columns (formatRow display columns row)) =
      rowValues display engine columns row ↔ RowFits display columns row := by
  have hcells : ([] : Bytes).length + rowWidth columns < 2 ^ 32 := by
    rw [length_nil]
    omega
  exact decodeT4Cells_iff hlength hcells

end Arrival

end litestore
