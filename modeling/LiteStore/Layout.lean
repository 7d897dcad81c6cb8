-- The layout of a binary row: what a column's type text says about its storage
-- (`mapType`) and where each column stands in the row (`computeLayout`).
import LiteStore.Defs

namespace litestore

/-! ## Type texts -/

inductive LiteCodecType
  | int8 | int16 | int32 | int64 | float32 | float64 | numeric | datetime | interval
  | boolean | char | varchar | binary | varbinary
deriving DecidableEq

/-- The fields of a datetime or an interval, coarsest first. -/
inductive DatetimeField
  | year | month | day | hour | minute | second
deriving DecidableEq

/-- The place of a field in the enumeration `rec_datetime_field`. -/
def DatetimeField.rank : DatetimeField → Nat
  | .year => 1
  | .month => 2
  | .day => 3
  | .hour => 4
  | .minute => 5
  | .second => 6

/-- The value of a number of type `size_t`. -/
def sizeT (n : Nat) : Nat := n % 2 ^ 64

section

variable (type s : List Char)

def upper : List Char := s.map Char.toUpper

def startsWithWord (word : String) : Bool :=
  word.toList.isPrefixOf s &&
    match s.drop word.length with
    | [] => true
    | c :: _ => !c.isAlphanum

/-- `find` succeeds: the word stands somewhere in the text. -/
def containsWord (word : String) : Bool :=
  s.tails.any fun rest => word.toList.isPrefixOf rest

/-- `isspace` of the C locale. -/
def isSpace (c : Char) : Bool := c.toNat = 32 || (9 ≤ c.toNat && c.toNat ≤ 13)

/-- The digits at the front of a text, as a number. -/
def leadingDigits : Nat :=
  (s.takeWhile Char.isDigit).foldl (fun acc c => acc * 10 + (c.toNat - '0'.toNat)) 0

/-- `strtol` in base ten: blanks, a sign, digits. It stops at the bounds of a `long`. -/
def strtol : Int :=
  match s.dropWhile isSpace with
  | '-' :: rest => max (-(leadingDigits rest : Int)) (-2 ^ 63)
  | '+' :: rest => min (leadingDigits rest : Int) (2 ^ 63 - 1)
  | rest => min (leadingDigits rest : Int) (2 ^ 63 - 1)

/-- The text behind the first `c`. -/
def afterChar (c : Char) (s : List Char) : Option (List Char) :=
  match s.dropWhile (· ≠ c) with
  | [] => none
  | _ :: rest => some rest

def typeArg (defaultValue : Nat) : Nat :=
  match afterChar '(' type with
  | none => defaultValue
  | some args => if strtol args > 0 then (strtol args).toNat else defaultValue

def secondTypeArg (defaultValue : Nat) : Nat :=
  match (afterChar '(' type).bind (afterChar ',') with
  | none => defaultValue
  | some arg => if strtol arg ≥ 0 then (strtol arg).toNat else defaultValue

def isVariableType : LiteCodecType → Bool
  | .varchar | .varbinary => true
  | _ => false

def characterByteWidth : Nat :=
  if containsWord (upper type) "CHARACTER SET UTF8" then 4
  else if containsWord (upper type) "CHARACTER SET UCS2" then 2
  else 1

end

def numericStorageSize (precision : Nat) : Nat :=
  if precision ≤ 2 then 1
  else if precision ≤ 4 then 2
  else if precision ≤ 9 then 4
  else 8

/-- The storage of a number of more than eighteen digits. The precision is cut to
32 bits with a sign on the way to `ConvPrecisionToStorageLengthHelper`, which
rounds `precision * 0.208 + 0.062` up; that sum is never a whole number. -/
def bigNumStorageSize (precision : Nat) : Nat :=
  let cut := precision % 2 ^ 32
  let p := if cut < 2 ^ 31 then max cut 18 else 18
  2 * ((208 * p + 62) / 1000 + 1)

/-! ## Intervals -/

/-- The digits that `IntervalType::getPrecision` counts; zero for an interval that
`validate` or `getIntervalFSDatatype` refuses. -/
def intervalPrecision (start : DatetimeField) (leading : Nat) (last : DatetimeField)
    (fraction : Nat) : Nat :=
  if start.rank > last.rank ∨ (leading = 0 ∧ start ≠ .second) ∨
      (fraction ≠ 0 ∧ last ≠ .second) ∨ leading > 18 ∨ fraction > 9 ∨
      (start.rank ≤ 2 ∧ last.rank > 2) then 0
  else match start, last with
    | .year, .month | .day, .hour | .hour, .minute => leading + 2
    | .day, .minute => leading + 4
    | .second, .second => leading + fraction
    | .minute, .second => leading + 2 + fraction
    | .hour, .second => leading + 4 + fraction
    | .day, .second => leading + 5 + fraction
    | _, _ => leading

/-- `IntervalType::getStorageSize`: two, four or eight bytes, or zero. -/
def intervalStorageSize (start : DatetimeField) (leading : Nat) (last : DatetimeField)
    (fraction : Nat) : Nat :=
  let precision := intervalPrecision start leading last fraction
  if precision < 1 ∨ precision > 19 then 0
  else if precision < 5 then 2
  else if precision < 10 then 4
  else 8

/-! ## `mapType` -/

/-- What `mapType` sets. -/
structure MappedType where
  type : LiteCodecType
  length : Nat
  precision : Nat
  scale : Nat := 0
  decimalStorage : Bool := false
  unsignedNumeric : Bool
  intervalStart : DatetimeField := .day
  intervalEnd : DatetimeField := .second

/-- The branch of `mapType` for an interval. -/
def mapInterval (typeName : List Char) (unsigned : Bool) : Option MappedType :=
  let leading := typeArg typeName 2
  let fraction := if containsWord typeName "SECOND" then secondTypeArg typeName 6 else 0
  let start : DatetimeField :=
    if containsWord typeName "YEAR" then .year
    else if containsWord typeName "MONTH" then .month
    else if containsWord typeName "DAY" then .day
    else if containsWord typeName "HOUR" then .hour
    else .minute
  let last : DatetimeField :=
    if containsWord typeName "SECOND" then .second
    else if containsWord typeName "MINUTE" then .minute
    else if containsWord typeName "HOUR" then .hour
    else start
  let length := intervalStorageSize start (leading % 2 ^ 32) last (fraction % 2 ^ 32)
  if length > 0 then
    some { type := .interval, length := length, precision := leading, scale := fraction,
           unsignedNumeric := unsigned, intervalStart := start, intervalEnd := last }
  else none

/-- The branch of `mapType` for `NUMERIC` and `DECIMAL`. -/
def mapNumeric (typeName : List Char) (unsigned decimalStorage : Bool) : Option MappedType :=
  let precision := typeArg typeName 18
  let scale := secondTypeArg typeName 0
  let length :=
    if decimalStorage then precision
    else if precision > 18 then bigNumStorageSize precision
    else numericStorageSize precision
  if precision < 1 ∨ scale > precision ∨ length = 0 then none
  else some { type := .numeric, length := length, precision := precision, scale := scale,
              decimalStorage := decimalStorage, unsignedNumeric := unsigned }

/-- A type whose precision is its length. -/
def fixedType (type : LiteCodecType) (length : Nat) (unsigned : Bool) (scale : Nat) :
    Option MappedType :=
  some { type := type, length := length, precision := length, scale := scale,
         unsignedNumeric := unsigned }

def mapType (typeText : String) : Option MappedType :=
  let typeName := upper typeText.toList
  let unsigned := containsWord typeName "UNSIGNED"
  if startsWithWord typeName "TINYINT" then fixedType .int8 1 unsigned 0
  else if startsWithWord typeName "SMALLINT" then fixedType .int16 2 unsigned 0
  else if startsWithWord typeName "INT" || startsWithWord typeName "INTEGER" then
    fixedType .int32 4 unsigned 0
  else if startsWithWord typeName "LARGEINT" || startsWithWord typeName "BIGINT" then
    fixedType .int64 8 unsigned 0
  else if startsWithWord typeName "REAL" then fixedType .float32 4 unsigned 0
  else if startsWithWord typeName "FLOAT" then
    let precision := typeArg typeName 54
    if precision < 1 ∨ precision > 54 then none
    else some { type := if precision ≤ 22 then .float32 else .float64,
                length := if precision ≤ 22 then 4 else 8,
                precision := precision, unsignedNumeric := unsigned }
  else if startsWithWord typeName "DOUBLE" then fixedType .float64 8 unsigned 0
  else if startsWithWord typeName "NUMERIC" then mapNumeric typeName unsigned false
  else if startsWithWord typeName "DECIMAL" then mapNumeric typeName unsigned true
  else if startsWithWord typeName "DATE" then fixedType .datetime 4 unsigned 0
  else if startsWithWord typeName "TIME" then
    fixedType .datetime 8 unsigned (typeArg typeName 0)
  else if startsWithWord typeName "TIMESTAMP" then
    fixedType .datetime 11 unsigned (typeArg typeName 6)
  else if startsWithWord typeName "BOOLEAN" then fixedType .boolean 1 unsigned 0
  else if startsWithWord typeName "INTERVAL" then mapInterval typeName unsigned
  else if startsWithWord typeName "BINARY" then
    fixedType .binary (typeArg typeName 1) unsigned 0
  else if startsWithWord typeName "VARBINARY" then
    fixedType .varbinary (typeArg typeName 1) unsigned 0
  else if startsWithWord typeName "LONG VARCHAR" then
    fixedType .varchar (typeArg typeName 2000) unsigned 0
  else if startsWithWord typeName "VARCHAR" || startsWithWord typeName "CHARACTER VARYING" then
    fixedType .varchar (sizeT (typeArg typeName 1 * characterByteWidth typeName)) unsigned 0
  else if startsWithWord typeName "CHAR" || startsWithWord typeName "CHARACTER" then
    fixedType .char (sizeT (typeArg typeName 1 * characterByteWidth typeName)) unsigned 0
  else none

/-! ## `computeLayout` -/

/-- A column with its place in the row. -/
structure LiteStoredColumn extends MappedType where
  nullable : Bool
  voaOffset : Nat := 0
  nullIndOffset : Nat := 0
  nullBitIndex : Int := -1
  vcLenIndOffset : Nat := 0
  offset : Nat := 0

def alignTo (offset alignment : Nat) : Nat :=
  if alignment ≤ 1 then offset
  else if offset % alignment = 0 then offset
  else sizeT (offset + alignment - offset % alignment)

/-- The switch of the source has no case for an interval, so it takes the last line. -/
def typeAlignment : LiteCodecType → Nat
  | .int8 | .boolean | .char | .varchar | .binary | .varbinary => 1
  | .int16 => 2
  | .int32 | .float32 => 4
  | .int64 | .float64 | .datetime | .numeric => 8
  | .interval => 1

/-- The sizes of the aligned row format. -/
def hdrSize : Nat := 8
def offsetSize : Nat := 4
def variableLenSize : Nat := 4
def rowAlignment : Nat := 4

/-- `getNeededBitmapSize`: one bit for each nullable column, in words of four bytes. -/
def neededBitmapSize (nullableCount : Nat) : Nat :=
  if nullableCount > 0 then (nullableCount / 32 + 1) * 4 else 0

/-- The columns with their types; the first type that `mapType` does not know ends it. -/
def mapColumns : List LiteColumnDef → Except String (List LiteStoredColumn)
  | [] => .ok []
  | c :: rest =>
    match mapType c.type with
    | none => .error ("unsupported lite binary row column type: " ++ c.type)
    | some m => do
      let others ← mapColumns rest
      .ok ({ toMappedType := m, nullable := c.nullable } :: others)

/-- The first pass: a slot of the offset array for each variable column. -/
def placeVoa (voaOffset : Nat) : List LiteStoredColumn → List LiteStoredColumn × Nat
  | [] => ([], voaOffset)
  | c :: rest =>
    if isVariableType c.type then
      let (others, last) := placeVoa (voaOffset + offsetSize) rest
      ({ c with voaOffset := voaOffset } :: others, last)
    else
      let (others, last) := placeVoa voaOffset rest
      (c :: others, last)

/-- The second pass: null bits, and the offsets of the fixed columns. -/
def placeFixed (bitmapOffset : Nat) (nullBit fixedOffset : Nat) :
    List LiteStoredColumn → List LiteStoredColumn × Nat
  | [] => ([], fixedOffset)
  | c :: rest =>
    let withNull := if c.nullable then
      { c with nullIndOffset := bitmapOffset, nullBitIndex := (nullBit : Int) } else c
    let nextBit := if c.nullable then nullBit + 1 else nullBit
    if isVariableType c.type then
      let (others, last) := placeFixed bitmapOffset nextBit fixedOffset rest
      (withNull :: others, last)
    else
      let start := alignTo fixedOffset (typeAlignment c.type)
      let (others, last) := placeFixed bitmapOffset nextBit (sizeT (start + c.length)) rest
      ({ withNull with offset := start } :: others, last)

/-- The third pass: the variable columns, each behind its length. -/
def placeVariable (varOffset : Nat) : List LiteStoredColumn → List LiteStoredColumn × Nat
  | [] => ([], varOffset)
  | c :: rest =>
    if isVariableType c.type then
      let start := sizeT (varOffset + variableLenSize)
      let (others, last) := placeVariable (sizeT (start + c.length)) rest
      ({ c with vcLenIndOffset := varOffset, offset := start } :: others, last)
    else
      let (others, last) := placeVariable varOffset rest
      (c :: others, last)

/-- The columns with their places, and the length of the row. -/
def computeLayout (table : LiteTableDef) : Except String (List LiteStoredColumn × Nat) := do
  let mapped ← mapColumns table.columns
  let nullableCount := (mapped.filter (·.nullable)).length
  let (withVoa, voaEnd) := placeVoa hdrSize mapped
  let bitmapOffset := if nullableCount > 0 then voaEnd else 0
  let firstFixedAlign := match mapped.find? (fun c => !isVariableType c.type) with
    | some c => typeAlignment c.type
    | none => 1
  let firstFixed := alignTo (voaEnd + neededBitmapSize nullableCount) firstFixedAlign
  let (withFixed, fixedEnd) := placeFixed bitmapOffset 0 firstFixed withVoa
  let (columns, varEnd) := placeVariable fixedEnd withFixed
  .ok (columns, alignTo varEnd rowAlignment)

end litestore
