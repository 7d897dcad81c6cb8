-- From texts to the bytes of a column: the parsers of `writeValue`. Each gives a
-- cell, which is none for NULL and otherwise the bytes that go to the column's place.
import LiteStore.RowKeys
import LiteStore.DatetimeTexts
import LiteStore.Lib.Digits

namespace litestore

/-! ## What the codec calls -/

/-- What the codec takes from the C library: `strtod`, as the bits of a `double` and of the
`float` it is cut to. -/
structure Engine where
  double : Bytes → UInt64
  single : Bytes → UInt32

section

variable (n : Nat) (engine : Engine) (col : LiteStoredColumn) (value : Bytes) (text : List Char)

/-- The bytes up to the first zero byte, as a C function sees a string. -/
def cBytes : Bytes := value.takeWhile (· ≠ 0)

theorem cText_eq : cText value = charsOf (cBytes value) := rfl

/-- The low bytes of a number, least significant first. -/
def lowFirst (length : Nat) : Bytes := (List.range length).map (byteAt n)

/-- A number cut to `length` bytes, as a cast to a shorter type leaves it. -/
def intBytes (v : Int) (length : Nat) : Bytes :=
  lowFirst (v % (2 ^ (8 * length) : Nat)).toNat length

@[simp] theorem lowFirst_length (length : Nat) : (lowFirst n length).length = length := by
  simp [lowFirst]

theorem lowFirst_succ (length : Nat) :
    lowFirst n (length + 1) = byteAt n 0 :: lowFirst (n / 256) length := by
  unfold lowFirst
  rw [List.range_succ_eq_map, List.map_cons, List.map_map]
  congr 1
  apply List.map_congr_left
  intro i _
  simp only [Function.comp, byteAt, Nat.succ_eq_add_one, pow_succ', Nat.div_div_eq_div_mul]

/-- What was written is read back, up to the bytes that were cut off. -/
theorem littleEndian_lowFirst (length : Nat) :
    littleEndian (lowFirst n length) = n % 256 ^ length := by
  induction length generalizing n with
  | zero => simp [lowFirst, littleEndian, Nat.mod_one]
  | succ length ih =>
    have hcons : ∀ (x : UInt8) l, littleEndian (x :: l) = x.toNat + 256 * littleEndian l :=
      fun _ _ => rfl
    rw [lowFirst_succ, hcons, ih, byteAt_toNat, pow_succ', Nat.mod_mul]
    simp

@[simp] theorem intBytes_length (v : Int) (length : Nat) : (intBytes v length).length = length := by
  simp [intBytes]

/-! ## Scaled numbers -/

def splitSign : List Char → Bool × List Char
  | '-' :: rest => (true, rest)
  | '+' :: rest => (false, rest)
  | text => (false, text)

/-- The loop of `parseScaledInt64` and `parseScaledDigits`: the digits, and how many of them
stand behind the point. A second point or another character ends it. -/
def scanScaled (seenPoint : Bool) : List Char → Option (List Nat × Nat)
  | [] => some ([], 0)
  | c :: rest =>
    if c = '.' then if seenPoint then none else scanScaled true rest
    else if !c.isDigit then none
    else (scanScaled seenPoint rest).map fun (ds, fracDigits) =>
      ((c.toNat - '0'.toNat) :: ds, if seenPoint then fracDigits + 1 else fracDigits)

/-- The sign and the digits of a text, with zeros up to the scale. -/
def scaledDigits (scale : Nat) : Option (Bool × List Nat) :=
  match scanScaled false (splitSign text).2 with
  | none => none
  | some (ds, fracDigits) =>
    if ds.isEmpty || fracDigits > scale then none
    else some ((splitSign text).1, ds ++ List.replicate (scale - fracDigits) 0)

/-- The sum runs in 64 bits, so it drops what is above them. -/
def parseScaledInt64 (scale : Nat) : Option Int :=
  (scaledDigits text scale).map fun (negative, ds) =>
    let magnitude := ds.foldl (fun (m d : Nat) => (m * 10 + d) % 2 ^ 64) 0
    let bits := if negative then (2 ^ 64 - magnitude) % 2 ^ 64 else magnitude
    if bits < 2 ^ 63 then (bits : Int) else (bits : Int) - 2 ^ 64

/-- The digits padded to `precision`; a zero has no sign. -/
def parseScaledDigits (scale precision : Nat) : Option (Bool × List Nat) :=
  match scaledDigits text scale with
  | none => none
  | some (negative, ds) =>
    let significant := ds.dropWhile (· = 0)
    let kept := if significant.isEmpty then [0] else significant
    if kept.length > precision then none
    else some (!significant.isEmpty && negative,
      List.replicate (precision - kept.length) 0 ++ kept)

def digitBytes (ds : List Nat) : Bytes := ds.map fun d => UInt8.ofNat (48 + d)

/-- `writeDecimalValue`: the sign is the top bit of the first digit. -/
def decimalCell : Except String Bytes :=
  match parseScaledDigits text col.scale col.precision with
  | none => .error "invalid lite decimal literal"
  | some (negative, ds) =>
    if ds.length ≠ col.length then .error "lite decimal storage length mismatch"
    else .ok (if negative then (digitBytes ds).modifyHead (· ||| 128) else digitBytes ds)

/-- A count of type `Lng32`. -/
def lng32 : Int :=
  if n % 2 ^ 32 < 2 ^ 31 then ((n % 2 ^ 32 : Nat) : Int) else ((n % 2 ^ 32 : Nat) : Int) - 2 ^ 32

/-- `writeBigNumValue`. The count of the digits goes through an `Lng32`. The magnitude takes
whole words of two bytes and must fit; the sign is the top bit of the last byte. -/
def bigNumCell : Except String Bytes :=
  match parseScaledDigits text col.scale col.precision with
  | none => .error "invalid lite BigNum literal"
  | some (negative, ds) =>
    let magnitude := digits.value 10 (ds.take (lng32 (ds.length + 1) - 1).toNat)
    if magnitude ≥ 2 ^ (16 * (col.length / 2)) then .error "invalid lite BigNum literal"
    else
      let bytes := lowFirst magnitude col.length
      .ok (if negative then bytes.modify (col.length - 1) (· ||| 128) else bytes)

def numericCell : Except String Bytes :=
  if col.precision > 18 then bigNumCell col text
  else if col.decimalStorage then decimalCell col text
  else match parseScaledInt64 text col.scale with
    | none => .error "invalid lite numeric literal"
    | some scaled =>
      if col.length ∈ [1, 2, 4, 8] then .ok (intBytes scaled col.length)
      else .error "lite numeric key requires binary numeric storage"

/-! ## Datetimes and intervals -/

/-- A fraction of `precision` digits at another scale. The product runs in 32 bits. -/
def scaleFraction (fraction precision scale : Nat) : Nat :=
  if precision ≤ scale then fraction * 10 ^ (scale - precision) % 2 ^ 32
  else fraction / 10 ^ (precision - scale)

/-- The fields without the fraction, and behind them the fraction at the scale of the column. -/
def datetimeBytes (baseLength : Nat) (seconds : Bool) (source : Bytes) (precision : Nat) :
    Except String Bytes :=
  if source.length < baseLength ∨ baseLength > col.length then
    .error "invalid lite datetime storage"
  else if seconds ∧ col.length ≥ baseLength + 4 then
    let fraction := if source.length ≥ baseLength + 4 then
      littleEndian (slice source baseLength 4) else 0
    .ok (source.take baseLength ++ lowFirst (scaleFraction fraction precision col.scale) 4)
  else .ok (source.take baseLength)

def datetimeStart : DatetimeField :=
  if col.length = 8 then .hour else .year

def datetimeEnd : DatetimeField :=
  if col.length = 4 then .day else .second

def datetimeBase : Nat :=
  if datetimeEnd col = .day then 4 else if datetimeStart col = .year then 7 else 3

def Datetime.field (t : Datetime) : DatetimeField → Nat
  | .year => t.year
  | .month => t.month
  | .day => t.day
  | .hour => t.hour
  | .minute => t.minute
  | .second => t.second

def DatetimeField.width : DatetimeField → Nat
  | .year => 2
  | _ => 1

/-- The fields from the first to the last. -/
def fieldsFrom (startField endField : DatetimeField) : List DatetimeField :=
  [DatetimeField.year, .month, .day, .hour, .minute, .second].filter
    (ExpDatetime.containsField startField endField)

/-- The bytes of a `DatetimeValue`. A fraction stands behind the fields if the text has one. -/
def datetimeSource (startField endField : DatetimeField) (t : Datetime) (scale : Nat) : Bytes :=
  (fieldsFrom startField endField).flatMap (fun f => lowFirst (t.field f) f.width) ++
    if scale = 0 then [] else lowFirst (t.fraction / 10 ^ (9 - scale)) 4

/-- `DatetimeValue`, with the digits of its fraction. -/
def datetimeValue (startField endField : DatetimeField) : Option (Bytes × Nat) :=
  (ExpDatetime.convAsciiToDatetime text startField endField).map fun (t, scale) =>
    (datetimeSource startField endField t scale, scale)

def datetimeCell : Except String Bytes :=
  match datetimeValue text (datetimeStart col) (datetimeEnd col) with
  | none => .error "invalid lite datetime literal"
  | some (source, precision) =>
    datetimeBytes col (datetimeBase col) (datetimeEnd col = .second) source precision

def skipBlanks : List Char := text.dropWhile fun c => c = ' ' || c = '\t'

def scanChar (c : Char) : List Char → Option (List Char)
  | [] => none
  | d :: rest => if d = c then some rest else none

/-- `IntervalValue::scanField`: one digit at least and `maxFieldLen` at most. -/
def scanField (maxFieldLen : Nat) (text : List Char) : Option (Nat × List Char) :=
  let field := text.takeWhile Char.isDigit
  if field.isEmpty || field.length > maxFieldLen then none
  else some (leadingDigits text, text.dropWhile Char.isDigit)

/-- The largest value of a field that is not the first one, and the mark in front of it. -/
def DatetimeField.maxITVal : DatetimeField → Nat
  | .year | .day => 0
  | .month => 11
  | .hour => 23
  | .minute | .second => 59

def DatetimeField.precedingITPunc : DatetimeField → Char
  | .year | .day => '^'
  | .month => '-'
  | .hour => ' '
  | .minute | .second => ':'

/-- The fields behind `start` up to `last`. -/
def fieldsBetween (start last : DatetimeField) : List DatetimeField :=
  [DatetimeField.year, .month, .day, .hour, .minute, .second].filter fun f =>
    start.rank < f.rank && f.rank ≤ last.rank

/-- The loop over the fields behind the first one. -/
def scanFields : List DatetimeField → Nat → List Char → Option (Nat × List Char)
  | [], total, text => some (total, text)
  | field :: rest, total, text => do
    let behind ← (scanChar field.precedingITPunc text).or
      (if field = .hour then scanChar ':' text else none)
    let (value, left) ← scanField 2 behind
    if value > field.maxITVal then none
    else scanFields rest (total * (field.maxITVal + 1) + value) left

/-- The fraction at the precision of the type. A point with no digit behind it counts as none. -/
def scanFraction (fractionPrecision : Nat) (text : List Char) : Option (Nat × List Char) :=
  match scanChar '.' text with
  | none => some (0, text)
  | some behind =>
    if (behind.takeWhile Char.isDigit).isEmpty then some (0, behind)
    else do
      let (value, left) ← scanField 9 behind
      let currentPrecision := (behind.takeWhile Char.isDigit).length
      if currentPrecision > fractionPrecision then none
      else some (value * 10 ^ (fractionPrecision - currentPrecision), left)

/-- The `IntervalValue` of a text: the count of the smallest unit. -/
def intervalValue (start : DatetimeField) (leading : Nat) (last : DatetimeField)
    (fraction : Nat) (text : List Char) : Option Nat := do
  let text := skipBlanks text
  let text := match scanChar '+' text with
    | some behind => skipBlanks behind
    | none => text
  let (first, text) ← if leading > 0 then scanField leading text else some (0, text)
  let (total, text) ← scanFields (fieldsBetween start last) first text
  let (total, text) ← if last = .second then
      (scanFraction fraction text).map fun (value, left) => (total * 10 ^ fraction + value, left)
    else some (total, text)
  if (skipBlanks text).isEmpty then some total else none

/-- The storage size of the qualifier is zero for one that is not valid. -/
def intervalCell : Except String Bytes :=
  let leading := col.precision % 2 ^ 32
  let fraction := col.scale % 2 ^ 32
  let size := intervalStorageSize col.intervalStart leading col.intervalEnd fraction
  match intervalValue col.intervalStart leading col.intervalEnd fraction text with
  | none => .error "invalid lite interval literal"
  | some total =>
    if size = 0 ∨ size > col.length then .error "invalid lite interval literal"
    else .ok (intBytes total size)

/-! ## Characters -/

/-- Do not split a UTF-8 continuation sequence at the storage boundary. -/
def trimContinuation (value : Bytes) : Nat → Nat
  | 0 => 0
  | len + 1 => if byteOf value len &&& 192 = 128 then trimContinuation value len else len + 1

def boundedCharacterLength (maxBytes byteWidth : Nat) : Nat :=
  let len := min value.length maxBytes
  if byteWidth = 2 then len - len % 2
  else if byteWidth = 4 then trimContinuation value len
  else len

/-- The bytes of a value, padded to the length of a fixed column. -/
def padded (bytes : Bytes) (length : Nat) (pad : UInt8) : Bytes :=
  bytes ++ List.replicate (length - bytes.length) pad

def characterBytes : Bytes :=
  let width := if col.precision ≠ 0 then col.length / col.precision else 1
  value.take (boundedCharacterLength value col.length width)

/-! ## Cells -/

/-- A column of a row to come: NULL, or the bytes for its place. -/
abbrev Cell := Option Bytes

def booleanCell : Except String Bytes :=
  let u := upper (charsOf value)
  if u = "TRUE".toList ∨ u = "1".toList then .ok [1]
  else if u = "FALSE".toList ∨ u = "0".toList then .ok [0]
  else .error "invalid lite BOOLEAN literal"

/-- The switch of `writeValue`. -/
def valueBytes : Except String Bytes :=
  match col.type with
  | .int8 => .ok (intBytes (strtol (cText value)) 1)
  | .int16 => .ok (intBytes (strtol (cText value)) 2)
  | .int32 => .ok (intBytes (strtol (cText value)) 4)
  | .int64 => .ok (intBytes (strtol (cText value)) 8)
  | .float32 => .ok (lowFirst (engine.single (cBytes value)).toNat 4)
  | .float64 => .ok (lowFirst (engine.double (cBytes value)).toNat 8)
  | .numeric => numericCell col (cText value)
  | .datetime => datetimeCell col (cText value)
  | .boolean => booleanCell value
  | .interval => intervalCell col (cText value)
  | .char => .ok (padded (characterBytes col value) col.length 32)
  | .varchar => .ok (characterBytes col value)
  | .binary => .ok (padded (value.take col.length) col.length 0)
  | .varbinary => .ok (value.take col.length)

/-- What `writeValue` makes of a text. The empty text is the text of NULL. -/
def textCell : Except String Cell :=
  if value.isEmpty then
    if col.nullable then .ok none
    else .error "NULL is not allowed for lite NOT NULL column"
  else (valueBytes engine col value).map some

end

end litestore
