-- The datetime parser of the SQL engine (`ExpDatetime::convAsciiToDatetime`) and
-- what a datetime text says. A text has one of three formats; a mark for the half
-- of the day and a time zone may stand at its end.
import LiteStore.Layout
import Mathlib.Tactic

namespace litestore

open List

structure Date where
  year : Nat := 1900
  month : Nat := 1
  day : Nat := 1
deriving DecidableEq

/-- The fields of a datetime. Those that a column lacks have the values that the program takes
for them. -/
structure Datetime extends Date where
  hour : Nat := 0
  minute : Nat := 0
  second : Nat := 0
  fraction : Nat := 0
deriving DecidableEq

namespace ExpDatetime

/-! ## The source -/

inductive DatetimeFormat
  | default | usa | european

/-- The fields of a format, each with the mark in front of it. -/
def DatetimeFormat.fields : DatetimeFormat → List (DatetimeField × Char)
  | .default => [(.year, 'x'), (.month, '-'), (.day, '-'), (.hour, '|'), (.minute, ':'),
      (.second, ':')]
  | .usa => [(.month, 'x'), (.day, '/'), (.year, '/'), (.hour, ';'), (.minute, ':'),
      (.second, ':')]
  | .european => [(.day, 'x'), (.month, '.'), (.year, '.'), (.hour, ';'), (.minute, '.'),
      (.second, '.')]

/-- The first character behind the digits at the front decides. -/
def determineFormat (src : List Char) (startField endField : DatetimeField) :
    Option DatetimeFormat :=
  let s := src.dropWhile Char.isDigit
  if startField = endField ∨ (startField = .day ∧ endField = .hour) then some .usa
  else if (startField = .year ∧ endField ≠ .year) ∨ (startField.rank < 3 ∧ 3 ≤ endField.rank) then
    match s.head? with
    | some '-' => some .default
    | some '/' => if (src.takeWhile Char.isDigit).length = 2 then some .usa else none
    | some '.' => some .european
    | _ => none
  else
    -- a day alone is followed by the hour
    match (if startField = .day then s.tail.dropWhile Char.isDigit else s).head? with
    | some ':' => some .usa
    | some '.' => some .european
    | _ => none

def containsField (startField endField field : DatetimeField) : Bool :=
  startField.rank ≤ field.rank && field.rank ≤ endField.rank

/-- The characters that an expected mark stands for. -/
def delimiters : Char → List Char
  | ';' => [':', ' ']
  | '|' => [':', ' ', 'T']
  | c => [c]

/-- At the end of the text no mark is asked for. -/
def scanDelimiter (exptDelim : Char) : List Char → Option (List Char)
  | [] => some []
  | c :: rest => if c ∈ delimiters exptDelim then some rest else none

/-- Digits up to a number of them. One more is refused. -/
def scanDigits (maxLen : Nat) (src : List Char) : Option (List Char × List Char) :=
  if (src.takeWhile Char.isDigit).length > maxLen then none
  else some (src.takeWhile Char.isDigit, src.dropWhile Char.isDigit)

def maxLens : DatetimeField → Nat
  | .year => 4
  | _ => 2

def minValue : DatetimeField → Nat
  | .year | .month | .day => 1
  | _ => 0

def maxValue : DatetimeField → Nat
  | .year => 9999
  | .month => 12
  | .day => 31
  | .hour => 23
  | .minute | .second => 59

/-- A field other than the fraction has all its digits. -/
def scanField (field : DatetimeField) (exptDelim : Option Char) (src : List Char) :
    Option (Nat × List Char) := do
  let src ← match exptDelim with
    | none => some src
    | some c => scanDelimiter c src
  let (ds, rest) ← scanDigits (maxLens field) src
  if ds.length < maxLens field then none
  else if minValue field ≤ leadingDigits ds ∧ leadingDigits ds ≤ maxValue field then
    some (leadingDigits ds, rest)
  else none

/-- The fraction, counted at nine digits, and its digits. -/
def scanFraction (src : List Char) : Option ((Nat × Nat) × List Char) := do
  let src ← scanDelimiter '.' src
  let (ds, rest) ← scanDigits 9 src
  some ((leadingDigits ds * 10 ^ (9 - ds.length), ds.length), rest)

def setField (t : Datetime) (value : Nat) : DatetimeField → Datetime
  | .year => { t with year := value }
  | .month => { t with month := value }
  | .day => { t with day := value }
  | .hour => { t with hour := value }
  | .minute => { t with minute := value }
  | .second => { t with second := value }

/-- The loop over the fields. The first one has no mark in front of it. -/
def scanFields (needDelimiter : Bool) : List (DatetimeField × Char) → Datetime → List Char →
    Option (Datetime × List Char)
  | [], t, src => some (t, src)
  | (field, delim) :: fields, t, src => do
    let (value, rest) ← scanField field (if needDelimiter then some delim else none) src
    scanFields true fields (setField t value field) rest

/-- The whole text between the blanks and the marks at the end. -/
def scanAll (format : DatetimeFormat) (startField endField : DatetimeField) (src : List Char) :
    Option (Datetime × Nat) :=
  (scanFields false (format.fields.filter (containsField startField endField ·.1)) {} src).bind
    fun (t, rest) =>
      (if endField = .second then scanFraction rest else some ((0, 0), rest)).bind
        fun ((fraction, scale), rest) =>
          if rest.isEmpty then some ({ t with fraction }, scale) else none

/-- ` AM` is false and ` PM` is true. A text of less than three characters has no format. -/
def splitHalf (src : List Char) : Option Bool × List Char :=
  match src.reverse with
  | m :: half :: ' ' :: rest =>
    if (half = 'A' ∨ half = 'a') ∧ (m = 'M' ∨ m = 'm') then (some false, rest.reverse)
    else if (half = 'P' ∨ half = 'p') ∧ (m = 'M' ∨ m = 'm') then (some true, rest.reverse)
    else (none, src)
  | _ => (none, src)

def splitZ (half : Option Bool) (src : List Char) : Bool × List Char :=
  if half = none ∧ src.getLast? = some 'Z' then (true, src.dropLast) else (false, src)

def strAtoi (s : List Char) : Int :=
  let s := s.dropWhile (· = ' ')
  if s = [] ∨ ¬ (s.dropWhile Char.isDigit).all (· = ' ') then -1 else leadingDigits s

/-- `+HH:MM` or `-HH:MM` at the end; the digits are not checked. -/
def splitTzd (src : List Char) : Option (Bool × Int × Int) × List Char :=
  match src.drop (src.length - 6) with
  | [sign, h, h', ':', m, m'] =>
    if src.length > 6 ∧ (sign = '+' ∨ sign = '-') then
      (some (sign = '-', strAtoi [h, h'], strAtoi [m, m']), src.take (src.length - 6))
    else (none, src)
  | _ => (none, src)

def adjustHalf (format : DatetimeFormat) (endField : DatetimeField) (half : Option Bool)
    (t : Datetime) : Option Datetime :=
  match half, format with
  | none, _ => some t
  | some pm, .usa =>
    if endField = .day ∨ t.hour > 12 then none
    else if pm then some (if t.hour < 12 then { t with hour := t.hour + 12 } else t)
    else some (if t.hour = 12 then { t with hour := 0 } else t)
  | some _, _ => none

def daysInMonth : List Nat := [0, 31, 29, 31, 30, 31, 30, 31, 31, 30, 31, 30, 31]

def validateDate (d : Date) : Bool :=
  1 ≤ d.year && d.year ≤ 9999 && 1 ≤ d.month && d.month ≤ 12 && 1 ≤ d.day &&
    d.day ≤ daysInMonth.getD d.month 0 &&
    !(d.month = 2 && d.day > 28 && (d.year % 4 ≠ 0 || (d.year % 100 = 0 && d.year % 400 ≠ 0)))

def julianDateOffset : Nat := 1721119

/-- `INTERPRETJULIANDAYNO`: the date of a day number. -/
def interpretJulianDayNo (julianDayNo : Nat) : Date :=
  let temp1 := (julianDayNo - julianDateOffset) * 4 - 1
  let century := temp1 / 146097
  let temp2 := (temp1 - century * 146097) / 4 * 4 + 3
  let yearOfCentury := temp2 / 1461
  let temp3 := (temp2 - yearOfCentury * 1461 + 4) / 4 * 5 - 3
  let temp4 := temp3 / 153
  let day := (temp3 - temp4 * 153 + 5) / 5
  if temp4 > 9 then ⟨century * 100 + (yearOfCentury + 1), temp4 - 9, day⟩
  else ⟨century * 100 + yearOfCentury, temp4 + 3, day⟩

def julianDayNo (d : Date) : Nat :=
  let cyear := if d.month ≤ 2 then d.year - 1 else d.year
  let cmonth := if d.month ≤ 2 then d.month + 9 else d.month - 3
  let century := cyear / 100
  century * 146097 / 4 + (cyear - century * 100) * 1461 / 4 + ((cmonth * 153 + 2) / 5 + d.day) +
    julianDateOffset

/-- `COMPUTEJULIANDAYNO`: a late day must be found again. -/
def computeJulianDayNo (d : Date) : Option Nat :=
  if d.day > 28 ∧ (interpretJulianDayNo (julianDayNo d)).day ≠ d.day then none
  else some (julianDayNo d)

/-- `COMPUTETIMESTAMP`, in microseconds. A day begins at noon. -/
def computeTimestamp (t : Datetime) : Option Int :=
  (computeJulianDayNo t.toDate).map fun jdn =>
    (((jdn * 24 + t.hour : Int) - 12) * 3600 + (t.minute * 60 + t.second : Nat)) * 1000000 +
      (t.fraction / 1000 : Nat)

def jtsMin : Int := 148731163200000000

def jtsMax : Int := 464300683199999999

/-- `INTERPRETTIMESTAMP`. Out of its bounds only the year is set, to -1 as a `short`. -/
def interpretTimestamp (jts : Int) (t : Datetime) : Datetime :=
  if jts < jtsMin ∨ jts > jtsMax then { t with year := 65535 }
  else
    let jdnhh := (jts / 3600000000).toNat + 12
    let mmss := (jts % 3600000000).toNat / 1000000
    { interpretJulianDayNo (jdnhh / 24) with
      hour := jdnhh % 24, minute := mmss / 60, second := mmss % 60, fraction := t.fraction }

/-- A zone with `+` is ahead of UTC, so its offset is taken off. -/
def adjustTzd (tzd : Option (Bool × Int × Int)) (t : Datetime) : Option Datetime :=
  match tzd with
  | none => some t
  | some (isAdd, hh, mm) => (computeTimestamp t).map fun jts =>
    let usec := (hh * 60 + mm) * 60 * 1000000
    interpretTimestamp (if isAdd then jts + usec else jts - usec) t

def trimBlanks (text : List Char) : List Char := (text.dropWhile (· = ' ')).rdropWhile (· = ' ')

def halfOf (text : List Char) : Option Bool × List Char := splitHalf (trimBlanks text)

def defZOf (text : List Char) : Bool × List Char := splitZ (halfOf text).1 (halfOf text).2

def tzdOf (text : List Char) : Option (Bool × Int × Int) × List Char := splitTzd (defZOf text).2

def convAsciiToDatetime (text : List Char) (startField endField : DatetimeField) :
    Option (Datetime × Nat) :=
  (determineFormat (text.dropWhile (· = ' ')) startField endField).bind fun format =>
    if ((defZOf text).1 || (tzdOf text).1.isSome) && endField = .day then none
    else (scanAll format startField endField (tzdOf text).2).bind fun (t, scale) =>
      (adjustHalf format endField (halfOf text).1 t).bind fun t =>
        if validateDate t.toDate then (adjustTzd (tzdOf text).1 t).map fun t => (t, scale)
        else none

end ExpDatetime

/-! ## What a text says -/

/-- A group of `n` digits. -/
def readGroup (n : Nat) (text : List Char) : Option (Nat × List Char) :=
  if n ≤ text.length ∧ (text.take n).all Char.isDigit then
    some (leadingDigits (text.take n), text.drop n)
  else none

def readMark (mark : Char) : List Char → Option (List Char)
  | [] => none
  | c :: rest => if c = mark then some rest else none

/-- Three groups of digits with a mark between them. -/
def readThree (mark : Char) (a b c : Nat) (text : List Char) :
    Option ((Nat × Nat × Nat) × List Char) := do
  let (x, text) ← readGroup a text
  let (y, text) ← readGroup b (← readMark mark text)
  let (z, text) ← readGroup c (← readMark mark text)
  some ((x, y, z), text)

/-- `yyyy-mm-dd`, `mm/dd/yyyy` or `dd.mm.yyyy`. -/
def readDate (text : List Char) : Option (Date × List Char) :=
  ((readThree '-' 4 2 2 text).map fun ((y, m, d), rest) => (⟨y, m, d⟩, rest)).or
    (((readThree '/' 2 2 4 text).map fun ((m, d, y), rest) => (⟨y, m, d⟩, rest)).or
      ((readThree '.' 2 2 4 text).map fun ((d, m, y), rest) => (⟨y, m, d⟩, rest)))

/-- `hh:mm:ss` or `hh.mm.ss`. -/
def readTime (text : List Char) : Option ((Nat × Nat × Nat) × List Char) :=
  (readThree ':' 2 2 2 text).or (readThree '.' 2 2 2 text)

/-- A point and the digits behind it. -/
def readFraction : List Char → List Char × List Char
  | '.' :: rest => (rest.takeWhile Char.isDigit, rest.dropWhile Char.isDigit)
  | text => ([], text)

def Leap (year : Nat) : Prop := year % 4 = 0 ∧ (year % 100 ≠ 0 ∨ year % 400 = 0)

instance (year : Nat) : Decidable (Leap year) := by
  unfold Leap
  infer_instance

/-- The days of a month of the Gregorian calendar. -/
def monthDays (year month : Nat) : Nat :=
  if month = 2 then if Leap year then 29 else 28
  else if month = 4 ∨ month = 6 ∨ month = 9 ∨ month = 11 then 30
  else 31

structure Datetime.Valid (t : Datetime) : Prop where
  month : 1 ≤ t.month ∧ t.month ≤ 12
  day : 1 ≤ t.day ∧ t.day ≤ monthDays t.year t.month
  year : 1 ≤ t.year ∧ t.year ≤ 9999
  clock : t.hour ≤ 23 ∧ t.minute ≤ 59 ∧ t.second ≤ 59

instance (t : Datetime) : Decidable t.Valid :=
  decidable_of_iff ((1 ≤ t.month ∧ t.month ≤ 12) ∧ (1 ≤ t.day ∧ t.day ≤ monthDays t.year t.month) ∧
      (1 ≤ t.year ∧ t.year ≤ 9999) ∧ t.hour ≤ 23 ∧ t.minute ≤ 59 ∧ t.second ≤ 59)
    ⟨fun ⟨a, b, c, d⟩ => ⟨a, b, c, d⟩, fun ⟨a, b, c, d⟩ => ⟨a, b, c, d⟩⟩

/-- The end of a text: nothing, `Z`, or the half of the day. -/
def readEnd (t : Datetime) : List Char → Option Datetime
  | [] | ['Z'] => some t
  | [' ', half, m] =>
    if m.toUpper = 'M' ∧ t.hour ≤ 12 then
      if half.toUpper = 'A' then some { t with hour := t.hour % 12 }
      else if half.toUpper = 'P' then some { t with hour := t.hour % 12 + 12 }
      else none
    else none
  | _ => none

/-- The time of day behind a date. The fraction is counted at nine digits. -/
def readClock (d : Date) (text : List Char) : Option Datetime := do
  let ((h, m, s), rest) ← readTime text
  let f := (readFraction rest).1
  if f.length ≤ 9 then
    readEnd ⟨d, h, m, s, leadingDigits f * 10 ^ (9 - f.length)⟩ (readFraction rest).2
  else none

/-- A blank, a colon or a `T` stands between the date and the time. -/
def readSeparator : List Char → Option (List Char)
  | [] => none
  | c :: rest => if c ∈ [' ', ':', 'T'] then some rest else none

/-- The datetime that a text says, for the fields of a column. -/
def datetimeText (startField endField : DatetimeField) (text : List Char) : Option Datetime :=
  (if startField = .hour then readClock {} (ExpDatetime.trimBlanks text)
    else (readDate (ExpDatetime.trimBlanks text)).bind fun (d, rest) =>
      if endField = .day then if rest.isEmpty then some ⟨d, 0, 0, 0, 0⟩ else none
      else (readSeparator rest).bind (readClock d)).bind fun t =>
    if t.Valid then some t else none

end litestore
