-- What the bytes of a stored column stand for. A column is NULL or holds a
-- number, a text or the fields of a datetime, by the type of the column.
import LiteStore.RowKeys
import LiteStore.Lib.Digits

namespace litestore

open checked List

/-! ## Values -/

/-- A value that is not NULL. A number counts in units of the scale of its column. -/
inductive SqlValue
  | number (n : Int)
  | text (bytes : Bytes)
  | datetime (fields : List Nat)
deriving DecidableEq

def SqlValue.kind : SqlValue → Nat
  | .number _ => 0
  | .text _ => 1
  | .datetime _ => 2

/-- The order of values. In one column all values are of one kind. -/
def SqlValue.cmp : SqlValue → SqlValue → Ordering
  | .number m, .number n => compare m n
  | .text a, .text b => compare a b
  | .datetime a, .datetime b => compare a b
  | a, b => compare a.kind b.kind

/-- A NULL comes before every value. -/
def cmpNullable : Option SqlValue → Option SqlValue → Ordering
  | none, none => .eq
  | none, some _ => .lt
  | some _, none => .gt
  | some a, some b => a.cmp b

theorem cmp_eq_iff {a b : SqlValue} : a.cmp b = .eq ↔ a = b := by
  cases a <;> cases b <;> simp [SqlValue.cmp, SqlValue.kind]

theorem cmpNullable_eq_iff {a b : Option SqlValue} : cmpNullable a b = .eq ↔ a = b := by
  cases a <;> cases b <;> simp [cmpNullable, cmp_eq_iff]

/-! ## Numbers in rows -/

/-- A number of the machine, with a sign unless the type says otherwise. -/
def binaryNumber (bytes : Bytes) (unsigned : Bool) : Int :=
  if unsigned || littleEndian bytes < 2 ^ (8 * bytes.length - 1) then (littleEndian bytes : Int)
  else (littleEndian bytes : Int) - 2 ^ (8 * bytes.length)

/-- The value of digits, one in a byte. -/
def digitsNumber (negative : Bool) (ds : Bytes) : Int :=
  let magnitude : Int := digits.value 10 (ds.map fun d => d.toNat - 48)
  if negative then -magnitude else magnitude

def isDigitByte (d : UInt8) : Bool := 48 ≤ d && d ≤ 57

/-- A `DECIMAL`: one digit in a byte, the sign in the top bit of the first. -/
def decimalNumber : Bytes → Option Int
  | [] => none
  | first :: rest =>
    let ds := (first &&& 127) :: rest
    if ds.all isDigitByte then some (digitsNumber (decide (first ≥ 128)) ds) else none

/-- A number of more than eighteen digits: a magnitude, and the sign in the top bit. -/
def bigNumber (bytes : Bytes) (precision : Nat) : Option Int :=
  let signBit := 2 ^ (8 * bytes.length - 1)
  let magnitude := littleEndian bytes % signBit
  if magnitude < 10 ^ precision then
    some (if littleEndian bytes ≥ signBit then -(magnitude : Int) else magnitude)
  else none

/-- The widths of the fields of a date, a time and a timestamp. -/
def datetimeWidths (length : Nat) : List Nat :=
  if length = 4 then [2, 1, 1]
  else if length = 8 then [1, 1, 1, 4]
  else [2, 1, 1, 1, 1, 1, 4]

def fieldValues : List Nat → Bytes → List Nat
  | [], _ => []
  | w :: ws, bytes => littleEndian (bytes.take w) :: fieldValues ws (bytes.drop w)

/-! ## Columns -/

/-- The bytes that the row keeps for a column of fixed length. -/
def fixedBytes (row : Bytes) (col : LiteStoredColumn) : Option Bytes :=
  if hasRange row col.offset col.length then some (slice row col.offset col.length) else none

section

variable {α β : Type} {row b : Bytes} {col : LiteStoredColumn}

theorem fixedBytes_eq_some :
    fixedBytes row col = some b ↔
      hasRange row col.offset col.length = true ∧ b = slice row col.offset col.length := by
  unfold fixedBytes
  split_ifs with h
  · simp [h, eq_comm]
  · simp [h]

theorem map_fixedBytes_eq_some {f : Bytes → α} {v : α} : (fixedBytes row col).map f = some v ↔
      hasRange row col.offset col.length = true ∧ f (slice row col.offset col.length) = v := by
  simp [fixedBytes_eq_some, and_assoc]

theorem bind_fixedBytes_eq_some {f : Bytes → Option β} {g : β → α} {v : α} :
    ((fixedBytes row col).bind fun b => (f b).map g) = some v ↔
      hasRange row col.offset col.length = true ∧
        ∃ n, f (slice row col.offset col.length) = some n ∧ g n = v := by
  simp [Option.bind_eq_some_iff, fixedBytes_eq_some, and_assoc]

end

/-- The value of a column that is not NULL, as `writeValue` leaves it; none where the bytes are
not those of a value, and for the floating types. -/
def storedValue (row : Bytes) (col : LiteStoredColumn) : Option SqlValue :=
  match col.type with
  | .varchar | .varbinary =>
    if hasRange row col.vcLenIndOffset variableLenSize &&
        hasRange row col.offset (varLength row col.vcLenIndOffset) then
      some (.text (slice row col.offset (varLength row col.vcLenIndOffset)))
    else none
  | .char | .binary => (fixedBytes row col).map .text
  | .float32 | .float64 => none
  | .datetime => (fixedBytes row col).map fun b =>
      .datetime (fieldValues (datetimeWidths col.length) b)
  | .numeric =>
    if col.precision > 18 then
      (fixedBytes row col).bind fun b => (bigNumber b col.precision).map .number
    else if col.decimalStorage then
      (fixedBytes row col).bind fun b => (decimalNumber b).map .number
    else (fixedBytes row col).map fun b => .number (binaryNumber b col.unsignedNumeric)
  | .int8 | .int16 | .int32 | .int64 | .interval | .boolean =>
    (fixedBytes row col).map fun b => .number (binaryNumber b col.unsignedNumeric)

/-- The value of a column, NULL included. -/
def columnValue (row : Bytes) (col : LiteStoredColumn) : Option (Option SqlValue) :=
  if storedColumnIsNull row col then some none else (storedValue row col).map some

/-! ## What `mapType` promises -/

/-- The lengths that go with a type. -/
structure MappedType.Sound (m : MappedType) : Prop where
  datetime : m.type = .datetime → m.length = 4 ∨ m.length = 8 ∨ m.length = 11
  binary : m.type ∈ [LiteCodecType.int8, .int16, .int32, .int64, .interval, .boolean] ∨
    (m.type = .numeric ∧ m.decimalStorage = false ∧ m.precision ≤ 18) →
    0 < m.length ∧ m.length ≤ 8
  decimal : m.type = .numeric → m.decimalStorage = true → m.length = m.precision
  precise : m.type = .numeric → 0 < m.precision
  big : m.type = .numeric → m.decimalStorage = false → 18 < m.precision → 0 < m.length

theorem numericStorageSize_bounds (p : Nat) :
    0 < numericStorageSize p ∧ numericStorageSize p ≤ 8 := by
  unfold numericStorageSize
  split
  · omega
  split
  · omega
  split
  · omega
  omega

theorem intervalStorageSize_le (start : DatetimeField) (leading : Nat) (last : DatetimeField)
    (fraction : Nat) : intervalStorageSize start leading last fraction ≤ 8 := by
  unfold intervalStorageSize
  dsimp only
  split
  · omega
  split
  · omega
  split
  · omega
  omega

variable {typeName : List Char} {unsigned : Bool} {m : MappedType} {columns : List LiteStoredColumn}
  {table : LiteTableDef} {rowLen : Nat}

theorem mapNumeric_sound {decimal : Bool} (h : mapNumeric typeName unsigned decimal = some m) :
    m.Sound := by
  simp only [mapNumeric, Option.ite_none_left_eq_some, Option.some.injEq] at h
  obtain ⟨hok, rfl⟩ := h
  have hbounds := numericStorageSize_bounds (typeArg typeName 18)
  cases decimal with
  | true => exact ⟨by simp, by simp, by simp, by simp; omega, by simp⟩
  | false =>
    refine ⟨by simp, ?_, by simp, by simp; omega, ?_⟩
    · intro hprec
      have hle : typeArg typeName 18 ≤ 18 := by simpa using hprec
      simp only [Bool.false_eq_true, if_false, if_neg (Nat.not_lt.mpr hle)]
      exact hbounds
    · intro _ _ hprec
      have hgt : 18 < typeArg typeName 18 := hprec
      simp only [Bool.false_eq_true, if_false, if_pos hgt]
      unfold bigNumStorageSize
      simp

theorem mapInterval_sound (h : mapInterval typeName unsigned = some m) : m.Sound := by
  simp only [mapInterval, Option.ite_none_right_eq_some, Option.some.injEq] at h
  obtain ⟨hpos, rfl⟩ := h
  exact ⟨by simp, fun _ => ⟨hpos, intervalStorageSize_le _ _ _ _⟩, by simp, by simp, by simp⟩

/-- The types of one width. -/
def typeWidth : LiteCodecType → Option Nat
  | .int8 | .boolean => some 1
  | .int16 => some 2
  | .int32 | .float32 => some 4
  | .int64 | .float64 => some 8
  | _ => none

theorem typeWidth_eq {type : LiteCodecType}
    (h : type ∈ [LiteCodecType.int8, .int16, .int32, .int64, .boolean]) :
    ∃ w, typeWidth type = some w ∧ 0 < w ∧ w ≤ 8 := by
  simp only [mem_cons, not_mem_nil, or_false] at h
  rcases h with rfl | rfl | rfl | rfl | rfl <;> simp [typeWidth]

/-- The types that `fixedType` is called for, with their lengths. -/
structure FixedKind (type : LiteCodecType) (length : Nat) : Prop where
  width : ∀ w, typeWidth type = some w → length = w
  datetime : type = .datetime → length = 4 ∨ length = 8 ∨ length = 11
  numeric : type ≠ .numeric
  interval : type ≠ .interval

/-- What a type that `mapType` knows comes from. -/
inductive Mapped (m : MappedType) : Prop
  | fixed {type : LiteCodecType} {length scale : Nat} {unsigned : Bool}
      (kind : FixedKind type length) (h : fixedType type length unsigned scale = some m)
  | float {precision : Nat} {unsigned : Bool}
      (h : m = { type := if precision ≤ 22 then .float32 else .float64,
                 length := if precision ≤ 22 then 4 else 8,
                 precision := precision, unsignedNumeric := unsigned })
  | numeric {typeName : List Char} {unsigned decimal : Bool}
      (h : mapNumeric typeName unsigned decimal = some m)
  | interval {typeName : List Char} {unsigned : Bool} (h : mapInterval typeName unsigned = some m)

theorem of_ite_eq_some {α : Type} {c P : Prop} [Decidable c] {a b : Option α} {m : α}
    (h : (if c then a else b) = some m) (ha : a = some m → P) (hb : b = some m → P) : P := by
  by_cases hc : c
  · exact ha (by rwa [if_pos hc] at h)
  · exact hb (by rwa [if_neg hc] at h)

theorem mapType_cases {text : String} (h : mapType text = some m) : Mapped m := by
  unfold mapType at h
  -- TINYINT, SMALLINT, INT, LARGEINT and REAL
  iterate 5
    refine of_ite_eq_some h (.fixed ⟨by simp [typeWidth], by simp, by simp, by simp⟩) fun h => ?_
  refine of_ite_eq_some h (fun h => ?_) fun h => ?_
  · refine of_ite_eq_some h (fun h => by cases h) fun h => ?_
    exact .float (Option.some.inj h).symm
  refine of_ite_eq_some h (.fixed ⟨by simp [typeWidth], by simp, by simp, by simp⟩) fun h => ?_
  refine of_ite_eq_some h .numeric fun h => ?_
  refine of_ite_eq_some h .numeric fun h => ?_
  -- DATE, TIME, TIMESTAMP and BOOLEAN
  iterate 4
    refine of_ite_eq_some h (.fixed ⟨by simp [typeWidth], by simp, by simp, by simp⟩) fun h => ?_
  refine of_ite_eq_some h .interval fun h => ?_
  -- the binary and the character types
  iterate 5
    refine of_ite_eq_some h (.fixed ⟨by simp [typeWidth], by simp, by simp, by simp⟩) fun h => ?_
  cases h

theorem mapType_sound {text : String} (h : mapType text = some m) : m.Sound := by
  cases mapType_cases h with
  | @fixed type length _ _ kind h =>
    cases h
    refine ⟨kind.datetime, ?_, fun h => absurd h kind.numeric, fun h => absurd h kind.numeric,
      fun h => absurd h kind.numeric⟩
    rintro (hmem | hnumeric)
    · have hne := kind.interval
      obtain ⟨w, hw, hbounds⟩ : ∃ w, typeWidth type = some w ∧ 0 < w ∧ w ≤ 8 :=
        typeWidth_eq (by grind)
      rw [kind.width w hw]
      exact hbounds
    · exact absurd hnumeric.1 kind.numeric
  | @float precision _ h =>
    subst h
    by_cases hle : precision ≤ 22
    all_goals exact ⟨by simp [hle], by simp [hle], by simp [hle], by simp [hle], by simp [hle]⟩
  | numeric h => exact mapNumeric_sound h
  | interval h => exact mapInterval_sound h

/-- How the length follows from the rest of the type. -/
structure MappedType.Exact (m : MappedType) : Prop where
  width : ∀ w, typeWidth m.type = some w → m.length = w
  text : m.type = .char ∨ m.type = .varchar → m.precision = m.length
  numeric : m.type = .numeric → m.scale ≤ m.precision ∧ m.length =
    if m.decimalStorage then m.precision
    else if m.precision > 18 then bigNumStorageSize m.precision
    else numericStorageSize m.precision
  interval : m.type = .interval → m.length = intervalStorageSize m.intervalStart
    (m.precision % 2 ^ 32) m.intervalEnd (m.scale % 2 ^ 32)

theorem mapNumeric_exact {decimal : Bool} (h : mapNumeric typeName unsigned decimal = some m) :
    m.Exact := by
  simp only [mapNumeric, Option.ite_none_left_eq_some, Option.some.injEq] at h
  obtain ⟨hok, rfl⟩ := h
  exact ⟨by simp [typeWidth], by simp, fun _ => ⟨by dsimp only; omega, rfl⟩, by simp⟩

theorem mapInterval_exact (h : mapInterval typeName unsigned = some m) : m.Exact := by
  simp only [mapInterval, Option.ite_none_right_eq_some, Option.some.injEq] at h
  obtain ⟨-, rfl⟩ := h
  exact ⟨by simp [typeWidth], by simp, by simp, fun _ => rfl⟩

theorem mapType_exact {text : String} (h : mapType text = some m) : m.Exact := by
  cases mapType_cases h with
  | fixed kind h =>
    cases h
    exact ⟨kind.width, fun _ => rfl, fun h => absurd h kind.numeric,
      fun h => absurd h kind.interval⟩
  | @float precision _ h =>
    subst h
    by_cases hle : precision ≤ 22
    all_goals exact ⟨by simp [hle, typeWidth], by simp [hle], by simp [hle], by simp [hle]⟩
  | numeric h => exact mapNumeric_exact h
  | interval h => exact mapInterval_exact h

/-! ## Columns of a layout -/

theorem placeVoa_types (voaOffset : Nat) (columns : List LiteStoredColumn) :
    (placeVoa voaOffset columns).1.map (·.toMappedType) = columns.map (·.toMappedType) := by
  induction columns generalizing voaOffset with
  | nil => rfl
  | cons c rest ih =>
    unfold placeVoa
    split
    · simp [ih]
    · simp [ih]

theorem placeFixed_types (bitmapOffset nullBit fixedOffset : Nat)
    (columns : List LiteStoredColumn) :
    (placeFixed bitmapOffset nullBit fixedOffset columns).1.map (·.toMappedType) =
      columns.map (·.toMappedType) := by
  induction columns generalizing nullBit fixedOffset with
  | nil => rfl
  | cons c rest ih =>
    have hnull : ∀ b : Bool, (if b then
        { c with nullIndOffset := bitmapOffset, nullBitIndex := (nullBit : Int) }
        else c).toMappedType = c.toMappedType := by
      intro b
      cases b <;> rfl
    unfold placeFixed
    dsimp only
    split
    all_goals simp only [map_cons, hnull, ih]

theorem placeVariable_types (varOffset : Nat) (columns : List LiteStoredColumn) :
    (placeVariable varOffset columns).1.map (·.toMappedType) = columns.map (·.toMappedType) := by
  induction columns generalizing varOffset with
  | nil => rfl
  | cons c rest ih =>
    unfold placeVariable
    dsimp only
    split
    · simp [ih]
    · simp [ih]

/-- Every column has the type that is known for its definition. -/
theorem mapColumns_types {defs : List LiteColumnDef} (h : mapColumns defs = .ok columns) :
    Forall₂ (fun c d => mapType d.type = some c.toMappedType) columns defs := by
  induction defs generalizing columns with
  | nil =>
    cases h
    exact .nil
  | cons d rest ih =>
    unfold mapColumns at h
    cases hm : mapType d.type with
    | none => simp [hm] at h
    | some m =>
      simp only [hm, bind_eq_ok] at h
      obtain ⟨others, hothers, hcolumns⟩ := h
      cases hcolumns
      exact .cons hm (ih hothers)

theorem computeLayout_types (h : computeLayout table = .ok (columns, rowLen)) :
    ∃ mapped, mapColumns table.columns = .ok mapped ∧
      columns.map (·.toMappedType) = mapped.map (·.toMappedType) := by
  simp only [computeLayout, bind_eq_ok, Except.ok.injEq, Prod.mk.injEq] at h
  obtain ⟨mapped, hmapped, rfl, -⟩ := h
  refine ⟨mapped, hmapped, ?_⟩
  rw [placeVariable_types, placeFixed_types, placeVoa_types]

/-- What every known type has, every column of a table has. -/
theorem computeLayout_forall {P : MappedType → Prop} (hP : ∀ text m, mapType text = some m → P m)
    (h : computeLayout table = .ok (columns, rowLen)) : ∀ c ∈ columns, P c.toMappedType := by
  obtain ⟨mapped, hmapped, htypes⟩ := computeLayout_types h
  intro c hc
  have hmem : c.toMappedType ∈ mapped.map (·.toMappedType) := by
    rw [← htypes]
    exact mem_map_of_mem hc
  obtain ⟨m, hm, heq⟩ := mem_map.mp hmem
  obtain ⟨d, -, htype⟩ := forall₂_exists_right (mapColumns_types hmapped) hm
  rw [← heq]
  exact hP _ _ htype

section

variable (h : computeLayout table = .ok (columns, rowLen))

include h

/-- The columns of a layout have the lengths that go with their types. -/
theorem computeLayout_sound :
    ∀ c ∈ columns, c.toMappedType.Sound :=
  computeLayout_forall (fun _ _ => mapType_sound) h

theorem computeLayout_exact :
    ∀ c ∈ columns, c.toMappedType.Exact :=
  computeLayout_forall (fun _ _ => mapType_exact) h

theorem computeLayout_length :
    columns.length = table.columns.length := by
  obtain ⟨mapped, hmapped, htypes⟩ := computeLayout_types h
  have hlength := congrArg List.length htypes
  rw [length_map, length_map] at hlength
  rw [hlength, (mapColumns_types hmapped).length_eq]

end

end litestore
