-- When a rewritten row holds the values of the old row and of the texts of the new
-- columns. The columns that stay need types that read their bytes alike; the new
-- columns need texts that fit, as in every row made of texts.
import LiteStore.RowRewrite

namespace litestore

open checked List

/-! ## New columns -/

def declaredColumn (typeText : String) (col : LiteStoredColumn) : LiteStoredColumn :=
  { col with toMappedType := declared typeText col.toMappedType }

/-- A number with an exponent, or without one. -/
def isFloatLiteral (text : List Char) : Bool :=
  let body := (splitSign text).2
  let mantissa := body.takeWhile fun c => c ≠ 'E' && c ≠ 'e'
  let number := match scanScaled false mantissa with
    | some (ds, _) => !ds.isEmpty
    | none => false
  let exponent := match body.drop mantissa.length with
    | [] => true
    | _ :: rest => !(splitSign rest).2.isEmpty && (splitSign rest).2.all Char.isDigit
  number && exponent

/-- The floating number of a text. `strtod` gives infinity for a number that is too large. -/
def floatDatum (engine : Engine) (col : LiteStoredColumn) (value : Bytes) : Option Datum :=
  if isFloatLiteral (charsOf value) && !value.contains 0 then
    match col.type with
    | .float32 =>
      let bits := engine.single value
      if bits >>> 23 &&& 255 = 255 then none else some (.floating bits.toNat)
    | .float64 =>
      let bits := engine.double value
      if bits >>> 52 &&& 2047 = 2047 then none else some (.floating bits.toNat)
    | _ => none
  else none

/-- A column of a row holds what a text says, NULL for the empty text of a type that has no
characters, and no more than its type can hold. -/
def HoldsText (engine : Engine) (typeText : String) (col : LiteStoredColumn) (value row : Bytes) :
    Prop :=
  if floatingType col.type then
    if value = [] then storedColumnIsNull row col = true
    else storedColumnIsNull row col = false ∧
      ∃ d, floatDatum engine col value = some d ∧ columnDatum typeText row col = some d
  else ∃ v, textMeaning (declaredColumn typeText col) value = some v ∧
    columnValue row col = some v ∧
    (v ≠ none → ∀ d, columnDatum typeText row col = some d → DatumFits typeText col.toMappedType d)

/-- A value within the limits of the type text. -/
def ValueWithin (typeText : String) (col : LiteStoredColumn) : SqlValue → Prop
  | .text b => col.type = .char ∨ col.type = .varchar →
      ∀ codes, characterCodes (characterWidth typeText) b = some codes →
        countedCharacters col.type codes ≤ characterLimit typeText
  | .datetime fields => col.length ≠ 4 →
      ShowsFraction fields col.scale (namedDigits typeText col.toMappedType)
  | .number _ => True

/-- A text whose value is kept. For an interval the fields that the codec takes and the fields that
the type names must give one count. -/
def AddedFits (engine : Engine) (typeText : String) (col : LiteStoredColumn) (value : Bytes) : Prop :=
  match col.type with
  | .float32 | .float64 => value = [] ∨ (floatDatum engine col value).isSome
  | .interval => value = [] ∨ ∀ total, intervalText col (cText value) = some total →
      (0 : UInt8) ∉ value ∧ ∃ count, intervalText (declaredColumn typeText col) (charsOf value) =
          some count ∧ InBinaryRange col.unsignedNumeric col.length count ∧
        (total : Int) ≡ count [ZMOD 2 ^ (8 * col.length)] ∧
        count < intervalRange (declared typeText col.toMappedType) *
          10 ^ (declared typeText col.toMappedType).scale
  | _ => TextFits col value ∧
      ∀ v, value ≠ [] → textValue col value = some v → ValueWithin typeText col v

/-- How many bytes a text takes in its column. -/
def addedLength (col : LiteStoredColumn) (value : Bytes) : Option Nat :=
  if value = [] then none
  else some (if isVariableType col.type then value.length else col.length)

variable {col : LiteStoredColumn} {bytes : Bytes}

theorem declaredColumn_of_ne {typeText : String} (h : col.type ≠ .interval) :
    declaredColumn typeText col = col := by
  unfold declaredColumn declared
  rw [if_neg h]

theorem datum_of_numeric {typeText : String} {b : Bytes} {n : Int} (htype : col.type = .numeric)
    (h : contentValue col b = some (.number n)) :
    datum typeText col.toMappedType b = some (.exact n col.scale) := by
  unfold contentValue at h
  unfold datum
  simp only [htype] at h ⊢
  split at h
  · rename_i hbig
    obtain ⟨k, hk, heq⟩ := Option.map_eq_some_iff.mp h
    cases heq
    rw [if_pos hbig, hk]
    rfl
  · rename_i hbig
    rw [if_neg hbig]
    split_ifs at h with hdec
    · obtain ⟨k, hk, heq⟩ := Option.map_eq_some_iff.mp h
      cases heq
      rw [if_pos hdec, hk]
      rfl
    · cases h
      rw [if_neg hdec]

/-- Within the limits is what fits, for a value that its column can hold. -/
theorem datumFits_iff {typeText : String} {value b : Bytes} {v : SqlValue}
    (hinterval : col.type ≠ .interval) (htext : textValue col value = some v)
    (hcontent : contentValue col b = some v) :
    (∀ d, datum typeText col.toMappedType b = some d → DatumFits typeText col.toMappedType d) ↔
      ValueWithin typeText col v := by
  unfold textValue at htext
  cases ht : col.type with
  | interval => exact absurd ht hinterval
  | float32 | float64 => simp [ht] at htext
  | numeric =>
    simp only [ht, Option.bind_eq_some_iff, Option.ite_none_right_eq_some, Option.some.injEq] at htext
    obtain ⟨n, -, hrep, rfl⟩ := htext
    unfold Representable at hrep
    rw [if_pos ht] at hrep
    rw [datum_of_numeric ht hcontent]
    simp only [Option.some.injEq, forall_eq', ValueWithin, DatumFits, iff_true]
    exact fun _ => hrep
  | int8 | int16 | int32 | int64 | boolean | datetime | char | varchar | binary | varbinary =>
    simp only [contentValue, ht, Option.some.injEq] at hcontent
    subst hcontent
    simp [datum, ValueWithin, DatumFits, ht]

theorem binaryNumber_intBytes_iff {unsigned : Bool} {length : Nat} {total count : Int}
    (hpos : 0 < length) (hrange : InBinaryRange unsigned length count) :
    binaryNumber (intBytes total length) unsigned = count ↔
      total ≡ count [ZMOD 2 ^ (8 * length)] := by
  constructor
  · intro h
    have hbytes := littleEndian_intBytes total length
    rw [← h]
    unfold binaryNumber
    rw [intBytes_length]
    split
    · rw [hbytes]
      exact (Int.mod_modEq total _).symm
    · rw [hbytes]
      unfold Int.ModEq
      rw [Int.sub_emod_right, Int.emod_emod]
  · intro h
    have hsame : intBytes total length = intBytes count length := by
      unfold intBytes
      push_cast
      rw [h.eq]
    rw [hsame, binaryNumber_intBytes hpos hrange]

section Added

variable {engine : Engine} {typeText : String} {columns : List LiteStoredColumn} {rowLen first : Nat}
  (hp : Placed columns rowLen first) (hbits : (columns.filter (·.nullable)).length ≤ 2 ^ 15)
  {c : LiteStoredColumn} (hc : c ∈ columns) (hexact : c.toMappedType.Exact)
  (hsound : c.toMappedType.Sound) {row : Bytes} (hlen : row.length = rowLen) {cut : Nat}
  (hcut : cut ≤ rowLen) {value : Bytes}

include hp hbits hc hlen hcut

/-- The empty text is the text of NULL, also for characters. -/
theorem holdsText_empty (h : Holds row c none) (hnull : c.nullable = true) :
    HoldsText engine typeText c [] (row.take cut) ↔
      AddedFits engine typeText c [] ∧ cellEnd c (addedLength c []) ≤ cut := by
  have hbit := h.isNull_take_none hp hbits hc hlen hcut
  have hcolumn : columnValue (row.take cut) c = some none ↔ cellEnd c none ≤ cut := by
    rw [← hbit]
    unfold columnValue
    cases storedColumnIsNull (row.take cut) c with
    | true => simp
    | false => simp
  have hlength : addedLength c [] = none := by simp [addedLength]
  rw [hlength]
  unfold HoldsText
  by_cases hfloat : floatingType c.type = true
  · have hfits : AddedFits engine typeText c [] := by
      unfold AddedFits
      cases ht : c.type <;> simp [ht, floatingType] at hfloat ⊢
    rw [if_pos hfloat, if_pos rfl, hbit]
    exact (and_iff_right hfits).symm
  · rw [if_neg hfloat]
    by_cases hchar : characterType c.type = true
    · -- no character column holds its empty text
      have hno : ¬ AddedFits engine typeText c [] := by
        unfold AddedFits TextFits
        cases ht : c.type <;> simp [ht, characterType, hnull] at hchar ⊢
      have hmeans : ∃ v, textMeaning (declaredColumn typeText c) [] = some (some v) := by
        have hne : c.type ≠ .interval := by
          intro ht
          rw [ht] at hchar
          cases hchar
        rw [declaredColumn_of_ne hne]
        unfold textMeaning textValue
        cases ht : c.type <;> simp [ht, characterType] at hchar ⊢
      obtain ⟨w, hw⟩ := hmeans
      refine iff_of_false ?_ fun hboth => hno hboth.1
      rintro ⟨v, hv, hcolumn', -⟩
      obtain rfl : some w = v := Option.some.inj (hw.symm.trans hv)
      unfold columnValue at hcolumn'
      cases hisNull : storedColumnIsNull (row.take cut) c with
      | true =>
        rw [hisNull] at hcolumn'
        cases hcolumn'
      | false =>
        -- the bit is behind the end, so the column is too
        rw [hisNull, storedValue_eq_bind, if_neg (by simp)] at hcolumn'
        obtain ⟨u, hu, -⟩ := Option.map_eq_some_iff.mp hcolumn'
        have hend := ((h.bind_take hp hc hlen hcut).mp hu).1
        have hbehind := hp.behind c hc
        have hstart := (LiteStoredColumn.start_le_stop hp hc).1
        obtain ⟨k, hk, -, hfirst, -, -⟩ := isNull_eq hp hbits hc hnull hlen
        have hinside : cellEnd c none ≤ cut := by
          unfold cellEnd at hend ⊢
          rw [hk]
          dsimp only at hend ⊢
          omega
        rw [hbit.mpr hinside] at hisNull
        cases hisNull
    · have hfits : AddedFits engine typeText c [] := by
        unfold AddedFits TextFits
        cases ht : c.type <;> simp [ht, characterType] at hchar ⊢
      have hmeans : textMeaning (declaredColumn typeText c) [] = some none := by
        have hsame : (declaredColumn typeText c).type = c.type := by
          unfold declaredColumn declared
          dsimp only
          split <;> rfl
        have hnull' : (declaredColumn typeText c).nullable = true := hnull
        unfold textMeaning
        rw [hsame, hnull', if_pos (by simp [hchar]), if_pos rfl]
      constructor
      · rintro ⟨v, hv, hcolumn', -⟩
        obtain rfl : none = v := Option.some.inj (hmeans.symm.trans hv)
        exact ⟨hfits, hcolumn.mp hcolumn'⟩
      · rintro ⟨-, hend⟩
        exact ⟨none, hmeans, hcolumn.mpr hend, fun hne => absurd rfl hne⟩

/-- The value of a column that was stored from bytes. -/
theorem columnValue_take (h : Holds row c (some bytes)) {v : Option SqlValue} :
    columnValue (row.take cut) c = some v ↔ ∃ w, v = some w ∧
      cellEnd c (some (cellContent c (some bytes)).length) ≤ cut ∧
      contentValue c (cellContent c (some bytes)) = some w := by
  unfold columnValue
  rw [h.isNull_take_some hp hbits hc hlen hcut, if_neg (by simp), storedValue_eq_bind,
    Option.map_eq_some_iff]
  simp only [h.bind_take hp hc hlen hcut]
  constructor
  · rintro ⟨w, hw, rfl⟩
    exact ⟨w, rfl, hw⟩
  · rintro ⟨w, rfl, hw⟩
    exact ⟨w, hw, rfl⟩

section

variable (hne : value ≠ []) (hbytes : valueBytes engine c value = .ok bytes)
  (h : Holds row c (some bytes))

include hexact hne hbytes h

theorem holdsText_float (hfloat : floatingType c.type = true) :
    HoldsText engine typeText c value (row.take cut) ↔
      AddedFits engine typeText c value ∧ cellEnd c (addedLength c value) ≤ cut := by
  have hvariable : isVariableType c.type = false := by
    cases ht : c.type <;> simp [ht, floatingType] at hfloat ⊢ <;> rfl
  have hlength : addedLength c value = some c.length := by simp [addedLength, hne, hvariable]
  have hadded : AddedFits engine typeText c value ↔ (floatDatum engine c value).isSome := by
    unfold AddedFits
    cases ht : c.type <;> simp [ht, floatingType, hne] at hfloat ⊢
  have hcontent : (cellContent c (some bytes)).length = c.length := by
    simp only [cellContent, hvariable, Bool.false_eq_true, if_false]
    exact padded_length (valueBytes_length_le hexact hbytes)
  -- the stored bits are those that the library gives
  have hbits' : ∀ d, floatDatum engine c value = some d →
      datum typeText c.toMappedType (cellContent c (some bytes)) = some d := by
    intro d hd
    unfold floatDatum at hd
    split at hd
    · rename_i hliteral
      have hzero : cBytes value = value := by
        apply cBytes_of_no_zero
        rw [Bool.and_eq_true] at hliteral
        simpa using hliteral.2
      unfold valueBytes at hbytes
      cases ht : c.type <;> simp only [ht, floatingType, Bool.false_eq_true] at hfloat
      · have hfour : c.length = 4 := hexact.width 4 (by rw [ht]; rfl)
        simp only [ht] at hd hbytes
        cases hbytes
        split at hd
        · cases hd
        · cases hd
          have hlt := (engine.single value).toNat_lt
          simp [datum, ht, cellContent, isVariableType, hfour, padded_self, hzero,
            littleEndian_lowFirst]
      · have height : c.length = 8 := hexact.width 8 (by rw [ht]; rfl)
        simp only [ht] at hd hbytes
        cases hbytes
        split at hd
        · cases hd
        · cases hd
          have hlt := (engine.double value).toNat_lt
          simp [datum, ht, cellContent, isVariableType, height, padded_self, hzero,
            littleEndian_lowFirst]
    · cases hd
  unfold HoldsText columnDatum
  rw [if_pos hfloat, if_neg hne, hlength, hadded]
  simp only [h.isNull_take_some hp hbits hc hlen hcut, h.bind_take hp hc hlen hcut, true_and, hcontent]
  constructor
  · rintro ⟨d, hd, hend, -⟩
    exact ⟨by rw [hd]; rfl, hend⟩
  · rintro ⟨hsome, hend⟩
    obtain ⟨d, hd⟩ := Option.isSome_iff_exists.mp hsome
    exact ⟨d, hd, hend, hbits' d hd⟩

include hsound

theorem holdsText_interval (htype : c.type = .interval) :
    HoldsText engine typeText c value (row.take cut) ↔
      AddedFits engine typeText c value ∧ cellEnd c (addedLength c value) ≤ cut := by
  have hpos := (hsound.binary (.inl (by simp [htype]))).1
  obtain ⟨total, htotal, rfl⟩ := (valueBytes_interval hexact hsound htype).mp hbytes
  have hlength : addedLength c value = some c.length := by
    simp [addedLength, hne, htype, isVariableType]
  have hcontent : cellContent c (some (intBytes total c.length)) = intBytes total c.length := by
    simp [cellContent, htype, isVariableType, padded_self]
  have hdeclared : declared typeText c.toMappedType = { c.toMappedType with
      intervalStart := (namedFields (upper typeText.toList)).headD c.intervalStart
      intervalEnd := (namedFields (upper typeText.toList)).getLastD c.intervalEnd
      scale := namedFraction (upper typeText.toList) } := by
    unfold declared
    rw [if_pos htype]
  have htype' : (declaredColumn typeText c).type = .interval := by
    unfold declaredColumn
    rw [hdeclared]
    exact htype
  have hmeans : ∀ w, textMeaning (declaredColumn typeText c) value = some (some w) ↔
      (0 : UInt8) ∉ value ∧ ∃ count, intervalText (declaredColumn typeText c) (charsOf value) =
        some count ∧ InBinaryRange c.unsignedNumeric c.length count ∧ w = .number count := by
    intro w
    have hrange : ∀ n, InBinaryRange (declaredColumn typeText c).unsignedNumeric
        (declaredColumn typeText c).length n ↔ InBinaryRange c.unsignedNumeric c.length n := by
      intro n
      unfold declaredColumn
      rw [hdeclared]
    unfold textMeaning
    rw [if_neg (by simp [hne]), textValue_interval htype']
    by_cases hzero : (0 : UInt8) ∈ value
    · simp [hzero]
    · simp only [hzero, if_false, not_false_eq_true, true_and, Option.map_eq_some_iff,
        Option.bind_eq_some_iff, Option.ite_none_right_eq_some, Option.some.injEq, hrange]
      constructor
      · rintro ⟨_, ⟨count, hcount, hin, rfl⟩, rfl⟩
        exact ⟨count, hcount, hin, rfl⟩
      · rintro ⟨count, hcount, hin, rfl⟩
        exact ⟨_, ⟨count, hcount, hin, rfl⟩, rfl⟩
  have hfits : ∀ count : Int, DatumFits typeText c.toMappedType
      (intervalDatum (declared typeText c.toMappedType) count) ↔
      count.natAbs < intervalRange (declared typeText c.toMappedType) *
        10 ^ (declared typeText c.toMappedType).scale := by
    intro count
    simp only [DatumFits, intervalDatum]
    exact abs_size_lt_iff
  have hdatum : ∀ d, columnDatum typeText (row.take cut) c = some d ↔
      cellEnd c (some c.length) ≤ cut ∧ intervalDatum (declared typeText c.toMappedType)
        (binaryNumber (intBytes total c.length) c.unsignedNumeric) = d := by
    intro d
    unfold columnDatum
    rw [h.bind_take hp hc hlen hcut, hcontent, intBytes_length]
    simp [datum, htype]
  have hvalue := fun v => columnValue_take hp hbits hc hlen hcut h (v := v)
  have hstored := contentValue_interval htype total
  rw [hcontent] at hstored
  simp only [hcontent, hstored, intBytes_length, Option.some.injEq] at hvalue
  unfold HoldsText AddedFits
  rw [if_neg (by simp [htype, floatingType]), hlength]
  simp only [htype, hne, false_or, htotal, Option.some.injEq, forall_eq', hvalue, hdatum]
  constructor
  · rintro ⟨_, hv, ⟨_, rfl, hend, rfl⟩, hwithin⟩
    obtain ⟨hzero, count, hcount, hin, heq⟩ := (hmeans _).mp hv
    rw [SqlValue.number.injEq] at heq
    refine ⟨⟨hzero, count, hcount, hin, (binaryNumber_intBytes_iff hpos hin).mp heq, ?_⟩, hend⟩
    have hfit := hwithin (by simp) _ ⟨hend, rfl⟩
    rw [heq, hfits] at hfit
    simpa using hfit
  · rintro ⟨⟨hzero, count, hcount, hin, hmod, hlt⟩, hend⟩
    have heq := (binaryNumber_intBytes_iff hpos hin).mpr hmod
    refine ⟨some (.number count), (hmeans _).mpr ⟨hzero, count, hcount, hin, rfl⟩,
      ⟨_, rfl, hend, by rw [heq]⟩, ?_⟩
    rintro - d ⟨-, rfl⟩
    rw [heq, hfits]
    simpa using hlt

theorem holdsText_plain (hinterval : c.type ≠ .interval) (hfloat : floatingType c.type = false) :
    HoldsText engine typeText c value (row.take cut) ↔
      AddedFits engine typeText c value ∧ cellEnd c (addedLength c value) ≤ cut := by
  have hadded : AddedFits engine typeText c value ↔ TextFits c value ∧
      ∀ v, textValue c value = some v → ValueWithin typeText c v := by
    unfold AddedFits
    cases ht : c.type <;> simp [ht, floatingType, hne] at hfloat hinterval ⊢
  have hkeeps : TextFits c value ↔ ∃ v, textValue c value = some v ∧
      contentValue c (cellContent c (some bytes)) = some v := by
    rw [textFits_iff hexact hsound hfloat, if_neg hne]
    constructor
    · intro hall
      exact hall bytes hbytes
    · intro hone bytes' hbytes'
      obtain rfl : bytes = bytes' := Except.ok.inj (hbytes.symm.trans hbytes')
      exact hone
  have hlength : ∀ v, textValue c value = some v →
      contentValue c (cellContent c (some bytes)) = some v →
      addedLength c value = some (cellContent c (some bytes)).length := by
    intro v hv hcontent
    unfold addedLength
    rw [if_neg hne]
    congr 1
    split
    · rename_i hvariable
      -- a variable column that keeps its text holds just its bytes
      have hsame : v = .text (cellContent c (some bytes)) ∧ v = .text value := by
        unfold textValue at hv
        unfold contentValue at hcontent
        cases ht : c.type <;> simp [ht, isVariableType] at hvariable hv hcontent
        all_goals exact ⟨hcontent.symm, hv.2.symm⟩
      rw [SqlValue.text.inj (hsame.2.symm.trans hsame.1)]
    · rename_i hfixed
      unfold cellContent
      dsimp only
      rw [if_neg hfixed, padded_length (valueBytes_length_le hexact hbytes)]
  have hmeans : ∀ w, textMeaning c value = some (some w) ↔ textValue c value = some w := by
    intro w
    unfold textMeaning
    rw [if_neg (by simp [hne])]
    simp
  unfold HoldsText
  rw [if_neg (by simp [hfloat]), hadded, hkeeps, declaredColumn_of_ne hinterval]
  constructor
  · rintro ⟨_, hv, hcolumn, hfits⟩
    obtain ⟨w, rfl, hend, hw⟩ := (columnValue_take hp hbits hc hlen hcut h).mp hcolumn
    have htext := (hmeans w).mp hv
    refine ⟨⟨⟨w, htext, hw⟩, ?_⟩, hlength w htext hw ▸ hend⟩
    intro v hv'
    obtain rfl : w = v := Option.some.inj (htext.symm.trans hv')
    rw [← datumFits_iff hinterval htext hw]
    intro d hd
    exact hfits (by simp) d ((h.bind_take hp hc hlen hcut).mpr ⟨hend, hd⟩)
  · rintro ⟨⟨⟨w, htext, hw⟩, hwithin⟩, hend⟩
    rw [hlength w htext hw] at hend
    refine ⟨some w, (hmeans w).mpr htext,
      (columnValue_take hp hbits hc hlen hcut h).mpr ⟨w, rfl, hend, hw⟩, ?_⟩
    intro _ d hd
    exact (datumFits_iff hinterval htext hw).mpr (hwithin w htext) d
      ((h.bind_take hp hc hlen hcut).mp hd).2

end

include hexact hsound

/-- A new column holds its text exactly when the text fits and ends inside the row. -/
theorem holdsText_iff {cell : Cell} (hcell : textCell engine c value = .ok cell)
    (h : Holds row c cell) :
    HoldsText engine typeText c value (row.take cut) ↔
      AddedFits engine typeText c value ∧ cellEnd c (addedLength c value) ≤ cut := by
  cases cell with
  | none =>
    have hempty : value = [] ∧ c.nullable = true := by
      unfold textCell at hcell
      by_cases hempty : value = []
      · subst hempty
        refine ⟨rfl, ?_⟩
        by_contra hnull
        simp [hnull] at hcell
      · rw [if_neg (by simpa using hempty)] at hcell
        cases hv : valueBytes engine c value <;> rw [hv] at hcell <;> cases hcell
    obtain ⟨rfl, hnull⟩ := hempty
    exact holdsText_empty hp hbits hc hlen hcut h hnull
  | some bytes =>
    obtain ⟨hne, hbytes⟩ := textCell_eq_some.mp hcell
    by_cases hfloat : floatingType c.type = true
    · exact holdsText_float hp hbits hc hexact hlen hcut hne hbytes h hfloat
    · by_cases hinterval : c.type = .interval
      · exact holdsText_interval hp hbits hc hexact hsound hlen hcut hne hbytes h hinterval
      · exact holdsText_plain hp hbits hc hexact hsound hlen hcut hne hbytes h hinterval
          (by simpa using hfloat)

end Added

/-! ## Columns that stay -/

/-- A column of the new row is NULL where the old one is, and holds its value. -/
def KeepsColumn (typeText typeText' : String) (src dest : LiteStoredColumn) (oldRow newRow : Bytes) :
    Prop :=
  storedColumnIsNull newRow dest = storedColumnIsNull oldRow src ∧
    (storedColumnIsNull oldRow src = false → ∀ d, columnDatum typeText oldRow src = some d →
      columnDatum typeText' newRow dest = some d ∧ DatumFits typeText' dest.toMappedType d)

/-- The bytes of the old column read alike, and end inside the new row. -/
def StaysAlike (typeText typeText' : String) (src dest : LiteStoredColumn) (oldRow : Bytes)
    (cut : Nat) : Prop :=
  if storedColumnIsNull oldRow src = true then cellEnd dest none ≤ cut
  else ∀ b, storedKeyBytes oldRow src = .ok b →
    ReadsAlike typeText typeText' src.toMappedType dest.toMappedType b ∧
      ((datum typeText src.toMappedType b).isSome = true → cellEnd dest (some b.length) ≤ cut)

section Stays

variable {oldColumns : List LiteStoredColumn} {oldRowLen oldFirst : Nat}
  (hp : Placed oldColumns oldRowLen oldFirst) {src dest : LiteStoredColumn} {oldRow : Bytes}
  {cell : Cell}

theorem rebuildCell_compatible (hcell : rebuildCell oldRow src dest = .ok cell) :
    src.toMappedType.Compatible dest.toMappedType := by
  unfold rebuildCell at hcell
  split at hcell
  · cases hcell
  · rename_i hsame
    simp only [not_or, not_not] at hsame
    exact ⟨hsame.1, hsame.2.1, hsame.2.2.1, hsame.2.2.2⟩

include hp

section

variable (hsrc : src ∈ oldColumns) (hlen : oldRowLen ≤ oldRow.length)
  (hcell : rebuildCell oldRow src dest = .ok cell)

include hsrc hlen hcell

/-- What a column of the old row becomes: NULL for NULL, and otherwise its bytes. -/
theorem rebuildCell_eq_ok :
    (storedColumnIsNull oldRow src = true ∧ cell = none ∧ dest.nullable = true) ∨
    ∃ b, storedColumnIsNull oldRow src = false ∧ cell = some b ∧
      storedKeyBytes oldRow src = .ok b ∧ b.length ≤ src.length ∧
      (if isVariableType src.type then b.length < 2 ^ 32 else b.length = src.length) := by
  have hstop := hp.inside src hsrc
  have hstop' : src.stop = src.offset + src.length := rfl
  have hnull : storedColumnIsNull oldRow src =
      (src.nullable && nullBitSet oldRow src.nullIndOffset src.nullBitIndex) := by
    cases hn : src.nullable with
    | false => simp [storedColumnIsNull, hn]
    | true =>
      obtain ⟨-, k, -, -, hfirst⟩ := hp.bitmap src hsrc hn
      have hroom := hp.room
      have hin : ¬ src.nullIndOffset ≥ oldRow.length := by omega
      simp [storedColumnIsNull, hn, hin]
  unfold rebuildCell at hcell
  split at hcell
  · cases hcell
  · split at hcell
    · rename_i hisNull
      left
      split at hcell
      · rename_i hdest
        cases hcell
        exact ⟨hnull.trans hisNull, rfl, hdest⟩
      · cases hcell
    · rename_i hisNull
      right
      have hnot : storedColumnIsNull oldRow src = false := by
        rw [hnull]
        simpa using hisNull
      split at hcell
      · rename_i hvariable
        split at hcell
        · cases hcell
        · rename_i hshort
          cases hcell
          have hoffset := hp.lengthFirst src hsrc hvariable
          have hfour : hasRange oldRow src.vcLenIndOffset variableLenSize = true :=
            hasRange_iff.mpr (show src.vcLenIndOffset + 4 ≤ oldRow.length by omega)
          have hrange : hasRange oldRow src.offset (varLength oldRow src.vcLenIndOffset) = true :=
            hasRange_iff.mpr (by omega)
          have hlt : varLength oldRow src.vcLenIndOffset < 2 ^ 32 := by
            unfold varLength
            exact (littleEndian_lt _).trans_eq (by norm_num)
          have hslice := slice_length hrange
          refine ⟨_, hnot, rfl, ?_, by omega, ?_⟩
          · unfold storedKeyBytes
            simp [hvariable, hfour, hrange]
          · rw [if_pos hvariable, hslice]
            exact hlt
      · rename_i hfixed
        cases hcell
        have hrange : hasRange oldRow src.offset src.length = true := hasRange_iff.mpr (by omega)
        have hslice := slice_length hrange
        refine ⟨_, hnot, rfl, ?_, by omega, ?_⟩
        · unfold storedKeyBytes
          simp [hfixed, hrange]
        · rw [if_neg hfixed, hslice]

theorem rebuildCell_fits : CellFits dest cell := by
  have hlength := (rebuildCell_compatible hcell).length
  rcases rebuildCell_eq_ok hp hsrc hlen hcell with ⟨-, rfl, hnull⟩ | ⟨b, -, rfl, -, hshort, -⟩
  · exact ⟨fun _ => hnull, fun _ hb => by cases hb⟩
  · refine ⟨fun hn => (by cases hn), fun bytes hb => ?_⟩
    cases hb
    omega

/-- A column keeps its value exactly when its bytes read alike and end inside the new row. -/
theorem keepsColumn_iff (hexact : src.toMappedType.Exact) (hexact' : dest.toMappedType.Exact)
    {newColumns : List LiteStoredColumn} {newRowLen first : Nat}
    (hp' : Placed newColumns newRowLen first)
    (hbits : (newColumns.filter (·.nullable)).length ≤ 2 ^ 15) (hdest : dest ∈ newColumns)
    {row : Bytes} (hlen' : row.length = newRowLen) {cut : Nat} (hcut : cut ≤ newRowLen)
    (h : Holds row dest cell) (typeText typeText' : String) :
    KeepsColumn typeText typeText' src dest oldRow (row.take cut) ↔
      StaysAlike typeText typeText' src dest oldRow cut := by
  have hc := rebuildCell_compatible hcell
  unfold KeepsColumn StaysAlike
  rcases rebuildCell_eq_ok hp hsrc hlen hcell with ⟨hnull, rfl, -⟩ |
    ⟨b, hnull, rfl, hbytes, -, hlength⟩
  · rw [hnull, h.isNull_take_none hp' hbits hdest hlen' hcut]
    simp
  · have hcontent : cellContent dest (some b) = b := by
      unfold cellContent
      dsimp only
      rw [← hc.type]
      split at hlength
      · rename_i hvariable
        rw [if_pos hvariable, take_mod_eq_self]
        exact hlength
      · rename_i hfixed
        rw [if_neg hfixed, padded_self (hlength.trans hc.length)]
    have hold : ∀ d, columnDatum typeText oldRow src = some d ↔
        datum typeText src.toMappedType b = some d := by
      intro d
      unfold columnDatum
      rw [hbytes]
      rfl
    have hnew : ∀ d, columnDatum typeText' (row.take cut) dest = some d ↔
        cellEnd dest (some b.length) ≤ cut ∧ datum typeText' dest.toMappedType b = some d := by
      intro d
      unfold columnDatum
      rw [h.bind_take hp' hdest hlen' hcut, hcontent]
    have hfixed : isVariableType src.type = false → b.length = src.length := by
      intro hfixed
      rwa [hfixed, if_neg (by simp)] at hlength
    rw [hnull, h.isNull_take_some hp' hbits hdest hlen' hcut]
    simp only [true_and, forall_const, Bool.false_eq_true, if_false, hbytes, Except.ok.injEq,
      forall_eq', hold, hnew]
    rw [← keepsDatum_iff hc hexact hexact' hfixed]
    constructor
    · intro hkeeps
      refine ⟨fun d hd => ⟨(hkeeps d hd).1.2, (hkeeps d hd).2⟩, fun hsome => ?_⟩
      obtain ⟨d, hd⟩ := Option.isSome_iff_exists.mp hsome
      exact (hkeeps d hd).1.1
    · rintro ⟨hkeeps, hend⟩ d hd
      exact ⟨⟨hend (by rw [hd]; rfl), (hkeeps d hd).1⟩, (hkeeps d hd).2⟩

end

end Stays

/-! ## Whole rows -/

/-- A column of the new table and where it comes from. -/
structure AlteredColumn (newTable : LiteTableDef) (newColumns : List LiteStoredColumn)
    (newToOldColumn : List Int) (addedValues : List Bytes) where
  index : Nat
  source : Int
  value : Bytes
  definition : LiteColumnDef
  dest : LiteStoredColumn
  sourceAt : newToOldColumn[index]? = some source
  valueAt : addedValues[index]? = some value
  definitionAt : newTable.columns[index]? = some definition
  destAt : newColumns[index]? = some dest

/-- Every column that stays keeps its value, and every new column holds its text. -/
structure RebuildLaw (engine : Engine) (oldTable newTable : LiteTableDef)
    (oldColumns newColumns : List LiteStoredColumn) (newToOldColumn : List Int)
    (addedValues : List Bytes) (oldRow newRow : Bytes) : Prop where
  stays : ∀ c : AlteredColumn newTable newColumns newToOldColumn addedValues, 0 ≤ c.source →
    ∀ definition src, oldTable.columns[c.source.toNat]? = some definition →
      oldColumns[c.source.toNat]? = some src →
      KeepsColumn definition.type c.definition.type src c.dest oldRow newRow
  added : ∀ c : AlteredColumn newTable newColumns newToOldColumn addedValues, c.source < 0 →
    HoldsText engine c.definition.type c.dest c.value newRow

/-- The types of the columns that stay read their bytes alike, the texts of the new columns fit, and
both end where the length of the row, cut to 32 bits, ends. -/
structure RebuildFits (engine : Engine) (oldTable newTable : LiteTableDef)
    (oldColumns newColumns : List LiteStoredColumn) (newToOldColumn : List Int)
    (addedValues : List Bytes) (oldRow : Bytes) (cut : Nat) : Prop where
  stays : ∀ c : AlteredColumn newTable newColumns newToOldColumn addedValues, 0 ≤ c.source →
    ∀ definition src, oldTable.columns[c.source.toNat]? = some definition →
      oldColumns[c.source.toNat]? = some src →
      StaysAlike definition.type c.definition.type src c.dest oldRow cut
  added : ∀ c : AlteredColumn newTable newColumns newToOldColumn addedValues, c.source < 0 →
    AddedFits engine c.definition.type c.dest c.value ∧
      cellEnd c.dest (addedLength c.dest c.value) ≤ cut

section Rows

variable {engine : Engine} {oldTable newTable : LiteTableDef}
  {oldColumns newColumns : List LiteStoredColumn} {oldRowLen newRowLen : Nat}
  (hold : computeLayout oldTable = .ok (oldColumns, oldRowLen))
  (hnew : computeLayout newTable = .ok (newColumns, newRowLen))
  {original encoded : Bytes} {newToOldColumn : List Int} {addedValues : List Bytes}

include hold hnew

/-- A rewrite that succeeds has a cell for every new column. -/
theorem liteRebuildBinaryRow_eq_ok
    (hrun : liteRebuildBinaryRow engine oldTable newTable original newToOldColumn addedValues =
      .ok encoded) :
    oldRowLen ≤ (original.drop liteBinaryRowMagic.length).length ∧
    newToOldColumn.length = newColumns.length ∧ addedValues.length = newColumns.length ∧
    ∃ pairs, Forall₂ (CellOf (alteredCell engine oldColumns
        (original.drop liteBinaryRowMagic.length)) newColumns)
        ((range newColumns.length).zip (newToOldColumn.zip addedValues)) pairs ∧
      encoded.drop liteBinaryRowMagic.length = (pairs.foldl (fun r p => storeCell r p.1 p.2)
        (initializeCanonicalRow newColumns newRowLen)).take (newRowLen % 2 ^ 32) := by
  unfold liteRebuildBinaryRow at hrun
  split at hrun
  · cases hrun
  · rename_i hlengths
    simp only [not_or, not_not] at hlengths
    obtain ⟨oldRow, hrow, hrun⟩ := bind_eq_ok.mp hrun
    have horiginal : oldRow = original.drop liteBinaryRowMagic.length := by
      unfold storedRowOf at hrow
      split at hrow
      · cases hrow
        rfl
      · cases hrow
    subst horiginal
    rw [hold, hnew] at hrun
    simp only [ok_bind] at hrun
    split at hrun
    · cases hrun
    · rename_i hshort
      obtain ⟨row, hwrite, hencoded⟩ := bind_eq_ok.mp hrun
      obtain ⟨pairs, hpairs, rfl⟩ := writeCells_eq_ok.mp hwrite
      cases hencoded
      have hlength := computeLayout_length hnew
      refine ⟨by omega, by omega, by omega, pairs, hpairs, ?_⟩
      rw [drop_left, adjustDataLength_eq hnew]

variable (ha : oldTable.Addressable) (ha' : newTable.Addressable)

include ha ha'

end Rows

/-! ### A column that loses its sign, and one more column -/

/-- The table of one key, an integer without a sign. -/
def unsignedTable : LiteTableDef :=
  { numberTable with columns := [⟨"K", "INT UNSIGNED", false⟩], ordinalsFit := no_ordinals_fit }

/-- The key with a sign, and a second integer. -/
def widerTable : LiteTableDef :=
  { numberTable with
    columns := [⟨"K", "INT", false⟩, ⟨"N", "INT", false⟩]
    ordinalsFit := no_ordinals_fit }

/-- A row of the first table. -/
def unsignedRow (key : Bytes) : Bytes := liteBinaryRowMagic ++ (replicate 8 0 ++ key)

def unsignedColumn : LiteStoredColumn := { numberColumn with unsignedNumeric := true }

def secondColumn : LiteStoredColumn := { numberColumn with offset := 12 }

theorem unsignedTable_layout : computeLayout unsignedTable = .ok ([unsignedColumn], 12) := rfl

theorem widerTable_layout :
    computeLayout widerTable = .ok ([numberColumn, secondColumn], 16) := rfl

end litestore
