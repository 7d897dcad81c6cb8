-- The order of index keys. The payload of a row puts the codes of its index
-- columns one behind the other, so rows come in the order of their index
-- columns.
import LiteStore.OrderedKeys

namespace litestore

open checked orderedcode List

/-! ## The order of tuples -/

/-- Column after column, each in the direction that the index declares for it. -/
def cmpTuples (descending : List Bool) : Nat → List (Option SqlValue) → List (Option SqlValue) →
    Ordering
  | i, a :: as, b :: bs =>
    (if descending.getD i false then (cmpNullable a b).swap else cmpNullable a b).then
      (cmpTuples descending (i + 1) as bs)
  | _, _, _ => .eq

/-- The values of the index columns of a row. -/
def tupleValues (columns : List LiteStoredColumn) (row : Bytes) :
    List Nat → Option (List (Option SqlValue))
  | [] => some []
  | c :: rest => do
    let col ← columns[c]?
    let value ← columnValue row col
    let values ← tupleValues columns row rest
    some (value :: values)

variable {t : List (Option SqlValue)} {keyColumns : List Nat} {columns : List LiteStoredColumn}

theorem tupleValues_cons {row : Bytes} {c : Nat} {rest : List Nat}
    (h : tupleValues columns row (c :: rest) = some t) :
    ∃ col value values, columns[c]? = some col ∧ columnValue row col = some value ∧
      tupleValues columns row rest = some values ∧ t = value :: values := by
  simp only [tupleValues, Option.bind_eq_bind, Option.bind_eq_some_iff, Option.some.injEq] at h
  obtain ⟨col, hcol, value, hvalue, values, hvalues, rfl⟩ := h
  exact ⟨col, value, values, hcol, hvalue, hvalues, rfl⟩

/-- Tuples are equal exactly when no column tells them apart. -/
theorem cmpTuples_eq_iff {descending : List Bool} {i : Nat} {s : List (Option SqlValue)}
    (h : s.length = t.length) : cmpTuples descending i s t = .eq ↔ s = t := by
  induction s generalizing t i with
  | nil =>
    obtain rfl := length_eq_zero_iff.mp h.symm
    simp [cmpTuples]
  | cons a s ih =>
    cases t with
    | nil => simp at h
    | cons b t =>
      have hfirst : (if descending.getD i false then (cmpNullable a b).swap
          else cmpNullable a b) = .eq ↔ a = b := by
        split
        · rw [Ordering.swap_eq_eq, cmpNullable_eq_iff]
        · exact cmpNullable_eq_iff
      rw [cmpTuples, Ordering.then_eq_eq, hfirst, ih (by simpa using h), List.cons.injEq]

/-! ## The codes of a tuple -/

/-- The word of one column. -/
def componentCode (col : LiteStoredColumn) (descending : Bool) (value : Option SqlValue) : Bytes :=
  let word := match value with
    | none => [0]
    | some v => 1 :: orderedEscaped (orderedRaw col v) ++ [0, 0]
  if descending then word.map (fun b => ~~~b) else word

theorem compare_complement (x y : UInt8) : compare (~~~x) (~~~y) = (compare x y).swap := by
  have hx : x.toNat < 256 := x.toNat_lt
  have hy : y.toNat < 256 := y.toNat_lt
  have hnot : ∀ z : UInt8, (~~~z).toNat = 255 - z.toNat := fun z => by
    rw [UInt8.toNat_not]
    rfl
  have hlt : 255 - x.toNat < 255 - y.toNat ↔ y.toNat < x.toNat := by omega
  have heq : 255 - x.toNat = 255 - y.toNat ↔ y.toNat = x.toNat := by omega
  rw [compare_byte, compare_byte, hnot, hnot, ← Std.OrientedOrd.eq_swap]
  simp only [compare, compareOfLessAndEq, hlt, heq]

theorem zero_first (x : UInt8) (hx : x ≠ 0) : compare 0 x = .lt ∧ compare x 0 = .gt := by
  have hpos : 0 < x.toNat := Nat.pos_of_ne_zero fun h => hx (UInt8.toNat_inj.mp h)
  rw [compare_byte, compare_byte]
  exact ⟨Nat.compare_eq_lt.mpr hpos, Nat.compare_eq_gt.mpr hpos⟩

/-- Two words of one column are in the order of the values. -/
theorem ranked_component {col : LiteStoredColumn} {a b : Option SqlValue}
    (ha : ∀ v, a = some v → ValueOf col v) (hb : ∀ v, b = some v → ValueOf col v)
    (descending : Bool) :
    Ranked (if descending then (cmpNullable a b).swap else cmpNullable a b)
      (componentCode col descending a) (componentCode col descending b) := by
  have hword : Ranked (cmpNullable a b) (componentCode col false a) (componentCode col false b) := by
    cases a with
    | none =>
      cases b with
      | none => exact Ranked.refl _
      | some w => exact ranked_first (rfl : compare (0 : UInt8) 1 = .lt) (by simp) _ _
    | some v =>
      cases b with
      | none => exact ranked_first (rfl : compare (1 : UInt8) 0 = .gt) (by simp) _ _
      | some w =>
        have hescaped := ranked_escaped zero_first (by decide : (255 : UInt8) ≠ 0)
          (orderedRaw col v) (orderedRaw col w)
        rw [compare_orderedRaw (ha v rfl) (hb w rfl)] at hescaped
        exact hescaped.append_left [1]
  cases descending with
  | false => exact hword
  | true => exact hword.map_swap compare_complement

/-- The words of a tuple, one behind the other. -/
def tupleCode (columns : List LiteStoredColumn) (descending : List Bool) :
    Nat → List Nat → List (Option SqlValue) → Bytes
  | i, c :: cs, v :: vs =>
    (match columns[c]? with
      | some col => componentCode col (descending.getD i false) v
      | none => []) ++ tupleCode columns descending (i + 1) cs vs
  | _, _, _ => []

/-- Each value can stand in its column. -/
def TupleOf (columns : List LiteStoredColumn) (keyColumns : List Nat)
    (t : List (Option SqlValue)) : Prop :=
  Forall₂ (fun c value => ∃ col, columns[c]? = some col ∧
    ∀ v, value = some v → ValueOf col v) keyColumns t

theorem ranked_tuple {s : List (Option SqlValue)} (hs : TupleOf columns keyColumns s)
    (ht : TupleOf columns keyColumns t) (descending : List Bool) (i : Nat) :
    Ranked (cmpTuples descending i s t) (tupleCode columns descending i keyColumns s)
      (tupleCode columns descending i keyColumns t) := by
  unfold TupleOf at hs ht
  induction hs generalizing t i with
  | nil =>
    cases ht
    exact Ranked.refl []
  | @cons c a cs s ha _ ih =>
    obtain _ | ⟨hb, ht⟩ := ht
    obtain ⟨col, hcol, hva⟩ := ha
    obtain ⟨col', hcol', hvb⟩ := hb
    obtain rfl : col = col' := Option.some.inj (hcol.symm.trans hcol')
    simp only [tupleCode, hcol]
    exact (ranked_component hva hvb _).append (ih ht (i + 1))

/-! ## What the builder writes -/

section Builder

variable {row : Bytes} {col : LiteStoredColumn}

/-- The component of a column is the code of its value. -/
theorem component_of_value (hsound : col.toMappedType.Sound) {value : Option SqlValue}
    (hv : columnValue row col = some value) (hfits : col.decimalFits) (descending : Bool) :
    (∀ v, value = some v → ValueOf col v) ∧
      appendOrderedIndexComponent row col descending =
        .ok (componentCode col descending value, value.isNone) := by
  unfold columnValue at hv
  unfold appendOrderedIndexComponent
  cases hnull : storedColumnIsNull row col with
  | true =>
    rw [hnull, if_pos rfl, Option.some.injEq] at hv
    subst hv
    refine ⟨by simp, ?_⟩
    cases descending <;> rfl
  | false =>
    rw [hnull, if_neg (by simp), Option.map_eq_some_iff] at hv
    obtain ⟨v, hstored, rfl⟩ := hv
    obtain ⟨hof, hbytes⟩ := orderedComponentBytes_eq hsound hfits hstored
    refine ⟨fun w hw => Option.some.inj hw ▸ hof, ?_⟩
    have hsupported : orderedIndexColumnSupported col = true := by
      unfold orderedIndexColumnSupported
      cases col.type <;> rfl
    simp only [Bool.false_eq_true, if_false, hsupported, Bool.not_true, hbytes, ok_bind]
    cases descending <;> rfl

theorem orderedComponents_of_values (hsound : ∀ c ∈ columns, c.toMappedType.Sound)
    (hv : tupleValues columns row keyColumns = some t) (hfits : ∀ c ∈ columns, c.decimalFits)
    (descending : List Bool) (i : Nat) :
    TupleOf columns keyColumns t ∧ orderedComponents columns row descending keyColumns i =
      .ok (tupleCode columns descending i keyColumns t, t.any Option.isNone) := by
  induction keyColumns generalizing t i with
  | nil =>
    cases hv
    exact ⟨.nil, rfl⟩
  | cons c rest ih =>
    obtain ⟨col, value, values, hcol, hvalue, hvalues, rfl⟩ := tupleValues_cons hv
    obtain ⟨hof, hcomponent⟩ := component_of_value (hsound col (mem_of_getElem? hcol)) hvalue
      (hfits col (mem_of_getElem? hcol)) (descending.getD i false)
    obtain ⟨hofs, hcomponents⟩ := ih hvalues (i + 1)
    refine ⟨.cons ⟨col, hcol, hof⟩ hofs, ?_⟩
    simp only [orderedComponents, hcol, hcomponent, ok_bind, hcomponents, tupleCode, any_cons]

end Builder

/-! ## Rows of a table -/

def liteSecondaryIndexSupportsOrderedKeys (table : LiteTableDef) (keyColumns : List Nat) : Bool :=
  match computeLayout table with
  | .error _ => false
  | .ok (columns, _) => !keyColumns.isEmpty && keyColumns.all fun c =>
      (columns[c]?.map orderedIndexColumnSupported).getD false

/-- A row of a table: its columns, and the bytes behind the magic. -/
def openIndexRow (table : LiteTableDef) (encoded : Bytes) :
    Option (List LiteStoredColumn × Bytes) :=
  match storedRowOf encoded "invalid lite ordered index input", computeLayout table with
  | .ok row, .ok (columns, _) => some (columns, row)
  | _, _ => none

/-- The values of the index columns; none where the row does not hold values. -/
def indexTuple (table : LiteTableDef) (keyColumns : List Nat) (encoded : Bytes) :
    Option (List (Option SqlValue)) :=
  (openIndexRow table encoded).bind fun (columns, row) => tupleValues columns row keyColumns

/-- The payloads of two rows are in the order of the index columns and equal only with them, and
the word of a column is no beginning of the word of another value. -/
def OrderRealised (table : LiteTableDef) (index : LiteIndexDef) (r s : Bytes)
    (t u : List (Option SqlValue)) : Prop :=
  (∃ p q, liteBuildOrderedSecondaryKeyPayload table index r = .ok p ∧
    liteBuildOrderedSecondaryKeyPayload table index s = .ok q ∧
    compare p.1 q.1 = cmpTuples index.descending 0 t u ∧ (p.1 = q.1 ↔ t = u)) ∧
  ∀ columns row row', openIndexRow table r = some (columns, row) →
    openIndexRow table s = some (columns, row') → ∀ c ∈ index.keyColumns, ∀ col descending p q,
    columns[c]? = some col → appendOrderedIndexComponent row col descending = .ok p →
    appendOrderedIndexComponent row' col descending = .ok q → p.1 <+: q.1 →
    columnValue row col = columnValue row' col

/-- The columns of a table keep the limit of the parser. -/
def DecimalsFit (table : LiteTableDef) : Prop :=
  ∀ layout, computeLayout table = .ok layout → ∀ col ∈ layout.1, col.decimalFits

theorem tupleValues_length {row : Bytes} (h : tupleValues columns row keyColumns = some t) :
    t.length = keyColumns.length := by
  induction keyColumns generalizing t with
  | nil =>
    cases h
    rfl
  | cons c rest ih =>
    obtain ⟨col, value, values, -, -, hvalues, rfl⟩ := tupleValues_cons h
    simp [ih hvalues]

theorem tupleValues_mem {row : Bytes} (h : tupleValues columns row keyColumns = some t) {c : Nat}
    (hc : c ∈ keyColumns) {col : LiteStoredColumn} (hcol : columns[c]? = some col) :
    ∃ value, columnValue row col = some value := by
  induction keyColumns generalizing t with
  | nil => simp at hc
  | cons d rest ih =>
    obtain ⟨col', value, values, hcol', hvalue, hvalues, rfl⟩ := tupleValues_cons h
    rcases mem_cons.mp hc with rfl | hc
    · obtain rfl : col' = col := Option.some.inj (hcol'.symm.trans hcol)
      exact ⟨value, hvalue⟩
    · exact ih hvalues hc

theorem supports_layout {table : LiteTableDef}
    (h : liteSecondaryIndexSupportsOrderedKeys table keyColumns = true) :
    ∃ columns rowLen, computeLayout table = .ok (columns, rowLen) := by
  unfold liteSecondaryIndexSupportsOrderedKeys at h
  cases hlayout : computeLayout table with
  | error e => simp [hlayout] at h
  | ok layout => exact ⟨layout.1, layout.2, rfl⟩

theorem openIndexRow_eq_some {table : LiteTableDef} {encoded : Bytes}
    {columns' : List LiteStoredColumn} {rowLen : Nat} {row : Bytes}
    (hlayout : computeLayout table = .ok (columns, rowLen)) :
    openIndexRow table encoded = some (columns', row) ↔
      columns' = columns ∧ storedRowOf encoded "invalid lite ordered index input" = .ok row := by
  unfold openIndexRow
  rw [hlayout]
  cases storedRowOf encoded "invalid lite ordered index input" with
  | error e => simp
  | ok r => simp [eq_comm]

/-- The word of a column tells its value. -/
theorem component_prefix {row row' : Bytes} {col : LiteStoredColumn} {descending : Bool}
    {value value' : Option SqlValue} {p q : Bytes × Bool} (hsound : col.toMappedType.Sound)
    (hv : columnValue row col = some value) (hv' : columnValue row' col = some value')
    (hfits : col.decimalFits) (hp : appendOrderedIndexComponent row col descending = .ok p)
    (hq : appendOrderedIndexComponent row' col descending = .ok q) (hpre : p.1 <+: q.1) :
    value = value' := by
  obtain ⟨hof, hword⟩ := component_of_value hsound hv hfits descending
  obtain ⟨hof', hword'⟩ := component_of_value hsound hv' hfits descending
  rw [hword, Except.ok.injEq] at hp
  rw [hword', Except.ok.injEq] at hq
  subst hp
  subst hq
  have heq := ((ranked_component hof hof' descending).eq_of_isPrefixed hpre).1
  rw [← cmpNullable_eq_iff]
  cases descending with
  | false => exact heq
  | true => rwa [if_pos rfl, Ordering.swap_eq_eq] at heq

/-- Ordered keys realise the order of the index columns, for any two rows that hold values. -/
theorem ordered_keys_realise_order {table : LiteTableDef} {index : LiteIndexDef} {r s : Bytes}
    {t u : List (Option SqlValue)}
    (hsupported : liteSecondaryIndexSupportsOrderedKeys table index.keyColumns = true)
    (hdecimals : DecimalsFit table) (ht : indexTuple table index.keyColumns r = some t)
    (hu : indexTuple table index.keyColumns s = some u) : OrderRealised table index r s t u := by
  obtain ⟨columns, rowLen, hlayout⟩ := supports_layout hsupported
  have hsound := computeLayout_sound hlayout
  have hfits := hdecimals _ hlayout
  obtain ⟨⟨columns₁, row⟩, hopen, ht⟩ := Option.bind_eq_some_iff.mp ht
  obtain ⟨⟨columns₂, row'⟩, hopen', hu⟩ := Option.bind_eq_some_iff.mp hu
  obtain ⟨rfl, hrow⟩ := (openIndexRow_eq_some hlayout).mp hopen
  obtain ⟨rfl, hrow'⟩ := (openIndexRow_eq_some hlayout).mp hopen'
  have hbuild : ∀ {encoded row}, storedRowOf encoded "invalid lite ordered index input" = .ok row →
      liteBuildOrderedSecondaryKeyPayload table index encoded =
        orderedComponents columns₂ row index.descending index.keyColumns 0 := by
    intro encoded row hrow
    simp only [liteBuildOrderedSecondaryKeyPayload, hrow, hlayout, ok_bind]
  obtain ⟨hof, hcode⟩ := orderedComponents_of_values hsound ht hfits index.descending 0
  obtain ⟨hof', hcode'⟩ := orderedComponents_of_values hsound hu hfits index.descending 0
  have hcmp := (ranked_tuple hof hof' index.descending 0).compare
  have hlen : t.length = u.length := by rw [tupleValues_length ht, tupleValues_length hu]
  refine ⟨⟨_, _, (hbuild hrow).trans hcode, (hbuild hrow').trans hcode', hcmp, ?_⟩, ?_⟩
  · rw [← cmpTuples_eq_iff hlen, ← hcmp, Std.LawfulEqOrd.compare_eq_iff_eq]
  · intro columns row₁ row₂ h₁ h₂ c hc col descending p q hcol hp hq hpre
    rw [hopen, Option.some.injEq, Prod.mk.injEq] at h₁
    rw [hopen', Option.some.injEq, Prod.mk.injEq] at h₂
    obtain ⟨rfl, rfl⟩ := h₁
    obtain ⟨-, rfl⟩ := h₂
    obtain ⟨value, hv⟩ := tupleValues_mem ht hc hcol
    obtain ⟨value', hv'⟩ := tupleValues_mem hu hc hcol
    have hcolumn := mem_of_getElem? hcol
    rw [hv, hv', component_prefix (hsound col hcolumn) hv hv' (hfits col hcolumn) hp hq hpre]

/-! ## Two decimals -/

/-- A table with one column, and an index on it. -/
def oneColumnTable (type : String) : LiteTableDef where
  catalog := "TRAFODION"
  schema := "S"
  name := "T"
  columns := [⟨"D", type, false⟩]
  ordinalsFit := no_ordinals_fit

def oneColumnIndex : LiteIndexDef where
  name := "I"
  keyColumns := [0]
  descending := [true]

/-- A row of it: the magic, the header and the bytes of the column. -/
def oneColumnRow (bytes : Bytes) : Bytes := liteBinaryRowMagic ++ replicate 8 0 ++ bytes

/-- The values -12 and 34 of a descending `DECIMAL(5)`. -/
theorem narrow_decimals_in_order :
    OrderRealised (oneColumnTable "DECIMAL(5)") oneColumnIndex
      (oneColumnRow [176, 48, 48, 49, 50]) (oneColumnRow [48, 48, 48, 51, 52])
      [some (.number (-12))] [some (.number 34)] := by
  have hfits : DecimalsFit (oneColumnTable "DECIMAL(5)") := by
    intro layout hlayout
    have hprecision : (computeLayout (oneColumnTable "DECIMAL(5)")).map
        (fun layout => layout.1.map (·.precision)) = .ok [5] := by
      decide +kernel
    rw [hlayout] at hprecision
    have hlist : layout.1.map (·.precision) = [5] := Except.ok.inj hprecision
    intro col hcol _
    have hmem : col.precision ∈ layout.1.map (·.precision) := mem_map_of_mem hcol
    rw [hlist, mem_singleton] at hmem
    omega
  exact ordered_keys_realise_order (by decide +kernel) hfits (by decide +kernel) (by decide +kernel)

end litestore
