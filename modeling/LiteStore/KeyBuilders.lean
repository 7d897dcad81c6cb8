-- The key builder that starts from texts. It fills a canonical row with the cells
-- of the key columns and then cuts the key out of it.
import LiteStore.CanonicalRow

namespace litestore

open checked List

/-! ## Cells fit their columns -/

variable {bytes value row key encoded : Bytes} {col : LiteStoredColumn} {engine : Engine} {β : Type}
  {outOfRange : String} {columns : List LiteStoredColumn} {keyColumns : List Nat} {rowLen : Nat}
  {values : List Bytes} {table : LiteTableDef} {cellOf : LiteStoredColumn → β → Except String Cell}
  {fields : List β}

@[simp] theorem padded_length {length : Nat} {pad : UInt8} (h : bytes.length ≤ length) :
    (padded bytes length pad).length = length := by
  simp [padded]
  omega

theorem trimContinuation_le (value : Bytes) (len : Nat) : trimContinuation value len ≤ len := by
  induction len with
  | zero => exact le_rfl
  | succ len ih =>
    unfold trimContinuation
    split
    · omega
    · exact le_rfl

theorem boundedCharacterLength_le (value : Bytes) (maxBytes byteWidth : Nat) :
    boundedCharacterLength value maxBytes byteWidth ≤ maxBytes := by
  have hmin : min value.length maxBytes ≤ maxBytes := Nat.min_le_right _ _
  unfold boundedCharacterLength
  dsimp only
  split
  · omega
  split
  · exact (trimContinuation_le _ _).trans hmin
  · exact hmin

theorem characterBytes_length_le (col : LiteStoredColumn) (value : Bytes) :
    (characterBytes col value).length ≤ col.length := by
  unfold characterBytes
  rw [length_take]
  exact (Nat.min_le_left _ _).trans (boundedCharacterLength_le _ _ _)

theorem numericCell_length {text : List Char} (h : numericCell col text = .ok bytes) :
    bytes.length = col.length := by
  unfold numericCell at h
  split at h
  · unfold bigNumCell at h
    split at h
    · cases h
    · dsimp only at h
      split at h
      · cases h
      · cases h
        split <;> simp
  split at h
  · unfold decimalCell at h
    split at h
    · cases h
    · split at h
      · cases h
      · rename_i hds
        cases h
        split <;> simpa [digitBytes] using hds
  · split at h
    · cases h
    · split at h
      · cases h
        simp
      · cases h

theorem datetimeCell_length_le {text : List Char} (h : datetimeCell col text = .ok bytes) :
    bytes.length ≤ col.length := by
  unfold datetimeCell at h
  split at h
  · cases h
  · unfold datetimeBytes at h
    split at h
    · cases h
    · split at h
      all_goals
        cases h
        simp
        omega

theorem intervalCell_length_le {text : List Char} (h : intervalCell col text = .ok bytes) :
    bytes.length ≤ col.length := by
  unfold intervalCell at h
  dsimp only at h
  split at h
  · cases h
  · split at h
    · cases h
    · cases h
      rw [intBytes_length]
      omega

/-- The bytes that `writeValue` stores stay inside the column. -/
theorem valueBytes_length_le (hexact : col.toMappedType.Exact)
    (h : valueBytes engine col value = .ok bytes) : bytes.length ≤ col.length := by
  have hwidth : ∀ w, typeWidth col.type = some w → bytes.length = w → bytes.length ≤ col.length :=
    fun w hw hlen => (hlen.trans (hexact.width w hw).symm).le
  unfold valueBytes at h
  split at h <;> rename_i htype
  · cases h
    exact hwidth 1 (by rw [htype]; rfl) (by simp)
  · cases h
    exact hwidth 2 (by rw [htype]; rfl) (by simp)
  · cases h
    exact hwidth 4 (by rw [htype]; rfl) (by simp)
  · cases h
    exact hwidth 8 (by rw [htype]; rfl) (by simp)
  · cases h
    exact hwidth 4 (by rw [htype]; rfl) (by simp)
  · cases h
    exact hwidth 8 (by rw [htype]; rfl) (by simp)
  · exact (numericCell_length h).le
  · exact datetimeCell_length_le h
  · have hone : bytes.length = 1 := by
      unfold booleanCell at h
      dsimp only at h
      split at h
      · cases h
        rfl
      · split at h
        · cases h
          rfl
        · cases h
    exact hwidth 1 (by rw [htype]; rfl) hone
  · exact intervalCell_length_le h
  · cases h
    exact (padded_length (characterBytes_length_le _ _)).le
  · cases h
    exact characterBytes_length_le _ _
  · cases h
    exact (padded_length (by simp)).le
  · cases h
    simp

theorem textCell_fits {cell : Cell} (hexact : col.toMappedType.Exact)
    (h : textCell engine col value = .ok cell) : CellFits col cell := by
  unfold textCell at h
  split at h
  · split at h
    · rename_i hnull
      cases h
      exact ⟨fun _ => hnull, fun _ hb => by cases hb⟩
    · cases h
  · cases hv : valueBytes engine col value with
    | error e => simp [hv, Except.map] at h
    | ok bytes =>
      rw [hv] at h
      cases h
      refine ⟨fun hn => (by cases hn), fun b hb => ?_⟩
      cases hb
      exact valueBytes_length_le hexact hv

theorem textCell_eq_some :
    textCell engine col value = .ok (some bytes) ↔
      value ≠ [] ∧ valueBytes engine col value = .ok bytes := by
  unfold textCell
  by_cases hempty : value = []
  · subst hempty
    cases col.nullable <;> simp
  · rw [if_neg (by simpa using hempty)]
    cases valueBytes engine col value <;> simp [Except.map, hempty]

/-! ## The builders -/

/-- The loop that stores the fields of a key, each in its column. -/
def writeCells {β : Type} (outOfRange : String)
    (cellOf : LiteStoredColumn → β → Except String Cell) (columns : List LiteStoredColumn) :
    List Nat → List β → Bytes → Except String Bytes
  | index :: rest, field :: fields, row =>
    match columns[index]? with
    | none => .error outOfRange
    | some col => do
      let cell ← cellOf col field
      writeCells outOfRange cellOf columns rest fields (storeCell row col cell)
  | _, _, row => .ok row

/-- `adjustDataLength`: the length in 32 bits, rounded up to the alignment of a row. -/
def adjustDataLength (rowLen : Nat) : Nat :=
  let currLen := rowLen % 2 ^ 32
  if currLen > 0 then ((currLen - 1) / rowAlignment + 1) * rowAlignment % 2 ^ 32 else 0

/-- A row with the cells of some columns, as the key readers take it. The length of a layout is
a multiple of the alignment, so no byte is added and the header keeps no pad count. -/
def encodeCells {β : Type} (table : LiteTableDef) (outOfRange : String)
    (cellOf : LiteStoredColumn → β → Except String Cell) (keyColumns : List Nat)
    (fields : List β) : Except String Bytes := do
  let (columns, rowLen) ← computeLayout table
  let row ← writeCells outOfRange cellOf columns keyColumns fields
    (initializeCanonicalRow columns rowLen)
  .ok (liteBinaryRowMagic ++ row.take (adjustDataLength rowLen))

def liteBuildPrimaryKeyFromTextFields (engine : Engine) (table : LiteTableDef)
    (keyFields : List Bytes) : Except String Bytes :=
  if keyFields.length ≠ table.primaryKeyColumns.length then
    .error "lite primary key field count mismatch"
  else do
    let encoded ← encodeCells table "lite primary key column index out of range"
      (textCell engine) table.primaryKeyColumns keyFields
    liteBuildPrimaryKey table encoded

/-- The number of a column, the length of its bytes and the bytes. -/
def keyPart (index : Nat) (bytes : Bytes) : Bytes :=
  sizeBytes index ++ sizeBytes bytes.length ++ bytes

/-! ## What the loop leaves -/

/-- A field of a key with the column it goes to and the cell it becomes. -/
def CellOf {β : Type} (cellOf : LiteStoredColumn → β → Except String Cell)
    (columns : List LiteStoredColumn) (entry : Nat × β) (p : LiteStoredColumn × Cell) : Prop :=
  columns[entry.1]? = some p.1 ∧ cellOf p.1 entry.2 = .ok p.2

theorem writeCells_eq_ok {row' : Bytes} :
    writeCells outOfRange cellOf columns keyColumns fields row = .ok row' ↔
      ∃ pairs, Forall₂ (CellOf cellOf columns) (keyColumns.zip fields) pairs ∧
        row' = pairs.foldl (fun r p => storeCell r p.1 p.2) row := by
  induction keyColumns generalizing fields row with
  | nil => simp [writeCells, eq_comm]
  | cons index rest ih =>
    cases fields with
    | nil => simp [writeCells, eq_comm]
    | cons field fields =>
      unfold writeCells
      rw [zip_cons_cons]
      cases hcol : columns[index]? with
      | none =>
        simp only [reduceCtorEq, false_iff, not_exists, not_and]
        intro pairs hpairs
        obtain ⟨p, -, hp, -⟩ := forall₂_cons_left_iff.mp hpairs
        rw [CellOf, hcol] at hp
        simp at hp
      | some col =>
        simp only [bind_eq_ok, ih]
        constructor
        · rintro ⟨cell, hcell, pairs, hpairs, rfl⟩
          exact ⟨(col, cell) :: pairs, .cons ⟨hcol, hcell⟩ hpairs, rfl⟩
        · rintro ⟨pairs, hpairs, rfl⟩
          obtain ⟨⟨col', cell⟩, pairs', ⟨hcol', hcell⟩, hpairs', rfl⟩ :=
            forall₂_cons_left_iff.mp hpairs
          obtain rfl : col = col' := Option.some.inj (hcol.symm.trans hcol')
          exact ⟨cell, hcell, pairs', hpairs', rfl⟩

/-- Distinct columns of a layout that fits take their cells and give them back. -/
theorem cells_hold {first : Nat} (hp : Placed columns rowLen first)
    (hbits : (columns.filter (·.nullable)).length ≤ 2 ^ 15) (hdistinct : keyColumns.Nodup)
    {pairs : List (LiteStoredColumn × Cell)}
    (hpairs : Forall₂ (CellOf cellOf columns) (keyColumns.zip fields) pairs)
    (hfits : ∀ col ∈ columns, ∀ field cell, cellOf col field = .ok cell → CellFits col cell) :
    (pairs.foldl (fun r p => storeCell r p.1 p.2)
      (initializeCanonicalRow columns rowLen)).length = rowLen ∧
    ∀ p ∈ pairs, Holds (pairs.foldl (fun r p => storeCell r p.1 p.2)
      (initializeCanonicalRow columns rowLen)) p.1 p.2 := by
  obtain ⟨hlen, hblank⟩ := initializeCanonicalRow_blank hp hbits
  have hback : ∀ p ∈ pairs, ∃ entry, CellOf cellOf columns entry p := fun p hmem =>
    (forall₂_exists_right hpairs.flip hmem).imp fun _ h => h.2
  have hmem : ∀ p ∈ pairs, p.1 ∈ columns := fun p hin =>
    (hback p hin).elim fun _ h => mem_of_getElem? h.1
  have hapart : pairs.Pairwise fun p q => Apart p.1 q.1 :=
    forall₂_pairwise (fun h h' hne => hp.apart_of_ne h.1 h'.1 hne) hpairs
      (pairwise_zip hdistinct fields)
  obtain ⟨hlen', hholds, -⟩ := storeCells_spec hp hbits hlen hmem hapart
    (fun p hin => hblank p.1 (hmem p hin)) fun p hin =>
      (hback p hin).elim fun _ h => hfits p.1 (hmem p hin) _ _ h.2
  exact ⟨hlen', hholds⟩

/-! ## Keys as the parts of their columns -/

/-- The column of a stored row is not NULL and gives these bytes. -/
def ReadsAs (columns : List LiteStoredColumn) (row : Bytes) (index : Nat) (bytes : Bytes) : Prop :=
  ∃ col, columns[index]? = some col ∧ storedColumnIsNull row col = false ∧
    storedKeyBytes row col = .ok bytes

def joinParts (keyColumns : List Nat) (values : List Bytes) : Bytes :=
  (zipWith keyPart keyColumns values).flatten

@[simp] theorem joinParts_cons (index : Nat) (rest : List Nat) (bytes : Bytes)
    (values : List Bytes) : joinParts (index :: rest) (bytes :: values) =
      keyPart index bytes ++ joinParts rest values := rfl

@[simp] theorem joinParts_nil (keyColumns : List Nat) : joinParts keyColumns [] = [] := by
  simp [joinParts]

theorem keyParts_eq_some {onNull : Except String (Option Bytes)}
    (hnull : ∀ parts, onNull ≠ .ok (some parts)) {parts : Bytes} :
    keyParts outOfRange onNull columns row keyColumns = .ok (some parts) ↔
      ∃ values, Forall₂ (ReadsAs columns row) keyColumns values ∧
        parts = joinParts keyColumns values := by
  induction keyColumns generalizing parts with
  | nil => simp [keyParts, joinParts, eq_comm]
  | cons index rest ih =>
    unfold keyParts
    cases hcol : columns[index]? with
    | none =>
      simp only [reduceCtorEq, false_iff, not_exists, not_and]
      intro values hvalues
      obtain ⟨b, -, ⟨col, hcol', -⟩, -⟩ := forall₂_cons_left_iff.mp hvalues
      rw [hcol] at hcol'
      cases hcol'
    | some col =>
      dsimp only
      cases hn : storedColumnIsNull row col with
      | true =>
        rw [if_pos rfl]
        constructor
        · intro h
          exact absurd h (hnull parts)
        · rintro ⟨values, hvalues, -⟩
          obtain ⟨b, -, ⟨col', hcol', hnot, -⟩, -⟩ := forall₂_cons_left_iff.mp hvalues
          obtain rfl : col = col' := Option.some.inj (hcol.symm.trans hcol')
          rw [hn] at hnot
          cases hnot
      | false =>
        simp only [Bool.false_eq_true, if_false, bind_eq_ok, Except.ok.injEq,
          Option.map_eq_some_iff]
        constructor
        · rintro ⟨bytes, hbytes, tail, htail, t, rfl, rfl⟩
          obtain ⟨values, hvalues, rfl⟩ := ih.mp htail
          refine ⟨bytes :: values, .cons ⟨col, hcol, hn, hbytes⟩ hvalues, ?_⟩
          simp [keyPart]
        · rintro ⟨values, hvalues, rfl⟩
          obtain ⟨bytes, values', ⟨col', hcol', -, hbytes⟩, hvalues', rfl⟩ :=
            forall₂_cons_left_iff.mp hvalues
          obtain rfl : col = col' := Option.some.inj (hcol.symm.trans hcol')
          refine ⟨bytes, hbytes, some (joinParts rest values'), ih.mpr ⟨values', hvalues', rfl⟩,
            joinParts rest values', rfl, ?_⟩
          simp [keyPart]

theorem keyParts_ne_none {onNull : Except String (Option Bytes)} (hnull : onNull ≠ .ok none) :
    keyParts outOfRange onNull columns row keyColumns ≠ .ok none := by
  induction keyColumns with
  | nil => simp [keyParts]
  | cons index rest ih =>
    unfold keyParts
    split
    · simp
    · split
      · exact hnull
      · simp only [ne_eq, bind_eq_ok, not_exists, not_and, Except.ok.injEq, Option.map_eq_none_iff]
        rintro bytes - tail htail rfl
        exact ih htail

theorem boundedKey_eq_ok {k : Bytes} : boundedKey k = .ok key ↔ key = k ∧ key.length < 2 ^ 63 := by
  unfold boundedKey
  split
  · rename_i h
    simp only [Except.ok.injEq]
    constructor
    · rintro rfl
      exact ⟨rfl, h⟩
    · rintro ⟨rfl, -⟩
      rfl
  · rename_i h
    simp only [reduceCtorEq, false_iff, not_and]
    rintro rfl
    exact h

/-- A part says how long it is, so a line of parts is cut in one way. -/
theorem keyPart_append_inj {index : Nat} {a b x y : Bytes} (ha : a.length < 2 ^ 64)
    (hb : b.length < 2 ^ 64) : keyPart index a ++ x = keyPart index b ++ y ↔ a = b ∧ x = y := by
  constructor
  · intro h
    simp only [keyPart, append_assoc, append_cancel_left_eq] at h
    obtain ⟨hsize, hrest⟩ := append_inj h (by simp)
    have hlen : a.length = b.length := by
      have h := congrArg (fun l => (readUint64 (l ++ [])).toNat) hsize
      simpa only [sizeBytes_toNat ha, sizeBytes_toNat hb] using h
    exact append_inj hrest hlen
  · rintro ⟨rfl, rfl⟩
    rfl

theorem joinParts_inj {values' : List Bytes} (hlen : values.length = keyColumns.length)
    (hlen' : values'.length = keyColumns.length) (hshort : ∀ b ∈ values, b.length < 2 ^ 64)
    (hshort' : ∀ b ∈ values', b.length < 2 ^ 64) :
    joinParts keyColumns values = joinParts keyColumns values' ↔ values = values' := by
  induction keyColumns generalizing values values' with
  | nil => simp [length_eq_zero_iff.mp hlen, length_eq_zero_iff.mp hlen']
  | cons index rest ih =>
    obtain ⟨a, values, rfl⟩ := exists_cons_of_length_eq_add_one hlen
    obtain ⟨b, values', rfl⟩ := exists_cons_of_length_eq_add_one hlen'
    simp only [forall_mem_cons] at hshort hshort'
    rw [joinParts_cons, joinParts_cons, keyPart_append_inj hshort.1 hshort'.1,
      ih (by simpa using hlen) (by simpa using hlen') hshort.2 hshort'.2, List.cons.injEq]

/-! ## Stored values -/

/-- The bytes of some columns of a stored row, none when one of them is NULL or cut off. -/
def storedKeyValues (table : LiteTableDef) (keyColumns : List Nat) (encoded : Bytes) :
    Option (List Bytes) :=
  match openRow table encoded with
  | .error _ => none
  | .ok (columns, row) => keyColumns.mapM fun index =>
      match columns[index]? with
      | none => none
      | some col => if storedColumnIsNull row col then none else (storedKeyBytes row col).toOption

theorem storedKeyValues_eq_some : storedKeyValues table keyColumns encoded = some values ↔
      ∃ columns row, openRow table encoded = .ok (columns, row) ∧
        Forall₂ (ReadsAs columns row) keyColumns values := by
  have hread : ∀ columns row index bytes, (match columns[index]? with
      | none => none
      | some col => if storedColumnIsNull row col then none
        else (storedKeyBytes row col).toOption) = some bytes ↔
      ReadsAs columns row index bytes := by
    intro columns row index bytes
    unfold ReadsAs
    cases columns[index]? with
    | none => simp
    | some col => cases hbytes : storedKeyBytes row col <;> simp [Except.toOption, hbytes]
  unfold storedKeyValues
  cases hopen : openRow table encoded with
  | error e => simp
  | ok opened =>
    simp only [mapM_eq_some, hread, Except.ok.injEq]
    constructor
    · exact fun h => ⟨opened.1, opened.2, rfl, h⟩
    · rintro ⟨columns, row, rfl, h⟩
      exact h

theorem storedKeyValues_length (h : storedKeyValues table keyColumns encoded = some values) :
    values.length = keyColumns.length := by
  obtain ⟨columns, row, -, hvalues⟩ := storedKeyValues_eq_some.mp h
  exact hvalues.length_eq.symm

theorem liteBuildPrimaryKey_eq_ok :
    liteBuildPrimaryKey table encoded = .ok key ↔
      table.primaryKeyColumns ≠ [] ∧ ∃ values,
        storedKeyValues table table.primaryKeyColumns encoded = some values ∧
        key = letterP :: sizeBytes table.primaryKeyColumns.length ++
          joinParts table.primaryKeyColumns values ∧ key.length < 2 ^ 63 := by
  unfold liteBuildPrimaryKey
  cases hempty : table.primaryKeyColumns.isEmpty with
  | true => simp_all
  | false =>
    have hne : table.primaryKeyColumns ≠ [] := by simpa using hempty
    simp only [Bool.false_eq_true, if_false, bind_eq_ok, storedKeyValues_eq_some, ne_eq, hne,
      not_false_eq_true, true_and, boundedKey_eq_ok]
    constructor
    · rintro ⟨⟨columns, row⟩, hopen, parts, hparts, hkey, hshort⟩
      cases parts with
      | none => exact absurd hparts (keyParts_ne_none (by simp))
      | some parts =>
        obtain ⟨values, hvalues, rfl⟩ := (keyParts_eq_some (by simp)).mp hparts
        exact ⟨values, ⟨columns, row, hopen, hvalues⟩, hkey, hshort⟩
    · rintro ⟨values, ⟨columns, row, hopen, hvalues⟩, hkey, hshort⟩
      exact ⟨(columns, row), hopen, some (joinParts table.primaryKeyColumns values),
        (keyParts_eq_some (by simp)).mpr ⟨values, hvalues, rfl⟩, hkey, hshort⟩

/-! ## The keys of a canonical row -/

theorem alignTo_four (n : Nat) : alignTo n 4 % 4 = 0 := by
  unfold alignTo sizeT
  split
  · omega
  split
  · omega
  · omega

theorem adjustDataLength_eq (h : computeLayout table = .ok (columns, rowLen)) :
    adjustDataLength rowLen = rowLen % 2 ^ 32 := by
  simp only [computeLayout, bind_eq_ok, Except.ok.injEq, Prod.mk.injEq] at h
  obtain ⟨mapped, -, -, hlen⟩ := h
  have hmod : rowLen % 4 = 0 := by
    rw [← hlen]
    exact alignTo_four _
  have halign : rowAlignment = 4 := rfl
  unfold adjustDataLength
  rw [halign]
  dsimp only
  split <;> omega

/-- What a field becomes in the row. -/
def StoredAs {β : Type} (cellOf : LiteStoredColumn → β → Except String Cell)
    (columns : List LiteStoredColumn) (entry : Nat × β) (value : Bytes) : Prop :=
  ∃ col bytes, columns[entry.1]? = some col ∧ cellOf col entry.2 = .ok (some bytes) ∧
    value = cellContent col (some bytes)

theorem openRow_magic (h : computeLayout table = .ok (columns, rowLen)) (row : Bytes) :
    openRow table (liteBinaryRowMagic ++ row) =
      if row.isEmpty && rowLen > 0 then .error "truncated lite binary row payload"
      else .ok (columns, row) := by
  have hstored : storedRowOf (liteBinaryRowMagic ++ row) "invalid lite binary row payload" =
      .ok row := by
    unfold storedRowOf
    rw [if_pos (by simp), drop_left]
  unfold openRow
  rw [hstored, h]
  rfl

theorem LiteTableDef.Addressable.bits {columns : List LiteStoredColumn} {rowLen : Nat}
    (ha : table.Addressable) (hlayout : computeLayout table = .ok (columns, rowLen)) :
    (columns.filter (·.nullable)).length ≤ 2 ^ 15 := by
  unfold LiteTableDef.Addressable at ha
  simp only [hlayout] at ha
  exact ha.2

/-- The values that the key readers find in a row of cells. -/
theorem encodeCells_values (ha : table.Addressable)
    (hlayout : computeLayout table = .ok (columns, rowLen))
    (hfits : ∀ col field cell, col.toMappedType.Exact → cellOf col field = .ok cell →
      CellFits col cell) (hdistinct : keyColumns.Nodup)
    (hlen : fields.length = keyColumns.length)
    (h : encodeCells table outOfRange cellOf keyColumns fields = .ok encoded)
    (hvalues : storedKeyValues table keyColumns encoded = some values) :
    Forall₂ (StoredAs cellOf columns) (keyColumns.zip fields) values := by
  obtain ⟨first, hp⟩ := computeLayout_placed hlayout ha
  have hbits := ha.bits hlayout
  have hexact := computeLayout_exact hlayout
  have hcut : rowLen % 2 ^ 32 ≤ rowLen := Nat.mod_le _ _
  simp only [encodeCells, hlayout, ok_bind, bind_eq_ok, writeCells_eq_ok, Except.ok.injEq] at h
  obtain ⟨_, ⟨pairs, hpairs, rfl⟩, rfl⟩ := h
  obtain ⟨hrowLen, hholds⟩ := cells_hold hp hbits hdistinct hpairs
    fun col hcol field cell => hfits col field cell (hexact col hcol)
  generalize pairs.foldl (fun r p => storeCell r p.1 p.2)
    (initializeCanonicalRow columns rowLen) = row at hrowLen hholds hvalues
  rw [adjustDataLength_eq hlayout] at hvalues
  obtain ⟨_, _, hopen, hreads⟩ := storedKeyValues_eq_some.mp hvalues
  rw [openRow_magic hlayout] at hopen
  split at hopen
  · cases hopen
  cases hopen
  refine forall₂_imp_mem (fun entry hentry value => ?_) ((forall₂_zip_iff hlen).mp hreads)
  rintro ⟨col, hcol, hnull, hvalue⟩
  obtain ⟨⟨col', cell⟩, hmem, hcol', hcell⟩ := forall₂_exists_right hpairs hentry
  obtain rfl : col = col' := Option.some.inj (hcol.symm.trans hcol')
  have hc : col ∈ columns := mem_of_getElem? hcol
  obtain ⟨hcontent, hinside⟩ :=
    (storedKeyBytes_take hp hc hrowLen hcut (hholds _ hmem)).mp hvalue
  rw [storedColumnIsNull_take hp hc hrowLen hcut (hholds _ hmem) hbits (by omega)] at hnull
  cases cell with
  | none => cases hnull
  | some bytes => exact ⟨col, bytes, hcol, hcell, hcontent⟩

end litestore
