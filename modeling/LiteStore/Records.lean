-- The records of a table. A row stands in a base record under its row key, in
-- one `U` record for each unique constraint and in one `I` record for each
-- secondary index. Journal markers stand in `J` records.
import LiteStore.RowKeys

namespace litestore

open checked List

/-- The records of one table. -/
abbrev RecordMap := Std.ExtTreeMap Bytes Bytes compare

/-! ## Values of base records -/

def liteRowFormatVersion : UInt8 := 1

def encodeRowValue (row : Row) : Bytes :=
  liteRowFormatVersion :: sizeBytes row.bytes.length ++ row.bytes

/-- A piece of a value, as a row. -/
def toRow (bytes : Bytes) : Except String Row :=
  if h : bytes.length < 2 ^ 63 then .ok ⟨bytes, h⟩ else .error "basic_string::append"

/-- The sum of the offset and the length wraps around as `uint64_t` does. -/
def decodeRowValue (value : Bytes) : Except String Row :=
  match value with
  | [] => .error "invalid lite row format"
  | version :: rest =>
    if value.length < 9 ∨ version ≠ liteRowFormatVersion then .error "invalid lite row format"
    else
      let len := readUint64 rest
      if (9 + len).toNat > value.length then .error "truncated lite row value"
      else toRow ((rest.drop 8).take len.toNat)

theorem decodeRowValue_encodeRowValue (row : Row) :
    decodeRowValue (encodeRowValue row) = .ok row := by
  have hlen : (UInt64.ofNat row.bytes.length).toNat = row.bytes.length := by
    rw [UInt64.toNat_ofNat', Nat.mod_eq_of_lt (by have := row.short; omega)]
  have hsum : (9 + UInt64.ofNat row.bytes.length).toNat = 9 + row.bytes.length := by
    rw [UInt64.toNat_add, hlen]
    have := row.short
    simp
    omega
  have htake : ((sizeBytes row.bytes.length ++ row.bytes).drop 8).take row.bytes.length
      = row.bytes := by
    rw [drop_left' (by simp), take_length]
  simp only [decodeRowValue, encodeRowValue, cons_append, length_cons,
    length_append, sizeBytes_length, ne_eq, not_true_eq_false, or_false]
  rw [if_neg (by omega)]
  simp only [sizeBytes, readUint64_uint64Bytes_append, hsum, hlen]
  rw [if_neg (by omega)]
  simp only [sizeBytes] at htake
  simp only [htake, toRow, row.short, dite_true]

/-- Different rows have different base records. -/
theorem encodeRowValue_inj {r s : Row} (h : encodeRowValue r = encodeRowValue s) : r = s := by
  have hr := decodeRowValue_encodeRowValue r
  rw [h, decodeRowValue_encodeRowValue] at hr
  exact (Except.ok.inj hr).symm

/-! ## Index entries -/

structure LitePhysicalIndexEntry where
  key : Bytes
  rowKey : Bytes
  value : Bytes
  unique : Bool
deriving DecidableEq

def coveringMagic : Bytes := [76, 84, 73, 86, 49]

def encodeCoveringIndexValue (rowKey : Bytes) (row : Bytes) : Bytes :=
  coveringMagic ++ sizeBytes rowKey.length ++ rowKey ++ sizeBytes row.length ++ row

/-- The row key of an index value, and the row when the index covers it. -/
def decodeIndexValue (value : Bytes) : Except String (Bytes × Option Bytes) :=
  if !coveringMagic.isPrefixOf value then .ok (value, none)
  else
    let rest := value.drop 5
    if rest.length < 8 then .error "truncated lite covering index row key"
    else
      let rowKeyLen := (readUint64 rest).toNat
      let afterLen := rest.drop 8
      if rowKeyLen > afterLen.length then .error "truncated lite covering index row key"
      else
        let afterKey := afterLen.drop rowKeyLen
        if afterKey.length < 8 then .error "truncated lite covering index row payload"
        else
          let rowLen := (readUint64 afterKey).toNat
          if rowLen ≠ (afterKey.drop 8).length then
            .error "truncated lite covering index row payload"
          else .ok (afterLen.take rowKeyLen, some (afterKey.drop 8))

variable {rowKey row : Bytes} {constraints : List (List Nat)} {ordinal : Nat} {records : RecordMap}

/-- A covering value gives back the row key and the row. -/
theorem decodeIndexValue_covering (hkey : rowKey.length < 2 ^ 63) (hrow : row.length < 2 ^ 63) :
    decodeIndexValue (encodeCoveringIndexValue rowKey row) = .ok (rowKey, some row) := by
  have hmagic : coveringMagic.isPrefixOf (encodeCoveringIndexValue rowKey row) = true := by
    rw [ isPrefixOf_iff_prefix, encodeCoveringIndexValue]
    simp only [append_assoc]
    exact prefix_append _ _
  have hdrop : (encodeCoveringIndexValue rowKey row).drop 5 =
      sizeBytes rowKey.length ++ (rowKey ++ (sizeBytes row.length ++ row)) := by
    rw [encodeCoveringIndexValue]
    simp only [append_assoc]
    exact drop_left' rfl
  have hlen : ∀ {n : Nat} (rest : Bytes), n < 2 ^ 63 →
      (readUint64 (sizeBytes n ++ rest)).toNat = n := fun rest hn => sizeBytes_toNat (by omega) rest
  unfold decodeIndexValue
  simp only [hmagic, Bool.not_true, Bool.false_eq_true, if_false, hdrop, hlen _ hkey]
  rw [if_neg (by simp), drop_left' (sizeBytes_length _), if_neg (by simp),
    drop_left' rfl, if_neg (by simp), hlen _ hrow, drop_left' (sizeBytes_length _),
    if_neg (by simp), take_left' rfl]

/-- A bare row key gives back itself, or nothing. -/
theorem decodeIndexValue_bare {key : Bytes} {row : Option Bytes}
    (hshape : rowKey.length = 8 ∨ rowKey.head? = some letterP)
    (h : decodeIndexValue rowKey = .ok (key, row)) : key = rowKey := by
  unfold decodeIndexValue at h
  split at h
  · cases h
    rfl
  · rename_i hmagic
    simp only [Bool.not_eq_true, Bool.not_eq_false', isPrefixOf_iff_prefix] at hmagic
    obtain ⟨rest, rfl⟩ := hmagic
    rcases hshape with hlen | hhead
    · -- eight bytes that start with the magic bytes are too short for a covering value
      have hrest : rest.length = 3 := by
        simp [coveringMagic] at hlen
        omega
      simp [coveringMagic, hrest] at h
    · simp [coveringMagic, letterP] at hhead

/-- The entry of a row in one index; none when the index has no entry for it. -/
def buildSecondaryIndexEntry (table : LiteTableDef) (index : LiteIndexDef) (row rowKey : Bytes) :
    Except String (Option LitePhysicalIndexEntry) := do
  let columnKey ← (if index.keyEncodingVersion ≥ 2 then do
      let (payload, containsNull) ← liteBuildOrderedSecondaryKeyPayload table index row
      .ok (some (payload, containsNull))
    else do
      let key ← liteBuildUniqueKey table row index.keyColumns 0
      -- the letter and the ordinal in front of a unique key do not count here
      .ok (key.map fun k => (k.drop 9, false)) : Except String (Option (Bytes × Bool)))
  .ok (columnKey.map fun (payload, containsNull) =>
    { key := letterI :: uint64Bytes index.objectUid ++ payload ++
        (if !index.unique || containsNull then letterR :: sizeBytes rowKey.length ++ rowKey
         else []),
      rowKey := rowKey,
      value := if index.keyEncodingVersion ≥ 4 then encodeCoveringIndexValue rowKey row
        else rowKey,
      unique := index.unique && !containsNull })

variable {table : LiteTableDef}

/-- An entry starts with its letter and the uid of its index, and its value follows from
the row. -/
theorem buildSecondaryIndexEntry_shape {index : LiteIndexDef} {entry : LitePhysicalIndexEntry}
    (h : buildSecondaryIndexEntry table index row rowKey = .ok (some entry)) :
    (∃ rest, entry.key = letterI :: uint64Bytes index.objectUid ++ rest) ∧
      entry.rowKey = rowKey ∧
      entry.value = (if index.keyEncodingVersion ≥ 4 then encodeCoveringIndexValue rowKey row
        else rowKey) := by
  unfold buildSecondaryIndexEntry at h
  simp only [bind_eq_ok, Except.ok.injEq, Option.map_eq_some_iff] at h
  obtain ⟨columnKey, -, ⟨payload, containsNull⟩, -, rfl⟩ := h
  refine ⟨⟨payload ++ (if !index.unique || containsNull then
    letterR :: sizeBytes rowKey.length ++ rowKey else []), ?_⟩, rfl, rfl⟩
  simp only [append_assoc, cons_append]

/-- The entries of a row in the indexes, in the order of the indexes. -/
def indexEntriesOf (table : LiteTableDef) (row rowKey : Bytes) :
    List LiteIndexDef → Except String (List LitePhysicalIndexEntry)
  | [] => .ok []
  | index :: rest => do
    let entry ← buildSecondaryIndexEntry table index row rowKey
    let entries ← indexEntriesOf table row rowKey rest
    .ok (entry.toList ++ entries)

def buildSecondaryIndexEntries (table : LiteTableDef) (row rowKey : Bytes) :
    Except String (List LitePhysicalIndexEntry) :=
  indexEntriesOf table row rowKey table.secondaryIndexes

theorem mem_indexEntriesOf {indexes : List LiteIndexDef} {entries : List LitePhysicalIndexEntry}
    (h : indexEntriesOf table row rowKey indexes = .ok entries) (entry : LitePhysicalIndexEntry) :
    entry ∈ entries ↔
      ∃ index ∈ indexes, buildSecondaryIndexEntry table index row rowKey = .ok (some entry) := by
  induction indexes generalizing entries with
  | nil =>
    simp only [indexEntriesOf, Except.ok.injEq] at h
    subst h
    simp
  | cons index rest ih =>
    simp only [indexEntriesOf, bind_eq_ok, Except.ok.injEq] at h
    obtain ⟨built, hbuilt, others, hothers, rfl⟩ := h
    rw [mem_append, ih hothers, Option.mem_toList]
    simp only [mem_cons, exists_eq_or_imp, hbuilt, Except.ok.injEq]

/-- The text that refuses an index entry whose key is taken. -/
def duplicateIndexMessage (entry : LitePhysicalIndexEntry) : String :=
  if entry.unique then "duplicate lite unique index key" else "duplicate lite secondary index key"

/-! ## Unique keys -/

/-- The unique keys of a row, counting the constraints from `ordinal` on. -/
def uniqueKeysFrom (table : LiteTableDef) (row : Bytes) :
    List (List Nat) → Nat → Except String (List Bytes)
  | [], _ => .ok []
  | columns :: rest, ordinal => do
    let key ← liteBuildUniqueKey table row columns ordinal
    let keys ← uniqueKeysFrom table row rest (ordinal + 1)
    .ok (key.toList ++ keys)

/-- The keys of a row in the unique constraints of its table. -/
def uniqueKeysOf (table : LiteTableDef) (row : Bytes) : Except String (List Bytes) :=
  uniqueKeysFrom table row table.uniqueKeyColumns 0

theorem mem_uniqueKeysFrom {keys : List Bytes}
    (h : uniqueKeysFrom table row constraints ordinal = .ok keys) (key : Bytes) :
    key ∈ keys ↔ ∃ i columns, constraints[i]? = some columns ∧
      liteBuildUniqueKey table row columns (ordinal + i) = .ok (some key) := by
  induction constraints generalizing ordinal keys with
  | nil =>
    simp only [uniqueKeysFrom, Except.ok.injEq] at h
    subst h
    simp
  | cons columns rest ih =>
    simp only [uniqueKeysFrom, bind_eq_ok, Except.ok.injEq] at h
    obtain ⟨built, hbuilt, others, hothers, rfl⟩ := h
    rw [mem_append, ih hothers, Option.mem_toList]
    constructor
    · rintro (hb | ⟨i, cols, hi, hk⟩)
      · exact ⟨0, columns, rfl, by rw [Nat.add_zero, hbuilt, hb]⟩
      · exact ⟨i + 1, cols, hi, by rw [← hk]; congr 1; omega⟩
    · rintro ⟨i, cols, hi, hk⟩
      cases i with
      | zero =>
        simp only [getElem?_cons_zero, Option.some.injEq] at hi
        subst hi
        rw [Nat.add_zero, hbuilt] at hk
        exact .inl (Except.ok.inj hk)
      | succ i =>
        exact .inr ⟨i, cols, hi, by rw [← hk]; congr 1; omega⟩

/-- The unique keys of a row differ: each carries the ordinal of its constraint. -/
theorem uniqueKeysFrom_nodup {keys : List Bytes}
    (h : uniqueKeysFrom table row constraints ordinal = .ok keys)
    (hfit : ordinal + constraints.length ≤ 2 ^ 64) : keys.Nodup := by
  induction constraints generalizing ordinal keys with
  | nil =>
    simp only [uniqueKeysFrom, Except.ok.injEq] at h
    subst h
    exact nodup_nil
  | cons columns rest ih =>
    simp only [uniqueKeysFrom, bind_eq_ok, Except.ok.injEq] at h
    obtain ⟨built, hbuilt, others, hothers, rfl⟩ := h
    simp only [length_cons] at hfit
    rw [nodup_append]
    refine ⟨?_, ih hothers (by omega), ?_⟩
    · cases built <;> simp
    · intro a ha b hb hab
      subst hab
      rw [Option.mem_toList] at ha
      cases ha
      obtain ⟨r1, h1⟩ := liteBuildUniqueKey_shape hbuilt
      obtain ⟨i, cols, hi, hk⟩ := (mem_uniqueKeysFrom hothers _).mp hb
      obtain ⟨r2, h2⟩ := liteBuildUniqueKey_shape hk
      have hlt : i < rest.length := (List.getElem?_eq_some_iff.mp hi).1
      rw [h1] at h2
      have hord := (uint64Bytes_append_inj (List.cons.inj h2).2).1
      have hnat := congrArg UInt64.toNat hord
      rw [UInt64.toNat_ofNat', UInt64.toNat_ofNat', Nat.mod_eq_of_lt (by omega),
        Nat.mod_eq_of_lt (by omega)] at hnat
      omega

/-! ## `buildRowRecords` -/

/-- The loop over the unique constraints: it builds a key and inserts it. -/
def addUniqueRecords (table : LiteTableDef) (row rowKey : Bytes) :
    List (List Nat) → Nat → RecordMap → Except String RecordMap
  | [], _, records => .ok records
  | columns :: rest, ordinal, records => do
    match ← liteBuildUniqueKey table row columns ordinal with
    | none => addUniqueRecords table row rowKey rest (ordinal + 1) records
    | some key =>
      if key ∈ records then .error "duplicate lite unique key"
      else addUniqueRecords table row rowKey rest (ordinal + 1) (records.insert key rowKey)

theorem addUniqueRecords_eq_ok {records' : RecordMap} :
    addUniqueRecords table row rowKey constraints ordinal records = .ok records' ↔
      ∃ keys, uniqueKeysFrom table row constraints ordinal = .ok keys ∧ keys.Nodup ∧
        (∀ k ∈ keys, records[k]? = none) ∧
        records' = putAll records (keys.map fun k => (k, rowKey)) := by
  induction constraints generalizing ordinal records with
  | nil =>
    simp only [addUniqueRecords, uniqueKeysFrom, Except.ok.injEq]
    constructor
    · rintro rfl
      exact ⟨[], rfl, nodup_nil, by simp, rfl⟩
    · rintro ⟨keys, rfl, -, -, rfl⟩
      rfl
  | cons columns rest ih =>
    simp only [addUniqueRecords, uniqueKeysFrom, bind_eq_ok]
    cases hbuilt : liteBuildUniqueKey table row columns ordinal with
    | error e => simp
    | ok built =>
      cases built with
      | none => simp [ih]
      | some key =>
        simp only [Except.ok.injEq]
        by_cases hmem : key ∈ records
        · constructor
          · rintro ⟨a, rfl, h⟩
            simp [hmem] at h
          · rintro ⟨keys, ⟨a, rfl, others, -, rfl⟩, -, hfree, -⟩
            exact absurd hmem (not_mem_iff_getElem?.mpr (hfree _ (by simp)))
        · constructor
          · rintro ⟨a, rfl, h⟩
            simp only [hmem, if_false] at h
            obtain ⟨others, hothers, hnd, hfree, rfl⟩ := ih.mp h
            refine ⟨key :: others, ⟨some key, rfl, others, hothers, rfl⟩, ?_, ?_, rfl⟩
            · refine nodup_cons.mpr ⟨fun hin => ?_, hnd⟩
              have hk := hfree key hin
              rw [getElem?_insert_eq, if_pos rfl] at hk
              simp at hk
            · intro k hk
              rcases mem_cons.mp hk with rfl | hk
              · exact not_mem_iff_getElem?.mp hmem
              · have hk' := hfree k hk
                rw [getElem?_insert_eq] at hk'
                split at hk'
                · simp at hk'
                · exact hk'
          · rintro ⟨keys, ⟨a, rfl, others, hothers, rfl⟩, hnd, hfree, rfl⟩
            refine ⟨some key, rfl, ?_⟩
            simp only [hmem, if_false]
            simp only [Option.toList_some, singleton_append, nodup_cons] at hnd
            refine ih.mpr ⟨others, hothers, hnd.2, fun k hk => ?_, rfl⟩
            have hne : key ≠ k := by
              rintro rfl
              exact hnd.1 hk
            rw [getElem?_insert_eq, if_neg hne]
            exact hfree k (by simp [hk])

/-- The records of a row, inserted beside other records. -/
def addRowRecords (message : LitePhysicalIndexEntry → String) (table : LiteTableDef) (row : Row)
    (rowKey : Bytes) (records : RecordMap) : Except String RecordMap := do
  let withUnique ← addUniqueRecords table row.bytes rowKey table.uniqueKeyColumns 0
    (records.insert rowKey (encodeRowValue row))
  let entries ← buildSecondaryIndexEntries table row.bytes rowKey
  putAllNew (fun e => (e.key, e.value)) message withUnique entries

def buildRowRecords (table : LiteTableDef) (row : Row) (rowKey : Bytes) :
    Except String RecordMap :=
  addRowRecords duplicateIndexMessage table row rowKey ∅

/-- The records of a row, given its unique keys and its index entries. -/
def recordEntries (row : Row) (rowKey : Bytes) (keys : List Bytes)
    (entries : List LitePhysicalIndexEntry) : List (Bytes × Bytes) :=
  (rowKey, encodeRowValue row) :: keys.map (fun k => (k, rowKey)) ++
    entries.map fun e => (e.key, e.value)

theorem recordEntries_names (row : Row) (rowKey : Bytes) (keys : List Bytes)
    (entries : List LitePhysicalIndexEntry) :
    (recordEntries row rowKey keys entries).map Prod.fst =
      rowKey :: keys ++ entries.map (·.key) := by
  simp [recordEntries, map_map, Function.comp_def]

/-- The records fit beside other records when they can be built, no two have one key and
no key is taken. -/
theorem addRowRecords_eq_ok {message : LitePhysicalIndexEntry → String} {row : Row}
    {records' : RecordMap} (hfree : records[rowKey]? = none) :
    addRowRecords message table row rowKey records = .ok records' ↔
      ∃ keys entries, uniqueKeysOf table row.bytes = .ok keys ∧
        buildSecondaryIndexEntries table row.bytes rowKey = .ok entries ∧
        ((recordEntries row rowKey keys entries).map Prod.fst).Nodup ∧
        (∀ k ∈ (recordEntries row rowKey keys entries).map Prod.fst, records[k]? = none) ∧
        records' = putAll records (recordEntries row rowKey keys entries) := by
  have hbase : ∀ k : Bytes, (records.insert rowKey (encodeRowValue row))[k]? = none ↔
      rowKey ≠ k ∧ records[k]? = none := by
    intro k
    rw [getElem?_insert_eq]
    by_cases h : rowKey = k <;> simp [h]
  have hafter : ∀ (keys : List Bytes) (k : Bytes), keys.Nodup →
      ((putAll (records.insert rowKey (encodeRowValue row))
        (keys.map fun u => (u, rowKey)))[k]? = none ↔
        (rowKey ≠ k ∧ records[k]? = none) ∧ k ∉ keys) := by
    intro keys k hnd
    by_cases hk : k ∈ keys
    · have hfound : (putAll (records.insert rowKey (encodeRowValue row))
          (keys.map fun u => (u, rowKey)))[k]? = some rowKey :=
        putAll_of_mem (by simpa [map_map, Function.comp_def] using hnd)
          (mem_map.mpr ⟨k, hk, rfl⟩)
      simp [hfound, hk]
    · rw [putAll_of_notMem (by simpa [map_map, Function.comp_def] using hk), hbase]
      simp [hk]
  have hsplit : ∀ keys entries, putAll records (recordEntries row rowKey keys entries) =
      putAll (putAll (records.insert rowKey (encodeRowValue row))
        (keys.map fun k => (k, rowKey))) (entries.map fun e => (e.key, e.value)) := by
    intro keys entries
    rw [recordEntries, cons_append, putAll_cons, putAll_append]
  unfold addRowRecords uniqueKeysOf
  simp only [bind_eq_ok, addUniqueRecords_eq_ok, putAllNew_eq_ok, recordEntries_names]
  constructor
  · rintro ⟨mid, ⟨keys, hkeys, hnd, hkfree, rfl⟩, entries, hentries, hend, hefree, rfl⟩
    have hk := fun u hu => (hbase u).mp (hkfree u hu)
    have he := fun e hin => (hafter keys (e : LitePhysicalIndexEntry).key hnd).mp (hefree e hin)
    refine ⟨keys, entries, hkeys, hentries, ?_, ?_, (hsplit _ _).symm⟩
    · rw [nodup_append, nodup_cons]
      refine ⟨⟨fun h => (hk _ h).1 rfl, hnd⟩, hend, ?_⟩
      intro a ha b hb hab
      subst hab
      obtain ⟨e, hin, rfl⟩ := mem_map.mp hb
      rcases mem_cons.mp ha with h | h
      · exact (he e hin).1.1 h.symm
      · exact (he e hin).2 h
    · intro k hin
      rcases mem_append.mp hin with h | h
      · rcases mem_cons.mp h with rfl | h
        · exact hfree
        · exact (hk k h).2
      · obtain ⟨e, hmem, rfl⟩ := mem_map.mp h
        exact (he e hmem).1.2
  · rintro ⟨keys, entries, hkeys, hentries, hnd, hnone, rfl⟩
    rw [nodup_append, nodup_cons] at hnd
    obtain ⟨⟨hnot, hndk⟩, hnde, hsep⟩ := hnd
    have hne : ∀ u ∈ keys, rowKey ≠ u := fun u hu h => hnot (h ▸ hu)
    refine ⟨_, ⟨keys, hkeys, hndk, fun u hu => ?_, rfl⟩, entries, hentries, hnde, fun e he => ?_,
      hsplit _ _⟩
    · exact (hbase u).mpr ⟨hne u hu,
        hnone u (mem_append_left _ (mem_cons_of_mem _ hu))⟩
    · have hmem : e.key ∈ entries.map (·.key) := mem_map.mpr ⟨e, he, rfl⟩
      rw [hafter keys e.key hndk]
      exact ⟨⟨fun h => hsep rowKey mem_cons_self e.key hmem h,
        hnone e.key (mem_append_right _ hmem)⟩,
        fun h => hsep e.key (mem_cons_of_mem _ h) e.key hmem rfl⟩

/-- The key of a row: its primary key, or its row id. -/
def rowStorageKey (table : LiteTableDef) (row : LiteRow) : Except String Bytes :=
  if table.keyless then .ok (uint64Bytes row.rowId) else liteBuildPrimaryKey table row.value.bytes

/-! ## Scans -/

/-- A key that a scan of rows does not skip. -/
def isBaseKey : Bytes → Bool
  | [] => true
  | letter :: _ => letter ≠ letterU && letter ≠ letterI && letter ≠ letterJ

/-- The key of the marker that a replayed journal leaves in a table. -/
def isJournalMarker (key : Bytes) : Bool := key.length = 9 && key.head? = some letterJ

def rowOfRecord (record : Bytes × Bytes) : Except String LiteRow := do
  let value ← decodeRowValue record.2
  .ok ⟨if record.1.length = 8 then readUint64 record.1 else 0, value⟩

/-- `LiteRocksDBStore::scanRows`: the base records in the order of their keys. -/
def storedRows (records : RecordMap) : Except String (List LiteRow) :=
  (records.toList.filter fun record => isBaseKey record.1).mapM rowOfRecord

/-! ## What the records depend on -/

section Congr

variable {table' : LiteTableDef} (hcolumns : table'.columns = table.columns)

include hcolumns

theorem buildSecondaryIndexEntry_congr (index : LiteIndexDef) (row rowKey : Bytes) :
    buildSecondaryIndexEntry table' index row rowKey =
      buildSecondaryIndexEntry table index row rowKey := by
  unfold buildSecondaryIndexEntry
  rw [liteBuildOrderedSecondaryKeyPayload_congr hcolumns, liteBuildUniqueKey_congr hcolumns]

theorem indexEntriesOf_congr (indexes : List LiteIndexDef) (row rowKey : Bytes) :
    indexEntriesOf table' row rowKey indexes = indexEntriesOf table row rowKey indexes := by
  induction indexes with
  | nil => rfl
  | cons index rest ih =>
    simp only [indexEntriesOf, buildSecondaryIndexEntry_congr hcolumns, ih]

theorem uniqueKeysFrom_congr (row : Bytes) (constraints : List (List Nat)) (ordinal : Nat) :
    uniqueKeysFrom table' row constraints ordinal = uniqueKeysFrom table row constraints ordinal := by
  induction constraints generalizing ordinal with
  | nil => rfl
  | cons columns rest ih =>
    simp only [uniqueKeysFrom, liteBuildUniqueKey_congr hcolumns, ih]

theorem uniqueKeysOf_congr (hunique : table'.uniqueKeyColumns = table.uniqueKeyColumns)
    (row : Bytes) : uniqueKeysOf table' row = uniqueKeysOf table row := by
  unfold uniqueKeysOf
  rw [hunique, uniqueKeysFrom_congr hcolumns]

theorem addUniqueRecords_congr (row rowKey : Bytes) (constraints : List (List Nat))
    (ordinal : Nat) (records : RecordMap) :
    addUniqueRecords table' row rowKey constraints ordinal records =
      addUniqueRecords table row rowKey constraints ordinal records := by
  induction constraints generalizing ordinal records with
  | nil => rfl
  | cons columns rest ih =>
    simp only [addUniqueRecords, liteBuildUniqueKey_congr hcolumns, ih]

theorem rowStorageKey_congr (hprimary : table'.primaryKeyColumns = table.primaryKeyColumns)
    (row : LiteRow) : rowStorageKey table' row = rowStorageKey table row := by
  unfold rowStorageKey LiteTableDef.keyless
  rw [hprimary, liteBuildPrimaryKey_congr hcolumns hprimary]

end Congr

end litestore
