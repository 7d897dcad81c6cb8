-- The image of a table: the records that its rows should have. The invariant
-- of the store is that the records of a table, journal markers apart, are the
-- image of its rows and that no two rows claim one key.
import LiteStore.Records
import LiteStore.Lib.RowImage

namespace litestore

open Std (ExtTreeMap)
open checked rowimage List

/-! ## The records of one row -/

/-- The records of a row under its own key. -/
def rowRecords (table : LiteTableDef) (row : LiteRow) : Except String RecordMap := do
  let key ← rowStorageKey table row
  buildRowRecords table row.value key

/-- The records of a row; none when they cannot be built. -/
def ownRecords (table : LiteTableDef) (row : LiteRow) : RecordMap :=
  match rowRecords table row with
  | .ok own => own
  | .error _ => ∅

/-- The value that a row gives to a key. -/
def recordAt (table : LiteTableDef) (row : LiteRow) (key : Bytes) : Option Bytes :=
  (ownRecords table row)[key]?

/-- The records of a table, journal markers apart. -/
def dataRecord (records : RecordMap) (key : Bytes) : Option Bytes :=
  if isJournalMarker key then none else records[key]?

/-- The rows that a scan finds have records, and the table holds those records and no
other. No two rows share a primary key, a unique key or an index key. -/
def TableImage (table : LiteTableDef) (records : RecordMap) : Prop :=
  ∃ rows, storedRows records = .ok rows ∧
    (∀ row ∈ rows, ∃ own, rowRecords table row = .ok own) ∧
    IsImage (recordAt table) rows (dataRecord records)

/-! ## Which keys a row owns -/

variable {table table' : LiteTableDef} {row : LiteRow} {key k v : Bytes} {records : RecordMap}
  {keys : List Bytes} {rows out : List LiteRow}

section

variable (h : rowStorageKey table row = .ok key)

include h

/-- The key of a row: eight bytes of row id, or a primary key. -/
theorem rowStorageKey_shape :
    (table.keyless = true ∧ key = uint64Bytes row.rowId) ∨
      (table.keyless = false ∧ key.head? = some letterP ∧ 9 ≤ key.length ∧
        key.length < 2 ^ 63) := by
  unfold rowStorageKey at h
  cases hk : table.keyless with
  | true =>
    rw [hk, if_pos rfl] at h
    exact .inl ⟨rfl, (Except.ok.inj h).symm⟩
  | false =>
    rw [hk, if_neg (by simp)] at h
    exact .inr ⟨rfl, liteBuildPrimaryKey_shape h⟩

theorem rowStorageKey_not_marker : isJournalMarker key = false := by
  rcases rowStorageKey_shape h with ⟨-, rfl⟩ | ⟨-, hhead, -⟩
  · simp [isJournalMarker]
  · simp [isJournalMarker, hhead, letterP, letterJ]

/-- Neither a row id nor a primary key starts with the letter of another record. -/
theorem rowStorageKey_not_letter :
    ¬ (key.length ≠ 8 ∧ (key.head? = some letterU ∨ key.head? = some letterI)) := by
  rintro ⟨hlen, hletter⟩
  rcases rowStorageKey_shape h with ⟨-, rfl⟩ | ⟨-, hhead, -⟩
  · simp at hlen
  · rw [hhead] at hletter
    simp [letterP, letterU, letterI] at hletter

/-- The row of a table is found again from its key and its value. -/
theorem rowOfRecord_of_key (hzero : table.keyless = false → row.rowId = 0) :
    rowOfRecord (key, encodeRowValue row.value) = .ok row := by
  unfold rowOfRecord
  rw [decodeRowValue_encodeRowValue]
  rcases rowStorageKey_shape h with ⟨-, rfl⟩ | ⟨hkeyed, -, hlen, -⟩
  · simp
  · simp only [ok_bind, Except.ok.injEq]
    rw [if_neg (by omega), ← hzero hkeyed]

end

theorem rowRecords_eq_ok :
    rowRecords table row = .ok records ↔
      ∃ key keys entries, rowStorageKey table row = .ok key ∧
        uniqueKeysOf table row.value.bytes = .ok keys ∧
        buildSecondaryIndexEntries table row.value.bytes key = .ok entries ∧
        ((recordEntries row.value key keys entries).map Prod.fst).Nodup ∧
        records = putAll ∅ (recordEntries row.value key keys entries) := by
  unfold rowRecords
  simp only [bind_eq_ok, buildRowRecords, addRowRecords_eq_ok ExtTreeMap.getElem?_empty]
  constructor
  · rintro ⟨key, hkey, keys, entries, h1, h2, h3, -, h4⟩
    exact ⟨key, keys, entries, hkey, h1, h2, h3, h4⟩
  · rintro ⟨key, keys, entries, hkey, h1, h2, h3, h4⟩
    exact ⟨key, hkey, keys, entries, h1, h2, h3, by simp, h4⟩

theorem ownRecords_of_ok {own : RecordMap} (h : rowRecords table row = .ok own) :
    ownRecords table row = own := by
  unfold ownRecords
  rw [h]

/-- The records of a row, one by one. -/
theorem recordAt_eq_some {entries : List LitePhysicalIndexEntry}
    (hkey : rowStorageKey table row = .ok key)
    (hkeys : uniqueKeysOf table row.value.bytes = .ok keys)
    (hentries : buildSecondaryIndexEntries table row.value.bytes key = .ok entries)
    (hnd : ((recordEntries row.value key keys entries).map Prod.fst).Nodup) :
    recordAt table row k = some v ↔ (k, v) ∈ recordEntries row.value key keys entries := by
  have hok := rowRecords_eq_ok.mpr ⟨key, keys, entries, hkey, hkeys, hentries, hnd, rfl⟩
  unfold recordAt
  rw [ownRecords_of_ok hok]
  exact putAll_empty_eq_some hnd

/-- The letter in front of a unique key or an index key. -/
theorem uniqueKey_head {row : Bytes} (h : uniqueKeysOf table row = .ok keys) (hk : k ∈ keys) :
    k.head? = some letterU ∧ k.length ≠ 8 := by
  obtain ⟨i, columns, -, hb⟩ := (mem_uniqueKeysFrom h k).mp hk
  obtain ⟨rest, rfl⟩ := liteBuildUniqueKey_shape hb
  refine ⟨rfl, ?_⟩
  simp
  omega

theorem indexEntry_head {row rowKey : Bytes} {entries : List LitePhysicalIndexEntry}
    {e : LitePhysicalIndexEntry} (h : buildSecondaryIndexEntries table row rowKey = .ok entries)
    (he : e ∈ entries) : e.key.head? = some letterI ∧ e.key.length ≠ 8 := by
  obtain ⟨index, -, hb⟩ := (mem_indexEntriesOf h e).mp he
  obtain ⟨⟨rest, hkey⟩, -⟩ := buildSecondaryIndexEntry_shape hb
  rw [hkey]
  refine ⟨rfl, ?_⟩
  simp
  omega

/-- A row owns its own key, and there it has its base record. -/
theorem recordAt_own_key {own : RecordMap} (hkey : rowStorageKey table row = .ok key)
    (hown : rowRecords table row = .ok own) :
    recordAt table row key = some (encodeRowValue row.value) := by
  obtain ⟨key', keys, entries, hkey', h1, h2, h3, -⟩ := rowRecords_eq_ok.mp hown
  rw [hkey] at hkey'
  cases hkey'
  rw [recordAt_eq_some hkey h1 h2 h3]
  simp [recordEntries]

/-- The other records of a row carry the letter `U` or `I`. -/
theorem recordAt_letter (hkey : rowStorageKey table row = .ok key)
    (h : recordAt table row k = some v) :
    (k = key ∧ v = encodeRowValue row.value) ∨
      (k.length ≠ 8 ∧ (k.head? = some letterU ∨ k.head? = some letterI)) := by
  have hown : ∃ own, rowRecords table row = .ok own := by
    unfold recordAt ownRecords at h
    split at h
    · rename_i own hown
      exact ⟨own, hown⟩
    · simp at h
  obtain ⟨own, hown⟩ := hown
  obtain ⟨key', keys, entries, hkey', h1, h2, h3, -⟩ := rowRecords_eq_ok.mp hown
  rw [hkey] at hkey'
  cases hkey'
  rw [recordAt_eq_some hkey h1 h2 h3] at h
  simp only [recordEntries, cons_append, mem_cons, mem_append, mem_map, Prod.mk.injEq] at h
  rcases h with ⟨rfl, rfl⟩ | ⟨u, hu, rfl, -⟩ | ⟨e, he, rfl, -⟩
  · exact .inl ⟨rfl, rfl⟩
  · have hhead := uniqueKey_head h1 hu
    exact .inr ⟨hhead.2, .inl hhead.1⟩
  · have hhead := indexEntry_head h2 he
    exact .inr ⟨hhead.2, .inr hhead.1⟩

/-- No row owns the key of a journal marker. -/
theorem recordAt_marker (h : isJournalMarker k = true) : recordAt table row k = none := by
  cases hr : rowRecords table row with
  | error e => simp [recordAt, ownRecords, hr]
  | ok own =>
    obtain ⟨key, -, -, hkey, -⟩ := rowRecords_eq_ok.mp hr
    cases hat : recordAt table row k with
    | none => rfl
    | some v =>
      rcases recordAt_letter hkey hat with ⟨rfl, -⟩ | ⟨-, hletter⟩
      · rw [rowStorageKey_not_marker hkey] at h
        simp at h
      · simp only [isJournalMarker, Bool.and_eq_true, decide_eq_true_eq] at h
        rw [h.2] at hletter
        simp [letterJ, letterU, letterI] at hletter

theorem owners_marker (h : isJournalMarker k = true) : owners (recordAt table) rows k = 0 :=
  owners_zero.mpr fun _ _ => recordAt_marker h

theorem not_base_of_letter (h : k.head? = some letterU ∨ k.head? = some letterI) :
    isBaseKey k = false := by
  cases k with
  | nil => simp at h
  | cons b rest =>
    simp only [head?_cons, Option.some.injEq] at h
    rcases h with rfl | rfl
    · simp [isBaseKey]
    · simp [isBaseKey]

theorem base_not_marker (h : isBaseKey k = true) : isJournalMarker k = false := by
  cases k with
  | nil => rfl
  | cons b rest =>
    simp only [isBaseKey, Bool.and_eq_true, decide_eq_true_eq] at h
    simp [isJournalMarker, h.2]

/-! ## Building an image -/

/-- The keys that a row owns are the keys of its records. -/
theorem ownRecords_toList :
    (k, v) ∈ (ownRecords table row).toList ↔ recordAt table row k = some v :=
  ExtTreeMap.mem_toList_iff_getElem?_eq_some

theorem ownRecords_keys_nodup (table : LiteTableDef) (row : LiteRow) :
    ((ownRecords table row).toList.map Prod.fst).Nodup := by
  rw [ExtTreeMap.map_fst_toList_eq_keys]
  exact ExtTreeMap.nodup_keys

/-- The records of one more row, put where its keys are free. -/
theorem isImage_put_row {m : RecordMap} (h : IsImage (recordAt table) rows (fun k => m[k]?))
    (hfree : ∀ k, recordAt table row k ≠ none → m[k]? = none) :
    IsImage (recordAt table) (rows ++ [row])
      (fun k => (putAll m (ownRecords table row).toList)[k]?) := by
  refine h.snoc hfree (fun k v hv => ?_) (fun k hk => ?_)
  · exact putAll_of_mem (ownRecords_keys_nodup table row) (ownRecords_toList.mpr hv)
  · apply putAll_of_notMem
    rw [ExtTreeMap.map_fst_toList_eq_keys, ExtTreeMap.mem_keys]
    exact not_mem_iff_getElem?.mpr hk

theorem isImage_empty (table : LiteTableDef) :
    IsImage (recordAt table) [] (fun k => (∅ : RecordMap)[k]?) := by
  have hnone : (fun k : Bytes => (∅ : RecordMap)[k]?) = fun _ => none := by
    funext k
    simp
  rw [hnone]
  exact isImage_nil _

/-- The image of some rows: the union of their records. -/
def imageOf (table : LiteTableDef) (rows : List LiteRow) : RecordMap :=
  rows.foldl (fun acc row => putAll acc (ownRecords table row).toList) ∅

theorem imageOf_isImage (h : Apart (recordAt table) rows) :
    IsImage (recordAt table) rows (fun k => (imageOf table rows)[k]?) := by
  induction rows using reverseRecOn with
  | nil => exact isImage_empty table
  | append_singleton rows row ih =>
    have himage := ih h.left
    have hstep : imageOf table (rows ++ [row]) =
        putAll (imageOf table rows) (ownRecords table row).toList := by
      simp [imageOf, foldl_append]
    rw [hstep]
    exact isImage_put_row himage (himage.apart_snoc.mp h)

/-! ## Rows behind an image -/

/-- A row that the store can hold: its records can be built, a scan does not skip its
key, and a row of a table with a primary key has row id zero. -/
structure RowBuilt (table : LiteTableDef) (row : LiteRow) : Prop where
  records : ∃ own, rowRecords table row = .ok own
  base : ∀ key, rowStorageKey table row = .ok key → isBaseKey key = true
  numbered : table.keyless = false → row.rowId = 0

/-- The records are the image of these rows, in any order. -/
structure RowsImage (table : LiteTableDef) (rows : List LiteRow) (records : RecordMap) :
    Prop where
  built : ∀ row ∈ rows, RowBuilt table row
  image : IsImage (recordAt table) rows (dataRecord records)

theorem RowBuilt.storageKey (h : RowBuilt table row) :
    ∃ key, rowStorageKey table row = .ok key := by
  obtain ⟨own, hown⟩ := h.records
  obtain ⟨key, -, -, hkey, -⟩ := rowRecords_eq_ok.mp hown
  exact ⟨key, hkey⟩

section

variable (h : RowsImage table rows records)

include h

/-- A row of the image stands in its base record. -/
theorem RowsImage.stored (hrow : row ∈ rows) (hkey : rowStorageKey table row = .ok key) :
    records[key]? = some (encodeRowValue row.value) := by
  obtain ⟨own, hown⟩ := (h.built row hrow).records
  have hat := (h.image.holds key _).mpr ⟨row, hrow, recordAt_own_key hkey hown⟩
  unfold dataRecord at hat
  rw [rowStorageKey_not_marker hkey] at hat
  simpa using hat

/-- A base record of the table is the record of a row of the image. -/
theorem RowsImage.row_of_base (hbase : isBaseKey k = true) (hk : records[k]? = some v) :
    ∃ row ∈ rows, rowStorageKey table row = .ok k ∧ v = encodeRowValue row.value := by
  have hdata : dataRecord records k = some v := by
    unfold dataRecord
    rw [base_not_marker hbase]
    simpa using hk
  obtain ⟨row, hrow, hat⟩ := (h.image.holds k v).mp hdata
  obtain ⟨key, hkey⟩ := (h.built row hrow).storageKey
  rcases recordAt_letter hkey hat with ⟨rfl, rfl⟩ | ⟨-, hletter⟩
  · exact ⟨row, hrow, hkey, rfl⟩
  · rw [not_base_of_letter hletter] at hbase
    simp at hbase

theorem RowsImage.nodup : rows.Nodup := by
  rw [nodup_iff_count_le_one]
  intro row
  by_cases hrow : row ∈ rows
  · obtain ⟨key, hkey⟩ := (h.built row hrow).storageKey
    obtain ⟨own, hown⟩ := (h.built row hrow).records
    have hone := h.image.apart key
    have hle : rows.count row ≤ owners (recordAt table) rows key := by
      apply countP_mono_left
      intro s _ hs
      have hs' : s = row := by simpa using hs
      subst hs'
      simp [recordAt_own_key hkey hown]
    omega
  · rw [count_eq_zero_of_not_mem hrow]
    omega

/-- Two rows of the image with one key are one row. -/
theorem RowsImage.key_unique {r s : LiteRow} (hr : r ∈ rows) (hs : s ∈ rows)
    (hrk : rowStorageKey table r = .ok key) (hsk : rowStorageKey table s = .ok key) : r = s := by
  obtain ⟨own, hown⟩ := (h.built r hr).records
  obtain ⟨own', hown'⟩ := (h.built s hs).records
  exact h.image.apart.owner_unique hr hs (recordAt_own_key hrk hown) (recordAt_own_key hsk hown')

end

/-- The base records of a table, in the order of their keys. -/
def baseRecords (records : RecordMap) : List (Bytes × Bytes) :=
  records.toList.filter fun record => isBaseKey record.1

theorem mem_baseRecords {record : Bytes × Bytes} :
    record ∈ baseRecords records ↔
      records[record.1]? = some record.2 ∧ isBaseKey record.1 = true := by
  unfold baseRecords
  rw [mem_filter, ← ExtTreeMap.mem_toList_iff_getElem?_eq_some]

theorem baseRecords_keys_nodup (records : RecordMap) :
    ((baseRecords records).map Prod.fst).Nodup := by
  refine Nodup.sublist (Sublist.map _ filter_sublist) ?_
  rw [ExtTreeMap.map_fst_toList_eq_keys]
  exact ExtTreeMap.nodup_keys

section

variable (h : RowsImage table rows records)

include h

/-- Each base record of an image is the record of one row, and each row has one. -/
theorem RowsImage.reads :
    ∃ read : Bytes × Bytes → LiteRow,
      (∀ record ∈ baseRecords records, read record ∈ rows ∧
        rowStorageKey table (read record) = .ok record.1 ∧
        rowOfRecord record = .ok (read record)) ∧
      ∀ row ∈ rows, ∀ k, rowStorageKey table row = .ok k →
        ∃ record ∈ baseRecords records, record.1 = k ∧ read record = row := by
  have hread : ∀ record ∈ baseRecords records, ∃ row ∈ rows,
      rowStorageKey table row = .ok record.1 ∧ rowOfRecord record = .ok row := by
    rintro ⟨k, v⟩ hmem
    obtain ⟨hk, hbase⟩ := mem_baseRecords.mp hmem
    obtain ⟨row, hrow, hkey, rfl⟩ := h.row_of_base hbase hk
    exact ⟨row, hrow, hkey, rowOfRecord_of_key hkey (h.built row hrow).numbered⟩
  choose! read hread using hread
  refine ⟨read, hread, fun row hrow k hkey => ?_⟩
  have hmem : (k, encodeRowValue row.value) ∈ baseRecords records :=
    mem_baseRecords.mpr ⟨h.stored hrow hkey, (h.built row hrow).base k hkey⟩
  exact ⟨_, hmem, rfl, h.key_unique (hread _ hmem).1 hrow (hread _ hmem).2.1 hkey⟩

/-- The base records of an image are the records of its rows, one for each. -/
theorem RowsImage.reads_perm :
    ∃ read : Bytes × Bytes → LiteRow,
      (∀ record ∈ baseRecords records, rowStorageKey table (read record) = .ok record.1 ∧
        rowOfRecord record = .ok (read record)) ∧
      ((baseRecords records).map read).Perm rows := by
  obtain ⟨read, hread, hall⟩ := h.reads
  refine ⟨read, fun record hr => (hread record hr).2, ?_⟩
  have hnd : ((baseRecords records).map read).Nodup := by
    apply Nodup.of_map (rowStorageKey table)
    have hkeys : ((baseRecords records).map read).map (rowStorageKey table) =
        ((baseRecords records).map Prod.fst).map Except.ok := by
      rw [map_map, map_map]
      exact map_congr_left fun r hr => (hread r hr).2.1
    rw [hkeys]
    exact (baseRecords_keys_nodup records).map fun a b hab => Except.ok.inj hab
  refine (perm_ext_iff_of_nodup hnd h.nodup).mpr fun row => ?_
  constructor
  · intro hrow
    obtain ⟨r, hr, rfl⟩ := mem_map.mp hrow
    exact (hread r hr).1
  · intro hrow
    obtain ⟨key, hkey⟩ := (h.built row hrow).storageKey
    obtain ⟨r, hr, -, hrow'⟩ := hall row hrow key hkey
    exact mem_map.mpr ⟨r, hr, hrow'⟩

/-- A scan of an image finds its rows. -/
theorem RowsImage.storedRows :
    ∃ found, litestore.storedRows records = .ok found ∧ found.Perm rows := by
  obtain ⟨read, hread, hperm⟩ := h.reads_perm
  exact ⟨_, mapM_ok_of_forall fun r hr => (hread r hr).2, hperm⟩

end

/-- The rows that a scan finds in an image are rows that the store can hold. -/
theorem TableImage.built (hscan : storedRows records = .ok rows)
    (hown : ∀ row ∈ rows, ∃ own, rowRecords table row = .ok own)
    (himage : IsImage (recordAt table) rows (dataRecord records)) :
    ∀ row ∈ rows, RowBuilt table row := by
  intro row hrow
  obtain ⟨⟨k, v⟩, hmem, hread⟩ := mapM_ok_mem hscan hrow
  obtain ⟨hlist, hbase⟩ := mem_filter.mp hmem
  rw [ExtTreeMap.mem_toList_iff_getElem?_eq_some] at hlist
  have hdata : dataRecord records k = some v := by
    unfold dataRecord
    rw [base_not_marker hbase]
    simpa using hlist
  -- the base record belongs to a row of the image, so its key has the shape of a row key
  obtain ⟨owner, howner, hat⟩ := (himage.holds k v).mp hdata
  obtain ⟨own, hownerOwn⟩ := hown owner howner
  obtain ⟨key, -, -, hkey, -⟩ := rowRecords_eq_ok.mp hownerOwn
  have hkk : k = key := by
    rcases recordAt_letter hkey hat with ⟨rfl, -⟩ | ⟨-, hletter⟩
    · rfl
    · rw [not_base_of_letter hletter] at hbase
      simp at hbase
  subst hkk
  simp only [rowOfRecord, bind_eq_ok, Except.ok.injEq] at hread
  obtain ⟨value, -, rfl⟩ := hread
  refine ⟨hown _ hrow, ?_, ?_⟩
  · intro key' hkey'
    rcases rowStorageKey_shape hkey' with ⟨hless, rfl⟩ | ⟨-, hhead, -⟩
    · rcases rowStorageKey_shape hkey with ⟨-, rfl⟩ | ⟨hkeyed, -⟩
      · simpa using hbase
      · rw [hless] at hkeyed
        simp at hkeyed
    · cases key' with
      | nil => rfl
      | cons b rest =>
        simp only [head?_cons, Option.some.injEq] at hhead
        subst hhead
        rfl
  · intro hkeyed
    rcases rowStorageKey_shape hkey with ⟨hless, -⟩ | ⟨-, -, hlen, -⟩
    · rw [hless] at hkeyed
      simp at hkeyed
    · simp only
      rw [if_neg (by omega)]

/-- A table is the image of the rows that a scan finds. -/
theorem TableImage.scanned (h : TableImage table records) :
    ∃ rows, storedRows records = .ok rows ∧ RowsImage table rows records := by
  obtain ⟨rows, hscan, hown, himage⟩ := h
  exact ⟨rows, hscan, TableImage.built hscan hown himage, himage⟩

/-- The invariant of a table, with the rows in any order. -/
theorem tableImage_iff : TableImage table records ↔ ∃ rows, RowsImage table rows records := by
  constructor
  · intro h
    obtain ⟨rows, -, himage⟩ := h.scanned
    exact ⟨rows, himage⟩
  · rintro ⟨rows, h⟩
    obtain ⟨found, hscan, hperm⟩ := h.storedRows
    refine ⟨found, hscan, fun row hrow => ?_, h.image.perm hperm.symm⟩
    exact (h.built row (hperm.mem_iff.mp hrow)).records

theorem tableImage_empty (table : LiteTableDef) : TableImage table ∅ := by
  refine tableImage_iff.mpr ⟨[], fun row hrow => absurd hrow (not_mem_nil), ?_⟩
  have hnone : dataRecord ∅ = fun k => (∅ : RecordMap)[k]? := by
    funext k
    simp [dataRecord]
  rw [hnone]
  exact isImage_empty table

/-! ## Rows that a caller names -/

/-- A row as the store knows it: the row id of a table with a primary key is zero. -/
def normalRow (table : LiteTableDef) (row : LiteRow) : LiteRow :=
  if table.keyless then row else ⟨0, row.value⟩

section

variable (table)

@[simp] theorem normalRow_value (row : LiteRow) :
    (normalRow table row).value = row.value := by
  unfold normalRow
  split <;> rfl

@[simp] theorem rowStorageKey_normalRow (row : LiteRow) :
    rowStorageKey table (normalRow table row) = rowStorageKey table row := by
  unfold rowStorageKey normalRow
  cases table.keyless <;> rfl

@[simp] theorem rowRecords_normalRow (row : LiteRow) :
    rowRecords table (normalRow table row) = rowRecords table row := by
  unfold rowRecords
  rw [rowStorageKey_normalRow, normalRow_value]

@[simp] theorem recordAt_normalRow (row : LiteRow) :
    recordAt table (normalRow table row) = recordAt table row := by
  funext k
  unfold recordAt ownRecords
  rw [rowRecords_normalRow]

@[simp] theorem owners_map_normalRow (rows : List LiteRow) (k : Bytes) :
    owners (recordAt table) (rows.map (normalRow table)) k = owners (recordAt table) rows k := by
  unfold owners
  rw [countP_map]
  congr 1
  funext row
  simp

end

theorem apart_normalRow :
    Apart (recordAt table) (rows.map (normalRow table)) ↔ Apart (recordAt table) rows := by
  unfold Apart
  simp only [owners_map_normalRow]

theorem isImage_normalRow {m : Bytes → Option Bytes} :
    IsImage (recordAt table) (rows.map (normalRow table)) m ↔ IsImage (recordAt table) rows m := by
  constructor
  · rintro ⟨hapart, hholds⟩
    refine ⟨apart_normalRow.mp hapart, fun k v => ?_⟩
    rw [hholds]
    simp
  · rintro ⟨hapart, hholds⟩
    refine ⟨apart_normalRow.mpr hapart, fun k v => ?_⟩
    rw [hholds]
    simp

theorem normalRow_of_built (h : RowBuilt table row) : normalRow table row = row := by
  unfold normalRow
  cases hk : table.keyless with
  | true => rfl
  | false =>
    have hzero := h.numbered hk
    cases row
    simp only at hzero
    subst hzero
    rfl

theorem map_normalRow_of_built (h : ∀ row ∈ rows, RowBuilt table row) :
    rows.map (normalRow table) = rows :=
  (map_congr_left fun row hrow => normalRow_of_built (h row hrow)).trans (map_id _)

/-- The row ids of new rows of a keyless table are row ids that a scan finds. -/
def BaseRowIds (table : LiteTableDef) (rows : List LiteRow) : Prop :=
  table.keyless = true → ∀ row ∈ rows, isBaseKey (uint64Bytes row.rowId) = true

/-- A row that a caller names can be stored when its records can be built and its row id
is not skipped by a scan. -/
theorem rowBuilt_normalRow (hrecords : ∃ own, rowRecords table row = .ok own)
    (hbase : table.keyless = true → isBaseKey (uint64Bytes row.rowId) = true) :
    RowBuilt table (normalRow table row) := by
  refine ⟨by simpa using hrecords, fun key hkey => ?_, fun hkeyed => ?_⟩
  · rw [rowStorageKey_normalRow] at hkey
    rcases rowStorageKey_shape hkey with ⟨hless, rfl⟩ | ⟨-, hhead, -⟩
    · exact hbase hless
    · cases key with
      | nil => rfl
      | cons b rest =>
        simp only [head?_cons, Option.some.injEq] at hhead
        subst hhead
        rfl
  · unfold normalRow
    rw [hkeyed]
    rfl

/-- The row id of a stored row is not skipped by a scan. -/
theorem RowBuilt.base_rowId (h : RowBuilt table row) (hless : table.keyless = true) :
    isBaseKey (uint64Bytes row.rowId) = true :=
  h.base _ (by simp [rowStorageKey, hless])

/-- Two rows with one key and one value are one row to the store. -/
theorem normalRow_eq {r s : LiteRow} (hr : rowStorageKey table r = .ok key)
    (hs : rowStorageKey table s = .ok key) (hv : r.value = s.value) :
    normalRow table r = normalRow table s := by
  unfold normalRow
  rcases rowStorageKey_shape hr with ⟨hless, hkey⟩ | ⟨hkeyed, -⟩
  · rcases rowStorageKey_shape hs with ⟨-, hkey'⟩ | ⟨hkeyed, -⟩
    · rw [hless]
      cases r
      cases s
      simp only at hv hkey hkey'
      subst hv
      rw [hkey] at hkey'
      rw [uint64Bytes_inj hkey']
    · rw [hless] at hkeyed
      simp at hkeyed
  · rw [hkeyed]
    simp [hv]

/-- A row that stands under its key is a row of the image. -/
theorem RowsImage.mem_of_stored (h : RowsImage table rows records)
    (hkey : rowStorageKey table row = .ok key)
    (hstored : records[key]? = some (encodeRowValue row.value)) : normalRow table row ∈ rows := by
  have hdata : dataRecord records key = some (encodeRowValue row.value) := by
    unfold dataRecord
    rw [rowStorageKey_not_marker hkey]
    simpa using hstored
  obtain ⟨owner, howner, hat⟩ := (h.image.holds key _).mp hdata
  obtain ⟨own, hown⟩ := (h.built owner howner).storageKey
  rcases recordAt_letter hown hat with ⟨rfl, hval⟩ | hletter
  · have hnormal := normalRow_eq hkey hown (encodeRowValue_inj hval)
    rw [hnormal, normalRow_of_built (h.built owner howner)]
    exact howner
  · exact absurd hletter (rowStorageKey_not_letter hkey)

/-! ## What an image depends on -/

/-- Two definitions of a table that give the rows the same records. -/
structure SameRecords (table table' : LiteTableDef) : Prop where
  columns : table'.columns = table.columns
  primaryKeyColumns : table'.primaryKeyColumns = table.primaryKeyColumns
  uniqueKeyColumns : table'.uniqueKeyColumns = table.uniqueKeyColumns
  secondaryIndexes : table'.secondaryIndexes = table.secondaryIndexes

theorem sameRecords_nextRowId (table : LiteTableDef) (n : UInt64) :
    SameRecords table { table with nextRowId := n } := ⟨rfl, rfl, rfl, rfl⟩

theorem SameRecords.refl (table : LiteTableDef) : SameRecords table table := ⟨rfl, rfl, rfl, rfl⟩

theorem SameRecords.keyless (h : SameRecords table table') : table'.keyless = table.keyless := by
  unfold LiteTableDef.keyless
  rw [h.primaryKeyColumns]

theorem SameRecords.rowRecords (h : SameRecords table table') (row : LiteRow) :
    rowRecords table' row = rowRecords table row := by
  have hbuild : ∀ key, buildRowRecords table' row.value key =
      buildRowRecords table row.value key := by
    intro key
    unfold buildRowRecords addRowRecords buildSecondaryIndexEntries
    simp only [h.uniqueKeyColumns, addUniqueRecords_congr h.columns, h.secondaryIndexes,
      indexEntriesOf_congr h.columns]
  unfold litestore.rowRecords
  simp only [rowStorageKey_congr h.columns h.primaryKeyColumns row, hbuild]

theorem SameRecords.recordAt (h : SameRecords table table') : recordAt table' = recordAt table := by
  funext row k
  unfold litestore.recordAt ownRecords
  rw [h.rowRecords]

/-- The image of a table does not depend on the row id it hands out next. -/
theorem RowsImage.congr (h : RowsImage table rows records) (hsame : SameRecords table table') :
    RowsImage table' rows records := by
  refine ⟨fun row hrow => ?_, ?_⟩
  · obtain ⟨hrecords, hbase, hnumbered⟩ := h.built row hrow
    refine ⟨?_, ?_, ?_⟩
    · rw [hsame.rowRecords]
      exact hrecords
    · rw [rowStorageKey_congr hsame.columns hsame.primaryKeyColumns]
      exact hbase
    · rw [hsame.keyless]
      exact hnumbered
  · rw [hsame.recordAt]
    exact h.image

/-! ## Changing rows -/

/-- A change of all records is a change of the records that are not markers. -/
theorem changed_dataRecord {new : List LiteRow} {records' : RecordMap}
    (h : Changed (recordAt table) out new (fun k => records[k]?) (fun k => records'[k]?)) :
    Changed (recordAt table) out new (dataRecord records) (dataRecord records') := by
  refine ⟨fun row hrow k v hv => ?_, fun k hnew hout => ?_, fun k hnew hout => ?_⟩
  · unfold dataRecord
    cases hm : isJournalMarker k with
    | true =>
      rw [recordAt_marker hm] at hv
      simp at hv
    | false => simpa using h.put row hrow k v hv
  · unfold dataRecord
    cases hm : isJournalMarker k with
    | true => rfl
    | false => simpa using h.erased k hnew hout
  · unfold dataRecord
    cases hm : isJournalMarker k with
    | true => rfl
    | false => simpa using h.kept k hnew hout

/-- A row that leaves and arrives under names of the caller is a row of the store. -/
theorem changed_normalRow {new : List LiteRow} {m m' : Bytes → Option Bytes}
    (h : Changed (recordAt table) out new m m') :
    Changed (recordAt table) (out.map (normalRow table)) (new.map (normalRow table)) m m' := by
  refine ⟨fun row hrow k v hv => ?_, fun k hnew hout => ?_, fun k hnew hout => ?_⟩
  · obtain ⟨r, hr, rfl⟩ := mem_map.mp hrow
    rw [recordAt_normalRow] at hv
    exact h.put r hr k v hv
  · rw [owners_map_normalRow] at hnew hout
    exact h.erased k hnew hout
  · rw [owners_map_normalRow] at hnew hout
    exact h.kept k hnew hout

/-- The rows that leave are some of the rows of the image. -/
theorem RowsImage.split (h : RowsImage table rows records) (hnd : keys.Nodup)
    (hout : Forall₂ (fun row key => rowStorageKey table row = .ok key ∧
      records[key]? = some (encodeRowValue row.value)) out keys) :
    ∃ stay, rows.Perm (out.map (normalRow table) ++ stay) := by
  have hsub : ∀ row ∈ out.map (normalRow table), row ∈ rows := by
    intro row hrow
    obtain ⟨r, hr, rfl⟩ := mem_map.mp hrow
    obtain ⟨key, -, hkey, hstored⟩ := forall₂_exists_right hout hr
    exact h.mem_of_stored hkey hstored
  have hkeys : out.map (rowStorageKey table) = keys.map Except.ok := by
    clear hnd hsub
    induction hout with
    | nil => rfl
    | cons hk _ ih => simp [hk.1, ih]
  have hnodup : (out.map (normalRow table)).Nodup := by
    apply Nodup.of_map (rowStorageKey table)
    rw [map_map]
    have hcomp : rowStorageKey table ∘ normalRow table = rowStorageKey table := by
      funext row
      simp
    rw [hcomp, hkeys]
    exact hnd.map fun a b hab => Except.ok.inj hab
  refine ⟨rows.diff (out.map (normalRow table)), ?_⟩
  refine (subperm_append_diff_self_of_count_le fun row hrow => ?_).symm
  rw [count_eq_one_of_mem hnodup hrow]
  exact count_pos_iff.mpr (hsub row hrow)

end litestore
