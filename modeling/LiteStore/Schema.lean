-- The routines that change the definition of a stored table: `createIndex`
-- fills a new index from the rows, `dropIndex` erases the records of an index
-- and `replaceTableDefinition` rewrites every row for `alterTable`. The catalog
-- and the records are written one after the other.
import LiteStore.ManagerImage
import LiteStore.Lib.OrderedScan

namespace litestore

open checked rowimage orderedscan

/-! ## The source: `createIndex` -/

/-- The names that the schema uses apart from this table and its indexes. -/
structure OtherNames where
  tables : List String := []
  indexes : List String := []

section

variable (table : LiteTableDef) (index : LiteIndexDef) (faults : Faults) (st : TableState)
  (name : String)

def qualifiedName : String :=
  table.catalog ++ "." ++ table.schema ++ "." ++ name

def validIndexDefinition : Bool :=
  index.name ≠ "" && index.objectUid ≠ 0 && !index.keyColumns.isEmpty &&
    index.descending.length = index.keyColumns.length

/-- The loop over the key columns of a new index. -/
def checkIndexColumns (columns : Nat) : List Nat → List Nat → Except String Unit
  | _, [] => .ok ()
  | earlier, c :: rest => do
    guardOk (c < columns) "invalid lite index column metadata"
    guardOk (c ∉ earlier) "duplicate lite index column"
    checkIndexColumns columns (c :: earlier) rest

/-- The loop over the base records that builds the entries of a new index. -/
def backfillEntries (table : LiteTableDef) (index : LiteIndexDef) :
    List (Bytes × Bytes) → RecordMap → Except String RecordMap
  | [], entries => .ok entries
  | (rowKey, value) :: rest, entries => do
    let row ← decodeRowValue value
    let entry ← buildSecondaryIndexEntry table index row.bytes rowKey
    let entries ← putAllNew (fun e => (e.key, e.value))
      (fun _ => "duplicate lite unique index key") entries entry.toList
    backfillEntries table index rest entries

/-- Everything that `createIndex` does before it writes the catalog; the result is what it
adds to the records. -/
def backfill (faults : Faults) (names : OtherNames) (st : TableState) (index : LiteIndexDef) :
    Except String RecordMap := do
  guardOk (validIndexDefinition index) "invalid lite index definition"
  loadTable faults st none
  checkRocksError faults "read lite table metadata" (textBytes index.name)
  guardOk (index.name ≠ st.table.name ∧ index.name ∉ names.tables)
    ("lite object already exists: " ++ qualifiedName st.table index.name)
  checkIndexColumns st.table.columns.length [] index.keyColumns
  checkRocksError faults "read lite index metadata" (textBytes index.name)
  guardOk (index.name ∉ st.indexKeys ∧ index.name ∉ names.indexes)
    ("lite index already exists: " ++ qualifiedName st.table index.name)
  openTable faults
  let entries ← backfillEntries st.table index (baseRecords st.records) ∅
  checkRocksError faults "scan lite rows for index backfill" []
  checkRocksError faults "backfill lite index" []
  .ok entries

def LiteTableDef.addIndex : LiteTableDef :=
  { table with secondaryIndexes := table.secondaryIndexes ++ [index] }

def createIndex (names : OtherNames) (st : TableState) (index : LiteIndexDef) :
    Except String Unit × TableState :=
  match backfill faults names st index with
  | .error e => (.error e, st)
  | .ok entries =>
    let filled := putAll st.records entries.toList
    match checkRocksError faults "write lite index metadata" [] with
    | .ok () =>
      (.ok (),
        { table := st.table.addIndex index,
          indexKeys := index.name :: st.indexKeys,
          records := filled })
    | .error e =>
      match faults "rollback lite index backfill" [] with
      | none => (.error e, { st with records := eraseAll filled entries.keys })
      | some rocksError =>
        (.error (e ++ "; rollback lite index backfill: " ++ rocksError),
          { st with records := filled })

/-! ## The source: `dropIndex` -/

/-- The bytes in front of every key of an index. -/
def physicalKeyStart : Bytes := letterI :: uint64Bytes index.objectUid

/-- The keys that the scan of `dropIndex` runs over. -/
def indexRecordKeys (records : RecordMap) (index : LiteIndexDef) : List Bytes :=
  scanWhile compare id (physicalKeyStart index) (physicalKeyStart index).isPrefixOf records.keys

/-- The checks in front of the catalog write; the result is the index to drop, none when
there is nothing to do. -/
def findDropped (ifExists : Bool) : Except String (Option LiteIndexDef) := do
  checkRocksError faults "read lite index metadata" (textBytes name)
  if name ∉ st.indexKeys then
    if ifExists then .ok none
    else .error ("lite index does not exist: " ++ qualifiedName st.table name)
  else do
    checkRocksError faults "read lite table metadata" []
    match st.table.secondaryIndexes.find? fun index => index.name = name with
    | none => .error "lite index metadata is inconsistent"
    | some index => do
      checkRocksError faults "delete lite index metadata" []
      .ok (some index)

/-- The definition without the first index of that name. -/
def LiteTableDef.eraseIndex : LiteTableDef :=
  { table with secondaryIndexes := table.secondaryIndexes.eraseP fun index => index.name = name }

/-- The calls after the catalog write. -/
def eraseIndexRecords : Except String Unit := do
  openTable faults
  checkRocksError faults "scan lite index for drop" []
  checkRocksError faults "delete lite index records" []

def dropIndex (ifExists : Bool) : Except String Unit × TableState :=
  match findDropped faults st name ifExists with
  | .error e => (.error e, st)
  | .ok none => (.ok (), st)
  | .ok (some index) =>
    let dropped : TableState := { st with
      table := st.table.eraseIndex name,
      indexKeys := st.indexKeys.filter (· ≠ name) }
    match eraseIndexRecords faults with
    | .error e => (.error e, dropped)
    | .ok () =>
      (.ok (), { dropped with records := eraseAll st.records (indexRecordKeys st.records index) })

/-! ## The source: `replaceTableDefinition` -/

structure AlterSeen where
  rowKeys : List Bytes := []
  uniqueKeys : List Bytes := []
  indexKeys : List Bytes := []

def duplicateAfterAlter (entry : LitePhysicalIndexEntry) : String :=
  if entry.unique then "duplicate lite unique index key after ALTER"
  else "duplicate lite secondary index key after ALTER"

/-- The loop over the rows: the keys under the old and under the new definition. -/
def planAlter (loaded newTable : LiteTableDef) :
    List LiteRowMutation → AlterSeen → Except String (List (RowPlan × RowPlan))
  | [], _ => .ok []
  | u :: rest, seen => do
    let oldKey ← rowStorageKey loaded u.before
    let newKey ← rowStorageKey newTable u.afterRow
    guardOk (newKey ∉ seen.rowKeys) "duplicate lite primary key after ALTER"
    let oldEntries ← buildSecondaryIndexEntries loaded u.before.value.bytes oldKey
    let newEntries ← buildSecondaryIndexEntries newTable u.after.bytes newKey
    let indexKeys ← addAllNew (·.key) duplicateAfterAlter seen.indexKeys newEntries
    let olds ← uniqueKeysOf loaded u.before.value.bytes
    let (news, uniqueKeys) ← newUniqueKeys newTable "duplicate lite unique key after ALTER"
      u.after.bytes newTable.uniqueKeyColumns 0 seen.uniqueKeys
    let plans ← planAlter loaded newTable rest ⟨newKey :: seen.rowKeys, uniqueKeys, indexKeys⟩
    .ok ((⟨u.before.value, oldKey, olds, oldEntries⟩, ⟨u.after, newKey, news, newEntries⟩) :: plans)

def alterPlans (oldTable newTable : LiteTableDef) (mutations : List LiteRowMutation) :
    Except String (List (RowPlan × RowPlan)) := do
  loadTable faults st none
  guardOk (st.table.objectUid = oldTable.objectUid ∧ newTable.objectUid = oldTable.objectUid ∧
      newTable.catalog = oldTable.catalog ∧ newTable.schema = oldTable.schema ∧
      newTable.name = oldTable.name) "lite table changed during ALTER"
  openTable faults
  let plans ← planAlter st.table newTable mutations {}
  checkRocksError faults "rewrite lite rows for ALTER" []
  .ok plans

def replaceTableDefinition (oldTable newTable : LiteTableDef) (mutations : List LiteRowMutation) :
    Except String Unit × TableState :=
  match alterPlans faults st oldTable newTable mutations with
  | .error e => (.error e, st)
  | .ok plans =>
    let forward := writePlans st.records (plans.map (·.1)) (plans.map (·.2))
    match checkRocksError faults "write lite ALTER metadata" [] with
    | .ok () => (.ok (), { st with table := newTable, records := forward })
    | .error e =>
      match faults "rollback lite ALTER" [] with
      | none =>
        (.error e, { st with records := writePlans forward (plans.map (·.2)) (plans.map (·.1)) })
      | some rocksError =>
        (.error (e ++ "; " ++ rocksErrorText "rollback lite ALTER" rocksError),
          { st with records := forward })

end

end litestore
