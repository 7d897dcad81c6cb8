-- The routines of the storage manager that change rows at once: `insertRow`,
-- `updateRows`, `deleteRows` and `commitPendingRows`. Each builds the keys of
-- its rows, checks them against each other and against the table, and writes
-- one batch.
import LiteStore.TableState

namespace litestore

open checked rowimage

/-! ## The source: rows and their keys -/

/-- A row with every key that it owns. -/
structure RowPlan where
  row : Row
  rowKey : Bytes
  uniqueKeys : List Bytes
  entries : List LitePhysicalIndexEntry

def RowPlan.records (p : RowPlan) : List (Bytes × Bytes) :=
  recordEntries p.row p.rowKey p.uniqueKeys p.entries

def RowPlan.names (p : RowPlan) : List Bytes := p.records.map Prod.fst

/-- The batch that erases some rows and puts others. -/
def writePlans (records : RecordMap) (out new : List RowPlan) : RecordMap :=
  writeBatch records (out.flatMap RowPlan.names) (new.flatMap RowPlan.records)

def duplicateRowMessage (table : LiteTableDef) : String :=
  if table.keyless then "duplicate lite row key" else "duplicate lite primary key"

/-- `keyExistsLocked` for each of some keys. -/
def probeEach {α : Type} (faults : Faults) (st : TableState) (what : String) (name : α → Bytes)
    (message : α → String) : List α → Except String Unit
  | [] => .ok ()
  | a :: rest => do
    probeFree faults st what (name a) (message a)
    probeEach faults st what name message rest

/-- The reads in front of a new row: every key of it must be free. -/
def probeRow (faults : Faults) (st : TableState) (p : RowPlan) : Except String Unit := do
  probeFree faults st "read lite row" p.rowKey (duplicateRowMessage st.table)
  probeEach faults st "read lite unique key" id (fun _ => "duplicate lite unique key") p.uniqueKeys
  probeEach faults st "read lite secondary index key" (·.key) duplicateIndexMessage p.entries

/-- The row that stands under a key must be there and must be the row that was read. -/
def readCurrent (faults : Faults) (st : TableState) (what missing changed : String) (row : Row)
    (key : Bytes) : Except String Unit := do
  match ← readRecord faults st what key with
  | none => .error missing
  | some value =>
    let current ← decodeRowValue value
    guardOk (current = row) changed

/-- The loop over the unique constraints that builds the keys of a new row and adds them
to a set. -/
def newUniqueKeys (table : LiteTableDef) (message : String) (row : Bytes) :
    List (List Nat) → Nat → List Bytes → Except String (List Bytes × List Bytes)
  | [], _, seen => .ok ([], seen)
  | columns :: rest, ordinal, seen => do
    let key ← liteBuildUniqueKey table row columns ordinal
    let seen ← addAllNew id (fun _ => message) seen key.toList
    let (keys, seen) ← newUniqueKeys table message row rest (ordinal + 1) seen
    .ok (key.toList ++ keys, seen)

section

variable (faults : Faults) (st : TableState) (table : LiteTableDef)

/-- The catalog gets its old definition back when that write succeeds. -/
def rollbackRowId (advanced : TableState) : TableState :=
  if faults "rollback lite row id metadata" [] = none then st else advanced

/-- What a failed rollback adds to the error. -/
def rollbackRowIdError : String :=
  match faults "rollback lite row id metadata" [] with
  | none => ""
  | some rocksError => "; " ++ rocksErrorText "rollback lite row id metadata" rocksError

/-- The table with the next row ids handed out; a table with a primary key has none. -/
def TableState.advance (n : Nat) : TableState :=
  if st.table.keyless then
    { st with table := { st.table with nextRowId := st.table.nextRowId + UInt64.ofNat n } }
  else st

/-- The write of the catalog in front of the rows of a keyless table. -/
def putRowIdMetadata : Except String Unit :=
  if st.table.keyless then checkRocksError faults "update lite row id metadata" [] else .ok ()

/-! ## The source: `insertRow` -/

def planInsert (row : Row) : Except String RowPlan := do
  loadTable faults st none
  let rowKey ← rowStorageKey st.table ⟨st.table.nextRowId, row⟩
  let uniqueKeys ← uniqueKeysOf st.table row.bytes
  let entries ← buildSecondaryIndexEntries st.table row.bytes rowKey
  .ok ⟨row, rowKey, uniqueKeys, entries⟩

/-- The reads of `insertRow`, after the catalog was written. -/
def probeInsert (p : RowPlan) : Except String Unit := do
  openTable faults
  probeRow faults st p

def insertRow (row : Row) : Except String UInt64 × TableState :=
  match planInsert faults st row with
  | .error e => (.error e, st)
  | .ok p =>
    match putRowIdMetadata faults st with
    | .error e => (.error e, st)
    | .ok () =>
      match probeInsert faults st p with
      | .error e => (.error e, rollbackRowId faults st (st.advance 1))
      | .ok () =>
        match checkRocksError faults "write lite row" [] with
        | .error e =>
          (.error (e ++ if st.table.keyless then rollbackRowIdError faults else ""),
            rollbackRowId faults st (st.advance 1))
        | .ok () =>
          (.ok st.table.nextRowId,
            { st.advance 1 with records := writePlans st.records [] [p] })

/-! ## The source: `updateRows` -/

structure UpdateSeen where
  oldRowKeys : List Bytes := []
  newRowKeys : List Bytes := []
  newIndexKeys : List Bytes := []
  newUniqueKeys : List Bytes := []

/-- The loop over the unique constraints, for the old and the new row at once. -/
def updateUniqueKeys (table : LiteTableDef) (before after : Bytes) :
    List (List Nat) → Nat → List Bytes → Except String (List Bytes × List Bytes × List Bytes)
  | [], _, seen => .ok ([], [], seen)
  | columns :: rest, ordinal, seen => do
    let old ← liteBuildUniqueKey table before columns ordinal
    let new ← liteBuildUniqueKey table after columns ordinal
    let seen ← addAllNew id (fun _ => "duplicate lite unique key") seen new.toList
    let (olds, news, seen) ← updateUniqueKeys table before after rest (ordinal + 1) seen
    .ok (old.toList ++ olds, new.toList ++ news, seen)

/-- The first loop: the keys before and after each update. -/
def planUpdates (table : LiteTableDef) :
    List LiteRowMutation → UpdateSeen → Except String (List (RowPlan × RowPlan))
  | [], _ => .ok []
  | u :: rest, seen => do
    let oldKey ← rowStorageKey table u.before
    let newKey ← rowStorageKey table u.afterRow
    guardOk (oldKey ∉ seen.oldRowKeys) "lite update selected a row more than once"
    guardOk (newKey ∉ seen.newRowKeys) "duplicate lite primary key"
    let oldEntries ← buildSecondaryIndexEntries table u.before.value.bytes oldKey
    let newEntries ← buildSecondaryIndexEntries table u.after.bytes newKey
    let indexKeys ← addAllNew (·.key) duplicateIndexMessage seen.newIndexKeys newEntries
    let (olds, news, uniqueKeys) ← updateUniqueKeys table u.before.value.bytes u.after.bytes
      table.uniqueKeyColumns 0 seen.newUniqueKeys
    let plans ← planUpdates table rest
      ⟨oldKey :: seen.oldRowKeys, newKey :: seen.newRowKeys, indexKeys, uniqueKeys⟩
    .ok ((⟨u.before.value, oldKey, olds, oldEntries⟩, ⟨u.after, newKey, news, newEntries⟩) :: plans)

/-- A key of a new row that is taken must belong to a row that leaves. -/
def probeOwned {α : Type} (faults : Faults) (st : TableState) (oldRowKeys : List Bytes)
    (what : String) (name : α → Bytes) (message : α → String) : List α → Except String Unit
  | [] => .ok ()
  | a :: rest => do
    let value ← readRecord faults st what (name a)
    let owner ← (match value with
      | none => .ok none
      | some indexValue => (decodeIndexValue indexValue).map fun r => some r.1 :
        Except String (Option Bytes))
    guardOk (∀ rowKey ∈ owner, rowKey ∈ oldRowKeys) (message a)
    probeOwned faults st oldRowKeys what name message rest

/-- A new row key that no outgoing row has must be free. -/
def probeNewRowKey (oldRowKeys : List Bytes) (old new : Bytes) : Except String Unit :=
  if new ≠ old ∧ new ∉ oldRowKeys then
    probeFree faults st "read updated lite row key" new "duplicate lite primary key"
  else .ok ()

/-- The second loop: the old rows are as they were read and the new keys are free. -/
def checkUpdates (faults : Faults) (st : TableState) (oldRowKeys : List Bytes) :
    List (RowPlan × RowPlan) → Except String Unit
  | [] => .ok ()
  | (old, new) :: rest => do
    readCurrent faults st "read lite row for update" "lite update row no longer exists"
      "lite update row changed; restart statement" old.row old.rowKey
    probeNewRowKey faults st oldRowKeys old.rowKey new.rowKey
    probeOwned faults st oldRowKeys "read updated lite unique key" id
      (fun _ => "duplicate lite unique key") new.uniqueKeys
    probeOwned faults st oldRowKeys "read updated lite index key" (·.key)
      duplicateIndexMessage new.entries
    checkUpdates faults st oldRowKeys rest

/-- Every check of `updateRows`; the result is the records it leaves. -/
def updatedRecords (mutations : List LiteRowMutation) : Except String RecordMap := do
  loadTable faults st (some (table.objectUid, "lite table changed during update"))
  openTable faults
  let plans ← planUpdates st.table mutations {}
  checkUpdates faults st (plans.map (·.1.rowKey)) plans
  checkRocksError faults "update lite rows" []
  .ok (writePlans st.records (plans.map (·.1)) (plans.map (·.2)))

/-- A routine that writes the records it computed, if every check passes. -/
def TableState.store (result : Except String RecordMap) : Except String Unit × TableState :=
  match result with
  | .error e => (.error e, st)
  | .ok records => (.ok (), { st with records := records })

def updateRows (mutations : List LiteRowMutation) : Except String Unit × TableState :=
  if mutations.isEmpty then (.ok (), st)
  else st.store (updatedRecords faults st table mutations)

/-! ## The source: `deleteRows` -/

def planDeletes (table : LiteTableDef) :
    List LiteRow → List Bytes → Except String (List RowPlan)
  | [], _ => .ok []
  | row :: rest, selected => do
    let rowKey ← rowStorageKey table row
    guardOk (rowKey ∉ selected) "lite delete selected a row more than once"
    let entries ← buildSecondaryIndexEntries table row.value.bytes rowKey
    let uniqueKeys ← uniqueKeysOf table row.value.bytes
    let plans ← planDeletes table rest (rowKey :: selected)
    .ok (⟨row.value, rowKey, uniqueKeys, entries⟩ :: plans)

def checkDeletes (faults : Faults) (st : TableState) : List RowPlan → Except String Unit
  | [] => .ok ()
  | p :: rest => do
    readCurrent faults st "read lite row for delete" "lite delete row no longer exists"
      "lite delete row changed; restart statement" p.row p.rowKey
    checkDeletes faults st rest

def deletedRecords (rows : List LiteRow) : Except String RecordMap := do
  loadTable faults st (some (table.objectUid, "lite table changed during delete"))
  openTable faults
  let plans ← planDeletes st.table rows []
  checkDeletes faults st plans
  checkRocksError faults "delete lite rows" []
  .ok (writePlans st.records plans [])

def deleteRows (rows : List LiteRow) : Except String Unit × TableState :=
  if rows.isEmpty then (.ok (), st) else st.store (deletedRecords faults st table rows)

end

/-! ## The source: `commitPendingRows` -/

structure PendingSeen where
  rowKeys : List Bytes := []
  uniqueKeys : List Bytes := []

/-- The first loop. The row keys and the unique keys of the rows go into sets; the index
keys do not. -/
def planPending (table : LiteTableDef) :
    List LiteRow → UInt64 → PendingSeen → Except String (List RowPlan)
  | [], _, _ => .ok []
  | row :: rest, expectedRowId, seen => do
    guardOk (table.keyless = false ∨ row.rowId = expectedRowId) rowIdAllocationChanged
    let rowKey ← rowStorageKey table row
    guardOk (rowKey ∉ seen.rowKeys) (duplicateRowMessage table)
    let entries ← buildSecondaryIndexEntries table row.value.bytes rowKey
    let (keys, uniqueKeys) ← newUniqueKeys table "duplicate lite unique key" row.value.bytes
      table.uniqueKeyColumns 0 seen.uniqueKeys
    let plans ← planPending table rest (expectedRowId + 1) ⟨rowKey :: seen.rowKeys, uniqueKeys⟩
    .ok (⟨row.value, rowKey, keys, entries⟩ :: plans)

def probeRows (faults : Faults) (st : TableState) : List RowPlan → Except String Unit
  | [] => .ok ()
  | p :: rest => do
    probeRow faults st p
    probeRows faults st rest

def pendingPlans (faults : Faults) (st : TableState) (table : LiteTableDef)
    (rows : List LiteRow) : Except String (List RowPlan) := do
  loadTable faults st
    (some (table.objectUid, "lite table changed while transaction was active"))
  openTable faults
  let plans ← planPending st.table rows st.table.nextRowId {}
  probeRows faults st plans
  putRowIdMetadata faults st
  .ok plans

def commitPendingRows (faults : Faults) (st : TableState) (table : LiteTableDef)
    (rows : List LiteRow) : Except String Unit × TableState :=
  if rows.isEmpty then (.ok (), st)
  else match pendingPlans faults st table rows with
    | .error e => (.error e, st)
    | .ok plans =>
      match checkRocksError faults "commit lite table rows" [] with
      | .error e =>
        (.error (if st.table.keyless then e ++ rollbackRowIdError faults ++
            "; keyless metadata and table rows use separate RocksDB databases and are not " ++
            "crash-atomic" else e),
          rollbackRowId faults st (st.advance rows.length))
      | .ok () =>
        (.ok (), { st.advance rows.length with records := writePlans st.records [] plans })

end litestore
