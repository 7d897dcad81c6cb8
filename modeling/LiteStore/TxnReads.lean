-- What a transaction reads of one table: the rows of its snapshot with its own staged
-- changes laid over them. A scan, a lookup of one key and a range scan each do this in
-- their own way.
import LiteStore.Txn
import LiteStore.Lib.OrderedScan

namespace litestore

open checked stateful orderedscan

/-! ## Reads of the snapshot -/

/-- The order of RocksDB: a key from the first one on and before the second one. -/
def keyInRange (startKey endKey key : Bytes) : Bool :=
  compare key startKey ≠ .lt && compare key endKey = .lt

/-- The records that an iterator finds in a range. -/
def rangeRecords (records : RecordMap) (startKey endKey : Bytes) : List (Bytes × Bytes) :=
  scanWhile compare Prod.fst startKey (fun k => compare k endKey = .lt) records.toList

/-- `getRowByKeyAtSnapshot`. A record under a unique key may hold the key of its row, and
the lookup goes on there; `depth` bounds how often. -/
def getRowByKeyAtSnapshot (records : RecordMap) : Nat → Bytes → Except String (Option LiteRow)
  | 0, _ => .error "lite row lookup does not end"
  | depth + 1, storageKey =>
    match records[storageKey]? with
    | none => .ok none
    | some value =>
      match decodeRowValue value with
      | .ok row => .ok (some ⟨if storageKey.length = 8 then readUint64 storageKey else 0, row⟩)
      | .error _ =>
        if storageKey.head? = some letterU then getRowByKeyAtSnapshot records depth value
        else .error "invalid lite row format"

/-- A lookup that visits more keys than the table has records never ends. -/
def storedRowByKey (records : RecordMap) (storageKey : Bytes) : Except String (Option LiteRow) :=
  getRowByKeyAtSnapshot records (records.size + 2) storageKey

/-- `LiteRocksDBStore::scanPrimaryRange`. -/
def storedPrimaryRange (records : RecordMap) (startKey endKey : Bytes) :
    Except String (List LiteRow) := do
  guardOk (startKey.head? = some letterP ∧ compare startKey endKey = .lt)
    "invalid lite primary key range"
  (rangeRecords records startKey endKey).mapM fun record => do
    let row ← decodeRowValue record.2
    .ok (⟨0, row⟩ : LiteRow)

abbrev VisibleRows := Std.ExtTreeMap Bytes LiteRow compare

/-- The rows that an index range gave so far, and the row keys that must be looked up. -/
structure IndexScan where
  rowsByStorageKey : VisibleRows := ∅
  baseKeys : List Bytes := []

def readIndexEntries : List (Bytes × Bytes) → IndexScan → Except String IndexScan
  | [], scan => .ok scan
  | record :: rest, scan => do
    match ← decodeIndexValue record.2 with
    | (rowKey, encoded) =>
      if rowKey ∈ scan.rowsByStorageKey then readIndexEntries rest scan
      else match encoded with
        | some bytes =>
          let row ← toRow bytes
          let rowId := if rowKey.length = 8 then readUint64 rowKey else 0
          readIndexEntries rest
            { scan with rowsByStorageKey := scan.rowsByStorageKey.insert rowKey ⟨rowId, row⟩ }
        | none => readIndexEntries rest { scan with baseKeys := scan.baseKeys ++ [rowKey] }

/-- The lookups of the base rows. An index entry without a row is an error. -/
def readBaseRows (records : RecordMap) : List Bytes → VisibleRows → Except String VisibleRows
  | [], rows => .ok rows
  | key :: rest, rows => do
    match ← storedRowByKey records key with
    | none => .error "lite secondary index references a missing row"
    | some row =>
      readBaseRows records rest (if key ∈ rows then rows else rows.insert key row)

/-- `LiteRocksDBStore::scanIndexRange`. -/
def storedIndexRange (records : RecordMap) (startKey endKey : Bytes) :
    Except String (List LiteRow) := do
  guardOk (9 ≤ startKey.length ∧ startKey.head? = some letterI ∧ endKey ≠ [] ∧
    compare startKey endKey = .lt) "invalid lite secondary index range"
  let scan ← readIndexEntries (rangeRecords records startKey endKey) {}
  let rows ← readBaseRows records scan.baseKeys scan.rowsByStorageKey
  .ok (rows.toList.map Prod.snd)

/-! ## The scan -/

/-- The staged changes over the rows of a scan: an update rewrites the first row equal to
the row it found, a delete takes out the first row equal to it. -/
def PendingTable.overlayRows (p : PendingTable) (rows : List LiteRow) : List LiteRow :=
  p.deletes.foldl List.erase
    (p.updates.foldl (fun rows u => rows.replace u.before u.afterRow) rows) ++ p.rows

def LiteTxnContext.scanRows : TxnStep (List LiteRow) := do
  recordFullScanLocked
  let t ← get
  let rows ← lift (storedRows t.snapshot)
  match t.pending with
  | none => pure rows
  | some p => pure (p.overlayRows rows)

/-! ## The lookup of one key -/

def anyUniqueKey (table : LiteTableDef) (row storageKey : Bytes) :
    List (List Nat) → Nat → Except String Bool
  | [], _ => .ok false
  | columns :: rest, ordinal => do
    let key ← liteBuildUniqueKey table row columns ordinal
    if key = some storageKey then .ok true
    else anyUniqueKey table row storageKey rest (ordinal + 1)

def pendingRowMatchesKey (table : LiteTableDef) (row : LiteRow) (storageKey : Bytes) :
    Except String Bool :=
  if storageKey.head? = some letterP then do
    let key ← liteBuildPrimaryKey table row.value.bytes
    .ok (key = storageKey)
  else if storageKey.head? = some letterU then
    anyUniqueKey table row.value.bytes storageKey table.uniqueKeyColumns 0
  else .ok (storageKey.length = 8 && uint64Bytes row.rowId = storageKey)

/-- The first row that matches the key. -/
def findPending (table : LiteTableDef) (storageKey : Bytes) :
    List LiteRow → Except String (Option LiteRow)
  | [] => .ok none
  | row :: rest => do
    if ← pendingRowMatchesKey table row storageKey then .ok (some row)
    else findPending table storageKey rest

/-- The updates, from the last one back: the first that touches the key decides. -/
def findUpdate (table : LiteTableDef) (storageKey : Bytes) :
    List LiteRowMutation → Except String (Option (Option LiteRow))
  | [] => .ok none
  | u :: rest => do
    if ← pendingRowMatchesKey table u.afterRow storageKey then .ok (some (some u.afterRow))
    else if ← pendingRowMatchesKey table u.before storageKey then .ok (some none)
    else findUpdate table storageKey rest

/-- The answer of the staged changes, if they have one. -/
def PendingTable.answer (p : PendingTable) (storageKey : Bytes) :
    Except String (Option (Option LiteRow)) := do
  if (← findPending p.table storageKey p.deletes).isSome then .ok (some none)
  else match ← findUpdate p.table storageKey p.updates.reverse with
    | some found => .ok (some found)
    | none =>
      match ← findPending p.table storageKey p.rows with
      | some row => .ok (some (some row))
      | none => .ok none

def LiteTxnContext.getRowByKey (storageKey : Bytes) : TxnStep (Option LiteRow) := do
  recordReadPointLocked storageKey
  let t ← get
  match ← lift (match t.pending with
    | none => .ok none
    | some p => p.answer storageKey : Except String (Option (Option LiteRow))) with
  | some found => pure found
  | none => lift (storedRowByKey t.snapshot storageKey)

/-- `LiteTxn::upsertRow`: an insert, or an update of the row that the key finds. -/
def LiteTxn.upsertRow (loaded : Except String LiteTableDef) (row : Row) : TxnStep UInt64 := do
  let table := (← get).table
  lift (guardOk (table.keyless = false) "lite UPSERT requires a primary key")
  let key ← lift (liteBuildPrimaryKey table row.bytes)
  match ← LiteTxnContext.getRowByKey key with
  | none => LiteTxnContext.insertRow loaded row
  | some existing =>
    LiteTxnContext.updateRows loaded [⟨existing, row⟩]
    pure existing.rowId

/-! ## Range scans -/

def rowMatchesIndexRange (table : LiteTableDef) (startKey endKey : Bytes) (row : LiteRow) :
    Except String Bool := do
  let rowKey ← rowStorageKey table row
  let entries ← buildSecondaryIndexEntries table row.value.bytes rowKey
  .ok (entries.any fun entry => keyInRange startKey endKey entry.key)

/-- A staged row belongs to the range of primary keys or to the range of index keys. -/
def rowMatchesRange (primaryRange : Bool) (table : LiteTableDef) (startKey endKey : Bytes)
    (row : LiteRow) : Except String Bool :=
  if primaryRange then do
    let key ← rowStorageKey table row
    .ok (keyInRange startKey endKey key)
  else rowMatchesIndexRange table startKey endKey row

/-- The rows of the snapshot by key; each key read is a read of its own. -/
def readVisible (table : LiteTableDef) : List LiteRow → VisibleRows → TxnStep VisibleRows
  | [], visible => pure visible
  | row :: rest, visible => do
    let key ← lift (rowStorageKey table row)
    recordReadPointLocked key
    readVisible table rest (visible.insert key row)

section Overlay

variable (table : LiteTableDef) (matching : LiteRow → Except String Bool)

def eraseDeleted : List LiteRow → VisibleRows → Except String VisibleRows
  | [], visible => .ok visible
  | row :: rest, visible => do
    let key ← rowStorageKey table row
    eraseDeleted rest (visible.erase key)

def putMatching (row : LiteRow) (visible : VisibleRows) : Except String VisibleRows := do
  if ← matching row then
    let key ← rowStorageKey table row
    .ok (visible.insert key row)
  else .ok visible

def moveUpdated : List LiteRowMutation → VisibleRows → Except String VisibleRows
  | [], visible => .ok visible
  | u :: rest, visible => do
    let beforeKey ← rowStorageKey table u.before
    let visible ← putMatching table matching u.afterRow (visible.erase beforeKey)
    moveUpdated rest visible

def putInserted : List LiteRow → VisibleRows → Except String VisibleRows
  | [], visible => .ok visible
  | row :: rest, visible => do
    let visible ← putMatching table matching row visible
    putInserted rest visible

end Overlay

/-- The staged changes over the rows of a range, by key. -/
def PendingTable.overlayRange (p : PendingTable) (matching : LiteRow → Except String Bool)
    (visible : VisibleRows) : Except String VisibleRows := do
  let visible ← eraseDeleted p.table p.deletes visible
  let visible ← moveUpdated p.table matching p.updates visible
  putInserted p.table matching p.rows visible

def scanPhysicalRange (primaryRange : Bool) (startKey endKey : Bytes) :
    TxnStep (List LiteRow) := do
  let t ← get
  let rows ← lift (if primaryRange then storedPrimaryRange t.snapshot startKey endKey
    else storedIndexRange t.snapshot startKey endKey)
  modify fun t => { t with readRanges := ⟨startKey, endKey, false⟩ :: t.readRanges }
  let visible ← readVisible t.table rows ∅
  match t.pending with
  | none => pure (visible.toList.map Prod.snd)
  | some p =>
    let visible ← lift
      (p.overlayRange (rowMatchesRange primaryRange p.table startKey endKey) visible)
    pure (visible.toList.map Prod.snd)

def LiteTxnContext.scanPrimaryRange (startKey endKey : Bytes) : TxnStep (List LiteRow) :=
  scanPhysicalRange true startKey endKey

def LiteTxnContext.scanIndexRange (startKey endKey : Bytes) : TxnStep (List LiteRow) :=
  scanPhysicalRange false startKey endKey

end litestore
