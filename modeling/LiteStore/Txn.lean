-- What a transaction stages on one table. `LiteTxnContext` keeps, for each table, the rows
-- it inserted, its updates and its deletes, and merges every new call into the three lists.
-- Each call also records the keys it writes and the ranges it reads.
import LiteStore.DeltaCommit
import LiteStore.Lib.Stateful

namespace litestore

open checked stateful

/-! ## The state -/

structure PendingTable where
  table : LiteTableDef
  nextRowId : UInt64
  rows : List LiteRow := []
  updates : List LiteRowMutation := []
  deletes : List LiteRow := []
deriving DecidableEq

/-- A read: the whole table, one key (`start` is `endKey`) or the keys from `start` up to
`endKey`. -/
structure OccReadRange where
  start : Bytes := []
  endKey : Bytes := []
  full : Bool := false
deriving DecidableEq

/-- What a transaction holds of one table: the definition that its statements know, the
records of its snapshot, the changes it staged, and what it read and wrote. -/
structure TxnTable where
  table : LiteTableDef
  snapshot : RecordMap
  pending : Option PendingTable := none
  readRanges : List OccReadRange := []
  writeKeys : List Bytes := []
deriving DecidableEq

/-- A call of a transaction. A call that fails keeps what it did before it failed. -/
abbrev TxnStep := EStateM String TxnTable

section

variable (loaded : Except String LiteTableDef) (p : PendingTable) (row : Row)

/-- The changes that the commit gives to `appendPendingMutationsAtomic`. -/
def PendingTable.mutations : Mutations := ⟨p.updates, p.deletes, p.rows⟩

/-! ## What a call records -/

def recordReadPointLocked (key : Bytes) : TxnStep Unit :=
  modify fun t => { t with readRanges := ⟨key, key, false⟩ :: t.readRanges }

def recordFullScanLocked : TxnStep Unit :=
  modify fun t => { t with readRanges := { full := true } :: t.readRanges }

/-- A written key is also read, so that two blind writers conflict. -/
def TxnTable.recordKey (t : TxnTable) (key : Bytes) : TxnTable :=
  { t with writeKeys := key :: t.writeKeys, readRanges := ⟨key, key, false⟩ :: t.readRanges }

def recordWriteKeyLocked (key : Bytes) : TxnStep Unit := modify fun t => t.recordKey key

/-- A row with a null in the constraint has no unique key. -/
def recordBuiltKey : Option Bytes → TxnStep Unit
  | some key => recordWriteKeyLocked key
  | none => pure ()

def recordUniqueKeys (table : LiteTableDef) (row : Bytes) : List (List Nat) → Nat → TxnStep Unit
  | [], _ => pure ()
  | columns :: rest, ordinal => do
    let key ← lift (liteBuildUniqueKey table row columns ordinal)
    recordBuiltKey key
    recordUniqueKeys table row rest (ordinal + 1)

def recordIndexKeys : List LitePhysicalIndexEntry → TxnStep Unit
  | [] => pure ()
  | entry :: rest => do
    recordWriteKeyLocked entry.key
    recordIndexKeys rest

def recordRowWriteLocked (table : LiteTableDef) (row : LiteRow) : TxnStep Unit := do
  let rowKey ← lift (rowStorageKey table row)
  recordWriteKeyLocked rowKey
  recordUniqueKeys table row.value.bytes table.uniqueKeyColumns 0
  let entries ← lift (buildSecondaryIndexEntries table row.value.bytes rowKey)
  recordIndexKeys entries

/-! ## Inserts -/

/-- The loop over the rows of a call. -/
def stageEach {α : Type} (one : PendingTable → α → TxnStep PendingTable) :
    PendingTable → List α → TxnStep Unit
  | _, [] => pure ()
  | p, a :: rest => do
    let p ← one p a
    stageEach one p rest

def setPending : TxnStep Unit := modify fun t => { t with pending := some p }

/-- The first call on a table loads its definition from the catalog. -/
def pendingTable : TxnStep PendingTable := do
  match (← get).pending with
  | some p => pure p
  | none =>
    let table ← lift loaded
    let p : PendingTable := { table, nextRowId := table.nextRowId }
    setPending p
    pure p

def checkPendingPrimaryKeys (table : LiteTableDef) (newKey : Bytes) :
    List LiteRow → Except String Unit
  | [] => .ok ()
  | row :: rest => do
    let existingKey ← liteBuildPrimaryKey table row.value.bytes
    guardOk (existingKey ≠ newKey) "duplicate lite primary key"
    checkPendingPrimaryKeys table newKey rest

def checkPendingUniqueKey (table : LiteTableDef) (columns : List Nat) (ordinal : Nat)
    (newKey : Bytes) : List LiteRow → Except String Unit
  | [] => .ok ()
  | row :: rest => do
    let existingKey ← liteBuildUniqueKey table row.value.bytes columns ordinal
    guardOk (existingKey ≠ some newKey) "duplicate lite unique key"
    checkPendingUniqueKey table columns ordinal newKey rest

def checkPendingUniqueKeys (table : LiteTableDef) (row : Bytes) (rows : List LiteRow) :
    List (List Nat) → Nat → Except String Unit
  | [], _ => .ok ()
  | columns :: rest, ordinal => do
    match ← liteBuildUniqueKey table row columns ordinal with
    | some newKey => checkPendingUniqueKey table columns ordinal newKey rows
    | none => .ok ()
    checkPendingUniqueKeys table row rows rest (ordinal + 1)

/-- A single insert is compared with the rows that the transaction inserted before. -/
def checkPendingInsert : Except String Unit := do
  if p.table.keyless then .ok ()
  else
    let newKey ← liteBuildPrimaryKey p.table row.bytes
    checkPendingPrimaryKeys p.table newKey p.rows
  checkPendingUniqueKeys p.table row.bytes p.rows p.table.uniqueKeyColumns 0

/-- The next row id is handed out, also when the keys of the row cannot be recorded. -/
def stageInsert : TxnStep PendingTable := do
  let fresh : LiteRow := ⟨p.nextRowId, row⟩
  let p := { p with nextRowId := p.nextRowId + 1 }
  setPending p
  recordRowWriteLocked p.table fresh
  let p := { p with rows := p.rows ++ [fresh] }
  setPending p
  pure p

def LiteTxnContext.insertRow : TxnStep UInt64 := do
  let p ← pendingTable loaded
  lift (checkPendingInsert p row)
  let _ ← stageInsert p row
  pure p.nextRowId

def LiteTxnContext.insertRows (rows : List Row) : TxnStep Unit := do
  if rows.isEmpty then pure ()
  else
    let p ← pendingTable loaded
    stageEach stageInsert p rows

/-! ## Updates and deletes -/

/-- The first pending update that left the row behind leaves the new value instead. -/
def retarget (u : LiteRowMutation) : List LiteRowMutation → List LiteRowMutation
  | [] => []
  | v :: rest =>
    if v.afterRow = u.before then { v with after := u.after } :: rest else v :: retarget u rest

/-- An update of a row that the transaction inserted or updated changes that entry. -/
def PendingTable.mergeUpdate (u : LiteRowMutation) : PendingTable :=
  if u.before ∈ p.rows then { p with rows := p.rows.replace u.before u.afterRow }
  else if ∃ v ∈ p.updates, v.afterRow = u.before then
    { p with updates := retarget u p.updates }
  else { p with updates := p.updates ++ [u] }

end

/-- A delete of a row that the transaction inserted forgets it, and a delete of a row that
it updated deletes the row it found. -/
def PendingTable.mergeDelete (p : PendingTable) (row : LiteRow) : Except String PendingTable :=
  if row ∈ p.rows then .ok { p with rows := p.rows.erase row }
  else match p.updates.find? (·.afterRow = row) with
    | some u => .ok { p with deletes := p.deletes ++ [u.before],
                             updates := p.updates.eraseP (·.afterRow = row) }
    | none =>
      if row ∈ p.deletes then .error "lite delete selected a row more than once"
      else .ok { p with deletes := p.deletes ++ [row] }

def stageUpdate (p : PendingTable) (u : LiteRowMutation) : TxnStep PendingTable := do
  withError ("record OCC before-image keys: " ++ ·) (recordRowWriteLocked p.table u.before)
  withError ("record OCC after-image keys: " ++ ·) (recordRowWriteLocked p.table u.afterRow)
  let p := p.mergeUpdate u
  setPending p
  pure p

def LiteTxnContext.updateRows (loaded : Except String LiteTableDef) (mutations : List LiteRowMutation) :
    TxnStep Unit := do
  let p ← pendingTable loaded
  stageEach stageUpdate p mutations

def stageDelete (p : PendingTable) (row : LiteRow) : TxnStep PendingTable := do
  recordRowWriteLocked p.table row
  let p ← lift (p.mergeDelete row)
  setPending p
  pure p

def LiteTxnContext.deleteRows (loaded : Except String LiteTableDef) (rows : List LiteRow) :
    TxnStep Unit := do
  let p ← pendingTable loaded
  stageEach stageDelete p rows

end litestore
