-- One stored table: its definition in the catalog, the names of its indexes
-- in the catalog and its records. Each call of RocksDB may fail; the failures
-- of one operation are given by what the call was for and the key it touched.
import LiteStore.TableImage

namespace litestore

open checked rowimage

structure TableState where
  table : LiteTableDef
  indexKeys : List String
  records : RecordMap
deriving DecidableEq

/-- A table as `createTable` leaves it: no row and no index entry. -/
def emptyTable (table : LiteTableDef) : TableState := ⟨table, [], ∅⟩

/-- The error that RocksDB reports for a call, if the call fails. -/
abbrev Faults := String → Bytes → Option String

/-- Every call succeeds. -/
def noFaults : Faults := fun _ _ => none

def containsNoCase (s needle : String) : Bool :=
  !needle.toList.isEmpty &&
    containsWord (s.toList.map Char.toLower) (String.ofList (needle.toList.map Char.toLower))

/-- The text that `checkRocksError` makes of an error. -/
def rocksErrorText (what rocksError : String) : String :=
  if containsNoCase rocksError "/LOCK" || containsNoCase rocksError " lock " ||
      containsNoCase rocksError "lock hold" then
    what ++ ": lite store is already open by another process; use one sqlci process per " ++
      "TRAF_LITE_STORE_DIR or choose a different TRAF_LITE_STORE_DIR: " ++ rocksError
  else what ++ ": " ++ rocksError

def checkRocksError (faults : Faults) (what : String) (key : Bytes) : Except String Unit :=
  match faults what key with
  | none => .ok ()
  | some rocksError => .error (rocksErrorText what rocksError)

variable {faults : Faults} {what : String} {key : Bytes} {u : Unit} {st : TableState}

@[simp] theorem checkRocksError_eq_ok :
    checkRocksError faults what key = .ok u ↔ faults what key = none := by
  unfold checkRocksError
  cases faults what key <;> simp

/-- `rocksdb_get` on the records of the table. -/
def readRecord (faults : Faults) (st : TableState) (what : String) (key : Bytes) :
    Except String (Option Bytes) := do
  checkRocksError faults what key
  .ok st.records[key]?

/-- `keyExistsLocked`, and an error when the key is there. -/
def probeFree (faults : Faults) (st : TableState) (what : String) (key : Bytes)
    (message : String) : Except String Unit := do
  checkRocksError faults what key
  guardOk (key ∉ st.records) message

theorem readRecord_eq_ok {value : Option Bytes} :
    readRecord faults st what key = .ok value ↔
      faults what key = none ∧ st.records[key]? = value := by
  unfold readRecord
  simp [bind_eq_ok]

theorem probeFree_eq_ok {message : String} :
    probeFree faults st what key message = .ok u ↔
      faults what key = none ∧ st.records[key]? = none := by
  unfold probeFree
  simp only [bind_eq_ok, checkRocksError_eq_ok, guardOk_eq_ok, not_mem_iff_getElem?,
    exists_and_left, exists_const]

/-- `loadTableLocked`, which every operation begins with. The request names the table by
its uid as well; an operation that checks it fails when the table was replaced. -/
def loadTable (faults : Faults) (st : TableState) (request : Option (UInt64 × String)) :
    Except String Unit := do
  checkRocksError faults "read lite table metadata" []
  match request with
  | none => .ok ()
  | some (objectUid, message) => guardOk (st.table.objectUid = objectUid) message

/-- `openTableLocked`. -/
def openTable (faults : Faults) : Except String Unit :=
  checkRocksError faults "open RocksDB table" []

theorem loadTable_eq_ok {objectUid : UInt64} {message : String} :
    loadTable faults st (some (objectUid, message)) = .ok u ↔
      faults "read lite table metadata" [] = none ∧ st.table.objectUid = objectUid := by
  unfold loadTable
  simp [bind_eq_ok]

def rowIdAllocationChanged : String :=
  "lite keyless row-id allocation changed while transaction was active; " ++
    "restart and retry the transaction"

/-- A write batch on the records: the erasures, then the puts. -/
def writeBatch (records : RecordMap) (erased : List Bytes) (puts : List (Bytes × Bytes)) :
    RecordMap :=
  putAll (eraseAll records erased) puts

/-! ## A small table -/

/-- A table of two numbers with a primary key on the first. -/
def smallTable : LiteTableDef where
  catalog := "TRAFODION"
  schema := "SCH"
  name := "T"
  objectUid := 7
  columns := [⟨"K", "INT", false⟩, ⟨"V", "INT", false⟩]
  primaryKeyColumns := [0]

/-- The same columns with no primary key. -/
def smallLog : LiteTableDef := { smallTable with primaryKeyColumns := [] }

/-- A row of the small table. -/
def smallRow (k v : UInt8) : Row where
  bytes := liteBinaryRowMagic ++ [8, 0, 0, 0, 0, 0, 0, 0, k, 0, 0, 0, v, 0, 0, 0]
  short := by simp [liteBinaryRowMagic]

/-- The small table with some rows in it. -/
def smallStored (rows : List (UInt8 × UInt8)) : TableState :=
  ⟨smallTable, [], imageOf smallTable (rows.map fun r => ⟨0, smallRow r.1 r.2⟩)⟩

section Plain

variable {table : LiteTableDef} (hunique : table.uniqueKeyColumns = [])
  (hindexes : table.secondaryIndexes = [])

include hunique hindexes

theorem plain_entries (encoded : Bytes) (key : Bytes) : uniqueKeysOf table encoded = .ok [] ∧
    buildSecondaryIndexEntries table encoded key = .ok [] := by
  simp [uniqueKeysOf, hunique, uniqueKeysFrom, buildSecondaryIndexEntries, hindexes, indexEntriesOf]

/-- In a table with a primary key and nothing else, a row owns one record. -/
theorem recordAt_plain {row : LiteRow} {k v : Bytes}
    (hkey : rowStorageKey table row = .ok key) (h : recordAt table row k = some v) : k = key := by
  obtain ⟨hkeys, hentries⟩ := plain_entries hunique hindexes row.value.bytes key
  rw [recordAt_eq_some hkey hkeys hentries (by simp [recordEntries])] at h
  simp only [recordEntries, List.map_nil, List.append_nil, List.mem_singleton, Prod.mk.injEq] at h
  exact h.1

/-- The rows have keys, and no two have the same one. -/
def keysDiffer (table : LiteTableDef) (rows : List LiteRow) : Bool :=
  match rows.mapM (rowStorageKey table) with
  | .ok keys => keys.Nodup
  | .error _ => false

/-- Rows with different primary keys fit into a table with nothing but a primary key. -/
theorem tableImage_plain {rows : List LiteRow}
    (hkeyed : table.keyless = false) (hzero : ∀ row ∈ rows, row.rowId = 0)
    (hkeys : keysDiffer table rows = true) : TableImage table (imageOf table rows) := by
  obtain ⟨keys, hall, hnd⟩ : ∃ keys, List.Forall₂ (fun row key => rowStorageKey table row = .ok key)
      rows keys ∧ keys.Nodup := by
    unfold keysDiffer at hkeys
    cases hm : rows.mapM (rowStorageKey table) with
    | error e => simp [hm] at hkeys
    | ok keys =>
      simp only [hm, decide_eq_true_eq] at hkeys
      exact ⟨keys, mapM_eq_ok.mp hm, hkeys⟩
  have hone : ∀ row ∈ rows, ∃ key, rowStorageKey table row = .ok key := fun row hrow => by
    obtain ⟨key, -, hkey⟩ := forall₂_exists_right hall hrow
    exact ⟨key, hkey⟩
  have hapart : Apart (recordAt table) rows := by
    intro k
    have hcount : owners (recordAt table) rows k ≤ keys.count k := by
      clear hnd hkeys hzero hone
      induction hall with
      | nil => simp [owners]
      | @cons row key rows keys hkey hrest ih =>
        rw [owners_cons, List.count_cons]
        by_cases hown : (recordAt table row k).isSome = true
        · obtain ⟨v, hv⟩ := Option.isSome_iff_exists.mp hown
          have hk := recordAt_plain hunique hindexes hkey hv
          rw [if_pos hown, if_pos (by simpa using hk.symm)]
          omega
        · rw [if_neg hown]
          omega
    exact hcount.trans (List.nodup_iff_count_le_one.mp hnd k)
  have himage := imageOf_isImage hapart
  have hdata : dataRecord (imageOf table rows) = fun k => (imageOf table rows)[k]? := by
    funext k
    unfold dataRecord
    split
    · rename_i hmarker
      exact ((himage.none_iff (k := k)).mpr (owners_marker hmarker)).symm
    · rfl
  refine tableImage_iff.mpr ⟨rows, fun row hrow => ?_, by rw [hdata]; exact himage⟩
  obtain ⟨key, hkey⟩ := hone row hrow
  obtain ⟨hkeys, hentries⟩ := plain_entries hunique hindexes row.value.bytes key
  refine ⟨⟨_, rowRecords_eq_ok.mpr ⟨key, [], [], hkey, hkeys, hentries, by simp [recordEntries],
    rfl⟩⟩, fun key' hkey' => ?_, fun _ => hzero row hrow⟩
  rcases rowStorageKey_shape hkey' with ⟨hless, -⟩ | ⟨-, hhead, -⟩
  · rw [hkeyed] at hless
    simp at hless
  · cases key' with
    | nil => rfl
    | cons b rest =>
      simp only [List.head?_cons, Option.some.injEq] at hhead
      subst hhead
      rfl

end Plain

end litestore
