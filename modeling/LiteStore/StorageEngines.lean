-- Two engines behind one interface of transactions over a key space. One walks an iterator, the
-- other steps a statement of SQL. Both are held against the contract that they share.
import LiteStore.Records
import LiteStore.Lib.OrderedScan

namespace litestore

open orderedscan

/-! ## The interface -/

/-- How the disk and the library underneath answer a call. -/
structure StorageIo where
  watermark : Bool := true
  call : Bool := true
  flush : Bool := true

inductive StorageCall
  | get (key : Bytes)
  | put (key value : Bytes)
  | erase (key : Bytes)
  | scan (beginKey endKey : Bytes)
  | next (cursor : Nat)
  | commit
  | rollback
deriving DecidableEq

abbrev StorageRun := List (StorageIo × StorageCall)

inductive StorageReply
  | failed
  | done
  | found (value : Option Bytes)
  | record (record : Option (Bytes × Bytes))
deriving DecidableEq

/-- A cursor with the bounds of its scan. The view of the time of the scan is kept to say what
the contract asks for. -/
structure OpenScan (C : Type) where
  opened : RecordMap
  beginKey : Bytes
  endKey : Bytes
  cursor : C

/-- A transaction over the committed key space, and the cursors that it has opened. -/
structure StorageTxn (C : Type) where
  committed : RecordMap
  view : RecordMap
  active : Bool := true
  cursors : List (OpenScan C) := []

/-- What the engines do each in its own way. A cursor is read while the transaction has some
view. -/
structure StorageEngine (C : Type) where
  scan : RecordMap → Bytes → Bytes → C
  next : RecordMap → OpenScan C → Option (Bytes × Bytes) × C
  flushed : StorageIo → Bool := fun _ => true

variable {C : Type}

def StorageEngine.step (e : StorageEngine C) (s : StorageTxn C) (io : StorageIo) :
    StorageCall → StorageReply × StorageTxn C
  | .get key => if s.active && io.call then (.found s.view[key]?, s) else (.failed, s)
  | .put key value =>
    if s.active && io.watermark && io.call then
      (.done, { s with view := s.view.insert key value })
    else (.failed, s)
  | .erase key =>
    if s.active && io.watermark && io.call then (.done, { s with view := s.view.erase key })
    else (.failed, s)
  | .scan beginKey endKey =>
    if s.active && (endKey.isEmpty || compare endKey beginKey = .gt) && io.call then
      let cursor := e.scan s.view beginKey endKey
      (.done, { s with cursors := s.cursors ++ [⟨s.view, beginKey, endKey, cursor⟩] })
    else (.failed, s)
  | .next n =>
    match s.cursors[n]? with
    | none => (.failed, s)
    | some c =>
      let (record, cursor) := e.next s.view c
      (.record record, { s with cursors := s.cursors.set n { c with cursor } })
  | .commit =>
    if s.active && io.watermark && io.call then
      if e.flushed io then (.done, { s with committed := s.view, active := false })
      else (.failed, { s with committed := s.view })
    else (.failed, s)
  | .rollback =>
    if s.active && io.call then (.done, { s with view := s.committed, active := false })
    else (.failed, s)

/-! ## The engines -/

/-- The iterator stands at the begin of the range when `scan` returns. -/
abbrev RocksDBCursor := List (Bytes × Bytes)

def RocksDBCursor.next (c : OpenScan RocksDBCursor) : Option (Bytes × Bytes) × RocksDBCursor :=
  match c.cursor with
  | [] => (none, [])
  | r :: rest =>
    if !c.endKey.isEmpty && compare r.1 c.endKey ≠ .lt then (none, r :: rest)
    else (some r, rest)

/-- With synchronous commits the log is flushed behind the commit. -/
def rocksDBEngine (synchronousCommit : Bool) : StorageEngine RocksDBCursor where
  scan view beginKey _ := view.toList.dropWhile fun r => compare r.1 beginKey = .lt
  next _ := RocksDBCursor.next
  flushed io := !synchronousCommit || io.flush

/-- A value of SQL: a blob is never equal to a text. -/
inductive SqlCell
  | blob (bytes : Bytes)
  | text (bytes : Bytes)
deriving DecidableEq

/-- The records of `SELECT k,v FROM kv WHERE k>=?1 AND (?2='' OR k<?2)` with two blobs. -/
def selectRange (view : RecordMap) (beginKey endKey : Bytes) : List (Bytes × Bytes) :=
  view.toList.filter fun r => compare r.1 beginKey ≠ .lt &&
    (decide (SqlCell.blob endKey = .text []) || compare r.1 endKey = .lt)

/-- `scan` prepares the statement and binds its values. It runs from the first step on. -/
structure SQLiteCursor where
  statement : Option (List (Bytes × Bytes)) := none
  finished : Bool := false

def SQLiteCursor.next (view : RecordMap) (c : OpenScan SQLiteCursor) :
    Option (Bytes × Bytes) × SQLiteCursor :=
  if c.cursor.finished then (none, c.cursor)
  else
    match c.cursor.statement.getD (selectRange view c.beginKey c.endKey) with
    | [] => (none, ⟨some [], true⟩)
    | r :: rest => (some r, ⟨some rest, false⟩)

def sqliteEngine : StorageEngine SQLiteCursor where
  scan _ _ _ := {}
  next := SQLiteCursor.next

/-- A cursor of the contract is the records that it still has to deliver. -/
def storageContract : StorageEngine (List (Bytes × Bytes)) where
  scan view beginKey endKey := view.toList.filter fun r => compare r.1 beginKey ≠ .lt &&
    (endKey.isEmpty || compare r.1 endKey = .lt)
  next _ c := (c.cursor.head?, c.cursor.tail)

/-! ## One call -/

/-- A transaction with its cursors as the contract has them. -/
def StorageTxn.map (rest : OpenScan C → List (Bytes × Bytes)) (s : StorageTxn C) :
    StorageTxn (List (Bytes × Bytes)) :=
  ⟨s.committed, s.view, s.active, s.cursors.map fun c => { c with cursor := rest c }⟩

/-- Nothing stands behind the begin of a scan without an end, a cursor is read while the records of
its range are those of the time of the scan and the transaction is active, and the log is flushed
behind a commit. -/
def StorageTxn.Clear (sync : Bool) (s : StorageTxn C) (io : StorageIo) : StorageCall → Prop
  | .scan b k => k = [] → ∀ r ∈ s.view.toList, compare r.1 b = .lt
  | .next n => s.active = true ∧ ∀ c ∈ s.cursors[n]?,
    storageContract.scan s.view c.beginKey c.endKey =
      storageContract.scan c.opened c.beginKey c.endKey
  | .commit => sync = false ∨ io.flush = true
  | _ => True

theorem StorageTxn.clear_map {rest : OpenScan C → List (Bytes × Bytes)} {sync : Bool}
    {s : StorageTxn C} {io : StorageIo} {call : StorageCall}
    (h : (s.map rest).Clear sync io call) : s.Clear sync io call := by
  cases call with
  | next n =>
    refine ⟨h.1, fun c hc => h.2 { c with cursor := rest c } ?_⟩
    rw [map, List.getElem?_map, hc]
    rfl
  | _ => exact h

/-- An engine whose cursors deliver as those of the contract, and that flushes its log, answers a
call like it. -/
theorem StorageEngine.step_map {e : StorageEngine C} {rest : OpenScan C → List (Bytes × Bytes)}
    {sync : Bool} {s : StorageTxn C} {io : StorageIo} {call : StorageCall}
    (hclear : s.Clear sync io call)
    (hscan : ∀ b k, (k = [] → ∀ r ∈ s.view.toList, compare r.1 b = .lt) →
      rest ⟨s.view, b, k, e.scan s.view b k⟩ = storageContract.scan s.view b k)
    (hnext : ∀ c, storageContract.scan s.view c.beginKey c.endKey =
        storageContract.scan c.opened c.beginKey c.endKey →
      (e.next s.view c).1 = (rest c).head? ∧
        rest { c with cursor := (e.next s.view c).2 } = (rest c).tail)
    (hflush : sync = false ∨ io.flush = true → e.flushed io = true) :
    storageContract.step (s.map rest) io call =
      ((e.step s io call).1, (e.step s io call).2.map rest) := by
  cases call with
  | get key | put key value | erase key | rollback =>
    simp only [step, StorageTxn.map]
    split <;> simp [*]
  | scan b k =>
    simp only [step, StorageTxn.map]
    split <;> simp [*, hscan b k hclear]
  | next n =>
    simp only [step, StorageTxn.map, List.getElem?_map]
    cases hc : s.cursors[n]? with
    | none => rfl
    | some c =>
      obtain ⟨hrecord, htail⟩ := hnext c (hclear.2 c hc)
      simp [hrecord, htail, storageContract, List.map_set]
  | commit =>
    simp only [step, StorageTxn.map, hflush hclear]
    split <;> simp [*, storageContract]

def RocksDBCursor.rest (c : OpenScan RocksDBCursor) : List (Bytes × Bytes) :=
  c.cursor.takeWhile fun r => c.endKey.isEmpty || compare r.1 c.endKey = .lt

/-- Before its first step a statement has the records of its range still to deliver. -/
def SQLiteCursor.rest (c : OpenScan SQLiteCursor) : List (Bytes × Bytes) :=
  if c.cursor.finished then []
  else c.cursor.statement.getD (selectRange c.opened c.beginKey c.endKey)

theorem RocksDBCursor.next_rest (c : OpenScan RocksDBCursor) : (next c).1 = (rest c).head? ∧
    rest { c with cursor := (next c).2 } = (rest c).tail := by
  obtain ⟨_, _, endKey, _ | ⟨r, iterator⟩⟩ := c
  · simp [next, rest]
  · by_cases hempty : endKey = [] <;> by_cases hlt : compare r.1 endKey = .lt <;>
      simp [next, rest, hempty, hlt]

theorem SQLiteCursor.next_rest {view : RecordMap} {c : OpenScan SQLiteCursor}
    (h : selectRange view c.beginKey c.endKey = selectRange c.opened c.beginKey c.endKey) :
    (next view c).1 = (rest c).head? ∧
      rest { c with cursor := (next view c).2 } = (rest c).tail := by
  unfold SQLiteCursor.next SQLiteCursor.rest
  rw [h]
  split
  · simp_all
  · split <;> simp_all

theorem rocksDB_scan (sync : Bool) (view : RecordMap) (b k : Bytes) :
    RocksDBCursor.rest ⟨view, b, k, (rocksDBEngine sync).scan view b k⟩ =
      storageContract.scan view b k := by
  show scanWhile compare Prod.fst b (fun x => k.isEmpty || compare x k = .lt) view.toList = _
  refine scanWhile_eq_filter Std.ExtTreeMap.ordered_keys_toList fun x y _ hxy => ?_
  simp only [Bool.or_eq_true, decide_eq_true_eq]
  exact Or.imp_right (Std.TransCmp.lt_trans hxy)

/-- The statement finds the records of the range, but nothing if there is no end. -/
theorem selectRange_eq (view : RecordMap) (b k : Bytes) :
    selectRange view b k = if k = [] then [] else storageContract.scan view b k := by
  cases k with
  | nil =>
    refine List.filter_eq_nil_iff.mpr fun r _ => ?_
    simp [not_lt_of_extends List.nil_prefix]
  | cons c k => simp [selectRange, storageContract]

theorem sqlite_scan {view : RecordMap} {b k : Bytes}
    (h : k = [] → ∀ r ∈ view.toList, compare r.1 b = .lt) :
    selectRange view b k = storageContract.scan view b k := by
  rw [selectRange_eq]
  split
  · rename_i hempty
    exact (List.filter_eq_nil_iff.mpr fun r hr => by simp [h hempty r hr]).symm
  · rfl

/-! ## Runs -/

/-- The replies of a run, each with the key space that is committed behind it. -/
def StorageEngine.observed (e : StorageEngine C) :
    StorageTxn C → StorageRun → List (StorageReply × RecordMap)
  | _, [] => []
  | s, (io, call) :: rest =>
    ((e.step s io call).1, (e.step s io call).2.committed) :: e.observed (e.step s io call).2 rest

/-- A commit that fails leaves the key space unchanged. -/
def StorageEngine.FailsClean (e : StorageEngine C) : StorageTxn C → StorageRun → Prop
  | _, [] => True
  | s, (io, call) :: rest =>
    (call = .commit → (e.step s io call).1 = .failed →
      (e.step s io call).2.committed = s.committed) ∧ e.FailsClean (e.step s io call).2 rest

def StorageTxn.fresh (records : RecordMap) : StorageTxn C := ⟨records, records, true, []⟩

structure KeepsContract (e : StorageEngine C) (records : RecordMap) (calls : StorageRun) : Prop
    where
  observed : e.observed (.fresh records) calls = storageContract.observed (.fresh records) calls
  clean : e.FailsClean (.fresh records) calls

def AllClear (sync : Bool) : StorageTxn (List (Bytes × Bytes)) → StorageRun → Prop
  | _, [] => True
  | s, (io, call) :: rest =>
    s.Clear sync io call ∧ AllClear sync (storageContract.step s io call).2 rest

theorem StorageEngine.run_map {e : StorageEngine C} {sync : Bool}
    {rest : OpenScan C → List (Bytes × Bytes)}
    (hstep : ∀ s io call, s.Clear sync io call → storageContract.step (s.map rest) io call =
      ((e.step s io call).1, (e.step s io call).2.map rest))
    {s : StorageTxn C} {calls : StorageRun} (h : AllClear sync (s.map rest) calls) :
    e.observed s calls = storageContract.observed (s.map rest) calls ∧ e.FailsClean s calls := by
  induction calls generalizing s with
  | nil => exact ⟨rfl, trivial⟩
  | cons x calls ih =>
    obtain ⟨io, call⟩ := x
    have hone := hstep s io call (StorageTxn.clear_map h.1)
    have hrest := h.2
    rw [hone] at hrest
    obtain ⟨hobserved, hclean⟩ := ih hrest
    refine ⟨?_, ?_, hclean⟩
    · rw [observed, observed, hone, hobserved]
      rfl
    · rintro rfl hfailed
      have hkept : (storageContract.step (s.map rest) io .commit).1 = .failed →
          (storageContract.step (s.map rest) io .commit).2.committed = s.committed := by
        simp only [step, storageContract]
        split <;> simp [StorageTxn.map]
      rw [hone] at hkept
      exact hkept hfailed

/-- Both engines keep the contract in every run in which nothing stands behind the begin of a scan
without an end, cursors are read on the records that they were opened on, and the log is flushed
behind each commit. -/
theorem engines_keep_the_contract (sync : Bool) (records : RecordMap) (calls : StorageRun)
    (h : AllClear sync (.fresh records) calls) :
    KeepsContract (rocksDBEngine sync) records calls ∧
      KeepsContract sqliteEngine records calls := by
  have hrocks : ∀ s io call, StorageTxn.Clear sync s io call → _ := fun s io call hclear =>
    StorageEngine.step_map (e := rocksDBEngine sync) hclear
      (fun b k _ => rocksDB_scan sync s.view b k) (fun c _ => RocksDBCursor.next_rest c)
      (by simp [rocksDBEngine])
  have hsqlite : ∀ s io call, StorageTxn.Clear sync s io call → _ := fun s io call hclear =>
    StorageEngine.step_map (e := sqliteEngine) hclear (fun b k hend => sqlite_scan hend)
      (fun c hsame => SQLiteCursor.next_rest (by rw [selectRange_eq, selectRange_eq, hsame]))
      fun _ => rfl
  obtain ⟨hr, hr'⟩ := StorageEngine.run_map hrocks (s := .fresh records) h
  obtain ⟨hq, hq'⟩ := StorageEngine.run_map hsqlite (s := .fresh records) h
  exact ⟨⟨hr, hr'⟩, ⟨hq, hq'⟩⟩

def scanOne : StorageRun :=
  [({}, .put [1] [2]), ({}, .scan [] [3]), ({}, .next 0), ({}, .next 0), ({}, .commit)]

theorem one_record_is_scanned : AllClear true (.fresh ∅) scanOne ∧
    KeepsContract (rocksDBEngine true) ∅ scanOne ∧ KeepsContract sqliteEngine ∅ scanOne := by
  have hclear : AllClear true (.fresh ∅) scanOne := by
    refine ⟨trivial, nofun, ⟨rfl, fun c hc => ?_⟩, ⟨rfl, fun c hc => ?_⟩, .inr rfl, trivial⟩ <;>
    · cases hc
      rfl
  exact ⟨hclear, engines_keep_the_contract true ∅ scanOne hclear⟩

/-- A scan without an end finds nothing in the one engine, which also finds what is written behind a
scan, and a commit of the other engine answers with an error although it is done. -/
theorem open_scan_finds_nothing :
    ¬ KeepsContract sqliteEngine ∅ [({}, .put [1] [2]), ({}, .scan [] []), ({}, .next 0)] ∧
    ¬ KeepsContract sqliteEngine ∅ [({}, .scan [] [3]), ({}, .put [1] [2]), ({}, .next 0)] ∧
    ¬ KeepsContract (rocksDBEngine true) ∅ [({}, .put [1] [2]), ({ flush := false }, .commit)] := by
  refine ⟨fun h => ?_, fun h => ?_, fun h => ?_⟩
  · exact absurd (congrArg (·.map Prod.fst) h.observed) (by decide +kernel)
  · exact absurd (congrArg (·.map Prod.fst) h.observed) (by decide +kernel)
  · have hkept := h.clean.2.1 rfl (by decide +kernel)
    exact absurd (congrArg (fun m : RecordMap => m[([1] : Bytes)]?) hkept) (by decide +kernel)

end litestore
