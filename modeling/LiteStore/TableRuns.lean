-- Whole runs of one table. Each step is one routine of the store, with its own
-- failures. In every run whose steps meet the conditions below, the table
-- holds the image of its rows after every step.
import LiteStore.CommitAgreement
import LiteStore.SchemaImage

namespace litestore

open checked rowimage List

/-! ## The commits of a transaction -/

/-- `appendPendingMutationsAtomic` and the write of the batch that it adds to. -/
def commitDelta (faults : Faults) (st : TableState) (table : LiteTableDef) (m : Mutations) :
    Except String Unit × TableState :=
  match appendPendingMutationsAtomic faults false st table m with
  | .error e => (.error e, st)
  | .ok batch =>
    match checkRocksError faults "commit Lite unified batch" [] with
    | .error e => (.error e, st)
    | .ok () => (.ok (), st.applyBatch batch)

variable {faults : Faults} {st : TableState} {m : Mutations} {final : RecordMap}

theorem commitDelta_good (faults : Faults) (table : LiteTableDef) (h : TableGood st)
    (hids : BaseRowIds st.table m.inserts) : TableGood (commitDelta faults st table m).2 ∧
      SameRecords st.table (commitDelta faults st table m).2.table := by
  unfold commitDelta
  split
  · exact ⟨h, .refl _⟩
  · rename_i batch hbatch
    split
    · exact ⟨h, .refl _⟩
    · cases hne : m.isEmpty with
      | true =>
        simp only [appendPendingMutationsAtomic, hne, if_true, Except.ok.injEq] at hbatch
        subst hbatch
        exact ⟨h, .refl _⟩
      | false =>
        obtain ⟨rows, himage⟩ := tableImage_iff.mp h.image
        obtain ⟨stay, -, hafter⟩ := append_rows himage hne hbatch hids
        have hsame := (append_accepted hne hbatch).2.sameRecords
        refine ⟨⟨tableImage_iff.mpr ⟨_, hafter⟩, ?_⟩, hsame⟩
        unfold UidsApart
        rw [hsame.secondaryIndexes]
        exact h.uids

theorem finalRecords_scanned (h : finalRecords faults st m = .ok final) :
    faults "scan lite rows for transaction commit" [] = none := by
  simp only [finalRecords, originalRows, bind_eq_ok, checkRocksError_eq_ok] at h
  obtain ⟨_, ⟨_, _, _, hscan, _⟩, _⟩ := h
  exact hscan

/-- The image that the whole-image commit computed is the image of some rows. -/
theorem finalRecords_rows {rows : List LiteRow} (himage : RowsImage st.table rows st.records)
    (hids : BaseRowIds st.table m.inserts) (h : finalRecords faults st m = .ok final) :
    ∃ stay, (∀ row ∈ stay ++ m.incoming.map (normalRow st.table), RowBuilt st.table row) ∧
      IsImage (recordAt st.table) (stay ++ m.incoming.map (normalRow st.table))
        (fun k => final[k]?) := by
  obtain ⟨-, -, harriving, stay, hperm, -, hfinal⟩ :=
    (finalRecords_eq_ok himage (finalRecords_scanned h)).mp h
  have hstay : ∀ row ∈ stay, RowBuilt st.table row := fun row hrow =>
    himage.built row (hperm.mem_iff.mpr (mem_append_right _ hrow))
  have hsame : (stay ++ m.incoming).map (normalRow st.table) =
      stay ++ m.incoming.map (normalRow st.table) := by
    rw [map_append, map_normalRow_of_built hstay]
  refine ⟨stay, fun row hrow => ?_, hsame ▸ isImage_normalRow.mpr hfinal⟩
  rcases mem_append.mp hrow with hrow | hrow
  · exact hstay row hrow
  · exact incoming_built himage (fun r hr => hperm.mem_iff.mpr (mem_append_left _
      (mem_map.mpr ⟨r, hr, rfl⟩))) harriving hids row hrow

theorem writeImage_good {journalTransactionId : UInt64} (h : TableGood st)
    (hids : BaseRowIds st.table m.inserts) (hfinal : finalRecords faults st m = .ok final) :
    TableGood (writeImage faults st m journalTransactionId final).2 := by
  obtain ⟨rows, himage⟩ := tableImage_iff.mp h.image
  obtain ⟨stay, hbuilt, hrows⟩ := finalRecords_rows himage hids hfinal
  have hdata : ∀ marker : List (Bytes × Bytes), (∀ p ∈ marker, isJournalMarker p.1 = true) →
      RowsImage st.table (stay ++ m.incoming.map (normalRow st.table))
        (putAll (eraseAll (putAll st.records marker) (staleKeys st.records final))
          (changedRecords st.records final)) := by
    intro marker hmarker
    refine ⟨hbuilt, ?_⟩
    have heq : dataRecord (putAll (eraseAll (putAll st.records marker)
        (staleKeys st.records final)) (changedRecords st.records final)) = fun k => final[k]? := by
      funext k
      unfold dataRecord
      cases hm : isJournalMarker k with
      | true =>
        simp only [if_true]
        exact ((hrows.none_iff k).mpr (owners_marker hm)).symm
      | false =>
        simp only [Bool.false_eq_true, if_false]
        refine writeImage_getElem? (putAll_of_notMem fun hin => ?_)
        obtain ⟨p, hp, rfl⟩ := mem_map.mp hin
        rw [hmarker p hp] at hm
        simp at hm
    rw [heq]
    exact hrows
  have hmarker : ∀ p ∈ (if journalTransactionId = 0 then []
      else [(transactionTableMarker journalTransactionId, [(49 : UInt8)])]),
      isJournalMarker p.1 = true := by
    intro p hp
    split at hp
    · simp at hp
    · rw [mem_singleton] at hp
      subst hp
      simp [isJournalMarker, transactionTableMarker]
  unfold writeImage
  simp only
  split
  · split
    · exact h
    · split
      · exact TableGood.of_same (hdata _ hmarker) h.uids (sameRecords_nextRowId _ _)
      · split
        · exact h
        · exact TableGood.of_same himage h.uids (sameRecords_nextRowId _ _)
  · split
    · exact TableGood.of_same (hdata _ hmarker) h.uids (SameRecords.refl _)
    · exact h

theorem commitPendingMutations_good {table : LiteTableDef} {validateOnly : Bool}
    {journalTransactionId : UInt64} (h : TableGood st) (hids : BaseRowIds st.table m.inserts) :
    TableGood (commitPendingMutations faults st table m validateOnly journalTransactionId).2 := by
  unfold commitPendingMutations
  split
  · exact h
  · split
    · exact h
    · exact h
    · split
      · exact h
      · rename_i final hfinal
        split
        · exact h
        · exact writeImage_good h hids hfinal

/-! ## Runs -/

/-- One call of the store on the table. -/
inductive TableOp where
  | insertRow (row : Row)
  | updateRows (table : LiteTableDef) (mutations : List LiteRowMutation)
  | deleteRows (table : LiteTableDef) (rows : List LiteRow)
  | commitPendingRows (table : LiteTableDef) (rows : List LiteRow)
  | commitPendingMutations (table : LiteTableDef) (m : Mutations) (validateOnly : Bool)
      (journalTransactionId : UInt64)
  | commitDelta (table : LiteTableDef) (m : Mutations)
  | replaceTableDefinition (oldTable newTable : LiteTableDef) (mutations : List LiteRowMutation)
  | createIndex (names : OtherNames) (index : LiteIndexDef)
  | dropIndex (name : String) (ifExists : Bool)

/-- The table after a call, whether it succeeds or fails. -/
def TableState.step (st : TableState) (faults : Faults) : TableOp → TableState
  | .insertRow row => (insertRow faults st row).2
  | .updateRows table mutations => (updateRows faults st table mutations).2
  | .deleteRows table rows => (deleteRows faults st table rows).2
  | .commitPendingRows table rows => (commitPendingRows faults st table rows).2
  | .commitPendingMutations table m validateOnly journalTransactionId =>
    (commitPendingMutations faults st table m validateOnly journalTransactionId).2
  | .commitDelta table m => (commitDelta faults st table m).2
  | .replaceTableDefinition oldTable newTable mutations =>
    (replaceTableDefinition faults st oldTable newTable mutations).2
  | .createIndex names index => (createIndex faults names st index).2
  | .dropIndex name ifExists => (dropIndex faults st name ifExists).2

/-- What a call must meet, given the table in front of it.
- A row id that a keyless table hands out does not start with the byte of another record.
- The rows of `commitPendingRows` have different keys in each index.
- `replaceTableDefinition` is called as `alterTable` calls it, and either its catalog write
  or its rollback succeeds.
- A new index has a uid that no index of the table has, and either its catalog write or its
  rollback succeeds.
- After `dropIndex` has written the catalog, its calls on the records succeed. -/
def StepOk (st : TableState) (faults : Faults) : TableOp → Prop
  | .insertRow row => BaseRowIds st.table [⟨st.table.nextRowId, row⟩]
  | .updateRows _ _ => True
  | .deleteRows _ _ => True
  | .commitPendingRows _ rows => BaseRowIds st.table rows ∧ IndexKeysApart st.table rows
  | .commitPendingMutations _ m _ _ => BaseRowIds st.table m.inserts
  | .commitDelta _ m => BaseRowIds st.table m.inserts
  | .replaceTableDefinition _ newTable mutations => AlterCall st newTable mutations ∧
      (faults "write lite ALTER metadata" [] = none ∨ faults "rollback lite ALTER" [] = none)
  | .createIndex _ index => index.objectUid ∉ st.table.secondaryIndexes.map (·.objectUid) ∧
      (faults "write lite index metadata" [] = none ∨
        faults "rollback lite index backfill" [] = none)
  | .dropIndex _ _ => faults "open RocksDB table" [] = none ∧
      faults "scan lite index for drop" [] = none ∧ faults "delete lite index records" [] = none

/-- Every call keeps the invariant, whether it succeeds or fails. -/
theorem step_good {op : TableOp} (h : TableGood st) (hok : StepOk st faults op) :
    TableGood (st.step faults op) := by
  cases op with
  | insertRow row => exact insertRow_good h hok
  | updateRows table mutations => exact updateRows_good h
  | deleteRows table rows => exact deleteRows_good h
  | commitPendingRows table rows => exact commitPendingRows_good h hok.1 hok.2
  | commitPendingMutations table m validateOnly journalTransactionId =>
    exact commitPendingMutations_good h hok
  | commitDelta table m => exact (commitDelta_good faults table h hok).1
  | replaceTableDefinition oldTable newTable mutations =>
    exact replaceTableDefinition_good h hok.1 hok.2
  | createIndex names index => exact createIndex_good h hok.1 hok.2
  | dropIndex name ifExists => exact dropIndex_good h hok

/-- The table after some calls, one after another. -/
def TableState.run (st : TableState) (calls : List (Faults × TableOp)) : TableState :=
  calls.foldl (fun st call => st.step call.1 call.2) st

/-- Every call of the run meets its condition, given the table in front of it. -/
def RunOk : TableState → List (Faults × TableOp) → Prop
  | _, [] => True
  | st, call :: rest => StepOk st call.1 call.2 ∧ RunOk (st.step call.1 call.2) rest

theorem runOk_append {calls more : List (Faults × TableOp)} :
    RunOk st (calls ++ more) ↔ RunOk st calls ∧ RunOk (st.run calls) more := by
  induction calls generalizing st with
  | nil => simp [RunOk, TableState.run]
  | cons call calls ih =>
    simp only [cons_append, RunOk, ih, and_assoc]
    rfl

theorem run_good {calls : List (Faults × TableOp)} (h : TableGood st) (hok : RunOk st calls) :
    TableGood (st.run calls) := by
  induction calls generalizing st with
  | nil => exact h
  | cons call calls ih => exact ih (step_good h hok.1) hok.2

/-- In every run from an empty table whose calls meet their conditions, after each call the
records of the table are the image of its rows and no two rows share a key. -/
theorem table_image_in_every_run (table : LiteTableDef) (huids : UidsApart table)
    (calls : List (Faults × TableOp)) (hok : RunOk (emptyTable table) calls)
    (made left : List (Faults × TableOp)) (hcalls : calls = made ++ left) :
    TableImage ((emptyTable table).run made).table ((emptyTable table).run made).records := by
  rw [hcalls, runOk_append] at hok
  exact (run_good (tableGood_empty huids) hok.1).image

/-- A unique index on the second column of the small table. -/
def smallIndex : LiteIndexDef where
  name := "I"
  objectUid := 8
  unique := true
  keyEncodingVersion := 4
  keyColumns := [1]
  descending := [false]

/-- One row is put into an indexed table. -/
def smallRun : List (Faults × TableOp) :=
  [(noFaults, .createIndex {} smallIndex), (noFaults, .insertRow (smallRow 1 2))]

theorem small_run_keeps_image :
    TableImage ((emptyTable smallTable).run smallRun).table
      ((emptyTable smallTable).run smallRun).records := by
  refine table_image_in_every_run smallTable (by decide) smallRun ⟨⟨by decide, .inl rfl⟩, ?_,
    trivial⟩ smallRun [] (append_nil _).symm
  intro hkeyless
  revert hkeyless
  decide +kernel

/-- Two pending rows with one key in a unique index. -/
def twoRowsOneIndexKey : List (Faults × TableOp) :=
  [(noFaults, .createIndex {} smallIndex),
   (noFaults, .commitPendingRows smallTable [⟨0, smallRow 1 2⟩, ⟨0, smallRow 2 2⟩])]

/-- `commitPendingRows` takes both rows, and the table is not the image of its rows. -/
theorem commitPendingRows_breaks_image :
    ¬ TableImage ((emptyTable smallTable).run twoRowsOneIndexKey).table
      ((emptyTable smallTable).run twoRowsOneIndexKey).records := by
  rintro ⟨rows, hscan, -, himage⟩
  have hrows : storedRows ((emptyTable smallTable).run twoRowsOneIndexKey).records =
      .ok [⟨0, smallRow 1 2⟩, ⟨0, smallRow 2 2⟩] := by decide +kernel
  rw [hrows] at hscan
  cases hscan
  obtain ⟨key, hkey⟩ : ∃ key, 1 < owners
      (recordAt ((emptyTable smallTable).run twoRowsOneIndexKey).table)
      [⟨0, smallRow 1 2⟩, ⟨0, smallRow 2 2⟩] key :=
    ⟨(indexKeysOf ((emptyTable smallTable).run twoRowsOneIndexKey).table
      ⟨0, smallRow 1 2⟩).headI, by decide +kernel⟩
  have hone := himage.apart key
  omega

end litestore
