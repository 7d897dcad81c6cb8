-- ALTER TABLE as a whole (`alterTable`), and what is left of it when a write
-- fails. The records of the rows are replaced first; when the catalog does not
-- take the new definition, the old records are put back.
import LiteStore.TableRuns
import LiteStore.AlteredRows
import LiteStore.Lib.Exchange

namespace litestore

open checked exchange

/-! ## `alterTable` -/

/-- `scanRows` of the store. -/
def scanStored (faults : Faults) (st : TableState) : Except String (List LiteRow) := do
  openTable faults
  let rows ← storedRows st.records
  checkRocksError faults "scan lite rows" []
  .ok rows

/-- The loop over the rows. A row that loses its primary key gets a row id. -/
def alterMutations (engine : Engine) (oldTable newTable : LiteTableDef) (newToOldColumn : List Int)
    (addedValues : List Bytes) : List LiteRow → UInt64 →
    Except String (List LiteRowMutation × UInt64)
  | [], nextRowId => .ok ([], nextRowId)
  | row :: rest, nextRowId => do
    let numbered := !oldTable.keyless && newTable.keyless
    let before : LiteRow := if numbered then { row with rowId := nextRowId } else row
    let after ← liteRebuildBinaryRow engine oldTable newTable row.value.bytes newToOldColumn
      addedValues
    let after ← toRow after
    let (mutations, last) ← alterMutations engine oldTable newTable newToOldColumn addedValues rest
      (if numbered then nextRowId + 1 else nextRowId)
    .ok (⟨before, after⟩ :: mutations, last)

/-- The transaction of the session: what it has staged on the table, whether the checks of its
commit refuse it, and whether the next one can begin. -/
structure SessionTxn where
  staged : LiteTableDef × Mutations
  checked : Except String Unit := .ok ()
  begins : Except String Unit := .ok ()

/-- `prepareDDL`: the staged rows are committed first, if the session has a transaction. -/
def prepareDDL (faults : Faults) (st : TableState) : Option SessionTxn →
    Except String Unit × TableState
  | none => (.ok (), st)
  | some txn =>
    match txn.checked with
    | .error e => (.error e, st)
    | .ok () =>
      match commitDelta faults st txn.staged.1 txn.staged.2 with
      | (.error e, st) => (.error e, st)
      | (.ok (), st) => (txn.begins, st)

/-- What `alterTable` does behind `prepareDDL`. `oldTable` and `newTable` come from the caller. -/
def rewriteTable (engine : Engine) (faults : Faults) (st : TableState)
    (oldTable newTable : LiteTableDef) (newToOldColumn : List Int) (addedValues : List Bytes) :
    Except String Unit × TableState :=
  if newToOldColumn.length ≠ newTable.columns.length ∨
      addedValues.length ≠ newTable.columns.length then
    (.error "invalid lite ALTER TABLE row mapping", st)
  else
    let planned := do
      let rows ← scanStored faults st
      alterMutations engine oldTable newTable newToOldColumn addedValues rows newTable.nextRowId
    match planned with
    | .error e => (.error e, st)
    | .ok (mutations, last) =>
      replaceTableDefinition faults st oldTable { newTable with nextRowId := last } mutations

def alterTable (engine : Engine) (faults : Faults) (st : TableState) (session : Option SessionTxn)
    (oldTable newTable : LiteTableDef) (newToOldColumn : List Int) (addedValues : List Bytes) :
    Except String Unit × TableState :=
  match prepareDDL faults st session with
  | (.error e, st) => (.error e, st)
  | (.ok (), st) => rewriteTable engine faults st oldTable newTable newToOldColumn addedValues

/-! ## The records of some rows -/

def rowEntries (table : LiteTableDef) (row : LiteRow) : Except String (List (Bytes × Bytes)) := do
  let key ← rowStorageKey table row
  let keys ← uniqueKeysOf table row.value.bytes
  let entries ← buildSecondaryIndexEntries table row.value.bytes key
  .ok (recordEntries row.value key keys entries)

/-- The records that some rows have under a definition. Of two records under one key it is the
later one. -/
def recordsOf (table : LiteTableDef) (rows : List LiteRow) : RecordMap :=
  putAll ∅ (rows.flatMap fun row => (rowEntries table row).toOption.getD [])

variable {table oldTable newTable : LiteTableDef} {rows : List LiteRow} {faults : Faults}
  {st : TableState} {mutations : List LiteRowMutation} {engine : Engine} {newToOldColumn : List Int}
  {addedValues : List Bytes}

theorem Planned.rowEntries {row : LiteRow} {p : RowPlan} (h : Planned table row p) :
    rowEntries table row = .ok p.records := by
  unfold litestore.rowEntries RowPlan.records
  rw [h.rowKey, h.uniqueKeys]
  simp only [ok_bind]
  rw [h.entries, h.value]
  rfl

theorem planned_entries {plans : List RowPlan} (h : List.Forall₂ (Planned table) rows plans) :
    rows.flatMap (fun row => (rowEntries table row).toOption.getD []) =
      plans.flatMap RowPlan.records := by
  induction h with
  | nil => rfl
  | cons hplan _ ih =>
    rw [List.flatMap_cons, List.flatMap_cons, ih, hplan.rowEntries]
    rfl

theorem planned_recordsOf {plans : List RowPlan} (h : List.Forall₂ (Planned table) rows plans) :
    recordsOf table rows = putAll ∅ (plans.flatMap RowPlan.records) := by
  unfold recordsOf
  rw [planned_entries h]

theorem writePlans_eq_swap (records : RecordMap) (out new : List RowPlan) :
    writePlans records out new =
      swap records (out.flatMap RowPlan.records) (new.flatMap RowPlan.records) := by
  unfold writePlans writeBatch swap
  rw [List.map_flatMap]
  rfl

/-! ## The law of a call -/

/-- A call that fails leaves the table as it was, and the row ids of a table without a primary
key never go back. -/
def AlterKeeps (faults : Faults) (st : TableState) (oldTable newTable : LiteTableDef)
    (mutations : List LiteRowMutation) : Prop :=
  (∀ e, (replaceTableDefinition faults st oldTable newTable mutations).1 = .error e →
    (replaceTableDefinition faults st oldTable newTable mutations).2 = st) ∧
  (st.table.keyless = true → st.table.nextRowId ≤
    (replaceTableDefinition faults st oldTable newTable mutations).2.table.nextRowId)

/-- What a call that gets as far as the catalog must find there and in the table. When the
catalog takes the definition, the new row id is not behind the old one. When it does not, the
records of the old rows stand in the table and those that only the new rows have are free there;
and when the old records cannot be put back either, the records are the new ones from the
start. -/
def AlterSafe (faults : Faults) (st : TableState) (newTable : LiteTableDef)
    (mutations : List LiteRowMutation) : Prop :=
  if faults "write lite ALTER metadata" [] = none then
    st.table.keyless = true → st.table.nextRowId ≤ newTable.nextRowId
  else
    let old := recordsOf st.table (mutations.map (·.before))
    let new := recordsOf newTable (mutations.map (·.afterRow))
    if faults "rollback lite ALTER" [] = none then Stands st.records old new
    else Stands st.records new old

theorem alterPlans_eq_ok {plans : List (RowPlan × RowPlan)}
    (h : alterPlans faults st oldTable newTable mutations = .ok plans) :
    recordsOf st.table (mutations.map (·.before)) =
        putAll ∅ ((plans.map (·.1)).flatMap RowPlan.records) ∧
      recordsOf newTable (mutations.map (·.afterRow)) =
        putAll ∅ ((plans.map (·.2)).flatMap RowPlan.records) := by
  simp only [alterPlans, bind_eq_ok, Except.ok.injEq] at h
  obtain ⟨_, _, _, _, _, _, plans, hplan, _, _, rfl⟩ := h
  obtain ⟨hout, hnew, -⟩ := planAlter_eq_ok hplan
  exact ⟨planned_recordsOf hout, planned_recordsOf hnew⟩

/-- Where only the records may have changed. -/
theorem records_kept_iff {records : RecordMap} {error : String} :
    (∀ e, (Except.error error : Except String Unit) = .error e →
      ({ st with records := records } : TableState) = st) ↔ records = st.records := by
  constructor
  · intro h
    exact congrArg TableState.records (h error rfl)
  · rintro rfl _ _
    rfl

/-- A call that fails leaves the table as it was. -/
theorem alter_restores_iff (faults : Faults) (st : TableState) (oldTable newTable : LiteTableDef)
    (mutations : List LiteRowMutation) :
    (∀ e, (replaceTableDefinition faults st oldTable newTable mutations).1 = .error e →
      (replaceTableDefinition faults st oldTable newTable mutations).2 = st) ↔
    ((alterPlans faults st oldTable newTable mutations).isOk = true →
      faults "write lite ALTER metadata" [] ≠ none →
      let old := recordsOf st.table (mutations.map (·.before))
      let new := recordsOf newTable (mutations.map (·.afterRow))
      if faults "rollback lite ALTER" [] = none then Stands st.records old new
      else Stands st.records new old) := by
  unfold replaceTableDefinition
  cases hplans : alterPlans faults st oldTable newTable mutations with
  | error e => simp [Except.isOk, Except.toBool]
  | ok plans =>
    obtain ⟨hold, hnew⟩ := alterPlans_eq_ok hplans
    have hok : (Except.ok plans : Except String (List (RowPlan × RowPlan))).isOk = true := rfl
    simp only [hok, true_implies, hold, hnew, writePlans_eq_swap]
    rw [← swap_back_iff, ← swap_eq_self_iff]
    unfold checkRocksError
    cases faults "write lite ALTER metadata" [] with
    | none => simp
    | some e =>
      simp only [ne_eq, reduceCtorEq, not_false_eq_true, true_implies]
      cases faults "rollback lite ALTER" [] with
      | none | some rollbackError => exact records_kept_iff

/-- The next row id is the one of the definition that the catalog takes. -/
theorem alter_nextRowId_iff (faults : Faults) (st : TableState) (oldTable newTable : LiteTableDef)
    (mutations : List LiteRowMutation) :
    st.table.nextRowId ≤
      (replaceTableDefinition faults st oldTable newTable mutations).2.table.nextRowId ↔
    ((alterPlans faults st oldTable newTable mutations).isOk = true →
      faults "write lite ALTER metadata" [] = none →
      st.table.nextRowId ≤ newTable.nextRowId) := by
  unfold replaceTableDefinition
  cases alterPlans faults st oldTable newTable mutations with
  | error e => simp [Except.isOk, Except.toBool]
  | ok plans =>
    have hok : (Except.ok plans : Except String (List (RowPlan × RowPlan))).isOk = true := rfl
    simp only [hok, true_implies]
    unfold checkRocksError
    cases faults "write lite ALTER metadata" [] with
    | none => simp
    | some e =>
      cases faults "rollback lite ALTER" [] with
      | none => simp
      | some rollbackError => simp

theorem alter_keeps_table_iff (faults : Faults) (st : TableState)
    (oldTable newTable : LiteTableDef) (mutations : List LiteRowMutation) :
    AlterKeeps faults st oldTable newTable mutations ↔
      ((alterPlans faults st oldTable newTable mutations).isOk = true →
        AlterSafe faults st newTable mutations) := by
  unfold AlterKeeps AlterSafe
  rw [alter_restores_iff, alter_nextRowId_iff]
  by_cases htaken : faults "write lite ALTER metadata" [] = none
  · rw [if_pos htaken]
    tauto
  · rw [if_neg htaken]
    tauto

/-! ## The calls of `alterTable` -/

/-- A call that names every stored row finds their records, and no others, in its way. -/
theorem alter_stands (hold : UidsApart st.table) (huids : UidsApart newTable)
    (himage : rowimage.IsImage (recordAt st.table) (mutations.map (·.before))
      (dataRecord st.records))
    (hplans : (alterPlans faults st oldTable newTable mutations).isOk = true) :
    Stands st.records (recordsOf st.table (mutations.map (·.before)))
      (recordsOf newTable (mutations.map (·.afterRow))) := by
  cases hok : alterPlans faults st oldTable newTable mutations with
  | error e =>
    rw [hok] at hplans
    cases hplans
  | ok plans =>
    obtain ⟨hbefore, hafter⟩ := alterPlans_eq_ok hok
    simp only [alterPlans, bind_eq_ok, Except.ok.injEq] at hok
    obtain ⟨_, _, _, _, _, _, plans, hplan, _, _, rfl⟩ := hok
    obtain ⟨hout, hnews, -⟩ := planAlter_eq_ok hplan
    rw [hbefore, hafter]
    have hfst : ∀ ps : List RowPlan, (ps.flatMap RowPlan.records).map Prod.fst =
        ps.flatMap RowPlan.names := fun ps => List.map_flatMap
    constructor
    · -- an old record is one that its row owns
      intro k v hv
      have hnames := (apart_plans hold hout).mp himage.apart
      rw [putAll_empty_eq_some (by rwa [hfst])] at hv
      obtain ⟨p, hp, hmem⟩ := List.mem_flatMap.mp hv
      obtain ⟨row, hrow, hplan⟩ := forall₂_exists_right hout.flip hp
      have hdata := (himage.holds k v).mpr ⟨row, hrow, (hplan.recordAt hold).mpr hmem⟩
      unfold dataRecord at hdata
      split at hdata
      · cases hdata
      · exact hdata
    · -- where no old row owns a key, only a marker can stand, and a new row owns no marker
      intro k hnone hsome
      rw [putAll_empty_eq_none, hfst] at hnone
      rw [ne_eq, putAll_empty_eq_none, hfst, not_not] at hsome
      have hmarker : isJournalMarker k = false := by
        by_contra hmarker
        have howned := (owners_plans huids hnews).mpr hsome
        rw [owners_marker (by simpa using hmarker)] at howned
        exact absurd howned (by decide)
      have hfree : dataRecord st.records k = none := by
        rw [himage.none_iff]
        by_contra howned
        exact hnone ((owners_plans hold hout).mp (by omega))
      simpa [dataRecord, hmarker] using hfree

/-- The mutations that `alterTable` makes name the scanned rows one by one. -/
theorem alterMutations_before {nextRowId last : UInt64}
    (h : alterMutations engine oldTable newTable newToOldColumn addedValues rows nextRowId =
      .ok (mutations, last)) :
    List.Forall₂ (fun row u => u.before.value = row.value ∧
      (oldTable.keyless = true → u.before = row)) rows mutations := by
  induction rows generalizing nextRowId mutations last with
  | nil =>
    cases h
    exact .nil
  | cons row rest ih =>
    simp only [alterMutations, bind_eq_ok, Except.ok.injEq, Prod.exists, Prod.mk.injEq] at h
    obtain ⟨_, -, after, -, others, last, hrest, rfl, rfl⟩ := h
    refine .cons ⟨?_, ?_⟩ (ih hrest)
    · dsimp only
      split <;> rfl
    · intro hkeyless
      simp [hkeyless]

theorem alterMutations_image {nextRowId last : UInt64} (hgood : TableGood st)
    (hscan : storedRows st.records = .ok rows) (hkeys : oldTable.keyless = st.table.keyless)
    (h : alterMutations engine oldTable newTable newToOldColumn addedValues rows nextRowId =
      .ok (mutations, last)) :
    rowimage.IsImage (recordAt st.table) (mutations.map (·.before)) (dataRecord st.records) := by
  obtain ⟨stored, himage⟩ := tableImage_iff.mp hgood.image
  obtain ⟨found, hfound, hperm⟩ := himage.storedRows
  rw [hscan] at hfound
  cases hfound
  have hbuilt : ∀ row ∈ rows, RowBuilt st.table row :=
    fun row hrow => himage.built row (hperm.mem_iff.mp hrow)
  have hbefore := alterMutations_before h
  suffices hnamed : rows = (mutations.map (·.before)).map (normalRow st.table) from
    isImage_normalRow.mp (himage.image.perm (hnamed ▸ hperm.symm))
  clear h hscan hperm
  induction hbefore with
  | nil => rfl
  | @cons row u rows mutations hfirst _ ih =>
    rw [List.map_cons, List.map_cons, ← ih fun other hother => hbuilt other (by simp [hother])]
    congr 1
    rw [← normalRow_of_built (hbuilt row (by simp))]
    cases hkeyless : st.table.keyless with
    | true => rw [hfirst.2 (hkeys.trans hkeyless)]
    | false =>
      unfold normalRow
      simp only [hkeyless, Bool.false_eq_true, if_false, hfirst.1]

theorem rewriteTable_restores {e : String} (hgood : TableGood st)
    (hkeys : oldTable.keyless = st.table.keyless) (huids : UidsApart newTable)
    (hrollback : faults "rollback lite ALTER" [] = none)
    (h : (rewriteTable engine faults st oldTable newTable newToOldColumn addedValues).1 = .error e) :
    (rewriteTable engine faults st oldTable newTable newToOldColumn addedValues).2 = st := by
  unfold rewriteTable at h ⊢
  split
  · rfl
  · rename_i hsizes
    rw [if_neg hsizes] at h
    dsimp only at h ⊢
    split
    · rfl
    · rename_i mutations last hplanned
      rw [hplanned] at h
      dsimp only at h
      rw [bind_eq_ok] at hplanned
      obtain ⟨rows, hscan, hmutations⟩ := hplanned
      have hstored : storedRows st.records = .ok rows := by
        simp only [scanStored, bind_eq_ok, Except.ok.injEq] at hscan
        obtain ⟨_, -, found, hfound, _, -, rfl⟩ := hscan
        exact hfound
      have himage := alterMutations_image hgood hstored hkeys hmutations
      refine (alter_restores_iff faults st oldTable _ mutations).mpr ?_ e h
      intro hplans _
      dsimp only
      rw [if_pos hrollback]
      exact alter_stands hgood.uids huids himage hplans

theorem prepareDDL_good (faults : Faults) {session : Option SessionTxn} (hgood : TableGood st)
    (hids : ∀ txn ∈ session, BaseRowIds st.table txn.staged.2.inserts) :
    TableGood (prepareDDL faults st session).2 ∧
      (prepareDDL faults st session).2.table.keyless = st.table.keyless := by
  unfold prepareDDL
  split
  · exact ⟨hgood, rfl⟩
  · rename_i txn
    split
    · exact ⟨hgood, rfl⟩
    · obtain ⟨hnext, hsame⟩ := commitDelta_good faults txn.staged.1 hgood (hids txn rfl)
      have hkeyless := hsame.keyless
      split <;> simp_all

/-- An ALTER TABLE that fails leaves a table that holds the image of its rows as the commit of the
session left it, as long as the old records can be put back. -/
theorem alterTable_restores {e : String} {session : Option SessionTxn} (hgood : TableGood st)
    (hids : ∀ txn ∈ session, BaseRowIds st.table txn.staged.2.inserts)
    (hkeys : oldTable.keyless = st.table.keyless) (huids : UidsApart newTable)
    (hrollback : faults "rollback lite ALTER" [] = none)
    (h : (alterTable engine faults st session oldTable newTable newToOldColumn addedValues).1 =
      .error e) :
    (alterTable engine faults st session oldTable newTable newToOldColumn addedValues).2 =
      (prepareDDL faults st session).2 := by
  obtain ⟨hgood', hkeyless⟩ := prepareDDL_good faults hgood hids
  unfold alterTable at h ⊢
  split
  · rename_i hprepared
    rw [hprepared]
  · rename_i hprepared
    rw [hprepared] at h hgood' hkeyless ⊢
    exact rewriteTable_restores hgood' (hkeys.trans hkeyless.symm) huids hrollback h

/-- The catalog does not take the definition with one more column. The row that the session has
inserted before stays. -/
theorem failed_alter_restores_small :
    let call := alterTable plainEngine
      (fun what _ => if what = "write lite ALTER metadata" then some "full" else none)
      (smallStored [(1, 1)]) (some { staged := (smallTable, ⟨[], [], [⟨0, smallRow 2 2⟩]⟩) })
      smallTable { smallTable with columns := smallTable.columns ++ [⟨"W", "INT", true⟩] } [0, 1, -1]
      [[], [], textBytes "5"]
    call = (.error "write lite ALTER metadata: full", smallStored [(1, 1), (2, 2)]) := by
  have himage : TableGood (smallStored [(1, 1)]) :=
    ⟨tableImage_plain rfl rfl rfl (by decide) (by decide), by decide⟩
  refine Prod.ext ?fails ((alterTable_restores himage ?_ rfl (by decide) rfl ?fails).trans ?_)
  · decide +kernel
  · rintro _ ⟨⟩
    nofun
  · decide +kernel

/-! ## A copy of the definition that is behind -/

/-- The table without a key after two inserts: the row ids 1 and 2 are used. -/
def loggedTwice : TableState :=
  ⟨{ smallLog with nextRowId := 3 }, [],
    imageOf smallLog [⟨1, smallRow 1 1⟩, ⟨2, smallRow 2 2⟩]⟩

/-- One more column. -/
def smallLogWider : LiteTableDef :=
  { smallLog with columns := smallLog.columns ++ [⟨"W", "INT", true⟩] }

/-- The rows of the wider table, as `alterTable` makes them. -/
def loggedMutations : List LiteRowMutation :=
  ((alterMutations plainEngine smallLog smallLogWider [0, 1, -1] [[], [], textBytes "5"]
    [⟨1, smallRow 1 1⟩, ⟨2, smallRow 2 2⟩] 1).toOption.getD ([], 0)).1

/-- An ALTER TABLE with a definition that was read before the inserts. The next row id is 1 after
it, where the rows 1 and 2 are stored. -/
theorem altered_table_reuses_row_ids :
    alterTable plainEngine noFaults loggedTwice none smallLog smallLogWider [0, 1, -1]
      [[], [], textBytes "5"] =
        replaceTableDefinition noFaults loggedTwice smallLog smallLogWider loggedMutations ∧
    (storedRows (replaceTableDefinition noFaults loggedTwice smallLog smallLogWider
      loggedMutations).2.records).toOption.map (·.map (·.rowId)) = some [1, 2] ∧
    (replaceTableDefinition noFaults loggedTwice smallLog smallLogWider
      loggedMutations).2.table.nextRowId = 1 ∧
    ¬ AlterKeeps noFaults loggedTwice smallLog smallLogWider loggedMutations := by
  have hnext : (replaceTableDefinition noFaults loggedTwice smallLog smallLogWider
      loggedMutations).2.table.nextRowId = 1 := by decide +kernel
  refine ⟨by decide +kernel, by decide +kernel, hnext, fun hkeeps => ?_⟩
  have hle := hkeeps.2 (by decide)
  rw [hnext] at hle
  exact absurd hle (by decide)

end litestore
