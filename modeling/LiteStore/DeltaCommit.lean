-- The delta commit: `appendPendingMutationsAtomic` reads only the keys that a
-- transaction touches and adds the difference to one write batch.
import LiteStore.TableState

namespace litestore

open checked rowimage List

/-! ## What a transaction stages on one table -/

structure Mutations where
  updates : List LiteRowMutation := []
  deletes : List LiteRow := []
  inserts : List LiteRow := []
deriving DecidableEq

def Mutations.isEmpty (m : Mutations) : Bool :=
  m.updates.isEmpty && m.deletes.isEmpty && m.inserts.isEmpty

/-- The rows that must be there before the commit, and that leave. -/
def Mutations.outgoing (m : Mutations) : List LiteRow := m.updates.map (·.before) ++ m.deletes

/-- The rows that are there after the commit. -/
def Mutations.incoming (m : Mutations) : List LiteRow := m.updates.map (·.afterRow) ++ m.inserts

/-! ## The source -/

def duplicateRecordMessage (key : Bytes) : String :=
  if key.head? = some letterU then "duplicate lite unique key"
  else if key.head? = some letterI then "duplicate lite unique index key"
  else "duplicate lite primary key"

/-- The row keys selected so far and the record keys that leave with them. -/
structure Selection where
  selected : List Bytes := []
  removed : List Bytes := []

/-- The loop over the updates (each with the row it leaves) or over the deletes. -/
def selectRows (faults : Faults) (st : TableState) (changed : String) :
    List (LiteRow × Option LiteRow) → Selection → Except String Selection
  | [], sel => .ok sel
  | (before, after) :: rest, sel => do
    let key ← rowStorageKey st.table before
    guardOk (key ∉ sel.selected) "lite transaction selected a row more than once"
    let value ← readRecord faults st "read lite commit before-image" key
    guardOk (value = some (encodeRowValue before.value)) changed
    let own ← buildRowRecords st.table before.value key
    let _ ← (match after with
      | none => .ok []
      | some row => rowStorageKey st.table row : Except String Bytes)
    selectRows faults st changed rest ⟨key :: sel.selected, own.keys ++ sel.removed⟩

/-- The row ids count up from the first one. -/
def contiguousFrom (first : UInt64) : List LiteRow → Bool
  | [] => true
  | row :: rest => row.rowId = first && contiguousFrom (first + 1) rest

/-- The check of the row ids that a keyless table hands out. -/
def checkRowIds (table : LiteTableDef) (inserts : List LiteRow) : Except String Unit :=
  match inserts with
  | [] => .ok ()
  | first :: _ =>
    if !table.keyless then .ok ()
    else if first.rowId ≠ table.nextRowId then .error rowIdAllocationChanged
    else guardOk (contiguousFrom table.nextRowId inserts)
      "lite keyless row-id allocation is not contiguous"

/-- A key that leaves with another row is not looked up, and a trusted load looks up none. -/
def probeTarget (faults : Faults) (st : TableState) (removed : List Bytes) (trusted : Bool)
    (key : Bytes) : Except String Unit :=
  if key ∈ removed ∨ trusted then .ok ()
  else probeFree faults st "read lite commit target key" key (duplicateRecordMessage key)

/-- The loop over the records of one new row. -/
def addRecords (faults : Faults) (st : TableState) (removed : List Bytes) (trusted : Bool) :
    List (Bytes × Bytes) → RecordMap → Except String RecordMap
  | [], puts => .ok puts
  | (key, value) :: rest, puts => do
    guardOk (key ∉ puts) (duplicateRecordMessage key)
    probeTarget faults st removed trusted key
    addRecords faults st removed trusted rest (puts.insert key value)

/-- The loop over the new rows. -/
def addRows (faults : Faults) (st : TableState) (removed : List Bytes) (trusted : Bool) :
    List LiteRow → RecordMap → Except String RecordMap
  | [], puts => .ok puts
  | row :: rest, puts => do
    let own ← rowRecords st.table row
    let puts ← addRecords faults st removed trusted own.toList puts
    addRows faults st removed trusted rest puts

/-- What a commit adds to the write batch for one table: records to erase, records to put
and, for a keyless table with inserts, the whole definition of the table. A commit that
changes something also erases the statistics of the table. -/
structure TableBatch where
  erased : List Bytes := []
  puts : List (Bytes × Bytes) := []
  table : Option LiteTableDef := none
  erasesStatistics : Bool := false
deriving DecidableEq

def appendPendingMutationsAtomic (faults : Faults) (bulkLoad : Bool) (st : TableState)
    (table : LiteTableDef) (m : Mutations) : Except String TableBatch := do
  if m.isEmpty then .ok {}
  else
    loadTable faults st
      (some (table.objectUid, "lite table changed while transaction was active"))
    openTable faults
    let trusted := bulkLoad && m.updates.isEmpty && m.deletes.isEmpty
    let sel ← selectRows faults st "lite update row changed; restart transaction"
      (m.updates.map fun u => (u.before, some u.afterRow)) {}
    let sel ← selectRows faults st "lite delete row changed; restart transaction"
      (m.deletes.map fun d => (d, none)) sel
    checkRowIds st.table m.inserts
    let puts ← addRows faults st sel.removed false (m.updates.map (·.afterRow)) ∅
    let puts ← addRows faults st sel.removed trusted m.inserts puts
    .ok { erased := sel.removed, puts := puts.toList,
          table := if st.table.keyless && !m.inserts.isEmpty then
            some { st.table with
              nextRowId := st.table.nextRowId + UInt64.ofNat m.inserts.length } else none,
          erasesStatistics := true }

/-- The table after the batch was written. -/
def TableState.applyBatch (st : TableState) (batch : TableBatch) : TableState :=
  { st with table := batch.table.getD st.table,
            records := writeBatch st.records batch.erased batch.puts }

/-! ## The rows that leave -/

/-- The commit may take a row away: it is stored as the transaction read it. -/
structure Leaves (faults : Faults) (st : TableState) (row : LiteRow) (key : Bytes) : Prop where
  named : rowStorageKey st.table row = .ok key
  readable : faults "read lite commit before-image" key = none
  stored : st.records[key]? = some (encodeRowValue row.value)
  records : ∃ own, rowRecords st.table row = .ok own

/-- The record keys that leave with some rows. -/
def removedBy (table : LiteTableDef) (rows : List LiteRow) (removed : List Bytes) : List Bytes :=
  rows.foldl (fun acc row => (ownRecords table row).keys ++ acc) removed

variable {table : LiteTableDef} {rows : List LiteRow} {removed : List Bytes} {faults : Faults}
  {st : TableState} {trusted : Bool} {puts : RecordMap} {m : Mutations} {batch : TableBatch}

theorem mem_removedBy {k : Bytes} :
    k ∈ removedBy table rows removed ↔ k ∈ removed ∨ 0 < owners (recordAt table) rows k := by
  induction rows generalizing removed with
  | nil => simp [removedBy]
  | cons row rows ih =>
    have hstep : removedBy table (row :: rows) removed =
        removedBy table rows ((ownRecords table row).keys ++ removed) := rfl
    have hown : k ∈ (ownRecords table row).keys ↔ (recordAt table row k).isSome = true := by
      rw [Std.ExtTreeMap.mem_keys, Std.ExtTreeMap.mem_iff_isSome_getElem?]
      rfl
    rw [hstep, ih, mem_append, hown, owners_cons]
    by_cases hs : (recordAt table row k).isSome = true
    · simp [hs]
    · simp [hs]

/-- Each row is picked under a key that was not taken, and a row that is to follow it has a key. -/
def Picks (table : LiteTableDef) (R : LiteRow → Bytes → Prop)
    (rows : List (LiteRow × Option LiteRow)) (taken taken' : List Bytes) : Prop :=
  ∃ keys, Forall₂ R (rows.map Prod.fst) keys ∧
    (∀ row ∈ rows, ∀ after ∈ row.2, ∃ key, rowStorageKey table after = .ok key) ∧
    keys.Nodup ∧ (∀ key ∈ keys, key ∉ taken) ∧ taken' = keys.reverse ++ taken

section Picks

variable {R : LiteRow → Bytes → Prop} {rest : List (LiteRow × Option LiteRow)}
  {taken taken' : List Bytes} {before : LiteRow} {after : Option LiteRow}

theorem picks_nil : Picks table R [] taken taken' ↔ taken' = taken := by
  simp [Picks]

theorem picks_cons : Picks table R ((before, after) :: rest) taken taken' ↔
    ∃ key, R before key ∧ key ∉ taken ∧
      (∀ row ∈ after, ∃ key, rowStorageKey table row = .ok key) ∧
      Picks table R rest (key :: taken) taken' := by
  simp only [Picks, map_cons, forall₂_cons_left_iff, forall_mem_cons]
  constructor
  · rintro ⟨_, ⟨key, keys, hkey, hkeys, rfl⟩, ⟨hafter, hrest⟩, hnd, hfree, rfl⟩
    obtain ⟨hnew, hnd⟩ := nodup_cons.mp hnd
    refine ⟨key, hkey, hfree key mem_cons_self, hafter, keys, hkeys, hrest, hnd, ?_, by simp⟩
    intro k hk h
    rcases mem_cons.mp h with rfl | h
    · exact hnew hk
    · exact hfree k (mem_cons_of_mem _ hk) h
  · rintro ⟨key, hkey, hnew, hafter, keys, hkeys, hrest, hnd, hfree, rfl⟩
    refine ⟨key :: keys, ⟨key, keys, hkey, hkeys, rfl⟩, ⟨hafter, hrest⟩, ?_, ?_, by simp⟩
    · exact nodup_cons.mpr ⟨fun h => hfree key h mem_cons_self, hnd⟩
    · exact forall_mem_cons.mpr ⟨hnew, fun k hk h => hfree k hk (mem_cons_of_mem _ h)⟩

/-- The updates are picked first and the deletes behind them. -/
theorem picks_twice : (∃ mid,
      Picks table R (m.updates.map fun u => (u.before, some u.afterRow)) [] mid ∧
      Picks table R (m.deletes.map fun d => (d, none)) mid taken) ↔
    ∃ keys, Forall₂ R m.outgoing keys ∧ keys.Nodup ∧
      (∀ u ∈ m.updates, ∃ key, rowStorageKey table u.afterRow = .ok key) ∧
      taken = keys.reverse := by
  have hfst : (m.updates.map fun u => (u.before, some u.afterRow)).map Prod.fst =
      m.updates.map (·.before) := by simp [map_map, Function.comp_def]
  have hsnd : (m.deletes.map fun d => (d, (none : Option LiteRow))).map Prod.fst = m.deletes := by
    simp [map_map, Function.comp_def]
  simp only [Picks, hfst, hsnd]
  constructor
  · rintro ⟨mid, ⟨ks, hks, hafter, hnd, -, rfl⟩, ks', hks', -, hnd', hfree', rfl⟩
    refine ⟨ks ++ ks', rel_append hks hks', ?_, ?_, by simp⟩
    · rw [nodup_append]
      refine ⟨hnd, hnd', ?_⟩
      rintro a ha b hb rfl
      exact hfree' a hb (by simpa using ha)
    · intro u hu
      exact hafter (u.before, some u.afterRow) (mem_map.mpr ⟨u, hu, rfl⟩) u.afterRow rfl
  · rintro ⟨keys, hkeys, hnd, hafter, rfl⟩
    obtain ⟨ks, ks', rfl, hks, hks'⟩ : ∃ ks ks', keys = ks ++ ks' ∧
        Forall₂ R (m.updates.map (·.before)) ks ∧ Forall₂ R m.deletes ks' := by
      refine ⟨keys.take m.updates.length, keys.drop m.updates.length,
        (take_append_drop _ _).symm, ?_, ?_⟩
      · have h := forall₂_take m.updates.length hkeys
        simpa [Mutations.outgoing] using h
      · have h := forall₂_drop m.updates.length hkeys
        simpa [Mutations.outgoing] using h
    rw [nodup_append] at hnd
    refine ⟨_, ⟨ks, hks, ?_, hnd.1, by simp, rfl⟩, ks', hks', by simp, hnd.2.1, ?_, by simp⟩
    · intro row hrow a ha
      obtain ⟨u, hu, rfl⟩ := mem_map.mp hrow
      cases ha
      exact hafter u hu
    · intro k hk h
      simp only [append_nil, mem_reverse] at h
      exact hnd.2.2 k h k hk rfl

end Picks

theorem selectRows_eq_ok {changed : String} {rows : List (LiteRow × Option LiteRow)}
    {sel sel' : Selection} : selectRows faults st changed rows sel = .ok sel' ↔
      Picks st.table (Leaves faults st) rows sel.selected sel'.selected ∧
        sel'.removed = removedBy st.table (rows.map Prod.fst) sel.removed := by
  induction rows generalizing sel with
  | nil =>
    obtain ⟨selected, removed⟩ := sel
    obtain ⟨selected', removed'⟩ := sel'
    simp [selectRows, picks_nil, removedBy, eq_comm]
  | cons head rest ih =>
    obtain ⟨before, after⟩ := head
    have hremoved : ∀ {own}, rowRecords st.table before = .ok own →
        removedBy st.table (((before, after) :: rest).map Prod.fst) sel.removed =
          removedBy st.table (rest.map Prod.fst) (own.keys ++ sel.removed) := by
      intro own hrecords
      rw [← ownRecords_of_ok hrecords]
      rfl
    simp only [selectRows, bind_eq_ok, guardOk_eq_ok, readRecord_eq_ok, exists_const, ih,
      picks_cons]
    constructor
    · rintro ⟨key, hkey, hnew, value, ⟨hfault, hread⟩, hvalue, own, hown, extra, hextra, hrest, heq⟩
      have hrecords : rowRecords st.table before = .ok own := by simp [rowRecords, hkey, hown]
      refine ⟨⟨key, ⟨hkey, hfault, by rw [hread, hvalue], own, hrecords⟩, hnew, ?_, hrest⟩, ?_⟩
      · rintro row rfl
        exact ⟨extra, hextra⟩
      · rw [hremoved hrecords, heq]
    · rintro ⟨⟨key, hleave, hnew, hafter, hrest⟩, heq⟩
      obtain ⟨own, hrecords⟩ := hleave.records
      have hown : buildRowRecords st.table before.value key = .ok own := by
        simpa [rowRecords, hleave.named] using hrecords
      rw [hremoved hrecords] at heq
      refine ⟨key, hleave.named, hnew, _, ⟨hleave.readable, rfl⟩, hleave.stored, own, hown, ?_⟩
      cases after with
      | none => exact ⟨[], rfl, hrest, heq⟩
      | some row =>
        obtain ⟨extra, hextra⟩ := hafter row rfl
        exact ⟨extra, hextra, hrest, heq⟩

/-! ## The rows that arrive -/

/-- The commit may put a record: its key leaves with another row, or a read finds it free. -/
def Free (faults : Faults) (st : TableState) (removed : List Bytes) (trusted : Bool)
    (k : Bytes) : Prop :=
  (k ∈ removed ∨ trusted = true) ∨
    (faults "read lite commit target key" k = none ∧ st.records[k]? = none)

theorem probeTarget_eq_ok {key : Bytes} {u : Unit} :
    probeTarget faults st removed trusted key = .ok u ↔ Free faults st removed trusted key := by
  unfold probeTarget Free
  by_cases hr : key ∈ removed ∨ trusted = true
  · simp only [hr, if_true, true_or]
  · simp only [hr, if_false, probeFree_eq_ok, false_or]

theorem addRecords_eq_ok {recs : List (Bytes × Bytes)} {puts' : RecordMap} :
    addRecords faults st removed trusted recs puts = .ok puts' ↔
      (recs.map Prod.fst).Nodup ∧
        (∀ r ∈ recs, puts[r.1]? = none ∧ Free faults st removed trusted r.1) ∧
        puts' = putAll puts recs := by
  induction recs generalizing puts with
  | nil =>
    simp only [addRecords, Except.ok.injEq, map_nil, nodup_nil, not_mem_nil,
      false_implies, implies_true, putAll_nil, true_and]
    exact eq_comm
  | cons head rest ih =>
    obtain ⟨key, value⟩ := head
    simp only [addRecords, bind_eq_ok, guardOk_eq_ok, probeTarget_eq_ok, exists_const, ih, map_cons,
      nodup_cons, mem_cons, forall_eq_or_imp, putAll_cons, not_mem_iff_getElem?]
    constructor
    · rintro ⟨hnew, hfree, hnd, hall, rfl⟩
      refine ⟨⟨fun hin => ?_, hnd⟩, ⟨⟨hnew, hfree⟩, fun r hr => ?_⟩, rfl⟩
      · obtain ⟨r, hr, hk⟩ := mem_map.mp hin
        have hnone := (hall r hr).1
        rw [getElem?_insert_eq, if_pos hk.symm] at hnone
        simp at hnone
      · refine ⟨?_, (hall r hr).2⟩
        have hnone := (hall r hr).1
        rw [getElem?_insert_eq] at hnone
        split at hnone
        · simp at hnone
        · exact hnone
    · rintro ⟨⟨hnot, hnd⟩, ⟨⟨hnew, hfree⟩, hall⟩, rfl⟩
      refine ⟨hnew, hfree, hnd, fun r hr => ⟨?_, (hall r hr).2⟩, rfl⟩
      have hne : key ≠ r.1 := fun h => hnot (mem_map.mpr ⟨r, hr, h.symm⟩)
      rw [getElem?_insert_eq, if_neg hne]
      exact (hall r hr).1

/-- The records put so far are the image of the rows put so far, so the loop succeeds
exactly when the rows have records, fit together and find their keys free. -/
theorem addRows_eq_ok {earlier : List LiteRow} {puts' : RecordMap}
    (hputs : IsImage (recordAt st.table) earlier (fun k => puts[k]?)) :
    addRows faults st removed trusted rows puts = .ok puts' ↔
      (∀ row ∈ rows, ∃ own, rowRecords st.table row = .ok own) ∧
        Apart (recordAt st.table) (earlier ++ rows) ∧
        (∀ row ∈ rows, ∀ k, recordAt st.table row k ≠ none → Free faults st removed trusted k) ∧
        IsImage (recordAt st.table) (earlier ++ rows) (fun k => puts'[k]?) := by
  induction rows generalizing earlier puts with
  | nil =>
    simp only [addRows, Except.ok.injEq, append_nil, not_mem_nil, false_implies,
      implies_true, true_and]
    constructor
    · rintro rfl
      exact ⟨hputs.apart, hputs⟩
    · rintro ⟨-, h⟩
      apply Std.ExtTreeMap.ext_getElem?
      intro k
      exact congrFun (hputs.unique h) k
  | cons row rows ih =>
    have hassoc : earlier ++ row :: rows = (earlier ++ [row]) ++ rows := by simp
    simp only [addRows, bind_eq_ok, addRecords_eq_ok, mem_cons, forall_eq_or_imp, hassoc]
    have hlist : ∀ {p : Bytes → Prop}, (∀ r ∈ (ownRecords st.table row).toList, p r.1) ↔
        ∀ k, recordAt st.table row k ≠ none → p k := by
      intro p
      constructor
      · intro h k hk
        obtain ⟨v, hv⟩ := Option.ne_none_iff_exists'.mp hk
        exact h (k, v) (ownRecords_toList.mpr hv)
      · rintro h ⟨k, v⟩ hr
        exact h k (by simp [ownRecords_toList.mp hr])
    constructor
    · rintro ⟨own, hown, mid, ⟨-, hall, rfl⟩, hrest⟩
      rw [← ownRecords_of_ok hown] at hall hrest
      have hall' := (hlist (p := fun k => puts[k]? = none ∧ Free faults st removed trusted k)).mp
        hall
      have himage := isImage_put_row hputs fun k hk => (hall' k hk).1
      obtain ⟨hbuilt, hapart, hfree, hfinal⟩ := (ih himage).mp hrest
      exact ⟨⟨⟨own, hown⟩, hbuilt⟩, hapart, ⟨fun k hk => (hall' k hk).2, hfree⟩, hfinal⟩
    · rintro ⟨⟨⟨own, hown⟩, hbuilt⟩, hapart, ⟨hfreeRow, hfree⟩, hfinal⟩
      have hpart := hputs.apart_snoc.mp hapart.left
      refine ⟨own, hown, putAll puts own.toList, ?_, ?_⟩
      · rw [← ownRecords_of_ok hown]
        refine ⟨ownRecords_keys_nodup _ _, ?_, rfl⟩
        exact (hlist (p := fun k => puts[k]? = none ∧ Free faults st removed trusted k)).mpr
          fun k hk => ⟨hpart k hk, hfreeRow k hk⟩
      · rw [← ownRecords_of_ok hown]
        exact (ih (isImage_put_row hputs hpart)).mpr ⟨hbuilt, hapart, hfree, hfinal⟩

/-! ## When the delta commit accepts -/

/-- Each row that leaves is stored under its key, and no row leaves twice. -/
def Leaving (faults : Faults) (st : TableState) (rows : List LiteRow) : Prop :=
  ∃ keys, Forall₂ (Leaves faults st) rows keys ∧ keys.Nodup

/-- The delta commit accepts the changes to a table. -/
structure DeltaAccepted (faults : Faults) (st : TableState) (m : Mutations) : Prop where
  leaving : Leaving faults st m.outgoing
  arriving : ∀ row ∈ m.incoming, ∃ own, rowRecords st.table row = .ok own
  apart : Apart (recordAt st.table) m.incoming
  free : ∀ k, 0 < owners (recordAt st.table) m.incoming k →
    0 < owners (recordAt st.table) m.outgoing k ∨
      (faults "read lite commit target key" k = none ∧ st.records[k]? = none)
  rowIds : checkRowIds st.table m.inserts = .ok ()

/-- The batch erases what the outgoing rows own and puts what the incoming rows own. -/
structure DeltaBatch (st : TableState) (m : Mutations) (batch : TableBatch) : Prop where
  erased : ∀ k, k ∈ batch.erased ↔ 0 < owners (recordAt st.table) m.outgoing k
  nodup : (batch.puts.map Prod.fst).Nodup
  puts : ∀ k v, (k, v) ∈ batch.puts ↔ ∃ row ∈ m.incoming, recordAt st.table row k = some v
  table : batch.table = if st.table.keyless && !m.inserts.isEmpty then
    some { st.table with nextRowId := st.table.nextRowId + UInt64.ofNat m.inserts.length }
    else none

theorem selectTwice_eq_ok {updated deleted : String} {sel : Selection} :
    (∃ mid, selectRows faults st updated (m.updates.map fun u => (u.before, some u.afterRow)) {}
        = .ok mid ∧
      selectRows faults st deleted (m.deletes.map fun d => (d, none)) mid = .ok sel) ↔
      ∃ keys, Forall₂ (Leaves faults st) m.outgoing keys ∧ keys.Nodup ∧
        (∀ u ∈ m.updates, ∃ key, rowStorageKey st.table u.afterRow = .ok key) ∧
        sel = ⟨keys.reverse, removedBy st.table m.outgoing []⟩ := by
  have hremoved : removedBy st.table m.outgoing [] = removedBy st.table
      ((m.deletes.map fun d => (d, (none : Option LiteRow))).map Prod.fst) (removedBy st.table
        ((m.updates.map fun u => (u.before, some u.afterRow)).map Prod.fst) []) := by
    simp [removedBy, Mutations.outgoing, foldl_append, map_map, Function.comp_def]
  simp only [selectRows_eq_ok]
  constructor
  · rintro ⟨mid, ⟨hmid, hfirst⟩, hsel, hsecond⟩
    obtain ⟨keys, hkeys, hnd, hafter, heq⟩ := picks_twice.mp ⟨_, hmid, hsel⟩
    refine ⟨keys, hkeys, hnd, hafter, ?_⟩
    rw [hremoved, ← hfirst, ← hsecond, ← heq]
  · rintro ⟨keys, hkeys, hnd, hafter, rfl⟩
    obtain ⟨mid, hmid, hsel⟩ := picks_twice.mpr ⟨keys, hkeys, hnd, hafter, rfl⟩
    exact ⟨⟨mid, _⟩, ⟨hmid, rfl⟩, hsel, hremoved⟩

/-- One loop after the other over the incoming rows. -/
theorem addTwice_eq_ok :
    (∃ mid, addRows faults st removed false (m.updates.map (·.afterRow)) ∅ = .ok mid ∧
      addRows faults st removed false m.inserts mid = .ok puts) ↔
      (∀ row ∈ m.incoming, ∃ own, rowRecords st.table row = .ok own) ∧
        Apart (recordAt st.table) m.incoming ∧
        (∀ row ∈ m.incoming, ∀ k, recordAt st.table row k ≠ none →
          Free faults st removed false k) ∧
        IsImage (recordAt st.table) m.incoming (fun k => puts[k]?) := by
  have hstart := isImage_empty st.table
  constructor
  · rintro ⟨mid, h1, h2⟩
    obtain ⟨hb1, -, hf1, himg⟩ := (addRows_eq_ok hstart).mp h1
    obtain ⟨hb2, hap, hf2, hfinal⟩ := (addRows_eq_ok himg).mp h2
    refine ⟨fun row hrow => ?_, hap, fun row hrow => ?_, hfinal⟩
    · rcases mem_append.mp hrow with h | h
      · exact hb1 row h
      · exact hb2 row h
    · rcases mem_append.mp hrow with h | h
      · exact hf1 row h
      · exact hf2 row h
  · rintro ⟨hb, hap, hf, hfinal⟩
    have himg := imageOf_isImage hap.left
    have h1 : addRows faults st removed false (m.updates.map (·.afterRow)) ∅ =
        .ok (imageOf st.table (m.updates.map (·.afterRow))) :=
      (addRows_eq_ok hstart).mpr ⟨fun row hrow => hb row (mem_append_left _ hrow), hap.left,
        fun row hrow => hf row (mem_append_left _ hrow), himg⟩
    refine ⟨_, h1, (addRows_eq_ok himg).mpr ⟨fun row hrow => ?_, hap, fun row hrow => ?_, hfinal⟩⟩
    · exact hb row (mem_append_right _ hrow)
    · exact hf row (mem_append_right _ hrow)

theorem owners_pos_iff {k : Bytes} :
    0 < owners (recordAt table) rows k ↔ ∃ row ∈ rows, recordAt table row k ≠ none := by
  rw [owners_pos]
  simp only [Option.ne_none_iff_exists']

/-- The delta commit of some changes, written out: what it checks and the batch it adds. -/
theorem appendPendingMutationsAtomic_eq_ok (hne : m.isEmpty = false) :
    appendPendingMutationsAtomic faults false st table m = .ok batch ↔
      (faults "read lite table metadata" [] = none ∧ st.table.objectUid = table.objectUid) ∧
        faults "open RocksDB table" [] = none ∧ DeltaAccepted faults st m ∧
        ∃ puts : RecordMap, IsImage (recordAt st.table) m.incoming (fun k => puts[k]?) ∧
          batch = { erased := removedBy st.table m.outgoing [], puts := puts.toList,
                    table := if st.table.keyless && !m.inserts.isEmpty then
                      some { st.table with
                        nextRowId := st.table.nextRowId + UInt64.ofNat m.inserts.length }
                      else none,
                    erasesStatistics := true } := by
  have hfree : ∀ row ∈ m.incoming, ∀ k, recordAt st.table row k ≠ none →
      0 < owners (recordAt st.table) m.incoming k := fun row hrow k hk =>
    owners_pos_iff.mpr ⟨row, hrow, hk⟩
  simp only [appendPendingMutationsAtomic, hne, Bool.false_eq_true, if_false, bind_eq_ok,
    loadTable_eq_ok, openTable, checkRocksError_eq_ok, exists_const, Bool.false_and,
    Except.ok.injEq]
  refine and_congr_right fun _ => and_congr_right fun _ => ?_
  constructor
  · rintro ⟨mid, hmid, sel, hsel, _, hids, pmid, hpmid, puts, hputs, rfl⟩
    obtain ⟨keys, hkeys, hnd, hafter, rfl⟩ := selectTwice_eq_ok.mp ⟨mid, hmid, hsel⟩
    obtain ⟨hbuilt, hapart, hf, himage⟩ := addTwice_eq_ok.mp ⟨pmid, hpmid, hputs⟩
    refine ⟨⟨⟨keys, hkeys, hnd⟩, hbuilt, hapart, fun k hk => ?_, hids⟩, puts, himage, rfl⟩
    obtain ⟨row, hrow, hat⟩ := owners_pos_iff.mp hk
    rcases hf row hrow k hat with (hrem | htrust) | hprobe
    · exact .inl (by simpa using mem_removedBy.mp hrem)
    · simp at htrust
    · exact .inr hprobe
  · rintro ⟨hacc, puts, himage, rfl⟩
    obtain ⟨keys, hkeys, hnd⟩ := hacc.leaving
    have hafter : ∀ u ∈ m.updates, ∃ key, rowStorageKey st.table u.afterRow = .ok key := by
      intro u hu
      obtain ⟨own, hown⟩ := hacc.arriving u.afterRow
        (mem_append_left _ (mem_map.mpr ⟨u, hu, rfl⟩))
      obtain ⟨key, -, -, hkey, -⟩ := rowRecords_eq_ok.mp hown
      exact ⟨key, hkey⟩
    obtain ⟨mid, hmid, hsel⟩ := selectTwice_eq_ok.mpr ⟨keys, hkeys, hnd, hafter, rfl⟩
    have hopen : ∀ row ∈ m.incoming, ∀ k, recordAt st.table row k ≠ none →
        Free faults st (removedBy st.table m.outgoing []) false k := by
      intro row hrow k hat
      rcases hacc.free k (hfree row hrow k hat) with hrem | hprobe
      · exact .inl (.inl (mem_removedBy.mpr (.inr hrem)))
      · exact .inr hprobe
    obtain ⟨pmid, hpmid, hputs⟩ := addTwice_eq_ok.mpr ⟨hacc.arriving, hacc.apart, hopen, himage⟩
    exact ⟨mid, hmid, _, hsel, (), hacc.rowIds, pmid, hpmid, puts, hputs, rfl⟩

theorem append_accepted (hne : m.isEmpty = false)
    (h : appendPendingMutationsAtomic faults false st table m = .ok batch) :
    DeltaAccepted faults st m ∧ DeltaBatch st m batch := by
  obtain ⟨-, -, hacc, puts, himage, rfl⟩ := (appendPendingMutationsAtomic_eq_ok hne).mp h
  refine ⟨hacc, ⟨fun k => ?_, ?_, fun k v => ?_, rfl⟩⟩
  · simp [mem_removedBy]
  · simp only [Std.ExtTreeMap.map_fst_toList_eq_keys]
    exact Std.ExtTreeMap.nodup_keys
  · rw [Std.ExtTreeMap.mem_toList_iff_getElem?_eq_some]
    exact himage.holds k v

/-- The delta commit accepts exactly what `DeltaAccepted` describes. -/
theorem append_ok_iff (hne : m.isEmpty = false) :
    (∃ batch, appendPendingMutationsAtomic faults false st table m = .ok batch) ↔
      (faults "read lite table metadata" [] = none ∧ st.table.objectUid = table.objectUid) ∧
        faults "open RocksDB table" [] = none ∧ DeltaAccepted faults st m := by
  simp only [appendPendingMutationsAtomic_eq_ok hne]
  constructor
  · rintro ⟨batch, hload, hopen, hacc, -⟩
    exact ⟨hload, hopen, hacc⟩
  · rintro ⟨hload, hopen, hacc⟩
    exact ⟨_, hload, hopen, hacc, imageOf st.table m.incoming, imageOf_isImage hacc.apart, rfl⟩

/-! ## What the delta commit leaves -/

/-- The written batch changes the records as the rows change. -/
theorem DeltaBatch.changed (h : DeltaBatch st m batch) :
    Changed (recordAt st.table) m.outgoing m.incoming (fun k => st.records[k]?)
      (fun k => (st.applyBatch batch).records[k]?) := by
  have hput : ∀ k, owners (recordAt st.table) m.incoming k = 0 →
      k ∉ batch.puts.map Prod.fst := by
    intro k hk hin
    obtain ⟨put, hmem, rfl⟩ := mem_map.mp hin
    obtain ⟨row, hrow, hat⟩ := (h.puts put.1 put.2).mp hmem
    have hpos := owners_pos.mpr ⟨row, hrow, put.2, hat⟩
    omega
  refine ⟨fun row hrow k v hv => ?_, fun k hk hout => ?_, fun k hk hout => ?_⟩
  · exact putAll_of_mem h.nodup ((h.puts k v).mpr ⟨row, hrow, hv⟩)
  · simp only [TableState.applyBatch, writeBatch]
    rw [putAll_of_notMem (hput k hk), eraseAll_getElem?, if_pos ((h.erased k).mpr hout)]
  · simp only [TableState.applyBatch, writeBatch]
    have hnot : k ∉ batch.erased := fun hin => by
      have := (h.erased k).mp hin
      omega
    rw [putAll_of_notMem (hput k hk), eraseAll_getElem?, if_neg hnot]

theorem Leaving.stored {out : List LiteRow} (h : Leaving faults st out) :
    ∃ keys : List Bytes, keys.Nodup ∧
      Forall₂ (fun row key => rowStorageKey st.table row = .ok key ∧
        st.records[key]? = some (encodeRowValue row.value)) out keys := by
  obtain ⟨keys, hkeys, hnd⟩ := h
  exact ⟨keys, hnd, hkeys.imp fun _ _ hl => ⟨hl.named, hl.stored⟩⟩

/-- The new rows find their keys free beside the rows that stay. -/
theorem DeltaAccepted.fresh (h : DeltaAccepted faults st m) :
    Fresh (recordAt st.table) (m.outgoing.map (normalRow st.table))
      (m.incoming.map (normalRow st.table)) (dataRecord st.records) := by
  intro k hk
  rw [owners_map_normalRow] at hk ⊢
  rcases h.free k hk with hout | ⟨-, hnone⟩
  · exact .inr hout
  · left
    unfold dataRecord
    split
    · rfl
    · exact hnone

/-- A new row can be stored: an update keeps the row id of the row it replaces, and an
insert brings a row id that no other record starts with. -/
theorem incoming_built {records : RecordMap} (himage : RowsImage table rows records)
    (hout : ∀ row ∈ m.outgoing, normalRow table row ∈ rows)
    (harriving : ∀ row ∈ m.incoming, ∃ own, rowRecords table row = .ok own)
    (hids : BaseRowIds table m.inserts) :
    ∀ row ∈ m.incoming.map (normalRow table), RowBuilt table row := by
  intro row hrow
  obtain ⟨r, hr, rfl⟩ := mem_map.mp hrow
  refine rowBuilt_normalRow (harriving r hr) fun hless => ?_
  rcases mem_append.mp hr with hu | hi
  · obtain ⟨u, hmem, rfl⟩ := mem_map.mp hu
    have hbefore := hout u.before (mem_append_left _ (mem_map.mpr ⟨u, hmem, rfl⟩))
    simpa [normalRow, hless] using (himage.built _ hbefore).base_rowId hless
  · exact hids hless r hi

theorem DeltaBatch.sameRecords (h : DeltaBatch st m batch) :
    SameRecords st.table (st.applyBatch batch).table := by
  simp only [TableState.applyBatch, h.table]
  split
  · exact sameRecords_nextRowId _ _
  · exact SameRecords.refl _

/-- An accepted delta commit takes the outgoing rows out of the table, puts the incoming
rows in, and leaves the image of the rows that are there then. -/
theorem append_rows (himage : RowsImage st.table rows st.records) (hne : m.isEmpty = false)
    (h : appendPendingMutationsAtomic faults false st table m = .ok batch)
    (hids : BaseRowIds st.table m.inserts) :
    ∃ stay, rows.Perm (m.outgoing.map (normalRow st.table) ++ stay) ∧
      RowsImage (st.applyBatch batch).table (stay ++ m.incoming.map (normalRow st.table))
        (st.applyBatch batch).records := by
  obtain ⟨hacc, hbatch⟩ := append_accepted hne h
  obtain ⟨keys, hnd, hstored⟩ := hacc.leaving.stored
  obtain ⟨stay, hperm⟩ := himage.split hnd hstored
  refine ⟨stay, hperm, RowsImage.congr ⟨?_, ?_⟩ hbatch.sameRecords⟩
  · intro row hrow
    rcases mem_append.mp hrow with hs | hn
    · exact himage.built row (hperm.mem_iff.mpr (mem_append_right _ hs))
    · refine incoming_built himage (fun r hr => ?_) hacc.arriving hids row hn
      exact hperm.mem_iff.mpr (mem_append_left _ (mem_map.mpr ⟨r, hr, rfl⟩))
  · exact (himage.image.perm hperm).change (apart_normalRow.mpr hacc.apart) hacc.fresh
      (changed_normalRow (changed_dataRecord hbatch.changed))

end litestore
