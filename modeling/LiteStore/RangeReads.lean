-- A range read in a transaction against its scan. The staged changes are laid over a map of
-- the rows by key, one by one; the map shows the rows of the scan that lie in the range
-- unless two of them share a key, or an update brings a row to a key that a later update
-- leaves.
import LiteStore.PointReads
import LiteStore.ManagerImage

namespace litestore

open checked overlay orderedscan List LiteTxnContext
open stateful hiding bind_eq_ok

/-! ## Ranges -/

/-- A range of primary keys, or a range of index keys. -/
structure PhysicalRange (primaryRange : Bool) (startKey endKey : Bytes) : Prop where
  order : compare startKey endKey = .lt
  size : primaryRange = false → 9 ≤ startKey.length
  letter : ∀ k, keyInRange startKey endKey k = true →
    k.head? = some (if primaryRange then letterP else letterI)

variable {startKey endKey : Bytes}

theorem PhysicalRange.start {primaryRange : Bool} (h : PhysicalRange primaryRange startKey endKey) :
    startKey.head? = some (if primaryRange then letterP else letterI) := by
  apply h.letter
  simp [keyInRange, h.order]

/-- The staged or stored row lies in the range. -/
def matchesRange (primaryRange : Bool) (table : LiteTableDef) (startKey endKey : Bytes)
    (row : LiteRow) : Bool :=
  match rowMatchesRange primaryRange table startKey endKey row with
  | .ok matching => matching
  | .error _ => false

variable {row : LiteRow} {records : RecordMap} {k : Bytes} {rows : List LiteRow}
  {table : LiteTableDef}

theorem HasKeys.matches (h : HasKeys table row) (primaryRange : Bool) (startKey endKey : Bytes) :
    rowMatchesRange primaryRange table startKey endKey row =
      .ok (matchesRange primaryRange table startKey endKey row) := by
  obtain ⟨keys, hkeys⟩ := h
  simp only [rowWriteKeys, bind_eq_ok] at hkeys
  obtain ⟨key, hkey, -, -, entries, hentries, -⟩ := hkeys
  unfold matchesRange rowMatchesRange rowMatchesIndexRange
  cases primaryRange <;> simp [hkey, hentries]

/-- A stored row has keys. -/
theorem RowBuilt.hasKeys (h : RowBuilt table row) : HasKeys table row := by
  obtain ⟨own, hown⟩ := h.records
  obtain ⟨key, keys, entries, hkey, hkeys, hentries, -⟩ := rowRecords_eq_ok.mp hown
  exact ⟨key :: (keys ++ entries.map (·.key)), by
    simp only [rowWriteKeys, hkey, hkeys, hentries, ok_bind]⟩

theorem rangeRecords_eq_filter (records : RecordMap) (startKey endKey : Bytes) :
    rangeRecords records startKey endKey =
      records.toList.filter fun record => keyInRange startKey endKey record.1 := by
  have hsorted : records.toList.Pairwise fun a b => compare a.1 b.1 = .lt :=
    Std.ExtTreeMap.ordered_keys_toList
  unfold rangeRecords
  rw [scanWhile_eq_filter hsorted]
  · rfl
  · intro a b _ hab hb
    simp only [decide_eq_true_eq] at hb ⊢
    exact Std.TransCmp.lt_trans hab hb

theorem mem_rangeRecords {record : Bytes × Bytes} :
    record ∈ rangeRecords records startKey endKey ↔
      records[record.1]? = some record.2 ∧ keyInRange startKey endKey record.1 = true := by
  rw [rangeRecords_eq_filter, mem_filter, ← Std.ExtTreeMap.mem_toList_iff_getElem?_eq_some]

/-! ## A range of primary keys in the snapshot -/

theorem matchesRange_primary {key : Bytes} (hkey : rowStorageKey table row = .ok key) :
    matchesRange true table startKey endKey row = keyInRange startKey endKey key := by
  simp [matchesRange, rowMatchesRange, hkey]

theorem isBaseKey_of_letterP (h : k.head? = some letterP) : isBaseKey k = true := by
  cases k with
  | nil => rfl
  | cons b rest =>
    simp only [head?_cons, Option.some.injEq] at h
    subst h
    rfl

theorem matchesRange_index {key : Bytes} {entries : List LitePhysicalIndexEntry}
    (hkey : rowStorageKey table row = .ok key)
    (hentries : buildSecondaryIndexEntries table row.value.bytes key = .ok entries) :
    matchesRange false table startKey endKey row =
      entries.any fun entry => keyInRange startKey endKey entry.key := by
  simp [matchesRange, rowMatchesRange, rowMatchesIndexRange, hkey, hentries]

/-- A value of an index record leads to its row. -/
def LeadsTo (table : LiteTableDef) (rows : List LiteRow) (record : Bytes × Bytes)
    (row : LiteRow) : Prop :=
  row ∈ rows ∧ ∃ covered, decodeIndexValue record.2 = .ok (keyOf table row, covered) ∧
    ∀ bytes ∈ covered, bytes = row.value.bytes

theorem decodeIndexValue_letterP {rowKey : Bytes} (h : rowKey.head? = some letterP) :
    decodeIndexValue rowKey = .ok (rowKey, none) := by
  cases rowKey with
  | nil => simp at h
  | cons b rest =>
    simp only [head?_cons, Option.some.injEq] at h
    subst h
    simp [decodeIndexValue, coveringMagic, letterP]

/-- The map holds rows of the snapshot under their keys. -/
def RowsByKey (table : LiteTableDef) (rows : List LiteRow) (m : VisibleRows) : Prop :=
  ∀ k row, m[k]? = some row → row ∈ rows ∧ keyOf table row = k

theorem RowsByKey.insert {m : VisibleRows} (h : RowsByKey table rows m) (hrow : row ∈ rows)
    (hk : keyOf table row = k) : RowsByKey table rows (m.insert k row) := by
  intro k' r hr
  rw [getElem?_insert_eq] at hr
  split at hr
  · rename_i heq
    simp only [Option.some.injEq] at hr
    subst hr
    exact ⟨hrow, hk.trans heq⟩
  · exact h k' r hr

theorem mem_insert_iff {m : VisibleRows} {k' : Bytes} : k' ∈ m.insert k row ↔ k = k' ∨ k' ∈ m := by
  rw [Std.ExtTreeMap.mem_insert, Std.LawfulEqCmp.compare_eq_iff_eq]

theorem compare_nil_ne_lt (k : Bytes) : compare k [] ≠ .lt :=
  not_lt_of_extends nil_prefix

section Snapshot

variable (h : RowsImage table rows records) (hkeyed : table.keyless = false)

include h hkeyed

/-- The rows of the snapshot in a range of primary keys. -/
theorem RowsImage.storedPrimaryRange (hrange : PhysicalRange true startKey endKey) :
    ∃ found, litestore.storedPrimaryRange records startKey endKey = .ok found ∧
      ∀ row, row ∈ found ↔ row ∈ rows ∧ matchesRange true table startKey endKey row = true := by
  have hread : ∀ record ∈ rangeRecords records startKey endKey, ∃ row ∈ rows,
      rowStorageKey table row = .ok record.1 ∧
        (decodeRowValue record.2 >>= fun value => .ok (⟨0, value⟩ : LiteRow)) = .ok row := by
    rintro ⟨k, v⟩ hmem
    obtain ⟨hget, hin⟩ := mem_rangeRecords.mp hmem
    obtain ⟨row, hrow, hkey, rfl⟩ :=
      h.row_of_base (isBaseKey_of_letterP (hrange.letter k hin)) hget
    refine ⟨row, hrow, hkey, ?_⟩
    rw [decodeRowValue_encodeRowValue, ok_bind, ← (h.built row hrow).numbered hkeyed]
  choose! read hread using hread
  refine ⟨(rangeRecords records startKey endKey).map read, ?_, fun row => ?_⟩
  · have hstart : startKey.head? = some letterP := hrange.start
    simp only [litestore.storedPrimaryRange, hstart, hrange.order, and_self, guardOk, if_true,
      ok_bind]
    exact mapM_ok_of_forall fun record hr => (hread record hr).2.2
  · rw [mem_map]
    constructor
    · rintro ⟨record, hrecord, rfl⟩
      obtain ⟨hmem, hkey, -⟩ := hread record hrecord
      refine ⟨hmem, ?_⟩
      rw [matchesRange_primary hkey]
      exact (mem_rangeRecords.mp hrecord).2
    · rintro ⟨hrow, hmatch⟩
      obtain ⟨key, hkey⟩ := (h.built row hrow).storageKey
      rw [matchesRange_primary hkey] at hmatch
      have hrecord : (key, encodeRowValue row.value) ∈ rangeRecords records startKey endKey :=
        mem_rangeRecords.mpr ⟨h.stored hrow hkey, hmatch⟩
      obtain ⟨hmem, hkey', -⟩ := hread _ hrecord
      exact ⟨_, hrecord, h.key_unique hmem hrow hkey' hkey⟩

/-! ## A range of index keys in the snapshot -/

/-- The records of a range of index keys lead to the rows that have an entry there. -/
theorem RowsImage.leadsTo (hrange : PhysicalRange false startKey endKey) {record : Bytes × Bytes}
    (hrecord : record ∈ rangeRecords records startKey endKey) :
    ∃ row, LeadsTo table rows record row ∧
      matchesRange false table startKey endKey row = true := by
  obtain ⟨k, v⟩ := record
  obtain ⟨hget, hin⟩ := mem_rangeRecords.mp hrecord
  have hhead : k.head? = some letterI := hrange.letter k hin
  have hdata : dataRecord records k = some v := by
    simp [dataRecord, isJournalMarker, hhead, letterI, letterJ, hget]
  obtain ⟨row, hrow, hat⟩ := (h.image.holds k v).mp hdata
  obtain ⟨own, hown⟩ := (h.built row hrow).records
  obtain ⟨key, keys, entries, hkey, hkeys, hentries, hnd, -⟩ := rowRecords_eq_ok.mp hown
  obtain ⟨hless, -⟩ | ⟨-, hP, -, hshort⟩ := rowStorageKey_shape hkey
  · rw [hkeyed] at hless
    simp at hless
  rw [recordAt_eq_some hkey hkeys hentries hnd] at hat
  simp only [recordEntries, cons_append, mem_cons, mem_append, mem_map, Prod.mk.injEq] at hat
  rcases hat with ⟨rfl, -⟩ | ⟨u, hu, rfl, -⟩ | ⟨e, he, rfl, rfl⟩
  · simp [hP, letterP, letterI] at hhead
  · simp [(uniqueKey_head hkeys hu).1, letterU, letterI] at hhead
  · refine ⟨row, ⟨hrow, ?_⟩, ?_⟩
    · obtain ⟨index, -, hb⟩ := (mem_indexEntriesOf hentries e).mp he
      obtain ⟨-, -, hvalue⟩ := buildSecondaryIndexEntry_shape hb
      rw [keyOf_of_ok hkey, hvalue]
      split
      · exact ⟨_, decodeIndexValue_covering hshort row.value.short, by simp⟩
      · exact ⟨_, decodeIndexValue_letterP hP, by simp⟩
    · rw [matchesRange_index hkey hentries]
      exact any_eq_true.mpr ⟨e, he, hin⟩

/-- Each row with an entry in the range has a record there that leads to it. -/
theorem RowsImage.ledTo (hrange : PhysicalRange false startKey endKey) (hrow : row ∈ rows)
    (hmatch : matchesRange false table startKey endKey row = true) :
    ∃ record ∈ rangeRecords records startKey endKey, LeadsTo table rows record row := by
  obtain ⟨own, hown⟩ := (h.built row hrow).records
  obtain ⟨key, keys, entries, hkey, hkeys, hentries, hnd, -⟩ := rowRecords_eq_ok.mp hown
  rw [matchesRange_index hkey hentries] at hmatch
  obtain ⟨e, he, hin⟩ := any_eq_true.mp hmatch
  have hat : recordAt table row e.key = some e.value := by
    rw [recordAt_eq_some hkey hkeys hentries hnd]
    exact mem_append_right _ (mem_map.mpr ⟨e, he, rfl⟩)
  have hget : records[e.key]? = some e.value := by
    have hdata := (h.image.holds e.key e.value).mpr ⟨row, hrow, hat⟩
    simpa [dataRecord, isJournalMarker, (indexEntry_head hentries he).1, letterI, letterJ]
      using hdata
  have hrecord : (e.key, e.value) ∈ rangeRecords records startKey endKey :=
    mem_rangeRecords.mpr ⟨hget, hin⟩
  obtain ⟨owner, hleads, -⟩ := h.leadsTo hkeyed hrange hrecord
  refine ⟨_, hrecord, ?_⟩
  -- the value names the key of the row, so the row it leads to is this one
  have hletter : e.key.length ≠ 8 ∧ (e.key.head? = some letterU ∨ e.key.head? = some letterI) :=
    ⟨(indexEntry_head hentries he).2, .inr (indexEntry_head hentries he).1⟩
  obtain ⟨hmem, covered, hdecode, hcovered⟩ := hleads
  have hsame := owner_of_index_value (h.built row hrow) hat hletter hdecode
  obtain ⟨okey, hokey⟩ := (h.built owner hmem).storageKey
  rw [keyOf_of_ok hokey] at hsame
  obtain rfl := h.key_unique hrow hmem hsame hokey
  exact ⟨hrow, covered, hdecode, hcovered⟩

theorem RowsImage.keyOf_shape (hrow : row ∈ rows) :
    (keyOf table row).head? = some letterP ∧ (keyOf table row).length ≠ 8 := by
  obtain ⟨key, hkey⟩ := (h.built row hrow).storageKey
  rw [keyOf_of_ok hkey]
  rcases rowStorageKey_shape hkey with ⟨hless, -⟩ | ⟨-, hhead, hlen, -⟩
  · rw [hkeyed] at hless
    simp at hless
  · exact ⟨hhead, by omega⟩

/-- The loop over the index records keeps or asks for every row that they lead to. -/
theorem readIndexEntries_spec {recs : List (Bytes × Bytes)}
    (hrecs : ∀ record ∈ recs, ∃ row, LeadsTo table rows record row) {s : IndexScan}
    (hgood : RowsByKey table rows s.rowsByStorageKey) :
    ∃ s', readIndexEntries recs s = .ok s' ∧
      RowsByKey table rows s'.rowsByStorageKey ∧
      ∀ k, (k ∈ s'.rowsByStorageKey ∨ k ∈ s'.baseKeys) ↔
        (k ∈ s.rowsByStorageKey ∨ k ∈ s.baseKeys) ∨
          ∃ record ∈ recs, ∃ row, LeadsTo table rows record row ∧ keyOf table row = k := by
  induction recs generalizing s with
  | nil => exact ⟨s, rfl, hgood, by simp⟩
  | cons record rest ih =>
    obtain ⟨row, hrow, covered, hdecode, hcovered⟩ := hrecs record mem_cons_self
    have hrest := fun r hr => hrecs r (mem_cons_of_mem _ hr)
    -- the record leads to one key only
    have hone : ∀ k, (∃ r, LeadsTo table rows record r ∧ keyOf table r = k) ↔
        keyOf table row = k := by
      intro k
      constructor
      · rintro ⟨r, ⟨-, c, hc, -⟩, rfl⟩
        rw [hdecode, Except.ok.injEq, Prod.mk.injEq] at hc
        exact hc.1
      · exact fun hk => ⟨row, ⟨hrow, covered, hdecode, hcovered⟩, hk⟩
    simp only [readIndexEntries, hdecode, ok_bind, mem_cons, exists_eq_or_imp, hone]
    by_cases hseen : keyOf table row ∈ s.rowsByStorageKey
    · rw [if_pos hseen]
      obtain ⟨s', hok, hgood', hkeys⟩ := ih hrest hgood
      refine ⟨s', hok, hgood', fun k => (hkeys k).trans ?_⟩
      rw [← or_assoc, or_iff_left_of_imp (b := keyOf table row = k)]
      rintro rfl
      exact .inl hseen
    · rw [if_neg hseen]
      cases covered with
      | some bytes =>
        have hbytes := hcovered bytes rfl
        subst hbytes
        have hzero : (⟨if (keyOf table row).length = 8 then readUint64 (keyOf table row) else 0,
            row.value⟩ : LiteRow) = row := by
          rw [if_neg (h.keyOf_shape hkeyed hrow).2, ← (h.built row hrow).numbered hkeyed]
        simp only [toRow, row.value.short, dite_true, ok_bind, hzero]
        obtain ⟨s', hok, hgood', hkeys⟩ := ih
          (s := { s with rowsByStorageKey := s.rowsByStorageKey.insert (keyOf table row) row })
          hrest (hgood.insert hrow rfl)
        refine ⟨s', hok, hgood', fun k => (hkeys k).trans ?_⟩
        rw [mem_insert_iff]
        tauto
      | none =>
        obtain ⟨s', hok, hgood', hkeys⟩ :=
          ih (s := { s with baseKeys := s.baseKeys ++ [keyOf table row] }) hrest hgood
        refine ⟨s', hok, hgood', fun k => (hkeys k).trans ?_⟩
        rw [mem_append, mem_singleton, eq_comm (b := keyOf table row)]
        tauto

/-- The lookups of the base rows find the rows of the snapshot. -/
theorem readBaseRows_spec {keys : List Bytes}
    (hkeys : ∀ k ∈ keys, ∃ row ∈ rows, keyOf table row = k) {m : VisibleRows}
    (hgood : RowsByKey table rows m) :
    ∃ m', readBaseRows records keys m = .ok m' ∧ RowsByKey table rows m' ∧
      ∀ k, k ∈ m' ↔ k ∈ m ∨ k ∈ keys := by
  induction keys generalizing m with
  | nil => exact ⟨m, rfl, hgood, by simp⟩
  | cons k rest ih =>
    obtain ⟨row, hrow, rfl⟩ := hkeys k mem_cons_self
    obtain ⟨found, hfound, hiff⟩ := h.storedRowByKey hkeyed (h.keyOf_shape hkeyed hrow).1
    obtain rfl := (hiff row).mpr ⟨hrow, rfl⟩
    simp only [readBaseRows, hfound, ok_bind]
    have hrest := fun k' hk' => hkeys k' (mem_cons_of_mem _ hk')
    by_cases hmem : keyOf table row ∈ m
    · rw [if_pos hmem]
      obtain ⟨m', hok, hgood', hm'⟩ := ih hrest hgood
      refine ⟨m', hok, hgood', fun k => ?_⟩
      rw [hm', mem_cons, ← or_assoc, or_iff_left_of_imp (b := k = keyOf table row)]
      rintro rfl
      exact hmem
    · rw [if_neg hmem]
      obtain ⟨m', hok, hgood', hm'⟩ := ih hrest (hgood.insert hrow rfl)
      refine ⟨m', hok, hgood', fun k => ?_⟩
      rw [hm', mem_insert_iff, mem_cons, eq_comm (a := k)]
      tauto

/-- The rows of the snapshot in a range of index keys. -/
theorem RowsImage.storedIndexRange (hrange : PhysicalRange false startKey endKey) :
    ∃ found, litestore.storedIndexRange records startKey endKey = .ok found ∧
      ∀ row, row ∈ found ↔ row ∈ rows ∧ matchesRange false table startKey endKey row = true := by
  have hrecs : ∀ record ∈ rangeRecords records startKey endKey,
      ∃ row, LeadsTo table rows record row := fun record hr => by
    obtain ⟨row, hleads, -⟩ := h.leadsTo hkeyed hrange hr
    exact ⟨row, hleads⟩
  have hempty : RowsByKey table rows (∅ : VisibleRows) := fun k row hrow => by simp at hrow
  obtain ⟨scan, hscan, hgood, hkeys⟩ := readIndexEntries_spec (s := {}) h hkeyed hrecs hempty
  have hasked : ∀ k ∈ scan.baseKeys, ∃ row ∈ rows, keyOf table row = k := fun k hk => by
    rcases (hkeys k).mp (.inr hk) with hstart | ⟨record, -, row, hleads, hkey⟩
    · simp at hstart
    · exact ⟨row, hleads.1, hkey⟩
  obtain ⟨m, hm, hgood', hmem⟩ := readBaseRows_spec h hkeyed hasked hgood
  have hnonempty : endKey ≠ [] := by
    rintro rfl
    exact compare_nil_ne_lt startKey hrange.order
  refine ⟨m.toList.map Prod.snd, ?_, fun row => ?_⟩
  · have hstart : startKey.head? = some letterI := hrange.start
    simp only [litestore.storedIndexRange, hrange.size rfl, hstart, ne_eq, hnonempty,
      not_false_eq_true, hrange.order, and_self, guardOk, if_true, ok_bind, hscan, hm]
  · have hin : row ∈ m.toList.map Prod.snd ↔ ∃ k, m[k]? = some row := mem_rangedRows
    rw [hin]
    constructor
    · rintro ⟨k, hk⟩
      obtain ⟨hrow, hkey⟩ := hgood' k row hk
      refine ⟨hrow, ?_⟩
      have hk' : k ∈ m := Std.ExtTreeMap.mem_iff_isSome_getElem?.mpr (by simp [hk])
      rcases (hkeys k).mp ((hmem k).mp hk') with hstart | ⟨record, hr, owner, hleads, hokey⟩
      · simp at hstart
      · obtain ⟨other, hother, hmatch⟩ := h.leadsTo hkeyed hrange hr
        obtain ⟨-, c, hc, -⟩ := hleads
        obtain ⟨homem, c', hc', -⟩ := hother
        rw [hc, Except.ok.injEq, Prod.mk.injEq] at hc'
        have hsame : other = row := inj_on_of_nodup_map h.keys_nodup homem hrow
          (by rw [← hc'.1, hokey, hkey])
        rw [← hsame]
        exact hmatch
    · rintro ⟨hrow, hmatch⟩
      obtain ⟨record, hr, hleads⟩ := h.ledTo hkeyed hrange hrow hmatch
      have hk : keyOf table row ∈ m :=
        (hmem _).mpr ((hkeys _).mpr (.inr ⟨record, hr, row, hleads, rfl⟩))
      obtain ⟨found, hfound⟩ := Option.isSome_iff_exists.mp
        (Std.ExtTreeMap.mem_iff_isSome_getElem?.mp hk)
      obtain ⟨hfrow, hfkey⟩ := hgood' _ _ hfound
      have hsame : found = row := inj_on_of_nodup_map h.keys_nodup hfrow hrow hfkey
      exact ⟨keyOf table row, by rw [hfound, hsame]⟩

/-- The rows of the snapshot in the range, of either kind. -/
theorem RowsImage.storedRange {primaryRange : Bool}
    (hrange : PhysicalRange primaryRange startKey endKey) :
    ∃ found, (if primaryRange then litestore.storedPrimaryRange records startKey endKey
        else litestore.storedIndexRange records startKey endKey) = .ok found ∧
      ∀ row, row ∈ found ↔
        row ∈ rows ∧ matchesRange primaryRange table startKey endKey row = true := by
  cases primaryRange with
  | true => exact h.storedPrimaryRange hkeyed hrange
  | false => exact h.storedIndexRange hkeyed hrange

end Snapshot

/-! ## The staged changes over a range -/

section Overlay

variable {primaryRange : Bool} {m : VisibleRows}

theorem readVisible_eq_ok (h : ∀ row ∈ rows, HasKeys table row) (t : TxnTable) :
    ∃ t', readVisible table rows m t = .ok (putAll m (rows.map fun r => (keyOf table r, r))) t' := by
  induction rows generalizing m t with
  | nil => exact ⟨t, rfl⟩
  | cons row rest ih =>
    have hrest := ih (m := m.insert (keyOf table row) row)
      (fun r hr => h r (mem_cons_of_mem _ hr))
      { t with readRanges := ⟨keyOf table row, keyOf table row, false⟩ :: t.readRanges }
    obtain ⟨t', ht'⟩ := hrest
    refine ⟨t', ?_⟩
    simp only [readVisible, recordReadPointLocked, stateful.bind_eq_ok, lift_eq_ok, modify_eq_ok]
    exact ⟨_, _, ⟨(h row mem_cons_self).key, rfl⟩, (), _, rfl, ht'⟩

theorem eraseDeleted_eq_ok (h : ∀ row ∈ rows, HasKeys table row) :
    eraseDeleted table rows m = .ok (eraseAll m (rows.map (keyOf table))) := by
  induction rows generalizing m with
  | nil => rfl
  | cons row rest ih =>
    simp only [eraseDeleted, (h row mem_cons_self).key, ok_bind,
      ih fun r hr => h r (mem_cons_of_mem _ hr)]
    rfl

theorem putMatching_eq_ok (h : HasKeys table row) :
    putMatching table (rowMatchesRange primaryRange table startKey endKey) row m =
      .ok (putRow (keyOf table) (matchesRange primaryRange table startKey endKey) m row) := by
  simp only [putMatching, h.matches, ok_bind, h.key, putRow]
  split <;> rfl

theorem moveUpdated_eq_ok {us : List LiteRowMutation}
    (h : ∀ u ∈ us, HasKeys table u.before ∧ HasKeys table u.afterRow) :
    moveUpdated table (rowMatchesRange primaryRange table startKey endKey) us m =
      .ok ((us.map fun u => (u.before, u.afterRow)).foldl
        (moveRow (keyOf table) (matchesRange primaryRange table startKey endKey)) m) := by
  induction us generalizing m with
  | nil => rfl
  | cons u rest ih =>
    obtain ⟨hbefore, hafter⟩ := h u mem_cons_self
    simp only [moveUpdated, hbefore.key, ok_bind, putMatching_eq_ok hafter,
      ih fun v hv => h v (mem_cons_of_mem _ hv)]
    rfl

theorem putInserted_eq_ok (h : ∀ row ∈ rows, HasKeys table row) :
    putInserted table (rowMatchesRange primaryRange table startKey endKey) rows m =
      .ok (rows.foldl
        (putRow (keyOf table) (matchesRange primaryRange table startKey endKey)) m) := by
  induction rows generalizing m with
  | nil => rfl
  | cons row rest ih =>
    simp only [putInserted, putMatching_eq_ok (h row mem_cons_self), ok_bind,
      ih fun r hr => h r (mem_cons_of_mem _ hr)]
    rfl

theorem overlayRange_eq_ok {p : PendingTable} (htable : p.table = table)
    (h : ∀ row ∈ p.outgoing ++ p.incoming, HasKeys table row) :
    p.overlayRange (rowMatchesRange primaryRange p.table startKey endKey) m =
      .ok (ranged (keyOf table) (matchesRange primaryRange table startKey endKey)
        p.changes m) := by
  obtain ⟨hups, hdels, hins⟩ := forall_staged.mp h
  simp only [PendingTable.overlayRange, htable, eraseDeleted_eq_ok hdels, ok_bind,
    moveUpdated_eq_ok hups, putInserted_eq_ok hins]
  rfl

end Overlay

/-- What a range read shows: the staged changes, one by one, over the rows of the snapshot
in the range. -/
theorem scanPhysicalRange_eq_ok {t : TxnTable} {base : List LiteRow}
    (hkeyed : t.table.keyless = false) (himage : RowsImage t.table base t.snapshot)
    (hview : Viewed t.table base t.pendingD) {primaryRange : Bool}
    (hrange : PhysicalRange primaryRange startKey endKey) :
    ∃ (m : VisibleRows) (t' : TxnTable),
      (∀ k row, m[k]? = some row ↔ row ∈ base ∧
        Puts (keyOf t.table) (matchesRange primaryRange t.table startKey endKey) k row) ∧
      scanPhysicalRange primaryRange startKey endKey t = .ok (rangedRows (ranged (keyOf t.table)
        (matchesRange primaryRange t.table startKey endKey) t.pendingD.changes m)) t' := by
  obtain ⟨found, hfound, hrows⟩ := himage.storedRange hkeyed hrange
  have hkeys : ∀ row ∈ found, HasKeys t.table row := fun row hrow =>
    (himage.built row ((hrows row).mp hrow).1).hasKeys
  obtain ⟨t', ht'⟩ := readVisible_eq_ok (m := ∅) hkeys
    { t with readRanges := ⟨startKey, endKey, false⟩ :: t.readRanges }
  refine ⟨putAll ∅ (found.map fun r => (keyOf t.table r, r)), t', fun k row => ?_, ?_⟩
  · have hmap : ∀ k r, (k, r) ∈ (found.map fun r => (keyOf t.table r, r)) ↔
        r ∈ found ∧ keyOf t.table r = k := by
      intro k r
      simp only [mem_map, Prod.mk.injEq]
      constructor
      · rintro ⟨s, hs, hk, rfl⟩
        exact ⟨hs, hk⟩
      · rintro ⟨hr, hk⟩
        exact ⟨r, hr, hk, rfl⟩
    rw [putAll_empty_of_functional, hmap, hrows]
    · unfold Puts
      tauto
    · intro a b ha hb
      obtain ⟨ha, hka⟩ := (hmap k a).mp ha
      obtain ⟨hb, hkb⟩ := (hmap k b).mp hb
      exact inj_on_of_nodup_map himage.keys_nodup ((hrows a).mp ha).1 ((hrows b).mp hb).1
        (hka.trans hkb.symm)
  · simp only [scanPhysicalRange, stateful.bind_eq_ok, get_eq_ok, lift_eq_ok, modify_eq_ok]
    refine ⟨t, t, ⟨rfl, rfl⟩, found, t, ⟨hfound, rfl⟩, (), _, rfl, _, t', ht', ?_⟩
    cases hp : t.pending with
    | none =>
      have hload : t.pendingD = loadPending t.table := by simp [TxnTable.pendingD, hp]
      rw [hload]
      rfl
    | some p =>
      have hpd : t.pendingD = p := by simp [TxnTable.pendingD, hp]
      rw [hpd] at hview ⊢
      simp only [stateful.bind_eq_ok, lift_eq_ok, pure_eq_ok]
      exact ⟨_, t', ⟨overlayRange_eq_ok hview.loaded hview.keys, rfl⟩, rfl, rfl⟩

/-! ## The range read against the scan -/

/-- After any run of calls that name visible rows, a range read shows the rows of the scan
that lie in the range, each once, exactly when they have different primary keys and no
staged update brings a row of the range to a key that a later staged update leaves. -/
theorem range_read_agrees_iff {st : TableState} {calls : List TxnCall} {t : TxnTable}
    {primaryRange : Bool} {startKey endKey : Bytes}
    (himage : TableImage st.table st.records) (hkeyed : st.table.keyless = false)
    (hrun : runCalls (.ok st.table) calls (beginTable st) = .ok () t)
    (hnamed : RunNames (Shown st.records) (beginTable st) calls)
    (hrange : PhysicalRange primaryRange startKey endKey) :
    ∃ rows found t₁ t₂, scanRows t = .ok rows t₁ ∧
      scanPhysicalRange primaryRange startKey endKey t = .ok found t₂ ∧
      (found.Perm (rows.filter (matchesRange primaryRange st.table startKey endKey)) ↔
        ((rows.filter (matchesRange primaryRange st.table startKey endKey)).map
          (keyOf st.table)).Nodup ∧
        NoChain (keyOf st.table) (matchesRange primaryRange st.table startKey endKey)
          t.pendingD.changes.updates) := by
  obtain ⟨htable, base, hscan, hbase, hview⟩ := run_viewed himage hkeyed hrun hnamed
  rw [← htable] at hkeyed ⊢
  obtain ⟨stay, hfits, hperm⟩ := hview.fits hbase
  obtain ⟨m, t₂, hm, hread⟩ := scanPhysicalRange_eq_ok hkeyed hbase hview hrange
  obtain ⟨t₁, hrows⟩ := scanRows_visible hscan
  refine ⟨_, _, t₁, t₂, hrows, hread, ?_⟩
  have hfilter := hperm.filter (matchesRange primaryRange t.table startKey endKey)
  rw [(hfilter.map (keyOf t.table)).nodup_iff, ← hfits.ranged_perm_iff hm]
  exact ⟨fun h => h.trans hfilter, fun h => h.trans hfilter.symm⟩

/-- The range of all primary keys. -/
theorem physicalRange_primary : PhysicalRange true [letterP] [letterP + 1] := by
  refine ⟨by decide, by simp, fun k hk => ?_⟩
  simp only [keyInRange, Bool.and_eq_true, decide_eq_true_eq] at hk
  obtain ⟨hfrom, hto⟩ := hk
  cases k with
  | nil => exact absurd hfrom (by decide)
  | cons b rest =>
    have hcons : ∀ c : UInt8, compare (b :: rest) [c] = (compare b c).then (compare rest []) :=
      fun c => by simp [compare, List.compareLex_cons_cons]
    rw [hcons] at hfrom hto
    have hlt : ∀ c : UInt8, compare b c = .lt ↔ b < c := fun c => by
      simp only [compare, compareOfLessAndEq]
      split
      · simp_all
      · split <;> simp_all
    have hlow : ¬ b < letterP := fun h => by
      rw [(hlt _).mpr h] at hfrom
      simp at hfrom
    have hhigh : b < letterP + 1 := by
      cases hc : compare b (letterP + 1) with
      | lt => exact (hlt _).mp hc
      | eq => simp [hc, compare_nil_ne_lt] at hto
      | gt => simp [hc] at hto
    rw [UInt8.lt_iff_toNat_lt] at hlow hhigh
    have hb : b = letterP := UInt8.toNat_inj.mp (by
      simp only [letterP] at hlow hhigh ⊢
      have h80 : (80 : UInt8).toNat = 80 := rfl
      have h81 : (80 + 1 : UInt8).toNat = 81 := rfl
      omega)
    simp [hb]

/-- A read of all primary keys in the small transaction. -/
theorem small_range_read_agrees_iff :
    ∃ rows found t₁ t₂, scanRows smallTxn = .ok rows t₁ ∧
      scanPhysicalRange true [letterP] [letterP + 1] smallTxn = .ok found t₂ ∧
      (found.Perm (rows.filter (matchesRange true smallTable [letterP] [letterP + 1])) ↔
        ((rows.filter (matchesRange true smallTable [letterP] [letterP + 1])).map
          (keyOf smallTable)).Nodup ∧
        NoChain (keyOf smallTable) (matchesRange true smallTable [letterP] [letterP + 1])
          smallTxn.pendingD.changes.updates) :=
  range_read_agrees_iff smallStored_image rfl smallTxn_run (by decide +kernel)
    physicalRange_primary

/-- Every key of a table counts up by one. -/
def countUp : List TxnCall :=
  [.updateRows [⟨⟨0, smallRow 1 1⟩, smallRow 2 1⟩, ⟨⟨0, smallRow 2 2⟩, smallRow 3 2⟩]]

/-- The second update erases the key that the first one took, and the range read loses the
row that the first one brought. -/
theorem range_read_loses_a_row :
    ∃ t t₁ t₂,
      TableImage (smallStored [(1, 1), (2, 2)]).table (smallStored [(1, 1), (2, 2)]).records ∧
      RunNames (Shown (smallStored [(1, 1), (2, 2)]).records)
        (beginTable (smallStored [(1, 1), (2, 2)])) countUp ∧
      runCalls (.ok smallTable) countUp (beginTable (smallStored [(1, 1), (2, 2)])) = .ok () t ∧
      scanRows t = .ok [⟨0, smallRow 2 1⟩, ⟨0, smallRow 3 2⟩] t₁ ∧
      scanPrimaryRange [letterP] [letterP + 1] t = .ok [⟨0, smallRow 3 2⟩] t₂ :=
  ⟨_, _, _, tableImage_plain rfl rfl rfl (by decide) (by decide +kernel), by decide +kernel,
    eq_ok_of_valueOf (by decide +kernel), eq_ok_of_valueOf (by decide +kernel),
    eq_ok_of_valueOf (by decide +kernel)⟩

end litestore
