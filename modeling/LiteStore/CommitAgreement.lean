-- The two commits agree. On a table that holds the image of its rows the delta
-- commit and the whole-image commit accept the same changes and leave the same
-- records, except that the whole-image commit also takes row ids that the
-- catalog has handed out before.
import LiteStore.ImageCommit

namespace litestore

open Std (ExtTreeMap)
open checked rowimage List

/-! ## The rows of the whole-image commit -/

variable {table : LiteTableDef} {rows : List LiteRow} {map original : RowMap} {st : TableState}
  {m : Mutations} {final : RecordMap}

theorem Keyed.perm {more : List LiteRow} (h : Keyed table rows map) (hp : rows.Perm more) :
    Keyed table more map := by
  refine ⟨h.apart.perm hp, fun k row => ?_⟩
  rw [h.holds, hp.mem_iff]

/-- The map lists its rows, each with its key. -/
theorem Keyed.toList (h : Keyed table rows map) :
    (∀ p ∈ map.toList, rowStorageKey table p.2 = .ok p.1) ∧ (map.toList.map Prod.snd).Perm rows := by
  have hkeys : ∀ p ∈ map.toList, rowStorageKey table p.2 = .ok p.1 := by
    rintro ⟨k, row⟩ hp
    rw [ExtTreeMap.mem_toList_iff_getElem?_eq_some] at hp
    exact ((h.holds k row).mp hp).2
  have hnd : (map.toList.map Prod.snd).Nodup := by
    apply Nodup.of_map (rowStorageKey table)
    have heq : (map.toList.map Prod.snd).map (rowStorageKey table) =
        (map.toList.map Prod.fst).map Except.ok := by
      rw [map_map, map_map]
      exact map_congr_left fun p hp => hkeys p hp
    rw [heq, ExtTreeMap.map_fst_toList_eq_keys]
    exact ExtTreeMap.nodup_keys.map fun a b hab => Except.ok.inj hab
  refine ⟨hkeys, (perm_ext_iff_of_nodup hnd h.apart.nodup).mpr fun row => ?_⟩
  constructor
  · intro hrow
    obtain ⟨⟨k, r⟩, hp, rfl⟩ := mem_map.mp hrow
    rw [ExtTreeMap.mem_toList_iff_getElem?_eq_some] at hp
    exact ((h.holds k r).mp hp).1
  · intro hrow
    obtain ⟨k, hk⟩ := h.apart.key hrow
    refine mem_map.mpr ⟨(k, row), ?_, rfl⟩
    rw [ExtTreeMap.mem_toList_iff_getElem?_eq_some]
    exact (h.holds k row).mpr ⟨hrow, hk⟩

/-- A row is found by the loops exactly when it is stored as it was read. -/
theorem found_iff_stored (himage : RowsImage st.table rows st.records)
    (hkeyed : Keyed st.table rows original) (row : LiteRow) (key : Bytes) :
    Found st.table original row key ↔ rowStorageKey st.table row = .ok key ∧
      st.records[key]? = some (encodeRowValue row.value) := by
  unfold Found
  refine and_congr_right fun hkey => ?_
  constructor
  · intro hfound
    obtain ⟨r, hr, hval⟩ := Option.map_eq_some_iff.mp hfound
    obtain ⟨hmem, hrk⟩ := (hkeyed.holds key r).mp hr
    rw [himage.stored hmem hrk, hval]
  · intro hstored
    have hmem := himage.mem_of_stored hkey hstored
    rw [(hkeyed.holds key (normalRow st.table row)).mpr ⟨hmem, by simpa using hkey⟩]
    simp

/-- The row ids of the inserts, as the whole-image commit checks them. -/
def imageRowIds (table : LiteTableDef) (inserts : List LiteRow) : Prop :=
  (inserts ≠ [] → table.keyless = false ∨
    table.nextRowId = firstInsertedRowId table inserts ∨
    metadataAlreadyAdvanced table inserts = true) ∧
  (table.keyless = false ∨ contiguousFrom (firstInsertedRowId table inserts) inserts = true)

/-- The rows that must leave are stored under different keys. -/
def StoredApart (st : TableState) (out : List LiteRow) : Prop :=
  ∃ keys : List Bytes, keys.Nodup ∧
    Forall₂ (fun row key => rowStorageKey st.table row = .ok key ∧
      st.records[key]? = some (encodeRowValue row.value)) out keys

/-- The map without the outgoing rows holds the rows that stay. -/
theorem keyed_stay {out stay : List LiteRow} {keys : List Bytes}
    (hkeyed : Keyed table rows original) (hperm : rows.Perm (out.map (normalRow table) ++ stay))
    (hkeys : Forall₂ (Found table original) out keys) :
    Keyed table stay (eraseAll original keys.reverse) := by
  refine (hkeyed.perm hperm).erase fun k => ?_
  rw [mem_reverse]
  constructor
  · intro hk
    obtain ⟨row, hrow, hf⟩ := forall₂_exists_right hkeys.flip hk
    exact ⟨_, mem_map.mpr ⟨row, hrow, rfl⟩, by simpa using hf.1⟩
  · rintro ⟨row, hrow, hk⟩
    obtain ⟨r, hr, rfl⟩ := mem_map.mp hrow
    obtain ⟨key, hin, hf⟩ := forall₂_exists_right hkeys hr
    rw [rowStorageKey_normalRow, hf.1] at hk
    cases hk
    exact hin

/-- The image of the rows of a map. -/
theorem addImageRows_of_keyed (h : Keyed table rows map) :
    addImageRows table map.toList ∅ = .ok final ↔
      (∀ row ∈ rows, ∃ own, rowRecords table row = .ok own) ∧
        Apart (recordAt table) rows ∧ IsImage (recordAt table) rows (fun k => final[k]?) := by
  obtain ⟨hpairs, hperm⟩ := h.toList
  have hap : KeysApart table ([] ++ map.toList.map Prod.snd) := h.apart.perm hperm.symm
  rw [addImageRows_eq_ok (isImage_empty table) hpairs hap, nil_append]
  constructor
  · rintro ⟨hb, ha, hi⟩
    refine ⟨fun row hrow => ?_, ha.perm hperm, hi.perm hperm⟩
    obtain ⟨p, hp, rfl⟩ := mem_map.mp (hperm.mem_iff.mpr hrow)
    exact hb p hp
  · rintro ⟨hb, ha, hi⟩
    refine ⟨fun p hp => ?_, ha.perm hperm.symm, hi.perm hperm.symm⟩
    exact hb p.2 (hperm.mem_iff.mp (mem_map.mpr ⟨p, hp, rfl⟩))

/-- The loops over the incoming rows and over the whole image. -/
theorem placed_eq_ok {stay : List LiteRow} {base : RowMap} (hbase : Keyed table stay base) :
    (∃ mid, placeUpdated table (m.updates.map (·.afterRow)) base = .ok mid ∧
      ∃ map, placeInserted table (metadataAlreadyAdvanced table m.inserts)
        (firstInsertedRowId table m.inserts) m.inserts (firstInsertedRowId table m.inserts) mid
          = .ok map ∧
      addImageRows table map.toList ∅ = .ok final) ↔
      imageRowIds table m.inserts ∧
        (∀ row ∈ stay ++ m.incoming, ∃ own, rowRecords table row = .ok own) ∧
        Apart (recordAt table) (stay ++ m.incoming) ∧
        IsImage (recordAt table) (stay ++ m.incoming) (fun k => final[k]?) := by
  have hassoc : stay ++ m.incoming = (stay ++ m.updates.map (·.afterRow)) ++ m.inserts := by
    simp [Mutations.incoming]
  rw [hassoc]
  constructor
  · rintro ⟨mid, hmid, map, hmap, hfinal⟩
    obtain ⟨-, hkmid⟩ := (placeUpdated_eq_ok hbase).mp hmid
    obtain ⟨hfirst, hcont, -, hkmap⟩ := (placeInserted_eq_ok hkmid).mp hmap
    exact ⟨⟨hfirst, hcont⟩, (addImageRows_of_keyed hkmap).mp hfinal⟩
  · rintro ⟨⟨hfirst, hcont⟩, hb, ha, hi⟩
    have hap := keysApart_of_apart hb ha
    obtain ⟨mid, hkmid⟩ := exists_keyed hap.left
    obtain ⟨map, hkmap⟩ := exists_keyed hap
    exact ⟨mid, (placeUpdated_eq_ok hbase).mpr ⟨hkmid.apart, hkmid⟩, map,
      (placeInserted_eq_ok hkmid).mpr ⟨hfirst, hcont, hap, hkmap⟩,
      (addImageRows_of_keyed hkmap).mpr ⟨hb, ha, hi⟩⟩

/-- The checks in the order in which they are made. -/
theorem finalRecords_steps {faults : Faults} {f : RecordMap} (original : RowMap)
    (horiginal : originalRows faults st = .ok original) :
    finalRecords faults st m = .ok f ↔
      ∃ removed, (∃ mid, selectStored st.table original
          "lite update row changed; restart transaction"
          (m.updates.map fun u => (u.before, some u.afterRow)) [] = .ok mid ∧
        selectStored st.table original "lite delete row changed; restart transaction"
          (m.deletes.map fun d => (d, none)) mid = .ok removed) ∧
        ∃ mid, placeUpdated st.table (m.updates.map (·.afterRow))
            (eraseAll original removed) = .ok mid ∧
          ∃ map, placeInserted st.table (metadataAlreadyAdvanced st.table m.inserts)
            (firstInsertedRowId st.table m.inserts) m.inserts
            (firstInsertedRowId st.table m.inserts) mid = .ok map ∧
          addImageRows st.table map.toList ∅ = .ok f := by
  simp only [finalRecords, finalRows, horiginal, ok_bind, bind_eq_ok]
  constructor
  · rintro ⟨map, ⟨mid, h1, removed, h2, placed, h3, h4⟩, h5⟩
    exact ⟨removed, ⟨mid, h1, h2⟩, placed, h3, map, h4, h5⟩
  · rintro ⟨removed, ⟨mid, h1, h2⟩, placed, h3, map, h4, h5⟩
    exact ⟨map, ⟨mid, h1, removed, h2, placed, h3, h4⟩, h5⟩

/-- The whole-image commit of some changes, written out: what it checks and the image it
leaves. The rows that stay are the rows of the table without the outgoing ones. -/
theorem finalRecords_eq_ok {faults : Faults} (himage : RowsImage st.table rows st.records)
    (hscan : faults "scan lite rows for transaction commit" [] = none) :
    finalRecords faults st m = .ok final ↔
      StoredApart st m.outgoing ∧ imageRowIds st.table m.inserts ∧
        (∀ row ∈ m.incoming, ∃ own, rowRecords st.table row = .ok own) ∧
        ∃ stay, rows.Perm (m.outgoing.map (normalRow st.table) ++ stay) ∧
          Apart (recordAt st.table) (stay ++ m.incoming) ∧
          IsImage (recordAt st.table) (stay ++ m.incoming) (fun k => final[k]?) := by
  obtain ⟨original, horiginal, hkeyed⟩ := originalRows_of_image himage hscan
  have hfound : ∀ {keys}, Forall₂ (Found st.table original) m.outgoing keys ↔
      Forall₂ (fun row key => rowStorageKey st.table row = .ok key ∧
        st.records[key]? = some (encodeRowValue row.value)) m.outgoing keys := by
    intro keys
    constructor
    · exact Forall₂.imp fun row key h => (found_iff_stored himage hkeyed row key).mp h
    · exact Forall₂.imp fun row key h => (found_iff_stored himage hkeyed row key).mpr h
  have hbuiltStay : ∀ {stay : List LiteRow},
      rows.Perm (m.outgoing.map (normalRow st.table) ++ stay) →
      ∀ row ∈ stay, ∃ own, rowRecords st.table row = .ok own := fun hperm row hrow =>
    (himage.built row (hperm.mem_iff.mpr (mem_append_right _ hrow))).records
  have hsteps := finalRecords_steps (m := m) (f := final) original horiginal
  rw [hsteps]
  simp only [selectStored_eq_ok, picks_twice]
  constructor
  · rintro ⟨removed, ⟨keys, hkeys, hnd, -, rfl⟩, hplaced⟩
    obtain ⟨stay, hperm⟩ := himage.split hnd (hfound.mp hkeys)
    obtain ⟨hids, hb, ha, hi⟩ := (placed_eq_ok (keyed_stay hkeyed hperm hkeys)).mp hplaced
    exact ⟨⟨keys, hnd, hfound.mp hkeys⟩, hids,
      fun row hrow => hb row (mem_append_right _ hrow), stay, hperm, ha, hi⟩
  · rintro ⟨⟨keys, hnd, hkeys⟩, hids, hb, stay, hperm, ha, hi⟩
    have hkeys' := hfound.mpr hkeys
    refine ⟨keys.reverse, ⟨keys, hkeys', hnd, fun u hu => ?_, rfl⟩,
      (placed_eq_ok (keyed_stay hkeyed hperm hkeys')).mpr ⟨hids, fun row hrow => ?_, ha, hi⟩⟩
    · obtain ⟨own, hown⟩ := hb u.afterRow
        (mem_append_left _ (mem_map.mpr ⟨u, hu, rfl⟩))
      obtain ⟨key, -, -, hkey, -⟩ := rowRecords_eq_ok.mp hown
      exact ⟨key, hkey⟩
    · rcases mem_append.mp hrow with h | h
      · exact hbuiltStay hperm row h
      · exact hb row h

/-! ## What the whole-image commit writes -/

/-- Where the batch starts from the records of the table, it leaves the image. -/
theorem writeImage_getElem? {base records : RecordMap} {k : Bytes}
    (hbase : base[k]? = records[k]?) :
    (putAll (eraseAll base (staleKeys records final)) (changedRecords records final))[k]? =
      final[k]? := by
  have hchanged : ∀ v, (k, v) ∈ changedRecords records final ↔
      final[k]? = some v ∧ records[k]? ≠ some v := by
    intro v
    unfold changedRecords
    rw [mem_filter, ExtTreeMap.mem_toList_iff_getElem?_eq_some]
    simp
  have hstale : k ∈ staleKeys records final ↔ k ∈ records ∧ final[k]? = none := by
    unfold staleKeys
    rw [mem_filter, ExtTreeMap.mem_keys, decide_eq_true_eq, not_mem_iff_getElem?]
  have hnd : ((changedRecords records final).map Prod.fst).Nodup := by
    refine Nodup.sublist (Sublist.map _ filter_sublist) ?_
    rw [ExtTreeMap.map_fst_toList_eq_keys]
    exact ExtTreeMap.nodup_keys
  by_cases hput : ∃ v, (k, v) ∈ changedRecords records final
  · obtain ⟨v, hv⟩ := hput
    rw [putAll_of_mem hnd hv, ((hchanged v).mp hv).1]
  · have hnot : k ∉ (changedRecords records final).map Prod.fst := by
      rintro hin
      obtain ⟨⟨k', v⟩, hmem, rfl⟩ := mem_map.mp hin
      exact hput ⟨v, hmem⟩
    rw [putAll_of_notMem hnot, eraseAll_getElem?, hbase]
    by_cases hs : k ∈ staleKeys records final
    · rw [if_pos hs, (hstale.mp hs).2]
    · rw [if_neg hs]
      cases hfinal : final[k]? with
      | none =>
        rw [← not_mem_iff_getElem?]
        exact fun hin => hs (hstale.mpr ⟨hin, hfinal⟩)
      | some v =>
        by_contra hne
        exact hput ⟨v, (hchanged v).mpr ⟨hfinal, hne⟩⟩

/-- With no failing call and no journal, the whole-image commit succeeds exactly when its
checks do, and it leaves the image that they computed. -/
theorem commitPendingMutations_of_final (hne : m.isEmpty = false)
    (huid : st.table.objectUid = table.objectUid)
    (hfinal : finalRecords noFaults st m = .ok final) :
    (commitPendingMutations noFaults st table m false 0).1 = .ok () ∧
      (commitPendingMutations noFaults st table m false 0).2.records = final ∧
      (commitPendingMutations noFaults st table m false 0).2.table =
        if st.table.keyless && !m.inserts.isEmpty && !metadataAlreadyAdvanced st.table m.inserts
        then { st.table with nextRowId := st.table.nextRowId + UInt64.ofNat m.inserts.length }
        else st.table := by
  have hneeded : commitNeeded noFaults st table 0 = .ok true := by
    simp [commitNeeded, loadTable, openTable, checkRocksError, noFaults, guardOk, huid]
  have hrecords : putAll (eraseAll st.records (staleKeys st.records final))
      (changedRecords st.records final) = final :=
    ExtTreeMap.ext_getElem? fun k => writeImage_getElem? rfl
  simp only [commitPendingMutations, hne, Bool.false_eq_true, if_false, hneeded, hfinal,
    writeImage, if_true, putAll_nil, hrecords, checkRocksError, noFaults]
  split <;> simp

theorem commitPendingMutations_ok_iff (hne : m.isEmpty = false) :
    (commitPendingMutations noFaults st table m false 0).1 = .ok () ↔
      st.table.objectUid = table.objectUid ∧ ∃ final, finalRecords noFaults st m = .ok final := by
  constructor
  · intro h
    have huid : st.table.objectUid = table.objectUid := by
      by_contra hdiff
      simp [commitPendingMutations, hne, commitNeeded, loadTable, checkRocksError, noFaults,
        guardOk, hdiff] at h
    refine ⟨huid, ?_⟩
    cases hfinal : finalRecords noFaults st m with
    | ok final => exact ⟨final, rfl⟩
    | error e =>
      simp [commitPendingMutations, hne, commitNeeded, loadTable, openTable, checkRocksError,
        noFaults, guardOk, huid, hfinal] at h
  · rintro ⟨huid, final, hfinal⟩
    exact (commitPendingMutations_of_final hne huid hfinal).1

/-! ## The agreement -/

/-- The delta commit takes the row ids that the whole-image commit takes when the first
one is the next row id of the table. -/
theorem checkRowIds_eq_ok {inserts : List LiteRow} :
    checkRowIds table inserts = .ok () ↔ imageRowIds table inserts ∧
      (table.keyless = true → inserts ≠ [] →
        firstInsertedRowId table inserts = table.nextRowId) := by
  cases inserts with
  | nil => simp [checkRowIds, imageRowIds, contiguousFrom]
  | cons first rest =>
    cases hk : table.keyless with
    | false => simp [checkRowIds, imageRowIds, hk]
    | true =>
      by_cases hfirst : first.rowId = table.nextRowId
      · simp [checkRowIds, imageRowIds, hk, firstInsertedRowId, hfirst, guardOk_eq_ok]
      · simp [checkRowIds, imageRowIds, hk, firstInsertedRowId, hfirst]

/-- On the image of its rows, a table lets the same rows go in both commits. -/
theorem leaving_iff_storedApart {out : List LiteRow} (himage : RowsImage st.table rows st.records) :
    Leaving noFaults st out ↔ StoredApart st out := by
  constructor
  · exact fun h => h.stored
  · rintro ⟨keys, hnd, hkeys⟩
    refine ⟨keys, hkeys.imp fun row key h => ⟨h.1, rfl, h.2, ?_⟩, hnd⟩
    have hrecords := (himage.built _ (himage.mem_of_stored h.1 h.2)).records
    simpa using hrecords

/-- The delta commit accepts exactly when the rows that stay and the new rows fit. -/
theorem deltaAccepted_iff (himage : RowsImage st.table rows st.records) :
    DeltaAccepted noFaults st m ↔
      (StoredApart st m.outgoing ∧
        (∀ row ∈ m.incoming, ∃ own, rowRecords st.table row = .ok own) ∧
        ∃ stay, rows.Perm (m.outgoing.map (normalRow st.table) ++ stay) ∧
          Apart (recordAt st.table) (stay ++ m.incoming)) ∧
      checkRowIds st.table m.inserts = .ok () := by
  have hfresh : ∀ {stay}, rows.Perm (m.outgoing.map (normalRow st.table) ++ stay) →
      (Apart (recordAt st.table) (stay ++ m.incoming) ↔
        Apart (recordAt st.table) m.incoming ∧
          Fresh (recordAt st.table) (m.outgoing.map (normalRow st.table)) m.incoming
            (dataRecord st.records)) := fun hperm =>
    apart_iff_fresh (himage.image.perm hperm)
  constructor
  · intro h
    have hout := (leaving_iff_storedApart himage).mp h.leaving
    obtain ⟨keys, hnd, hkeys⟩ := hout
    obtain ⟨stay, hperm⟩ := himage.split hnd hkeys
    refine ⟨⟨⟨keys, hnd, hkeys⟩, h.arriving, stay, hperm, (hfresh hperm).mpr ⟨h.apart, ?_⟩⟩,
      h.rowIds⟩
    intro k hk
    exact h.fresh k (by rwa [owners_map_normalRow])
  · rintro ⟨⟨hout, harriving, stay, hperm, hapart⟩, hids⟩
    obtain ⟨hnew, hfree⟩ := (hfresh hperm).mp hapart
    refine ⟨(leaving_iff_storedApart himage).mpr hout, harriving, hnew, fun k hk => ?_, hids⟩
    rcases hfree k hk with hnone | howned
    · -- a new row owns the key, so it is not the key of a marker
      have hmark : isJournalMarker k = false := by
        by_contra hm
        rw [Bool.not_eq_false] at hm
        rw [owners_marker hm] at hk
        omega
      rw [dataRecord, hmark] at hnone
      exact .inr ⟨rfl, by simpa using hnone⟩
    · rw [owners_map_normalRow] at howned
      exact .inl howned

/-- The whole-image commit accepts, and the inserts of a keyless table start at its next
row id, exactly when the delta commit accepts. -/
theorem finalRecords_ok_iff_deltaAccepted (himage : RowsImage st.table rows st.records) :
    DeltaAccepted noFaults st m ↔ (∃ final, finalRecords noFaults st m = .ok final) ∧
      (st.table.keyless = true → m.inserts ≠ [] →
        firstInsertedRowId st.table m.inserts = st.table.nextRowId) := by
  have hscan : noFaults "scan lite rows for transaction commit" [] = none := rfl
  simp only [deltaAccepted_iff himage, checkRowIds_eq_ok, finalRecords_eq_ok himage hscan]
  constructor
  · rintro ⟨⟨hout, harriving, stay, hperm, hapart⟩, hids, hfirst⟩
    exact ⟨⟨_, hout, hids, harriving, stay, hperm, hapart, imageOf_isImage hapart⟩, hfirst⟩
  · rintro ⟨⟨final, hout, hids, harriving, stay, hperm, hapart, -⟩, hfirst⟩
    exact ⟨⟨hout, harriving, stay, hperm, hapart⟩, hids, hfirst⟩

/-- Both commits leave the image of the rows that stay and the new rows. -/
theorem delta_records_eq_final {batch : TableBatch} (himage : RowsImage st.table rows st.records)
    (hne : m.isEmpty = false)
    (hdelta : appendPendingMutationsAtomic noFaults false st table m = .ok batch)
    (hfinal : finalRecords noFaults st m = .ok final) (k : Bytes) :
    dataRecord (st.applyBatch batch).records k = final[k]? := by
  obtain ⟨hacc, hbatch⟩ := append_accepted hne hdelta
  obtain ⟨-, -, -, stay, hperm, hapart, hfinalImage⟩ := (finalRecords_eq_ok himage rfl).mp hfinal
  have hfresh := (apart_iff_fresh (himage.image.perm hperm)).mp hapart
  have hout : ∀ k, owners (recordAt st.table) (m.outgoing.map (normalRow st.table)) k =
      owners (recordAt st.table) m.outgoing k := fun k => owners_map_normalRow _ _ k
  have hchanged : Changed (recordAt st.table) (m.outgoing.map (normalRow st.table)) m.incoming
      (dataRecord st.records) (dataRecord (st.applyBatch batch).records) := by
    obtain ⟨hput, herased, hkept⟩ := changed_dataRecord hbatch.changed
    exact ⟨hput, fun k hk ho => herased k hk (hout k ▸ ho), fun k hk ho => hkept k hk (hout k ▸ ho)⟩
  exact congrFun (((himage.image.perm hperm).change hacc.apart hfresh.2 hchanged).unique
    hfinalImage) k

/-- Row ids that were handed out before leave the next row id as it is. When they also
start at the next row id, their number is a multiple of `2 ^ 64`. -/
theorem nextRowId_agrees {inserts : List LiteRow} (hfirst : table.keyless = true → inserts ≠ [] →
      firstInsertedRowId table inserts = table.nextRowId) :
    ((if table.keyless && !inserts.isEmpty then
        some { table with nextRowId := table.nextRowId + UInt64.ofNat inserts.length }
        else none).getD table).nextRowId =
      (if table.keyless && !inserts.isEmpty && !metadataAlreadyAdvanced table inserts
        then { table with nextRowId := table.nextRowId + UInt64.ofNat inserts.length }
        else table).nextRowId := by
  cases hrows : table.keyless && !inserts.isEmpty with
  | false => simp
  | true =>
    cases hadv : metadataAlreadyAdvanced table inserts with
    | false => simp
    | true =>
      simp only [Bool.and_eq_true, Bool.not_eq_true', isEmpty_eq_false_iff] at hrows
      simp only [metadataAlreadyAdvanced, Bool.and_eq_true, decide_eq_true_eq,
        hfirst hrows.1 hrows.2] at hadv
      simp [← hadv.2]

/-- On a table that holds the image of its rows, the delta commit accepts some changes
exactly when the whole-image commit does and the inserts of a keyless table start at its
next row id. Then both leave the same records and the same next row id. -/
theorem delta_commit_agrees_with_image_commit (st : TableState) (table : LiteTableDef)
    (m : Mutations) (himage : TableImage st.table st.records) :
    ((∃ batch, appendPendingMutationsAtomic noFaults false st table m = .ok batch) ↔
      (commitPendingMutations noFaults st table m false 0).1 = .ok () ∧
        (st.table.keyless = true → m.inserts ≠ [] →
          firstInsertedRowId st.table m.inserts = st.table.nextRowId)) ∧
    ∀ batch, appendPendingMutationsAtomic noFaults false st table m = .ok batch →
      (∀ k, dataRecord (st.applyBatch batch).records k =
        dataRecord (commitPendingMutations noFaults st table m false 0).2.records k) ∧
      (st.applyBatch batch).table.nextRowId =
        (commitPendingMutations noFaults st table m false 0).2.table.nextRowId := by
  cases hne : m.isEmpty with
  | true =>
    -- nothing is staged: both commits return at once
    have hinserts : m.inserts = [] := by
      simp only [Mutations.isEmpty, Bool.and_eq_true, List.isEmpty_iff] at hne
      exact hne.2
    simp [appendPendingMutationsAtomic, commitPendingMutations, hne, hinserts,
      TableState.applyBatch, writeBatch, eraseAll]
  | false =>
    obtain ⟨rows, hrows⟩ := tableImage_iff.mp himage
    have hiff : (∃ batch, appendPendingMutationsAtomic noFaults false st table m = .ok batch) ↔
        (commitPendingMutations noFaults st table m false 0).1 = .ok () ∧
          (st.table.keyless = true → m.inserts ≠ [] →
            firstInsertedRowId st.table m.inserts = st.table.nextRowId) := by
      rw [append_ok_iff hne, finalRecords_ok_iff_deltaAccepted hrows,
        commitPendingMutations_ok_iff hne]
      simp only [noFaults, true_and, and_assoc]
    refine ⟨hiff, fun batch hdelta => ?_⟩
    obtain ⟨himg, hfirst⟩ := hiff.mp ⟨batch, hdelta⟩
    obtain ⟨huid, final, hfinal⟩ := (commitPendingMutations_ok_iff hne).mp himg
    obtain ⟨-, hrecords, htable⟩ := commitPendingMutations_of_final hne huid hfinal
    obtain ⟨hacc, hbatch⟩ := append_accepted hne hdelta
    refine ⟨fun k => ?_, ?_⟩
    · rw [hrecords, delta_records_eq_final hrows hne hdelta hfinal]
      cases hm : isJournalMarker k with
      | false => simp [dataRecord, hm]
      | true =>
        rw [← delta_records_eq_final hrows hne hdelta hfinal]
        simp [dataRecord, hm]
    · simp only [TableState.applyBatch, hbatch.table, htable]
      exact nextRowId_agrees hfirst

/-- An update, a delete and an insert over two stored rows. -/
def smallChanges : Mutations :=
  ⟨[⟨⟨0, smallRow 1 1⟩, smallRow 1 5⟩], [⟨0, smallRow 2 2⟩], [⟨0, smallRow 3 3⟩]⟩

/-- Both commits take them and leave the same records. -/
theorem small_table_commits_agree :
    ∃ batch, appendPendingMutationsAtomic noFaults false (smallStored [(1, 1), (2, 2)]) smallTable
        smallChanges = .ok batch ∧
      (commitPendingMutations noFaults (smallStored [(1, 1), (2, 2)]) smallTable smallChanges
        false 0).1 = .ok () ∧
      ∀ k, dataRecord ((smallStored [(1, 1), (2, 2)]).applyBatch batch).records k =
        dataRecord (commitPendingMutations noFaults (smallStored [(1, 1), (2, 2)]) smallTable
          smallChanges false 0).2.records k := by
  have haccepts : (appendPendingMutationsAtomic noFaults false (smallStored [(1, 1), (2, 2)])
      smallTable smallChanges).isOk = true := by
    decide +kernel
  have himage : TableImage smallTable (smallStored [(1, 1), (2, 2)]).records :=
    tableImage_plain rfl rfl rfl (by decide) (by decide)
  obtain ⟨hiff, hsame⟩ := delta_commit_agrees_with_image_commit (smallStored [(1, 1), (2, 2)])
    smallTable smallChanges himage
  cases hdelta : appendPendingMutationsAtomic noFaults false (smallStored [(1, 1), (2, 2)])
      smallTable smallChanges with
  | ok batch => exact ⟨batch, rfl, (hiff.mp ⟨batch, hdelta⟩).1, (hsame batch hdelta).1⟩
  | error e =>
    rw [hdelta] at haccepts
    cases haccepts

/-- The catalog of an empty keyless table has handed out row id 1. The whole-image commit
takes a row with that id, and the delta commit does not. -/
theorem image_commit_takes_a_used_row_id :
    TableImage { smallLog with nextRowId := 2 } ∅ ∧
      (commitPendingMutations noFaults (emptyTable { smallLog with nextRowId := 2 }) smallLog
        { inserts := [⟨1, smallRow 1 2⟩] } false 0).1 = .ok () ∧
      appendPendingMutationsAtomic noFaults false (emptyTable { smallLog with nextRowId := 2 })
        smallLog { inserts := [⟨1, smallRow 1 2⟩] } = .error rowIdAllocationChanged :=
  ⟨tableImage_empty _, by decide +kernel, by decide +kernel⟩

end litestore
