-- The routines that change a definition keep the image of the table. A new
-- index gives each row one more record, a dropped index takes one away, and a
-- rewrite for `alterTable` replaces every row.
import LiteStore.Schema

namespace litestore

open checked rowimage orderedscan List

/-! ## Rewriting every row -/

variable {table newTable : LiteTableDef} {row : LiteRow} {faults : Faults} {st : TableState}
  {rowKey k v : Bytes} {p : RowPlan} {back : List LiteIndexDef} {index : LiteIndexDef}

theorem RowBuilt.planned (h : RowBuilt table row) : ∃ p, Planned table row p := by
  obtain ⟨own, hown⟩ := h.records
  obtain ⟨key, keys, entries, hkey, hkeys, hentries, -⟩ := rowRecords_eq_ok.mp hown
  exact ⟨⟨row.value, key, keys, entries⟩, rfl, hkey, hkeys, hentries⟩

theorem rowKeys_nodup {plans : List RowPlan} (h : (plans.flatMap RowPlan.names).Nodup) :
    (plans.map (·.rowKey)).Nodup := by
  have hsub : (plans.map (·.rowKey)).Sublist (plans.flatMap RowPlan.names) := by
    clear h
    induction plans with
    | nil => exact Sublist.slnil
    | cons p plans ih =>
      rw [map_cons, flatMap_cons, p.names_eq]
      exact ((singleton_sublist.mpr (by simp)).append ih)
  exact h.sublist hsub

/-- When every row leaves, the new rows may follow another definition. -/
theorem RowsImage.rewrite_all {rows out new : List LiteRow} {records : RecordMap}
    {outPlans newPlans : List RowPlan} (huids : UidsApart table) (hnewUids : UidsApart newTable)
    (himage : RowsImage table rows records) (hall : rows.Perm (out.map (normalRow table)))
    (hout : Forall₂ (Planned table) out outPlans)
    (hnew : Forall₂ (Planned newTable) new newPlans) (hids : BaseRowIds newTable new)
    (hnd : (newPlans.flatMap RowPlan.names).Nodup) :
    RowsImage newTable (new.map (normalRow newTable)) (writePlans records outPlans newPlans) := by
  have hsplit : writePlans records outPlans newPlans =
      writePlans (writePlans records outPlans []) [] newPlans := by
    simp [writePlans, writeBatch, eraseAll]
  have hnames : (outPlans.flatMap RowPlan.names).Nodup :=
    (apart_plans huids hout).mp (apart_normalRow.mp (himage.image.apart.perm hall))
  have hstored : ∀ p ∈ outPlans, records[p.rowKey]? = some (encodeRowValue p.row) := by
    intro p hp
    obtain ⟨row, hrow, hplan⟩ := forall₂_exists_right hout.flip hp
    have hmem : normalRow table row ∈ rows :=
      hall.mem_iff.mpr (mem_map.mpr ⟨row, hrow, rfl⟩)
    rw [hplan.value, ← normalRow_value table row]
    exact himage.stored hmem (by simpa using hplan.rowKey)
  -- first every row leaves: no record but a marker is there
  obtain ⟨stay, hperm, hempty⟩ := himage.rewrite huids hout (rowKeys_nodup hnames) hstored
    Forall₂.nil (by simp [BaseRowIds]) (by simp) (by simp)
  have hnil : stay = [] := by
    have hlen := (hall.symm.trans hperm).length_eq
    simpa using hlen
  subst hnil
  have hnone : dataRecord (writePlans records outPlans []) = fun _ => none := by
    funext k
    exact (hempty.image.none_iff k).mpr rfl
  have hstart : RowsImage newTable [] (writePlans records outPlans []) :=
    ⟨by simp, by rw [hnone]; exact isImage_nil _⟩
  have hfree : ∀ k ∈ newPlans.flatMap RowPlan.names,
      (writePlans records outPlans [])[k]? = none ∨
        k ∈ ([] : List RowPlan).flatMap RowPlan.names := by
    intro k hk
    left
    have hmark : isJournalMarker k = false := by
      by_contra hm
      rw [Bool.not_eq_false] at hm
      have hpos := (owners_plans hnewUids hnew).mpr hk
      rw [owners_marker hm] at hpos
      omega
    have hdata := congrFun hnone k
    simpa [dataRecord, hmark] using hdata
  -- then the new rows arrive
  obtain ⟨stay, hperm, hfinal⟩ := hstart.rewrite hnewUids Forall₂.nil (by simp) (by simp) hnew
    hids hnd hfree
  have hnil : stay = [] := by
    have hlen := hperm.length_eq
    simpa using hlen.symm
  rw [hsplit]
  rw [hnil] at hfinal
  exact hfinal

/-! ## `replaceTableDefinition` -/

theorem planAlter_eq_ok {loaded : LiteTableDef} {mutations : List LiteRowMutation}
    {seen : AlterSeen} {plans : List (RowPlan × RowPlan)}
    (h : planAlter loaded newTable mutations seen = .ok plans) :
    Forall₂ (Planned loaded) (mutations.map (·.before)) (plans.map (·.1)) ∧
      Forall₂ (Planned newTable) (mutations.map (·.afterRow)) (plans.map (·.2)) ∧
      AllNew seen.rowKeys ((plans.map (·.2)).map (·.rowKey)) ∧
      AllNew seen.uniqueKeys ((plans.map (·.2)).flatMap (·.uniqueKeys)) ∧
      AllNew seen.indexKeys ((plans.map (·.2)).flatMap RowPlan.entryKeys) := by
  induction mutations generalizing seen plans with
  | nil =>
    simp only [planAlter, Except.ok.injEq] at h
    subst h
    exact ⟨.nil, .nil, allNew_nil _, allNew_nil _, allNew_nil _⟩
  | cons u mutations ih =>
    simp only [planAlter, bind_eq_ok, guardOk_eq_ok, addAllNew_eq_ok, Except.ok.injEq,
      Prod.exists, newUniqueKeys_eq_ok] at h
    obtain ⟨oldKey, hold, newKey, hnew, -, hnewNew, oldEntries, hoe, newEntries, hne, indexKeys,
      ⟨hindex, rfl⟩, olds, holds, news, _, ⟨hnews, hfresh, rfl⟩, rest, hrest, rfl⟩ := h
    obtain ⟨h1, h2, h3, h4, h5⟩ := ih hrest
    simp only [map_cons, flatMap_cons, allNew_cons, allNew_append]
    exact ⟨.cons ⟨rfl, hold, holds, hoe⟩ h1, .cons ⟨rfl, hnew, hnews, hne⟩ h2, ⟨hnewNew, h3⟩,
      ⟨hfresh, h4⟩, hindex, h5⟩

/-- The call of `replaceTableDefinition` that `alterTable` makes: it names every stored row
once, and the new definition has different index uids. -/
structure AlterCall (st : TableState) (newTable : LiteTableDef)
    (mutations : List LiteRowMutation) : Prop where
  every : ∃ rows, storedRows st.records = .ok rows ∧
    rows.Perm ((mutations.map (·.before)).map (normalRow st.table))
  rowIds : BaseRowIds newTable (mutations.map (·.afterRow))
  uids : UidsApart newTable

theorem replaceTableDefinition_good {oldTable : LiteTableDef} {mutations : List LiteRowMutation}
    (h : TableGood st) (hcall : AlterCall st newTable mutations)
    (hfaults : faults "write lite ALTER metadata" [] = none ∨
      faults "rollback lite ALTER" [] = none) :
    TableGood (replaceTableDefinition faults st oldTable newTable mutations).2 := by
  obtain ⟨rows, hscan, hall⟩ := hcall.every
  obtain ⟨stored, himage⟩ := tableImage_iff.mp h.image
  obtain ⟨found, hfound, hperm⟩ := himage.storedRows
  rw [hscan] at hfound
  cases hfound
  have hevery := hperm.symm.trans hall
  unfold replaceTableDefinition
  split
  · exact h
  · rename_i plans hplans
    simp only [alterPlans, bind_eq_ok, Except.ok.injEq] at hplans
    obtain ⟨_, _, _, _, _, _, plans, hplan, _, _, rfl⟩ := hplans
    obtain ⟨hout, hnew, hkeys, hunique, hindex⟩ := planAlter_eq_ok hplan
    have hforward := RowsImage.rewrite_all h.uids hcall.uids himage hevery hout hnew hcall.rowIds
      (names_nodup hnew hkeys.1 hunique.1 hindex.1)
    simp only
    split
    · exact TableGood.of_same hforward hcall.uids (SameRecords.refl _)
    · rename_i e herror
      have hrollback : faults "rollback lite ALTER" [] = none := by
        refine hfaults.resolve_left fun hnone => ?_
        simp [checkRocksError, hnone] at herror
      rw [hrollback]
      have hids : BaseRowIds st.table (mutations.map (·.before)) := by
        intro hless row hrow
        have hmem := hevery.mem_iff.mpr (mem_map.mpr ⟨row, hrow, rfl⟩)
        simpa [normalRow, hless] using (himage.built _ hmem).base_rowId hless
      have hback := RowsImage.rewrite_all hcall.uids h.uids hforward (Perm.refl _) hnew hout
        hids ((apart_plans h.uids hout).mp (apart_normalRow.mp (himage.image.apart.perm hevery)))
      exact TableGood.of_same hback h.uids (SameRecords.refl _)

/-! ## One index more or less -/

theorem indexEntriesOf_append {row : Bytes} {indexes more : List LiteIndexDef}
    {entries : List LitePhysicalIndexEntry} :
    indexEntriesOf table row rowKey (indexes ++ more) = .ok entries ↔
      ∃ front back, indexEntriesOf table row rowKey indexes = .ok front ∧
        indexEntriesOf table row rowKey more = .ok back ∧ entries = front ++ back := by
  induction indexes generalizing entries with
  | nil =>
    simp only [nil_append, indexEntriesOf, Except.ok.injEq]
    constructor
    · intro h
      exact ⟨[], entries, rfl, h, rfl⟩
    · rintro ⟨front, back, rfl, h, rfl⟩
      exact h
  | cons index rest ih =>
    simp only [cons_append, indexEntriesOf, bind_eq_ok, Except.ok.injEq, ih]
    constructor
    · rintro ⟨entry, hentry, _, ⟨front, back, hfront, hback, rfl⟩, rfl⟩
      exact ⟨_, back, ⟨entry, hentry, front, hfront, rfl⟩, hback, by simp⟩
    · rintro ⟨_, back, ⟨entry, hentry, front, hfront, rfl⟩, hback, rfl⟩
      exact ⟨entry, hentry, _, ⟨front, back, hfront, hback, rfl⟩, by simp⟩

theorem indexEntriesOf_singleton {row : Bytes} {entries : List LitePhysicalIndexEntry} :
    indexEntriesOf table row rowKey [index] = .ok entries ↔
      ∃ entry, buildSecondaryIndexEntry table index row rowKey = .ok entry ∧
        entries = entry.toList := by
  simp only [indexEntriesOf, bind_eq_ok, Except.ok.injEq]
  constructor
  · rintro ⟨entry, hentry, _, rfl, rfl⟩
    exact ⟨entry, hentry, by simp⟩
  · rintro ⟨entry, hentry, rfl⟩
    exact ⟨entry, hentry, _, rfl, by simp⟩

/-- An entry stands under the uid of its own index only. -/
theorem entry_key_start {other : LiteIndexDef} {row : Bytes} {entry : LitePhysicalIndexEntry}
    (h : buildSecondaryIndexEntry table index row rowKey = .ok (some entry)) :
    physicalKeyStart other <+: entry.key ↔ other.objectUid = index.objectUid := by
  obtain ⟨⟨rest, hkey⟩, -⟩ := buildSecondaryIndexEntry_shape h
  rw [hkey]
  unfold physicalKeyStart
  constructor
  · rintro ⟨more, hmore⟩
    exact (uint64Bytes_append_inj (List.cons.inj hmore).2).1
  · intro heq
    rw [heq]
    exact prefix_append _ _

/-- Neither a row key nor a unique key stands under the uid of an index. -/
theorem Planned.key_start (h : Planned table row p) (index : LiteIndexDef) :
    ∀ k ∈ [p.rowKey] ++ p.uniqueKeys, ¬ physicalKeyStart index <+: k := by
  rintro k hk ⟨rest, rfl⟩
  rcases mem_append.mp hk with hk | hk
  · rw [mem_singleton] at hk
    have hletter := rowStorageKey_not_letter h.rowKey
    rw [← hk] at hletter
    exact hletter ⟨by simp [physicalKeyStart]; omega, .inr rfl⟩
  · have hhead := (h.letters.1 _ hk).1
    simp [physicalKeyStart, letterU, letterI] at hhead

/-- A table with some indexes, beside the same table with one index more. -/
structure OneMoreIndex (small big : LiteTableDef) (front back : List LiteIndexDef)
    (index : LiteIndexDef) : Prop where
  columns : big.columns = small.columns
  primaryKeyColumns : big.primaryKeyColumns = small.primaryKeyColumns
  uniqueKeyColumns : big.uniqueKeyColumns = small.uniqueKeyColumns
  smallIndexes : small.secondaryIndexes = front ++ back
  bigIndexes : big.secondaryIndexes = front ++ ([index] ++ back)
  uids : UidsApart big

variable {small big : LiteTableDef} {front : List LiteIndexDef}

theorem OneMoreIndex.smallUids (h : OneMoreIndex small big front back index) : UidsApart small := by
  have huids := h.uids
  unfold UidsApart at huids ⊢
  rw [h.bigIndexes] at huids
  rw [h.smallIndexes]
  refine huids.sublist (Sublist.map _ ?_)
  exact (Sublist.refl front).append (sublist_append_right [index] back)

/-- The plan of a row gains the entry of the index. -/
theorem OneMoreIndex.planned (h : OneMoreIndex small big front back index) :
    Planned big row p ↔ ∃ entry first last,
      buildSecondaryIndexEntry small index row.value.bytes p.rowKey = .ok entry ∧
      indexEntriesOf small row.value.bytes p.rowKey front = .ok first ∧
      indexEntriesOf small row.value.bytes p.rowKey back = .ok last ∧
      p.entries = first ++ (entry.toList ++ last) ∧
      Planned small row { p with entries := first ++ last } := by
  have hkey : rowStorageKey big row = rowStorageKey small row :=
    rowStorageKey_congr h.columns h.primaryKeyColumns row
  have hunique : uniqueKeysOf big row.value.bytes = uniqueKeysOf small row.value.bytes :=
    uniqueKeysOf_congr h.columns h.uniqueKeyColumns _
  have hbig : ∀ key, buildSecondaryIndexEntries big row.value.bytes key =
      indexEntriesOf small row.value.bytes key (front ++ ([index] ++ back)) := by
    intro key
    rw [buildSecondaryIndexEntries, h.bigIndexes, indexEntriesOf_congr h.columns]
  have hsmall : ∀ key, buildSecondaryIndexEntries small row.value.bytes key =
      indexEntriesOf small row.value.bytes key (front ++ back) := by
    intro key
    rw [buildSecondaryIndexEntries, h.smallIndexes]
  constructor
  · intro hp
    have hentries := hp.entries
    rw [hbig, indexEntriesOf_append] at hentries
    obtain ⟨first, others, hfirst, hothers, heq⟩ := hentries
    obtain ⟨one, last, hone, hlast, rfl⟩ := indexEntriesOf_append.mp hothers
    obtain ⟨entry, hentry, rfl⟩ := indexEntriesOf_singleton.mp hone
    refine ⟨entry, first, last, hentry, hfirst, hlast, heq, hp.value, hkey ▸ hp.rowKey,
      hunique ▸ hp.uniqueKeys, ?_⟩
    rw [hsmall]
    exact indexEntriesOf_append.mpr ⟨first, last, hfirst, hlast, rfl⟩
  · rintro ⟨entry, first, last, hentry, hfirst, hlast, heq, hp⟩
    refine ⟨hp.value, hkey ▸ hp.rowKey, hunique ▸ hp.uniqueKeys, ?_⟩
    rw [hbig, heq]
    exact indexEntriesOf_append.mpr ⟨first, _, hfirst, indexEntriesOf_append.mpr
      ⟨_, last, indexEntriesOf_singleton.mpr ⟨entry, hentry, rfl⟩, hlast, rfl⟩, rfl⟩

/-- The record of a row in one index. -/
def indexRecordAt (table : LiteTableDef) (index : LiteIndexDef) (row : LiteRow) (k : Bytes) :
    Option Bytes :=
  match (do
    let rowKey ← rowStorageKey table row
    buildSecondaryIndexEntry table index row.value.bytes rowKey) with
  | .ok (some entry) => if entry.key = k then some entry.value else none
  | _ => none

theorem indexRecordAt_eq {entry : Option LitePhysicalIndexEntry}
    (hkey : rowStorageKey table row = .ok rowKey)
    (hentry : buildSecondaryIndexEntry table index row.value.bytes rowKey = .ok entry) :
    indexRecordAt table index row k = some v ↔ ∃ e ∈ entry, e.key = k ∧ e.value = v := by
  unfold indexRecordAt
  simp only [hkey, ok_bind, hentry]
  cases entry with
  | none => simp
  | some e => simp

section

variable (h : OneMoreIndex small big front back index) (hp : Planned big row p)

include h hp

/-- Only the entry of the index stands under its uid, and it is the record that the row
gains. -/
theorem OneMoreIndex.records :
    (recordAt big row k = some v ↔
      recordAt small row k = some v ∨ indexRecordAt small index row k = some v) ∧
    (recordAt small row k = some v → ¬ physicalKeyStart index <+: k) ∧
    (indexRecordAt small index row k = some v → physicalKeyStart index <+: k) := by
  obtain ⟨entry, first, last, hentry, hfirst, hlast, heq, hsmall⟩ := h.planned.mp hp
  rw [hp.recordAt h.uids, hsmall.recordAt h.smallUids, indexRecordAt_eq hsmall.rowKey hentry]
  refine ⟨?_, fun hmem => ?_, ?_⟩
  · simp only [RowPlan.records, recordEntries, heq, mem_append, map_append,
      mem_map, Option.mem_toList, Prod.mk.injEq]
    constructor
    · rintro (hb | he | hm | hl)
      · exact .inl (.inl hb)
      · exact .inl (.inr (.inl he))
      · exact .inr hm
      · exact .inl (.inr (.inr hl))
    · rintro ((hb | he | hl) | hm)
      · exact .inl hb
      · exact .inr (.inl he)
      · exact .inr (.inr (.inr hl))
      · exact .inr (.inr (.inl hm))
  · have hname : k ∈ ({ p with entries := first ++ last } : RowPlan).names :=
      mem_map.mpr ⟨(k, v), hmem, rfl⟩
    rw [RowPlan.names_eq, mem_append] at hname
    rcases hname with hk | hk
    · exact hsmall.key_start index k hk
    · -- an entry of another index carries another uid
      obtain ⟨e, he, rfl⟩ := mem_map.mp hk
      have hother : ∃ other ∈ front ++ back,
          buildSecondaryIndexEntry small other row.value.bytes p.rowKey = .ok (some e) := by
        rcases mem_append.mp he with he | he
        · obtain ⟨other, ho, hb⟩ := (mem_indexEntriesOf hfirst e).mp he
          exact ⟨other, mem_append_left _ ho, hb⟩
        · obtain ⟨other, ho, hb⟩ := (mem_indexEntriesOf hlast e).mp he
          exact ⟨other, mem_append_right _ ho, hb⟩
      obtain ⟨other, ho, hb⟩ := hother
      rw [entry_key_start hb]
      intro hsame
      have huids := h.uids
      unfold UidsApart at huids
      rw [h.bigIndexes] at huids
      have hperm : ((front ++ ([index] ++ back)).map (·.objectUid)).Perm
          (index.objectUid :: (front ++ back).map (·.objectUid)) := by
        simp
      exact (nodup_cons.mp (hperm.nodup_iff.mp huids)).1
        (mem_map.mpr ⟨other, ho, hsame.symm⟩)
  · rintro ⟨e, he, rfl, -⟩
    cases he
    exact (entry_key_start hentry).mpr rfl

theorem OneMoreIndex.recordAt_big (k : Bytes) :
    recordAt big row k = (recordAt small row k).or (indexRecordAt small index row k) := by
  apply Option.ext
  intro v
  rw [(h.records hp).1, Option.or_eq_some_iff]
  constructor
  · rintro (hs | hi)
    · exact .inl hs
    · cases hs : recordAt small row k with
      | none => exact .inr ⟨rfl, hi⟩
      | some w => exact absurd ((h.records hp).2.2 hi) ((h.records hp).2.1 hs)
  · rintro (hs | ⟨-, hi⟩)
    · exact .inl hs
    · exact .inr hi

theorem OneMoreIndex.recordAt_small (k : Bytes) :
    recordAt small row k =
      if (physicalKeyStart index).isPrefixOf k then none else recordAt big row k := by
  apply Option.ext
  intro v
  split
  · rename_i hstart
    rw [ isPrefixOf_iff_prefix] at hstart
    simp only [reduceCtorEq, iff_false]
    exact fun hs => (h.records hp).2.1 hs hstart
  · rename_i hstart
    rw [ isPrefixOf_iff_prefix] at hstart
    rw [(h.records hp).1]
    exact ⟨.inl, fun ho => ho.resolve_right fun hi => hstart ((h.records hp).2.2 hi)⟩

end

/-! ## `createIndex` -/

/-- The entries built so far are the image of the rows read so far, in the new index
alone. -/
theorem backfillEntries_eq_ok {recs : List (Bytes × Bytes)} {read : Bytes × Bytes → LiteRow}
    {earlier : List LiteRow} {entries entries' : RecordMap}
    (hread : ∀ r ∈ recs, rowStorageKey table (read r) = .ok r.1 ∧
      decodeRowValue r.2 = .ok (read r).value)
    (himage : IsImage (indexRecordAt table index) earlier (fun k => entries[k]?))
    (h : backfillEntries table index recs entries = .ok entries') :
    IsImage (indexRecordAt table index) (earlier ++ recs.map read) (fun k => entries'[k]?) ∧
      ∀ r ∈ recs, ∃ entry,
        buildSecondaryIndexEntry table index (read r).value.bytes r.1 = .ok entry := by
  induction recs generalizing earlier entries with
  | nil =>
    simp only [backfillEntries, Except.ok.injEq] at h
    subst h
    exact ⟨by simpa using himage, by simp⟩
  | cons r recs ih =>
    obtain ⟨rowKey, value⟩ := r
    obtain ⟨hkey, hvalue⟩ := hread (rowKey, value) mem_cons_self
    simp only [backfillEntries, hvalue, ok_bind, bind_eq_ok, putAllNew_eq_ok] at h
    obtain ⟨entry, hentry, mid, ⟨-, hfree, rfl⟩, hrest⟩ := h
    have hat : ∀ k v, indexRecordAt table index (read (rowKey, value)) k = some v ↔
        ∃ e ∈ entry, e.key = k ∧ e.value = v := fun k v => indexRecordAt_eq hkey hentry
    have hstep : IsImage (indexRecordAt table index) (earlier ++ [read (rowKey, value)])
        (fun k => (putAll entries (entry.toList.map fun e => (e.key, e.value)))[k]?) := by
      refine himage.snoc (fun k hk => ?_) (fun k v hv => ?_) fun k hk => ?_
      · obtain ⟨v, hv⟩ := Option.ne_none_iff_exists'.mp hk
        obtain ⟨e, he, rfl, -⟩ := (hat k v).mp hv
        exact hfree e (Option.mem_toList.mpr he)
      · obtain ⟨e, he, rfl, rfl⟩ := (hat k v).mp hv
        cases he
        exact putAll_of_mem (by simp) (by simp)
      · apply putAll_of_notMem
        intro hin
        obtain ⟨⟨k', v⟩, hmem, rfl⟩ := mem_map.mp hin
        obtain ⟨e, he, heq⟩ := mem_map.mp hmem
        cases heq
        rw [(hat e.key e.value).mpr ⟨e, Option.mem_toList.mp he, rfl, rfl⟩] at hk
        simp at hk
    obtain ⟨hfinal, hbuilt⟩ := ih (fun r hr => hread r (mem_cons_of_mem _ hr)) hstep hrest
    exact ⟨by simpa using hfinal, forall_mem_cons.mpr ⟨⟨entry, hentry⟩, hbuilt⟩⟩

/-- A row that can be stored under one definition can be stored under the other. -/
theorem RowBuilt.of_planned {table' : LiteTableDef} (h : RowBuilt table row)
    (hcolumns : table'.columns = table.columns)
    (hprimary : table'.primaryKeyColumns = table.primaryKeyColumns) (huids : UidsApart table')
    (hp : Planned table' row p) : RowBuilt table' row := by
  have hkeyless : table'.keyless = table.keyless := by
    unfold LiteTableDef.keyless
    rw [hprimary]
  refine ⟨⟨_, hp.rowRecords huids⟩, fun key hkey => ?_, fun hkeyed => ?_⟩
  · exact h.base key (rowStorageKey_congr hcolumns hprimary row ▸ hkey)
  · exact h.numbered (hkeyless ▸ hkeyed)

section Backfill

variable {rows : List LiteRow} {records entries : RecordMap}
  (hone : OneMoreIndex small big front [] index) (himage : RowsImage small rows records)
  (hback : backfillEntries small index (baseRecords records) ∅ = .ok entries)

include hone himage hback

/-- The rows of the table with the entries of the new index: every row has its plan under
the bigger definition, and the entries are the image of the rows in the new index alone. -/
theorem backfill_image :
    IsImage (indexRecordAt small index) rows (fun k => entries[k]?) ∧
      ∀ row ∈ rows, ∃ p, Planned big row p := by
  obtain ⟨read, hread, hperm⟩ := himage.reads_perm
  have hdecode : ∀ r ∈ baseRecords records, rowStorageKey small (read r) = .ok r.1 ∧
      decodeRowValue r.2 = .ok (read r).value := by
    intro r hr
    obtain ⟨hkey, hrow⟩ := hread r hr
    simp only [rowOfRecord, bind_eq_ok, Except.ok.injEq] at hrow
    obtain ⟨value, hvalue, hrow⟩ := hrow
    exact ⟨hkey, by rw [hvalue, ← hrow]⟩
  have hstart : IsImage (indexRecordAt small index) [] (fun k => (∅ : RecordMap)[k]?) := by
    have hnone : (fun k : Bytes => (∅ : RecordMap)[k]?) = fun _ => none := by
      funext k
      simp
    rw [hnone]
    exact isImage_nil _
  obtain ⟨hfill, hbuilt⟩ := backfillEntries_eq_ok hdecode hstart hback
  refine ⟨hfill.perm (by simpa using hperm), fun row hrow => ?_⟩
  obtain ⟨r, hr, rfl⟩ := mem_map.mp (hperm.mem_iff.mpr hrow)
  obtain ⟨p, hp⟩ := (himage.built _ hrow).planned
  obtain ⟨entry, hentry⟩ := hbuilt r hr
  have hkey : p.rowKey = r.1 := by
    have hboth := hp.rowKey
    rw [(hread r hr).1] at hboth
    exact (Except.ok.inj hboth).symm
  have hfront : small.secondaryIndexes = front := by simpa using hone.smallIndexes
  refine ⟨{ p with entries := p.entries ++ entry.toList }, hone.planned.mpr
    ⟨entry, p.entries, [], ?_, ?_, rfl, by simp, by simpa using hp⟩⟩
  · rw [hkey]
    exact hentry
  · rw [← hfront]
    exact hp.entries

/-- The new entries stand under the uid of the new index. -/
theorem backfill_start (hv : entries[k]? = some v) : physicalKeyStart index <+: k := by
  obtain ⟨hfill, hplanned⟩ := backfill_image hone himage hback
  obtain ⟨row, hrow, hat⟩ := (hfill.holds k v).mp hv
  obtain ⟨p, hp⟩ := hplanned row hrow
  exact (hone.records hp).2.2 hat

theorem backfill_marker (hk : isJournalMarker k = true) : entries[k]? = none := by
  rw [Option.eq_none_iff_forall_ne_some]
  intro v hv
  obtain ⟨rest, rfl⟩ := backfill_start hone himage hback hv
  simp [isJournalMarker, physicalKeyStart, letterI, letterJ] at hk

/-- The table holds nothing under the uid of the new index. -/
theorem backfill_free (k : Bytes) : records[k]? = none ∨ entries[k]? = none := by
  cases hv : entries[k]? with
  | none => exact .inr rfl
  | some v =>
    obtain ⟨-, hplanned⟩ := backfill_image hone himage hback
    have hdata : dataRecord records k = none := by
      rw [Option.eq_none_iff_forall_ne_some]
      intro w hw
      obtain ⟨row, hrow, hat⟩ := (himage.image.holds k w).mp hw
      obtain ⟨p, hp⟩ := hplanned row hrow
      exact (hone.records hp).2.1 hat (backfill_start hone himage hback hv)
    have hm : isJournalMarker k = false := by
      by_contra hm
      rw [backfill_marker hone himage hback (by simpa using hm)] at hv
      simp at hv
    exact .inl (by simpa [dataRecord, hm] using hdata)

/-- With the new entries the table holds the image under the bigger definition. -/
theorem backfill_filled : RowsImage big rows (putAll records entries.toList) := by
  obtain ⟨hfill, hplanned⟩ := backfill_image hone himage hback
  have hfree : ∀ k, dataRecord records k = none ∨ entries[k]? = none := by
    intro k
    refine (backfill_free hone himage hback k).imp (fun hk => ?_) id
    simp [dataRecord, hk]
  have hext := himage.image.extend hfill hfree fun row hrow k => by
    obtain ⟨p, hp⟩ := hplanned row hrow
    exact hone.recordAt_big hp k
  have heq : dataRecord (putAll records entries.toList) =
      fun k => (dataRecord records k).or entries[k]? := by
    funext k
    have hk := backfill_free hone himage hback k
    unfold dataRecord
    cases hm : isJournalMarker k with
    | true => simp [backfill_marker hone himage hback hm]
    | false =>
      simp only [Bool.false_eq_true, if_false, putAll_toList_getElem?]
      rcases hk with hk | hk <;> simp [hk]
  refine ⟨fun row hrow => ?_, heq ▸ hext⟩
  obtain ⟨p, hp⟩ := hplanned row hrow
  exact (himage.built row hrow).of_planned hone.columns hone.primaryKeyColumns hone.uids hp

/-- The rollback gives the table its records back. -/
theorem backfill_rollback : eraseAll (putAll records entries.toList) entries.keys = records := by
  apply Std.ExtTreeMap.ext_getElem?
  intro k
  rw [eraseAll_getElem?, putAll_toList_getElem?]
  cases hv : entries[k]? with
  | none =>
    have hnot : k ∉ entries.keys := by
      rw [Std.ExtTreeMap.mem_keys]
      exact not_mem_iff_getElem?.mpr hv
    rw [if_neg hnot, Option.none_or]
  | some v =>
    have hin : k ∈ entries.keys := by
      rw [Std.ExtTreeMap.mem_keys, Std.ExtTreeMap.mem_iff_isSome_getElem?, hv]
      rfl
    rw [if_pos hin]
    exact ((backfill_free hone himage hback k).resolve_right (by simp [hv])).symm

end Backfill

theorem oneMoreIndex_addIndex (huids : UidsApart table)
    (hnew : index.objectUid ∉ table.secondaryIndexes.map (·.objectUid)) :
    OneMoreIndex table (table.addIndex index) table.secondaryIndexes [] index := by
  refine ⟨rfl, rfl, rfl, by simp, rfl, ?_⟩
  unfold UidsApart LiteTableDef.addIndex at *
  rw [map_append, nodup_append]
  refine ⟨huids, by simp, ?_⟩
  rintro a ha b hb rfl
  simp only [map_cons, map_nil, mem_singleton] at hb
  exact hnew (hb ▸ ha)

theorem createIndex_good {names : OtherNames} (h : TableGood st)
    (huid : index.objectUid ∉ st.table.secondaryIndexes.map (·.objectUid))
    (hfaults : faults "write lite index metadata" [] = none ∨
      faults "rollback lite index backfill" [] = none) :
    TableGood (createIndex faults names st index).2 := by
  unfold createIndex
  split
  · exact h
  · rename_i entries hentries
    simp only [backfill, bind_eq_ok, Except.ok.injEq] at hentries
    obtain ⟨_, _, _, _, _, _, _, _, _, _, _, _, _, _, _, _, entries, hback, _, _, _, _, rfl⟩ :=
      hentries
    obtain ⟨rows, himage⟩ := tableImage_iff.mp h.image
    have hone := oneMoreIndex_addIndex h.uids huid
    simp only
    split
    · exact TableGood.of_same (backfill_filled hone himage hback) hone.uids (SameRecords.refl _)
    · rename_i e herror
      have hrollback : faults "rollback lite index backfill" [] = none := by
        refine hfaults.resolve_left fun hnone => ?_
        simp [checkRocksError, hnone] at herror
      rw [hrollback]
      simp only [backfill_rollback hone himage hback]
      exact h

/-! ## `dropIndex` -/

/-- The scan of `dropIndex` finds every record under the uid of the index. -/
theorem mem_indexRecordKeys {records : RecordMap} :
    k ∈ indexRecordKeys records index ↔
      k ∈ records ∧ (physicalKeyStart index).isPrefixOf k = true := by
  have hsorted : records.keys.Pairwise fun a b => compare (id a) (id b) = .lt := by
    simpa using (Std.ExtTreeMap.ordered_keys (t := records))
  unfold indexRecordKeys
  rw [scanWhile_eq_filter hsorted, mem_filter, Std.ExtTreeMap.mem_keys]
  · simp only [id_eq, Bool.and_eq_true, decide_eq_true_eq]
    constructor
    · rintro ⟨hin, -, hstart⟩
      exact ⟨hin, hstart⟩
    · rintro ⟨hin, hstart⟩
      refine ⟨hin, ?_, hstart⟩
      rw [ isPrefixOf_iff_prefix] at hstart
      exact not_lt_of_extends hstart
  · intro a b hstart hab hb
    rw [ isPrefixOf_iff_prefix] at hb ⊢
    exact extends_between hstart hab hb

theorem oneMoreIndex_eraseIndex {name : String} (huids : UidsApart table)
    (hfind : (table.secondaryIndexes.find? fun i => i.name = name) = some index) :
    ∃ front back, OneMoreIndex (table.eraseIndex name) table front back index := by
  obtain ⟨hname, front, back, hlist, hfront⟩ := find?_eq_some_iff_append.mp hfind
  refine ⟨front, back, rfl, rfl, rfl, ?_, by simpa using hlist, huids⟩
  unfold LiteTableDef.eraseIndex
  rw [hlist, eraseP_append_right]
  · rw [eraseP_cons_of_pos (by simpa using hname)]
  · intro i hi
    simpa using hfront i hi

theorem dropIndex_good {name : String} {ifExists : Bool} (h : TableGood st)
    (hfaults : faults "open RocksDB table" [] = none ∧
      faults "scan lite index for drop" [] = none ∧
      faults "delete lite index records" [] = none) :
    TableGood (dropIndex faults st name ifExists).2 := by
  have herase : eraseIndexRecords faults = .ok () := by
    simp [eraseIndexRecords, openTable, checkRocksError, hfaults]
  unfold dropIndex
  split
  · exact h
  · exact h
  · rename_i index hfound
    simp only [herase]
    have hfind : (st.table.secondaryIndexes.find? fun i => i.name = name) = some index := by
      simp only [findDropped, bind_eq_ok] at hfound
      obtain ⟨_, _, hfound⟩ := hfound
      split at hfound
      · split at hfound <;> simp at hfound
      · simp only [bind_eq_ok] at hfound
        obtain ⟨_, _, hfound⟩ := hfound
        split at hfound
        · simp at hfound
        · rename_i found hfind
          simp only [bind_eq_ok, Except.ok.injEq, Option.some.injEq] at hfound
          obtain ⟨_, _, rfl⟩ := hfound
          exact hfind
    obtain ⟨front, back, hone⟩ := oneMoreIndex_eraseIndex h.uids hfind
    obtain ⟨rows, himage⟩ := tableImage_iff.mp h.image
    have hplanned : ∀ row ∈ rows, ∃ p, Planned st.table row p := fun row hrow =>
      (himage.built row hrow).planned
    have hrestrict := himage.image.restrict (physicalKeyStart index).isPrefixOf
      fun row hrow k => by
        obtain ⟨p, hp⟩ := hplanned row hrow
        exact hone.recordAt_small hp k
    have hdata : dataRecord (eraseAll st.records (indexRecordKeys st.records index)) =
        fun k => if (physicalKeyStart index).isPrefixOf k then none
          else dataRecord st.records k := by
      funext k
      unfold dataRecord
      rw [eraseAll_getElem?]
      by_cases hin : k ∈ indexRecordKeys st.records index
      · rw [if_pos hin, if_pos (mem_indexRecordKeys.mp hin).2]
        simp
      · rw [if_neg hin]
        split
        · simp
        · split
          · rename_i hstart
            rw [← not_mem_iff_getElem?]
            exact fun hmem => hin (mem_indexRecordKeys.mpr ⟨hmem, hstart⟩)
          · rfl
    refine TableGood.of_same ⟨fun row hrow => ?_, hdata ▸ hrestrict⟩ hone.smallUids
      (SameRecords.refl _)
    obtain ⟨p, hp⟩ := hplanned row hrow
    obtain ⟨_, first, last, -, -, -, -, hsmall⟩ := hone.planned.mp hp
    exact (himage.built row hrow).of_planned rfl rfl hone.smallUids hsmall

end litestore
