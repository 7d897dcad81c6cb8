-- The routines of the storage manager keep the image of a table. A plan holds
-- the keys of a row; a batch made from plans changes the records as the rows
-- change.
import LiteStore.Manager

namespace litestore

open checked rowimage List

/-! ## Plans -/

/-- No two indexes of the table share a uid. -/
def UidsApart (table : LiteTableDef) : Prop := (table.secondaryIndexes.map (·.objectUid)).Nodup

instance (table : LiteTableDef) : Decidable (UidsApart table) :=
  inferInstanceAs (Decidable (Nodup _))

/-- The plan of a row holds the keys that the table gives it. -/
structure Planned (table : LiteTableDef) (row : LiteRow) (p : RowPlan) : Prop where
  value : p.row = row.value
  rowKey : rowStorageKey table row = .ok p.rowKey
  uniqueKeys : uniqueKeysOf table row.value.bytes = .ok p.uniqueKeys
  entries : buildSecondaryIndexEntries table row.value.bytes p.rowKey = .ok p.entries

def RowPlan.entryKeys (p : RowPlan) : List Bytes := p.entries.map (·.key)

theorem RowPlan.names_eq (p : RowPlan) :
    p.names = ([p.rowKey] ++ p.uniqueKeys) ++ p.entryKeys :=
  recordEntries_names p.row p.rowKey p.uniqueKeys p.entries

variable {row : LiteRow} {rowKey k : Bytes} {p : RowPlan} {rows out new : List LiteRow}
  {plans outPlans : List RowPlan} {records : RecordMap} {faults : Faults} {st : TableState}
  {what : String} {u : Unit} {table : LiteTableDef}

/-- The index keys of a row differ: each carries the uid of its index. -/
theorem indexEntriesOf_nodup {row : Bytes} {indexes : List LiteIndexDef}
    {entries : List LitePhysicalIndexEntry}
    (h : indexEntriesOf table row rowKey indexes = .ok entries)
    (huids : (indexes.map (·.objectUid)).Nodup) : (entries.map (·.key)).Nodup := by
  induction indexes generalizing entries with
  | nil =>
    simp only [indexEntriesOf, Except.ok.injEq] at h
    subst h
    exact nodup_nil
  | cons index rest ih =>
    simp only [indexEntriesOf, bind_eq_ok, Except.ok.injEq] at h
    obtain ⟨built, hbuilt, others, hothers, rfl⟩ := h
    rw [map_cons, nodup_cons] at huids
    cases built with
    | none => exact ih hothers huids.2
    | some entry =>
      simp only [Option.toList_some, singleton_append, map_cons, nodup_cons]
      refine ⟨fun hin => ?_, ih hothers huids.2⟩
      obtain ⟨e, he, hkey⟩ := mem_map.mp hin
      obtain ⟨other, hother, hb⟩ := (mem_indexEntriesOf hothers e).mp he
      obtain ⟨⟨r, hr⟩, -⟩ := buildSecondaryIndexEntry_shape hbuilt
      obtain ⟨⟨r', hr'⟩, -⟩ := buildSecondaryIndexEntry_shape hb
      rw [hr, hr'] at hkey
      have huid := (uint64Bytes_append_inj (List.cons.inj hkey).2).1
      exact huids.1 (mem_map.mpr ⟨other, hother, huid⟩)

/-- A row key, a unique key and an index key differ. -/
theorem Planned.letters (h : Planned table row p) :
    (∀ k ∈ p.uniqueKeys, k.head? = some letterU ∧ k.length ≠ 8) ∧
      ∀ k ∈ p.entryKeys, k.head? = some letterI ∧ k.length ≠ 8 := by
  refine ⟨fun k hk => uniqueKey_head h.uniqueKeys hk, fun k hk => ?_⟩
  obtain ⟨e, he, rfl⟩ := mem_map.mp hk
  exact indexEntry_head h.entries he

/-- The names of some plans differ when the row keys, the unique keys and the index keys
do. -/
theorem names_nodup (hplans : Forall₂ (Planned table) rows plans)
    (hrow : (plans.map (·.rowKey)).Nodup) (hunique : (plans.flatMap (·.uniqueKeys)).Nodup)
    (hindex : (plans.flatMap RowPlan.entryKeys).Nodup) : (plans.flatMap RowPlan.names).Nodup := by
  have hplanned : ∀ p ∈ plans, ∃ row, Planned table row p := by
    intro p hp
    obtain ⟨row, -, hr⟩ := forall₂_exists_right hplans.flip hp
    exact ⟨row, hr⟩
  have hnames : plans.flatMap RowPlan.names =
      plans.flatMap fun p => ([p.rowKey] ++ p.uniqueKeys) ++ p.entryKeys := by
    congr 1
    funext p
    exact p.names_eq
  have hkeys : plans.flatMap (fun p => [p.rowKey]) = plans.map (·.rowKey) :=
    map_eq_flatMap.symm
  rw [hnames, ← (flatMap_append_perm plans _ _).nodup_iff, nodup_append,
    ← (flatMap_append_perm plans _ _).nodup_iff, nodup_append, hkeys]
  have hletter : ∀ p ∈ plans, ¬ (p.rowKey.length ≠ 8 ∧
      (p.rowKey.head? = some letterU ∨ p.rowKey.head? = some letterI)) := by
    intro p hp
    obtain ⟨row, hr⟩ := hplanned p hp
    exact rowStorageKey_not_letter hr.rowKey
  refine ⟨⟨hrow, hunique, ?_⟩, hindex, ?_⟩
  · rintro a ha b hb rfl
    obtain ⟨p, hp, rfl⟩ := mem_map.mp ha
    obtain ⟨q, hq, hmem⟩ := mem_flatMap.mp hb
    obtain ⟨row, hr⟩ := hplanned q hq
    have hu := hr.letters.1 _ hmem
    exact hletter p hp ⟨hu.2, .inl hu.1⟩
  · rintro a ha b hb rfl
    obtain ⟨q, hq, hmem⟩ := mem_flatMap.mp hb
    obtain ⟨row, hr⟩ := hplanned q hq
    have hi := hr.letters.2 _ hmem
    obtain ⟨p, hp, hpmem⟩ := mem_flatMap.mp ha
    rcases mem_append.mp hpmem with hpmem | hpmem
    · rw [mem_singleton] at hpmem
      exact hletter p hp (hpmem ▸ ⟨hi.2, .inr hi.1⟩)
    · obtain ⟨row', hr'⟩ := hplanned p hp
      have hu := (hr'.letters.1 _ hpmem).1
      rw [hi.1] at hu
      simp [letterU, letterI] at hu

section Plans

variable {table : LiteTableDef} (huids : UidsApart table)

include huids

section

variable (h : Planned table row p)

include h

theorem Planned.names_nodup : p.names.Nodup := by
  have hone : Forall₂ (Planned table) [row] [p] := Forall₂.cons h Forall₂.nil
  have hnd := litestore.names_nodup hone (by simp)
    (by simpa using uniqueKeysFrom_nodup h.uniqueKeys (by have := table.ordinalsFit; omega))
    (by simpa [RowPlan.entryKeys] using indexEntriesOf_nodup h.entries huids)
  simpa using hnd

theorem Planned.rowRecords :
    rowRecords table row = .ok (putAll ∅ p.records) := by
  have hnd := h.names_nodup huids
  have heq := h.value
  rw [rowRecords_eq_ok]
  refine ⟨p.rowKey, p.uniqueKeys, p.entries, h.rowKey, h.uniqueKeys, h.entries, ?_, ?_⟩
  · rw [← heq]
    exact hnd
  · rw [← heq]
    rfl

theorem Planned.recordAt {v : Bytes} :
    recordAt table row k = some v ↔ (k, v) ∈ p.records := by
  unfold litestore.recordAt
  rw [ownRecords_of_ok (h.rowRecords huids)]
  exact putAll_empty_eq_some (h.names_nodup huids)

theorem Planned.owns :
    (litestore.recordAt table row k).isSome = true ↔ k ∈ p.names := by
  rw [Option.isSome_iff_exists]
  constructor
  · rintro ⟨v, hv⟩
    exact mem_map.mpr ⟨(k, v), (h.recordAt huids).mp hv, rfl⟩
  · intro hk
    obtain ⟨⟨k', v⟩, hmem, rfl⟩ := mem_map.mp hk
    exact ⟨v, (h.recordAt huids).mpr hmem⟩

end

/-- The rows own the names of their plans. -/
theorem owners_plans (h : Forall₂ (Planned table) rows plans) :
    0 < owners (recordAt table) rows k ↔ k ∈ plans.flatMap RowPlan.names := by
  induction h with
  | nil => simp
  | cons hp _ ih =>
    rw [flatMap_cons, mem_append, owners_cons, ← ih, ← hp.owns huids]
    split
    · simp_all
    · simp_all

/-- The rows fit together exactly when the names of their plans differ. -/
theorem apart_plans (h : Forall₂ (Planned table) rows plans) :
    Apart (recordAt table) rows ↔ (plans.flatMap RowPlan.names).Nodup := by
  induction h with
  | nil => simp [Apart]
  | @cons row p rows plans hp hrest ih =>
    have hsplit : Apart (recordAt table) (row :: rows) ↔ Apart (recordAt table) rows ∧
        ∀ k, (recordAt table row k).isSome = true → owners (recordAt table) rows k = 0 := by
      unfold Apart
      simp only [owners_cons]
      constructor
      · intro hall
        refine ⟨fun k => by have := hall k; split at this <;> omega, fun k hk => ?_⟩
        have hone := hall k
        rw [if_pos hk] at hone
        omega
      · rintro ⟨hall, hzero⟩ k
        split
        · rename_i hk
          rw [hzero k hk]
        · have := hall k
          omega
    rw [hsplit, ih, flatMap_cons, nodup_append]
    constructor
    · rintro ⟨hnd, hzero⟩
      refine ⟨hp.names_nodup huids, hnd, ?_⟩
      rintro a ha b hb rfl
      have hpos := (owners_plans huids hrest).mpr hb
      rw [hzero a ((hp.owns huids).mpr ha)] at hpos
      omega
    · rintro ⟨-, hnd, hsep⟩
      refine ⟨hnd, fun k hk => ?_⟩
      by_contra hne
      exact hsep k ((hp.owns huids).mp hk) k
        ((owners_plans huids hrest).mp (Nat.pos_of_ne_zero hne)) rfl

/-- The batch changes the records as the rows change. -/
theorem writePlans_changed {newPlans : List RowPlan}
    (hout : Forall₂ (Planned table) out outPlans)
    (hnew : Forall₂ (Planned table) new newPlans)
    (hnd : (newPlans.flatMap RowPlan.names).Nodup) (records : RecordMap) :
    Changed (recordAt table) out new (fun k => records[k]?)
      (fun k => (writePlans records outPlans newPlans)[k]?) := by
  have hnames : (newPlans.flatMap RowPlan.records).map Prod.fst =
      newPlans.flatMap RowPlan.names := by
    rw [map_flatMap]
    rfl
  have hskip : ∀ k, owners (recordAt table) new k = 0 →
      k ∉ (newPlans.flatMap RowPlan.records).map Prod.fst := by
    intro k hk hin
    rw [hnames, ← owners_plans huids hnew] at hin
    omega
  refine ⟨fun row hrow k v hv => ?_, fun k hk ho => ?_, fun k hk ho => ?_⟩
  · obtain ⟨p, hp, hplan⟩ := forall₂_exists_right hnew hrow
    refine putAll_of_mem (by rwa [hnames]) ?_
    exact mem_flatMap.mpr ⟨p, hp, (hplan.recordAt huids).mp hv⟩
  · simp only [writePlans, writeBatch]
    rw [putAll_of_notMem (hskip k hk), eraseAll_getElem?, if_pos ((owners_plans huids hout).mp ho)]
  · simp only [writePlans, writeBatch]
    have hnot : k ∉ outPlans.flatMap RowPlan.names := by
      rw [← owners_plans huids hout]
      omega
    rw [putAll_of_notMem (hskip k hk), eraseAll_getElem?, if_neg hnot]

/-- A batch that takes stored rows away and puts rows whose keys are free leaves the image
of the rows that are there then. -/
theorem RowsImage.rewrite {newPlans : List RowPlan} (himage : RowsImage table rows records)
    (hout : Forall₂ (Planned table) out outPlans) (hkeys : (outPlans.map (·.rowKey)).Nodup)
    (hstored : ∀ p ∈ outPlans, records[p.rowKey]? = some (encodeRowValue p.row))
    (hnew : Forall₂ (Planned table) new newPlans) (hids : BaseRowIds table new)
    (hnd : (newPlans.flatMap RowPlan.names).Nodup) (hfresh : ∀ k ∈ newPlans.flatMap RowPlan.names,
      records[k]? = none ∨ k ∈ outPlans.flatMap RowPlan.names) :
    ∃ stay, rows.Perm (out.map (normalRow table) ++ stay) ∧
      RowsImage table (stay ++ new.map (normalRow table)) (writePlans records outPlans newPlans) := by
  have hleave : Forall₂ (fun row key => rowStorageKey table row = .ok key ∧
      records[key]? = some (encodeRowValue row.value)) out (outPlans.map (·.rowKey)) := by
    clear hkeys hfresh
    induction hout with
    | nil => exact .nil
    | cons hp _ ih =>
      refine .cons ⟨hp.rowKey, ?_⟩ (ih fun q hq => hstored q (mem_cons_of_mem _ hq))
      rw [← hp.value]
      exact hstored _ mem_cons_self
  obtain ⟨stay, hperm⟩ := himage.split hkeys hleave
  refine ⟨stay, hperm, fun row hrow => ?_, ?_⟩
  · rcases mem_append.mp hrow with hs | hn
    · exact himage.built row (hperm.mem_iff.mpr (mem_append_right _ hs))
    · obtain ⟨r, hr, rfl⟩ := mem_map.mp hn
      obtain ⟨p, -, hp⟩ := forall₂_exists_right hnew hr
      exact rowBuilt_normalRow ⟨_, hp.rowRecords huids⟩ fun hless => hids hless r hr
  · refine (himage.image.perm hperm).change (apart_normalRow.mpr ((apart_plans huids hnew).mpr hnd))
      (fun k hk => ?_) (changed_normalRow (changed_dataRecord
        (writePlans_changed huids hout hnew hnd records)))
    rw [owners_map_normalRow, owners_plans huids hnew] at hk
    rw [owners_map_normalRow, owners_plans huids hout]
    refine (hfresh k hk).imp (fun hnone => ?_) id
    unfold dataRecord
    split
    · rfl
    · exact hnone

end Plans

open RowPlan

/-! ## What the loops check -/

theorem probeEach_eq_ok {α : Type} {name : α → Bytes} {message : α → String} {l : List α} :
    probeEach faults st what name message l = .ok u ↔
      ∀ a ∈ l, faults what (name a) = none ∧ st.records[name a]? = none := by
  induction l with
  | nil => simp [probeEach]
  | cons a l ih =>
    simp only [probeEach, bind_eq_ok, probeFree_eq_ok, ih, mem_cons, forall_eq_or_imp, exists_const]

/-- A new row that passed its reads finds every key free. -/
theorem probeRow_free (h : probeRow faults st p = .ok u) :
    ∀ k ∈ p.names, st.records[k]? = none := by
  simp only [probeRow, bind_eq_ok, probeFree_eq_ok, probeEach_eq_ok, exists_const] at h
  obtain ⟨⟨-, hrow⟩, hunique, hindex⟩ := h
  intro k hk
  rw [p.names_eq] at hk
  rcases mem_append.mp hk with hk | hk
  · rcases mem_append.mp hk with hk | hk
    · rw [mem_singleton] at hk
      rw [hk]
      exact hrow
    · exact (hunique k hk).2
  · obtain ⟨e, he, rfl⟩ := mem_map.mp hk
    exact (hindex e he).2

theorem probeRows_free (h : probeRows faults st plans = .ok u) :
    ∀ k ∈ plans.flatMap names, st.records[k]? = none := by
  induction plans with
  | nil => simp
  | cons p plans ih =>
    simp only [probeRows, bind_eq_ok] at h
    obtain ⟨_, hp, hrest⟩ := h
    intro k hk
    rcases mem_append.mp (flatMap_cons ▸ hk) with hk | hk
    · exact probeRow_free hp k hk
    · exact ih hrest k hk

theorem newUniqueKeys_eq_ok {message : String} {row : Bytes} {constraints : List (List Nat)}
    {ordinal : Nat} {seen keys seen' : List Bytes} :
    newUniqueKeys table message row constraints ordinal seen = .ok (keys, seen') ↔
      uniqueKeysFrom table row constraints ordinal = .ok keys ∧ AllNew seen keys ∧
        seen' = keys.reverse ++ seen := by
  induction constraints generalizing ordinal seen keys seen' with
  | nil =>
    simp only [newUniqueKeys, uniqueKeysFrom, Except.ok.injEq, Prod.mk.injEq]
    constructor
    · rintro ⟨rfl, rfl⟩
      exact ⟨rfl, allNew_nil _, rfl⟩
    · rintro ⟨rfl, -, rfl⟩
      exact ⟨rfl, rfl⟩
  | cons columns rest ih =>
    simp only [newUniqueKeys, uniqueKeysFrom, bind_eq_ok, addAllNew_eq_ok, map_id,
      Except.ok.injEq, Prod.exists, Prod.mk.injEq, ih]
    constructor
    · rintro ⟨key, hkey, mid, ⟨hnew, rfl⟩, others, _, ⟨hothers, hmore, rfl⟩, rfl, rfl⟩
      exact ⟨⟨key, hkey, others, hothers, rfl⟩, allNew_append.mpr ⟨hnew, hmore⟩, by simp⟩
    · rintro ⟨⟨key, hkey, others, hothers, rfl⟩, hnew, rfl⟩
      obtain ⟨hfirst, hmore⟩ := allNew_append.mp hnew
      exact ⟨key, hkey, _, ⟨hfirst, rfl⟩, others, _, ⟨hothers, hmore, rfl⟩, rfl, by simp⟩

theorem updateUniqueKeys_eq_ok {before after : Bytes} {constraints : List (List Nat)}
    {ordinal : Nat} {seen olds news seen' : List Bytes}
    (h : updateUniqueKeys table before after constraints ordinal seen = .ok (olds, news, seen')) :
    uniqueKeysFrom table before constraints ordinal = .ok olds ∧
      uniqueKeysFrom table after constraints ordinal = .ok news ∧ AllNew seen news ∧
      seen' = news.reverse ++ seen := by
  induction constraints generalizing ordinal seen olds news seen' with
  | nil =>
    simp only [updateUniqueKeys, Except.ok.injEq, Prod.mk.injEq] at h
    obtain ⟨rfl, rfl, rfl⟩ := h
    exact ⟨rfl, rfl, allNew_nil _, rfl⟩
  | cons columns rest ih =>
    simp only [updateUniqueKeys, bind_eq_ok, addAllNew_eq_ok, map_id, Except.ok.injEq,
      Prod.exists, Prod.mk.injEq] at h
    obtain ⟨old, hold, new, hnew, mid, ⟨hfirst, rfl⟩, olds, news, _, hrest, rfl, rfl, rfl⟩ := h
    obtain ⟨holds, hnews, hmore, rfl⟩ := ih hrest
    refine ⟨?_, ?_, allNew_append.mpr ⟨hfirst, hmore⟩, by simp⟩
    · simp only [uniqueKeysFrom, hold, holds, ok_bind]
    · simp only [uniqueKeysFrom, hnew, hnews, ok_bind]

/-- A row that stands in the table under its key has its own base record there. -/
theorem RowsImage.stored_of_decoded (h : RowsImage table rows records) {key value : Bytes}
    (hkey : rowStorageKey table row = .ok key) (hread : records[key]? = some value)
    (hrow : decodeRowValue value = .ok row.value) : value = encodeRowValue row.value := by
  have hdata : dataRecord records key = some value := by
    unfold dataRecord
    rw [rowStorageKey_not_marker hkey]
    simpa using hread
  obtain ⟨owner, howner, hat⟩ := (h.image.holds key value).mp hdata
  obtain ⟨ownKey, hown⟩ := (h.built owner howner).storageKey
  rcases recordAt_letter hown hat with ⟨-, hval⟩ | hletter
  · rw [hval, decodeRowValue_encodeRowValue] at hrow
    rw [hval, Except.ok.inj hrow]
  · exact absurd hletter (rowStorageKey_not_letter hkey)

theorem readCurrent_stored {missing changed : String} {key : Bytes}
    (himage : RowsImage st.table rows st.records) (hkey : rowStorageKey st.table row = .ok key)
    (h : readCurrent faults st what missing changed row.value key = .ok u) :
    st.records[key]? = some (encodeRowValue row.value) := by
  simp only [readCurrent, bind_eq_ok, readRecord_eq_ok] at h
  obtain ⟨value, ⟨-, hread⟩, hmatch⟩ := h
  cases value with
  | none => simp at hmatch
  | some value =>
    simp only [bind_eq_ok, guardOk_eq_ok] at hmatch
    obtain ⟨current, hdecode, hsame⟩ := hmatch
    rw [hread, himage.stored_of_decoded hkey hread (hsame ▸ hdecode)]

/-! ## The invariant of a stored table -/

/-- The table holds the image of its rows, and its indexes have different uids. -/
structure TableGood (st : TableState) : Prop where
  image : TableImage st.table st.records
  uids : UidsApart st.table

theorem tableGood_empty (h : UidsApart table) :
    TableGood (emptyTable table) := ⟨tableImage_empty table, h⟩

/-- A definition that gives rows the same records keeps the invariant. -/
theorem TableGood.of_same (himage : RowsImage table rows st.records) (huids : UidsApart table)
    (hsame : SameRecords table st.table) : TableGood st := by
  refine ⟨tableImage_iff.mpr ⟨rows, himage.congr hsame⟩, ?_⟩
  unfold UidsApart
  rw [hsame.secondaryIndexes]
  exact huids

theorem advance_same (st : TableState) (n : Nat) : SameRecords st.table (st.advance n).table := by
  unfold TableState.advance
  split
  · exact sameRecords_nextRowId _ _
  · exact SameRecords.refl _

theorem advance_records (st : TableState) (n : Nat) : (st.advance n).records = st.records := by
  unfold TableState.advance
  split <;> rfl

theorem TableGood.advance (h : TableGood st) (n : Nat) : TableGood (st.advance n) := by
  obtain ⟨rows, hrows⟩ := tableImage_iff.mp h.image
  rw [← advance_records st n] at hrows
  exact TableGood.of_same hrows h.uids (advance_same st n)

theorem TableGood.rollback (h : TableGood st) (n : Nat) :
    TableGood (rollbackRowId faults st (st.advance n)) := by
  unfold rollbackRowId
  split
  · exact h
  · exact h.advance n

/-! ## The routines -/

/-- Rows that are only added, and whose keys are free, keep the invariant. -/
theorem TableGood.add_rows (h : TableGood st) (hnew : Forall₂ (Planned st.table) new plans)
    (hids : BaseRowIds st.table new) (hnd : (plans.flatMap names).Nodup)
    (hfree : ∀ k ∈ plans.flatMap names, st.records[k]? = none) (n : Nat) :
    TableGood { st.advance n with records := writePlans st.records [] plans } := by
  obtain ⟨rows, hrows⟩ := tableImage_iff.mp h.image
  obtain ⟨stay, -, himage⟩ := hrows.rewrite h.uids Forall₂.nil (by simp) (by simp) hnew hids
    hnd fun k hk => .inl (hfree k hk)
  exact TableGood.of_same himage h.uids (advance_same st n)

theorem planInsert_eq_ok {row : Row} (h : planInsert faults st row = .ok p) :
    Planned st.table ⟨st.table.nextRowId, row⟩ p := by
  simp only [planInsert, bind_eq_ok, Except.ok.injEq] at h
  obtain ⟨-, -, key, hkey, keys, hkeys, entries, hentries, rfl⟩ := h
  exact ⟨rfl, hkey, hkeys, hentries⟩

theorem insertRow_good {row : Row} (h : TableGood st)
    (hids : BaseRowIds st.table [⟨st.table.nextRowId, row⟩]) :
    TableGood (insertRow faults st row).2 := by
  unfold insertRow
  split
  · exact h
  · rename_i p hp
    have hplan := planInsert_eq_ok hp
    split
    · exact h
    · split
      · exact h.rollback 1
      · rename_i hprobe
        split
        · exact h.rollback 1
        · simp only [probeInsert, bind_eq_ok] at hprobe
          obtain ⟨-, -, hfree⟩ := hprobe
          refine h.add_rows (.cons hplan Forall₂.nil) hids ?_ ?_ 1
          · simpa using hplan.names_nodup h.uids
          · simpa using probeRow_free hfree

theorem planDeletes_eq_ok {selected : List Bytes}
    (h : planDeletes table rows selected = .ok plans) :
    Forall₂ (Planned table) rows plans ∧ AllNew selected (plans.map (·.rowKey)) := by
  induction rows generalizing selected plans with
  | nil =>
    simp only [planDeletes, Except.ok.injEq] at h
    subst h
    exact ⟨.nil, allNew_nil _⟩
  | cons row rows ih =>
    simp only [planDeletes, bind_eq_ok, guardOk_eq_ok, Except.ok.injEq] at h
    obtain ⟨key, hkey, -, hnew, entries, hentries, keys, hkeys, rest, hrest, rfl⟩ := h
    obtain ⟨hplans, hmore⟩ := ih hrest
    exact ⟨.cons ⟨rfl, hkey, hkeys, hentries⟩ hplans, allNew_cons.mpr ⟨hnew, hmore⟩⟩

theorem checkDeletes_eq_ok (himage : RowsImage st.table rows st.records)
    (hplans : Forall₂ (Planned st.table) out plans)
    (h : checkDeletes faults st plans = .ok u) :
    ∀ p ∈ plans, st.records[p.rowKey]? = some (encodeRowValue p.row) := by
  induction hplans with
  | nil => simp
  | @cons row p out plans hp _ ih =>
    simp only [checkDeletes, bind_eq_ok] at h
    obtain ⟨_, hread, hrest⟩ := h
    refine forall_mem_cons.mpr ⟨?_, ih hrest⟩
    rw [hp.value] at hread ⊢
    exact readCurrent_stored himage hp.rowKey hread

theorem deleteRows_good (h : TableGood st) : TableGood (deleteRows faults st table rows).2 := by
  unfold deleteRows TableState.store
  split
  · exact h
  · split
    · exact h
    · rename_i records hrecords
      simp only [deletedRecords, bind_eq_ok, Except.ok.injEq] at hrecords
      obtain ⟨_, _, _, _, plans, hplan, _, hcheck, _, _, rfl⟩ := hrecords
      obtain ⟨hplans, hkeys⟩ := planDeletes_eq_ok hplan
      obtain ⟨stored, himage⟩ := tableImage_iff.mp h.image
      obtain ⟨stay, -, hafter⟩ := himage.rewrite h.uids hplans hkeys.1
        (checkDeletes_eq_ok himage hplans hcheck) Forall₂.nil (by simp [BaseRowIds]) (by simp)
        (by simp)
      exact TableGood.of_same hafter h.uids (SameRecords.refl _)

theorem planPending_eq_ok {expected : UInt64} {seen : PendingSeen}
    (h : planPending table rows expected seen = .ok plans) :
    Forall₂ (Planned table) rows plans ∧ AllNew seen.rowKeys (plans.map (·.rowKey)) ∧
      AllNew seen.uniqueKeys (plans.flatMap (·.uniqueKeys)) := by
  induction rows generalizing expected seen plans with
  | nil =>
    simp only [planPending, Except.ok.injEq] at h
    subst h
    exact ⟨.nil, allNew_nil _, allNew_nil _⟩
  | cons row rows ih =>
    simp only [planPending, bind_eq_ok, guardOk_eq_ok, Except.ok.injEq, Prod.exists,
      newUniqueKeys_eq_ok] at h
    obtain ⟨-, -, key, hkey, -, hnew, entries, hentries, keys, _, ⟨hkeys, hfresh, rfl⟩, rest,
      hrest, rfl⟩ := h
    obtain ⟨hplans, hmore, hunique⟩ := ih hrest
    rw [flatMap_cons, allNew_append]
    exact ⟨.cons ⟨rfl, hkey, hkeys, hentries⟩ hplans, allNew_cons.mpr ⟨hnew, hmore⟩, hfresh,
      hunique⟩

/-- The keys of a row in the indexes of its table. -/
def indexKeysOf (table : LiteTableDef) (row : LiteRow) : List Bytes :=
  match (do
    let rowKey ← rowStorageKey table row
    buildSecondaryIndexEntries table row.value.bytes rowKey) with
  | .ok entries => entries.map (·.key)
  | .error _ => []

/-- No two of the rows share an index key. `commitPendingRows` does not check this. -/
def IndexKeysApart (table : LiteTableDef) (rows : List LiteRow) : Prop :=
  rows.Pairwise fun r s => ∀ k ∈ indexKeysOf table r, k ∉ indexKeysOf table s

theorem Planned.indexKeysOf (h : Planned table row p) : indexKeysOf table row = p.entryKeys := by
  unfold litestore.indexKeysOf
  simp only [h.rowKey, ok_bind, h.entries]
  rfl

theorem IndexKeysApart.nodup (h : IndexKeysApart table rows) (huids : UidsApart table)
    (hplans : Forall₂ (Planned table) rows plans) :
    (plans.flatMap entryKeys).Nodup := by
  induction hplans with
  | nil => exact nodup_nil
  | @cons row p rows plans hp hrest ih =>
    obtain ⟨hfirst, hmore⟩ := pairwise_cons.mp h
    rw [flatMap_cons, nodup_append]
    refine ⟨indexEntriesOf_nodup hp.entries huids, ih hmore, ?_⟩
    rintro a ha b hb rfl
    obtain ⟨q, hq, hmem⟩ := mem_flatMap.mp hb
    obtain ⟨s, hs, hplan⟩ := forall₂_exists_right hrest.flip hq
    refine hfirst s hs a ?_ ?_
    · rw [hp.indexKeysOf]
      exact ha
    · rw [hplan.indexKeysOf]
      exact hmem

theorem commitPendingRows_good (h : TableGood st) (hids : BaseRowIds st.table rows)
    (hindex : IndexKeysApart st.table rows) :
    TableGood (commitPendingRows faults st table rows).2 := by
  unfold commitPendingRows
  split
  · exact h
  · split
    · exact h
    · rename_i plans hplans
      split
      · exact h.rollback _
      · simp only [pendingPlans, bind_eq_ok, Except.ok.injEq] at hplans
        obtain ⟨_, _, _, _, plans, hplan, _, hprobe, _, _, rfl⟩ := hplans
        obtain ⟨hplanned, hkeys, hunique⟩ := planPending_eq_ok hplan
        exact h.add_rows hplanned hids
          (names_nodup hplanned hkeys.1 hunique.1 (hindex.nodup h.uids hplanned))
          (probeRows_free hprobe) rows.length

/-! ## `updateRows` -/

theorem planUpdates_eq_ok {mutations : List LiteRowMutation} {seen : UpdateSeen}
    {plans : List (RowPlan × RowPlan)} (h : planUpdates table mutations seen = .ok plans) :
    Forall₂ (Planned table) (mutations.map (·.before)) (plans.map (·.1)) ∧
      Forall₂ (Planned table) (mutations.map (·.afterRow)) (plans.map (·.2)) ∧
      AllNew seen.oldRowKeys ((plans.map (·.1)).map (·.rowKey)) ∧
      AllNew seen.newRowKeys ((plans.map (·.2)).map (·.rowKey)) ∧
      AllNew seen.newUniqueKeys ((plans.map (·.2)).flatMap (·.uniqueKeys)) ∧
      AllNew seen.newIndexKeys ((plans.map (·.2)).flatMap entryKeys) := by
  induction mutations generalizing seen plans with
  | nil =>
    simp only [planUpdates, Except.ok.injEq] at h
    subst h
    exact ⟨.nil, .nil, allNew_nil _, allNew_nil _, allNew_nil _, allNew_nil _⟩
  | cons u mutations ih =>
    simp only [planUpdates, bind_eq_ok, guardOk_eq_ok, addAllNew_eq_ok, Except.ok.injEq,
      Prod.exists] at h
    obtain ⟨oldKey, hold, newKey, hnew, -, holdNew, -, hnewNew, oldEntries, hoe, newEntries, hne,
      indexKeys, ⟨hindex, rfl⟩, olds, news, uniqueKeys, hunique, rest, hrest, rfl⟩ := h
    obtain ⟨holds, hnews, hfresh, rfl⟩ := updateUniqueKeys_eq_ok hunique
    obtain ⟨h1, h2, h3, h4, h5, h6⟩ := ih hrest
    simp only [map_cons, flatMap_cons, allNew_cons, allNew_append]
    exact ⟨.cons ⟨rfl, hold, holds, hoe⟩ h1, .cons ⟨rfl, hnew, hnews, hne⟩ h2, ⟨holdNew, h3⟩,
      ⟨hnewNew, h4⟩, ⟨hfresh, h5⟩, hindex, h6⟩

theorem probeOwned_eq_ok {α : Type} {oldRowKeys : List Bytes} {name : α → Bytes}
    {message : α → String} {l : List α}
    (h : probeOwned faults st oldRowKeys what name message l = .ok u) :
    ∀ a ∈ l, ∀ value, st.records[name a]? = some value →
      ∃ rowKey row, decodeIndexValue value = .ok (rowKey, row) ∧ rowKey ∈ oldRowKeys := by
  induction l with
  | nil => simp
  | cons a l ih =>
    simp only [probeOwned, bind_eq_ok, readRecord_eq_ok, guardOk_eq_ok, exists_const] at h
    obtain ⟨read, ⟨-, hread⟩, owner, howner, hold, hrest⟩ := h
    refine forall_mem_cons.mpr ⟨fun value hvalue => ?_, ih hrest⟩
    rw [hread] at hvalue
    subst hvalue
    cases hdecode : decodeIndexValue value with
    | error e => simp [hdecode, Except.map] at howner
    | ok r =>
      simp only [hdecode, Except.map, Except.ok.injEq] at howner
      exact ⟨r.1, r.2, rfl, hold r.1 (by simp [← howner])⟩

/-- The value of a unique or an index record leads to the row that owns it. -/
theorem owner_of_index_value {v : Bytes} {covered : Option Bytes} (hbuilt : RowBuilt table row)
    (hat : recordAt table row k = some v)
    (hletter : k.length ≠ 8 ∧ (k.head? = some letterU ∨ k.head? = some letterI))
    (hdecode : decodeIndexValue v = .ok (rowKey, covered)) :
    rowStorageKey table row = .ok rowKey := by
  obtain ⟨own, hown⟩ := hbuilt.records
  obtain ⟨key, keys, entries, hkey, hkeys, hentries, hnd, -⟩ := rowRecords_eq_ok.mp hown
  rw [recordAt_eq_some hkey hkeys hentries hnd] at hat
  have hshape : key.length = 8 ∨ key.head? = some letterP := by
    rcases rowStorageKey_shape hkey with ⟨-, rfl⟩ | ⟨-, hhead, -⟩
    · exact .inl rfl
    · exact .inr hhead
  have hshort : key.length < 2 ^ 63 := by
    rcases rowStorageKey_shape hkey with ⟨-, rfl⟩ | ⟨-, -, -, hlen⟩
    · simp
    · exact hlen
  have hbare : decodeIndexValue key = .ok (rowKey, covered) → rowStorageKey table row = .ok rowKey :=
    fun h => by rw [hkey, decodeIndexValue_bare hshape h]
  simp only [recordEntries, cons_append, mem_cons, mem_append, mem_map, Prod.mk.injEq] at hat
  rcases hat with ⟨rfl, -⟩ | ⟨u, -, -, rfl⟩ | ⟨e, he, -, rfl⟩
  · exact absurd hletter (rowStorageKey_not_letter hkey)
  · exact hbare hdecode
  · obtain ⟨index, -, hb⟩ := (mem_indexEntriesOf hentries e).mp he
    obtain ⟨-, -, hvalue⟩ := buildSecondaryIndexEntry_shape hb
    rw [hvalue] at hdecode
    split at hdecode
    · rw [decodeIndexValue_covering hshort row.value.short] at hdecode
      cases hdecode
      exact hkey
    · exact hbare hdecode

/-- A taken key whose record leads to an outgoing row leaves with that row. -/
theorem RowsImage.leaves_with_owner (himage : RowsImage table rows records)
    (huids : UidsApart table) (hout : Forall₂ (Planned table) out outPlans)
    (hstored : ∀ p ∈ outPlans, records[p.rowKey]? = some (encodeRowValue p.row)) {value : Bytes}
    {covered : Option Bytes} (hread : records[k]? = some value)
    (hletter : k.length ≠ 8 ∧ (k.head? = some letterU ∨ k.head? = some letterI))
    (hdecode : decodeIndexValue value = .ok (rowKey, covered))
    (hold : rowKey ∈ outPlans.map (·.rowKey)) : k ∈ outPlans.flatMap names := by
  have hmark : isJournalMarker k = false := by
    rcases hletter.2 with h | h <;> simp [isJournalMarker, h, letterU, letterI, letterJ]
  have hdata : dataRecord records k = some value := by
    unfold dataRecord
    rw [hmark]
    simpa using hread
  obtain ⟨owner, howner, hat⟩ := (himage.image.holds k value).mp hdata
  have hkey := owner_of_index_value (himage.built owner howner) hat hletter hdecode
  obtain ⟨p, hp, rfl⟩ := mem_map.mp hold
  obtain ⟨row, hrow, hplan⟩ := forall₂_exists_right hout.flip hp
  -- the outgoing row with that key is the owner
  have hmem := himage.mem_of_stored hplan.rowKey (by rw [← hplan.value]; exact hstored p hp)
  have hsame := himage.key_unique hmem howner (by simpa using hplan.rowKey) hkey
  rw [← hsame, recordAt_normalRow] at hat
  exact mem_flatMap.mpr ⟨p, hp, (hplan.owns huids).mp (by simp [hat])⟩

/-- What the second loop finds out about one update. -/
structure UpdateChecked (faults : Faults) (st : TableState) (oldRowKeys : List Bytes)
    (old new : RowPlan) : Prop where
  current : readCurrent faults st "read lite row for update" "lite update row no longer exists"
    "lite update row changed; restart statement" old.row old.rowKey = .ok ()
  rowKey : new.rowKey = old.rowKey ∨ new.rowKey ∈ oldRowKeys ∨ st.records[new.rowKey]? = none
  owned : ∀ k ∈ new.uniqueKeys ++ new.entryKeys, ∀ value, st.records[k]? = some value →
    ∃ rowKey row, decodeIndexValue value = .ok (rowKey, row) ∧ rowKey ∈ oldRowKeys

theorem checkUpdates_eq_ok {oldRowKeys : List Bytes} {plans : List (RowPlan × RowPlan)}
    (h : checkUpdates faults st oldRowKeys plans = .ok u) :
    ∀ p ∈ plans, UpdateChecked faults st oldRowKeys p.1 p.2 := by
  induction plans with
  | nil => simp
  | cons head rest ih =>
    obtain ⟨old, new⟩ := head
    simp only [checkUpdates, bind_eq_ok] at h
    obtain ⟨_, hread, _, hkey, _, hunique, _, hindex, hrest⟩ := h
    intro p hp
    rcases mem_cons.mp hp with rfl | hp
    · refine ⟨hread, ?_, fun k hk => ?_⟩
      · unfold probeNewRowKey at hkey
        split at hkey
        · exact .inr (.inr (probeFree_eq_ok.mp hkey).2)
        · rename_i hskip
          by_cases hsame : new.rowKey = old.rowKey
          · exact .inl hsame
          · exact .inr (.inl (by_contra fun hno => hskip ⟨hsame, hno⟩))
      · rcases mem_append.mp hk with hk | hk
        · exact probeOwned_eq_ok hunique k hk
        · obtain ⟨e, he, rfl⟩ := mem_map.mp hk
          exact probeOwned_eq_ok hindex e he
    · exact ih hrest p hp

theorem updateRows_good {mutations : List LiteRowMutation} (h : TableGood st) :
    TableGood (updateRows faults st table mutations).2 := by
  unfold updateRows TableState.store
  split
  · exact h
  · split
    · exact h
    · rename_i records hrecords
      simp only [updatedRecords, bind_eq_ok, Except.ok.injEq] at hrecords
      obtain ⟨_, _, _, _, plans, hplan, _, hcheck, _, _, rfl⟩ := hrecords
      obtain ⟨hout, hnew, holdKeys, hnewKeys, hunique, hindex⟩ := planUpdates_eq_ok hplan
      have hchecked := checkUpdates_eq_ok hcheck
      obtain ⟨rows, himage⟩ := tableImage_iff.mp h.image
      have hstored : ∀ p ∈ plans.map (·.1), st.records[p.rowKey]? =
          some (encodeRowValue p.row) := by
        intro p hp
        obtain ⟨row, -, hplanned⟩ := forall₂_exists_right hout.flip hp
        obtain ⟨q, hq, rfl⟩ := mem_map.mp hp
        have hread := (hchecked q hq).current
        rw [hplanned.value] at hread ⊢
        exact readCurrent_stored himage hplanned.rowKey hread
      have hids : BaseRowIds st.table (mutations.map (·.afterRow)) := by
        -- an update keeps the row id of the row it replaces
        intro hless row hrow
        obtain ⟨u, hu, rfl⟩ := mem_map.mp hrow
        obtain ⟨p, hp, hplanned⟩ := forall₂_exists_right hout (mem_map.mpr ⟨u, hu, rfl⟩)
        have hmem := himage.mem_of_stored hplanned.rowKey
          (by rw [← hplanned.value]; exact hstored p hp)
        simpa [normalRow, hless] using (himage.built _ hmem).base_rowId hless
      have hrowKeys : plans.map (·.1.rowKey) = (plans.map (·.1)).map (·.rowKey) := by
        simp [map_map, Function.comp_def]
      obtain ⟨stay, -, hafter⟩ := himage.rewrite h.uids hout holdKeys.1 hstored hnew hids
        (names_nodup hnew hnewKeys.1 hunique.1 hindex.1) fun k hk => by
          obtain ⟨p, hp, hname⟩ := mem_flatMap.mp hk
          obtain ⟨row, -, hplanned⟩ := forall₂_exists_right hnew.flip hp
          obtain ⟨q, hq, rfl⟩ := mem_map.mp hp
          have hck := hchecked q hq
          rw [hrowKeys] at hck
          have howns : ∀ key ∈ (plans.map (·.1)).map (·.rowKey),
              key ∈ (plans.map (·.1)).flatMap names := by
            intro key hkey
            obtain ⟨o, ho, rfl⟩ := mem_map.mp hkey
            exact mem_flatMap.mpr ⟨o, ho, by rw [o.names_eq]; simp⟩
          rw [names_eq, append_assoc, mem_append, mem_singleton] at hname
          rcases hname with rfl | hname
          · rcases hck.rowKey with hsame | hold | hfree
            · exact .inr (howns _ (mem_map.mpr
                ⟨q.1, mem_map.mpr ⟨q, hq, rfl⟩, hsame.symm⟩))
            · exact .inr (howns _ hold)
            · exact .inl hfree
          · have hletter : k.length ≠ 8 ∧ (k.head? = some letterU ∨ k.head? = some letterI) := by
              rcases mem_append.mp hname with hu | hi
              · exact ⟨(hplanned.letters.1 k hu).2, .inl (hplanned.letters.1 k hu).1⟩
              · exact ⟨(hplanned.letters.2 k hi).2, .inr (hplanned.letters.2 k hi).1⟩
            cases hread : st.records[k]? with
            | none => exact .inl rfl
            | some value =>
              obtain ⟨rowKey, covered, hdecode, hold⟩ := hck.owned k hname value hread
              exact .inr (himage.leaves_with_owner h.uids hout hstored hread hletter hdecode hold)
      exact TableGood.of_same hafter h.uids (SameRecords.refl _)

end litestore
