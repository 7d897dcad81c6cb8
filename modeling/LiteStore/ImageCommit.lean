-- The whole-image commit: `commitPendingMutations` reads every record of the
-- table, rebuilds every record from the rows that should be there and writes
-- the difference.
import LiteStore.DeltaCommit

namespace litestore

open checked rowimage List

/-! ## The source -/

/-- The rows of a table by their keys. -/
abbrev RowMap := Std.ExtTreeMap Bytes LiteRow compare

/-- The marker that a replayed journal leaves in each table it reached. -/
def transactionTableMarker (transactionId : UInt64) : Bytes :=
  letterJ :: uint64Bytes transactionId

section

variable (faults : Faults) (st : TableState) (table : LiteTableDef)

/-- The base records as rows, by key. -/
def originalRows : Except String RowMap := do
  let rows ← (st.records.toList.filter fun record => isBaseKey record.1).mapM fun record => do
    let row ← rowOfRecord record
    .ok (record.1, row)
  checkRocksError faults "scan lite rows for transaction commit" []
  .ok (putAll ∅ rows)

/-- The loop over the updates (each with the row it leaves) or over the deletes. -/
def selectStored (table : LiteTableDef) (rows : RowMap) (changed : String) :
    List (LiteRow × Option LiteRow) → List Bytes → Except String (List Bytes)
  | [], removed => .ok removed
  | (before, after) :: rest, removed => do
    let key ← rowStorageKey table before
    guardOk ((rows[key]?.map (·.value)) = some before.value) changed
    guardOk (key ∉ removed) "lite transaction selected a row more than once"
    let _ ← (match after with
      | none => .ok []
      | some row => rowStorageKey table row : Except String Bytes)
    selectStored table rows changed rest (key :: removed)

/-- The loop that puts the rows of the updates back under their new keys. -/
def placeUpdated (table : LiteTableDef) : List LiteRow → RowMap → Except String RowMap
  | [], rows => .ok rows
  | row :: rest, rows => do
    let key ← rowStorageKey table row
    guardOk (key ∉ rows) "duplicate lite primary key"
    placeUpdated table rest (rows.insert key row)

/-- The row id of the first insert; the next row id when there is none. -/
def firstInsertedRowId (inserts : List LiteRow) : UInt64 :=
  match inserts with
  | [] => table.nextRowId
  | first :: _ => first.rowId

/-- The row ids were handed out already when the catalog is past them. -/
def metadataAlreadyAdvanced (inserts : List LiteRow) : Bool :=
  table.keyless && !inserts.isEmpty &&
    table.nextRowId = firstInsertedRowId table inserts + UInt64.ofNat inserts.length

/-- The loop over the inserts; a keyless table expects the next row id at each of them. -/
def placeInserted (table : LiteTableDef) (advanced : Bool) (first : UInt64) :
    List LiteRow → UInt64 → RowMap → Except String RowMap
  | [], _, rows => .ok rows
  | row :: rest, expected, rows => do
    guardOk (table.keyless = false ∨ table.nextRowId = first ∨ advanced) rowIdAllocationChanged
    guardOk (table.keyless = false ∨ row.rowId = expected) rowIdAllocationChanged
    let key ← rowStorageKey table row
    guardOk (key ∉ rows)
      (if table.keyless then "duplicate lite row key" else "duplicate lite primary key")
    placeInserted table advanced first rest (expected + 1) (rows.insert key row)

/-- The loop that builds every record of the table anew. -/
def addImageRows (table : LiteTableDef) : List (Bytes × LiteRow) → RecordMap →
    Except String RecordMap
  | [], final => .ok final
  | (key, row) :: rest, final => do
    let final ← addRowRecords (fun _ => "duplicate lite unique index key") table row.value key final
    addImageRows table rest final

/-- The rows that should be there after the commit. -/
def finalRows (original : RowMap) (m : Mutations) : Except String RowMap := do
  let removed ← selectStored table original "lite update row changed; restart transaction"
    (m.updates.map fun u => (u.before, some u.afterRow)) []
  let removed ← selectStored table original "lite delete row changed; restart transaction"
    (m.deletes.map fun d => (d, none)) removed
  let rows ← placeUpdated table (m.updates.map (·.afterRow)) (eraseAll original removed)
  placeInserted table (metadataAlreadyAdvanced table m.inserts)
    (firstInsertedRowId table m.inserts) m.inserts (firstInsertedRowId table m.inserts) rows

/-- Every check of the commit; the result is the image it would leave. -/
def finalRecords (m : Mutations) : Except String RecordMap := do
  let original ← originalRows faults st
  let rows ← finalRows st.table original m
  addImageRows st.table rows.toList ∅

/-- The erasures of the batch: what the image does not hold. -/
def staleKeys (records final : RecordMap) : List Bytes :=
  records.keys.filter fun k => k ∉ final

/-- The puts of the batch: what the table does not hold. -/
def changedRecords (records final : RecordMap) : List (Bytes × Bytes) :=
  final.toList.filter fun r => records[r.1]? ≠ some r.2

/-- The checks in front of the commit; false when the journal reached this table before. -/
def commitNeeded (journalTransactionId : UInt64) : Except String Bool := do
  loadTable faults st
    (some (table.objectUid, "lite table changed while transaction was active"))
  openTable faults
  if journalTransactionId = 0 then .ok true
  else
    let marker ← readRecord faults st "read lite transaction table marker"
      (transactionTableMarker journalTransactionId)
    .ok marker.isNone

end

/-- The writes of the commit: the catalog first when row ids are handed out, then the
batch. A failed batch puts the old definition back, if that write succeeds. -/
def writeImage (faults : Faults) (st : TableState) (m : Mutations)
    (journalTransactionId : UInt64) (final : RecordMap) : Except String Unit × TableState :=
  let marker := if journalTransactionId = 0 then []
    else [(transactionTableMarker journalTransactionId, [(49 : UInt8)])]
  let records := putAll (eraseAll (putAll st.records marker) (staleKeys st.records final))
    (changedRecords st.records final)
  let advances := st.table.keyless && !m.inserts.isEmpty &&
    !metadataAlreadyAdvanced st.table m.inserts
  let advanced : LiteTableDef := { st.table with
    nextRowId := st.table.nextRowId + UInt64.ofNat m.inserts.length }
  if advances then
    match checkRocksError faults "update lite row id metadata" [] with
    | .error e => (.error e, st)
    | .ok () =>
      match checkRocksError faults "commit lite table mutations" [] with
      | .ok () => (.ok (), { st with table := advanced, records := records })
      | .error e =>
        if faults "rollback lite row id metadata" [] = none then (.error e, st)
        else (.error e, { st with table := advanced })
  else
    match checkRocksError faults "commit lite table mutations" [] with
    | .ok () => (.ok (), { st with records := records })
    | .error e => (.error e, st)

def commitPendingMutations (faults : Faults) (st : TableState) (table : LiteTableDef)
    (m : Mutations) (validateOnly : Bool) (journalTransactionId : UInt64) :
    Except String Unit × TableState :=
  if m.isEmpty then (.ok (), st)
  else match commitNeeded faults st table journalTransactionId with
    | .error e => (.error e, st)
    | .ok false => (.ok (), st)
    | .ok true =>
      match finalRecords faults st m with
      | .error e => (.error e, st)
      | .ok final =>
        if validateOnly then (.ok (), st)
        else writeImage faults st m journalTransactionId final

/-! ## Rows by key -/

/-- The rows have keys, and no two have one key. -/
def KeysApart (table : LiteTableDef) (rows : List LiteRow) : Prop :=
  ∃ keys : List Bytes, keys.Nodup ∧
    Forall₂ (fun row key => rowStorageKey table row = .ok key) rows keys

/-- The map holds these rows, each under its key. -/
structure Keyed (table : LiteTableDef) (rows : List LiteRow) (map : RowMap) : Prop where
  apart : KeysApart table rows
  holds : ∀ k row, map[k]? = some row ↔ row ∈ rows ∧ rowStorageKey table row = .ok k

variable {table : LiteTableDef} {rows more earlier : List LiteRow} {row : LiteRow}
  {map map' : RowMap}

theorem KeysApart.key (h : KeysApart table rows) (hrow : row ∈ rows) :
    ∃ key, rowStorageKey table row = .ok key := by
  obtain ⟨keys, -, hkeys⟩ := h
  obtain ⟨key, -, hkey⟩ := forall₂_exists_right hkeys hrow
  exact ⟨key, hkey⟩

/-- The keys of the rows, as results. -/
theorem keysApart_iff :
    KeysApart table rows ↔ (rows.map (rowStorageKey table)).Nodup ∧
      ∀ row ∈ rows, ∃ key, rowStorageKey table row = .ok key := by
  constructor
  · rintro ⟨keys, hnd, hkeys⟩
    refine ⟨?_, fun row hrow => ?_⟩
    · have heq : rows.map (rowStorageKey table) = keys.map Except.ok := by
        clear hnd
        induction hkeys with
        | nil => rfl
        | cons hk _ ih => simp [hk, ih]
      rw [heq]
      exact hnd.map fun a b hab => Except.ok.inj hab
    · obtain ⟨key, -, hkey⟩ := forall₂_exists_right hkeys hrow
      exact ⟨key, hkey⟩
  · rintro ⟨hnd, hall⟩
    induction rows with
    | nil => exact ⟨[], nodup_nil, .nil⟩
    | cons row rows ih =>
      simp only [map_cons, nodup_cons] at hnd
      obtain ⟨keys, hndk, hkeys⟩ := ih hnd.2 fun r hr => hall r (mem_cons_of_mem _ hr)
      obtain ⟨key, hkey⟩ := hall row mem_cons_self
      refine ⟨key :: keys, nodup_cons.mpr ⟨fun hin => ?_, hndk⟩, .cons hkey hkeys⟩
      obtain ⟨r, hr, hrk⟩ := forall₂_exists_right hkeys.flip hin
      exact hnd.1 (mem_map.mpr ⟨r, hr, by rw [hrk, hkey]⟩)

theorem KeysApart.perm (h : KeysApart table rows) (hp : rows.Perm more) : KeysApart table more := by
  rw [keysApart_iff] at h ⊢
  exact ⟨(hp.map _).nodup_iff.mp h.1, fun row hrow => h.2 row (hp.mem_iff.mpr hrow)⟩

theorem KeysApart.nodup (h : KeysApart table rows) :
    rows.Nodup := Nodup.of_map _ (keysApart_iff.mp h).1

theorem KeysApart.left (h : KeysApart table (rows ++ more)) : KeysApart table rows := by
  rw [keysApart_iff, map_append, nodup_append] at h
  exact keysApart_iff.mpr ⟨h.1.1, fun row hrow => h.2 row (mem_append_left _ hrow)⟩

theorem KeysApart.right (h : KeysApart table (rows ++ more)) : KeysApart table more := by
  rw [keysApart_iff, map_append, nodup_append] at h
  exact keysApart_iff.mpr ⟨h.1.2.1, fun row hrow => h.2 row (mem_append_right _ hrow)⟩

/-- Rows whose records fit together have different keys. -/
theorem keysApart_of_apart (hbuilt : ∀ row ∈ rows, ∃ own, rowRecords table row = .ok own)
    (hapart : Apart (recordAt table) rows) : KeysApart table rows := by
  induction rows with
  | nil => exact keysApart_iff.mpr ⟨nodup_nil, by simp⟩
  | cons row rows ih =>
    have hsplit : Apart (recordAt table) ([row] ++ rows) := hapart
    have hrest := ih (fun r hr => hbuilt r (mem_cons_of_mem _ hr)) hsplit.right
    obtain ⟨own, hown⟩ := hbuilt row mem_cons_self
    obtain ⟨key, -, -, hkey, -⟩ := rowRecords_eq_ok.mp hown
    rw [keysApart_iff] at hrest ⊢
    refine ⟨?_, ?_⟩
    · rw [map_cons, nodup_cons]
      refine ⟨fun hin => ?_, hrest.1⟩
      obtain ⟨r, hr, hrk⟩ := mem_map.mp hin
      rw [hkey] at hrk
      obtain ⟨own', hown'⟩ := hbuilt r (mem_cons_of_mem _ hr)
      have hone := hapart key
      have hpos : 0 < owners (recordAt table) rows key :=
        owners_pos.mpr ⟨r, hr, _, recordAt_own_key hrk hown'⟩
      rw [owners_cons] at hone
      simp only [recordAt_own_key hkey hown, Option.isSome_some, if_true] at hone
      omega
    · exact forall_mem_cons.mpr ⟨⟨key, hkey⟩, hrest.2⟩

/-- One more row under a free key. -/
theorem Keyed.insert (h : Keyed table rows map) {key : Bytes}
    (hkey : rowStorageKey table row = .ok key) (hfree : map[key]? = none) :
    Keyed table (rows ++ [row]) (map.insert key row) := by
  have hnew : ∀ r ∈ rows, rowStorageKey table r ≠ .ok key := by
    intro r hr hrk
    rw [(h.holds key r).mpr ⟨hr, hrk⟩] at hfree
    simp at hfree
  refine ⟨?_, fun k r => ?_⟩
  · have hold := keysApart_iff.mp h.apart
    rw [keysApart_iff, map_append, nodup_append]
    refine ⟨⟨hold.1, by simp, ?_⟩, ?_⟩
    · rintro a ha b hb rfl
      obtain ⟨r, hr, rfl⟩ := mem_map.mp ha
      simp only [map_cons, map_nil, mem_singleton, hkey] at hb
      exact hnew r hr hb
    · intro r hr
      rcases mem_append.mp hr with hr | hr
      · exact hold.2 r hr
      · rw [mem_singleton] at hr
        subst hr
        exact ⟨key, hkey⟩
  · rw [getElem?_insert_eq, mem_append, mem_singleton]
    by_cases hk : key = k
    · subst hk
      rw [if_pos rfl]
      constructor
      · intro heq
        cases heq
        exact ⟨.inr rfl, hkey⟩
      · rintro ⟨hr | rfl, hrk⟩
        · exact absurd hrk (hnew r hr)
        · rfl
    · rw [if_neg hk, h.holds]
      constructor
      · rintro ⟨hr, hrk⟩
        exact ⟨.inl hr, hrk⟩
      · rintro ⟨hr | rfl, hrk⟩
        · exact ⟨hr, hrk⟩
        · rw [hkey] at hrk
          exact absurd (Except.ok.inj hrk) hk

/-- The next row finds its key free exactly when the keys stay different. -/
theorem Keyed.free_iff (h : Keyed table rows map) {key : Bytes}
    (hkey : rowStorageKey table row = .ok key) :
    map[key]? = none ↔ KeysApart table (rows ++ [row]) := by
  constructor
  · exact fun hfree => (h.insert hkey hfree).apart
  · intro hapart
    rw [Option.eq_none_iff_forall_ne_some]
    intro r hr
    obtain ⟨hmem, hrk⟩ := (h.holds key r).mp hr
    have hnd := (keysApart_iff.mp hapart).1
    rw [map_append, nodup_append] at hnd
    exact hnd.2.2 _ (mem_map.mpr ⟨r, hmem, rfl⟩) (rowStorageKey table row) (by simp)
      (by rw [hrk, hkey])

theorem exists_keyed (h : KeysApart table rows) : ∃ map, Keyed table rows map := by
  induction rows using reverseRecOn with
  | nil => exact ⟨∅, h, by simp⟩
  | append_singleton rows row ih =>
    obtain ⟨map, hmap⟩ := ih h.left
    obtain ⟨key, hkey⟩ := h.key (show row ∈ rows ++ [row] by simp)
    exact ⟨_, hmap.insert hkey ((hmap.free_iff hkey).mpr h)⟩

/-- The rows that stay when the keys of the others are erased. -/
theorem Keyed.erase {out stay : List LiteRow} (h : Keyed table (out ++ stay) map)
    {removed : List Bytes}
    (hremoved : ∀ k, k ∈ removed ↔ ∃ row ∈ out, rowStorageKey table row = .ok k) :
    Keyed table stay (eraseAll map removed) := by
  refine ⟨h.apart.right, fun k row => ?_⟩
  rw [eraseAll_getElem?]
  have hsep : ∀ r ∈ out, ∀ s ∈ stay, rowStorageKey table r ≠ rowStorageKey table s := by
    have hnd := (keysApart_iff.mp h.apart).1
    rw [map_append, nodup_append] at hnd
    intro r hr s hs heq
    exact hnd.2.2 _ (mem_map.mpr ⟨r, hr, rfl⟩) _ (mem_map.mpr ⟨s, hs, rfl⟩) heq
  by_cases hk : k ∈ removed
  · rw [if_pos hk]
    obtain ⟨r, hr, hrk⟩ := (hremoved k).mp hk
    simp only [reduceCtorEq, false_iff, not_and]
    intro hrow hrowk
    exact hsep r hr row hrow (by rw [hrk, hrowk])
  · rw [if_neg hk, h.holds, mem_append]
    constructor
    · rintro ⟨hr | hr, hrk⟩
      · exact absurd ((hremoved k).mpr ⟨row, hr, hrk⟩) hk
      · exact ⟨hr, hrk⟩
    · rintro ⟨hr, hrk⟩
      exact ⟨.inr hr, hrk⟩

/-! ## The loops -/

/-- The first loop reads the rows of the image. -/
theorem originalRows_of_image {faults : Faults} {st : TableState}
    (h : RowsImage st.table rows st.records)
    (hscan : faults "scan lite rows for transaction commit" [] = none) :
    ∃ original, originalRows faults st = .ok original ∧ Keyed st.table rows original := by
  obtain ⟨read, hread, hall⟩ := h.reads
  have hok : (baseRecords st.records).mapM (fun record => do
      let row ← rowOfRecord record
      .ok (record.1, row)) = .ok ((baseRecords st.records).map fun r => (r.1, read r)) :=
    mapM_ok_of_forall fun r hr => by simp [(hread r hr).2.2]
  have hnames : (((baseRecords st.records).map fun r => (r.1, read r)).map Prod.fst).Nodup := by
    rw [map_map]
    exact baseRecords_keys_nodup st.records
  refine ⟨putAll ∅ ((baseRecords st.records).map fun r => (r.1, read r)), ?_,
    keysApart_of_apart (fun row hrow => (h.built row hrow).records) h.image.apart,
    fun k row => ?_⟩
  · unfold baseRecords at hok
    unfold originalRows
    rw [hok]
    simp only [ok_bind, bind_eq_ok, checkRocksError_eq_ok, exists_const]
    exact ⟨hscan, rfl⟩
  · rw [putAll_empty_eq_some hnames]
    constructor
    · intro hin
      obtain ⟨r, hr, heq⟩ := mem_map.mp hin
      cases heq
      exact ⟨(hread r hr).1, (hread r hr).2.1⟩
    · rintro ⟨hrow, hkey⟩
      obtain ⟨r, hr, rfl, rfl⟩ := hall row hrow k hkey
      exact mem_map.mpr ⟨r, hr, rfl⟩

/-- A row that the loops find under its key. -/
def Found (table : LiteTableDef) (rows : RowMap) (row : LiteRow) (key : Bytes) : Prop :=
  rowStorageKey table row = .ok key ∧ rows[key]?.map (·.value) = some row.value

theorem selectStored_eq_ok {original : RowMap} {changed : String}
    {rows : List (LiteRow × Option LiteRow)} {removed removed' : List Bytes} :
    selectStored table original changed rows removed = .ok removed' ↔
      Picks table (Found table original) rows removed removed' := by
  induction rows generalizing removed with
  | nil => simp [selectStored, picks_nil, eq_comm]
  | cons head rest ih =>
    obtain ⟨before, after⟩ := head
    simp only [selectStored, bind_eq_ok, guardOk_eq_ok, exists_const, ih, picks_cons]
    constructor
    · rintro ⟨key, hkey, hfound, hnew, extra, hextra, hrest⟩
      refine ⟨key, ⟨hkey, hfound⟩, hnew, ?_, hrest⟩
      rintro row rfl
      exact ⟨extra, hextra⟩
    · rintro ⟨key, ⟨hkey, hfound⟩, hnew, hafter, hrest⟩
      refine ⟨key, hkey, hfound, hnew, ?_⟩
      cases after with
      | none => exact ⟨[], rfl, hrest⟩
      | some row =>
        obtain ⟨extra, hextra⟩ := hafter row rfl
        exact ⟨extra, hextra, hrest⟩

/-- Rows that a map holds under their keys. -/
theorem Keyed.ext (h : Keyed table rows map) (h' : Keyed table rows map') : map = map' := by
  apply Std.ExtTreeMap.ext_getElem?
  intro k
  apply Option.ext
  intro row
  rw [h.holds, h'.holds]

theorem placeUpdated_eq_ok (h : Keyed table earlier map) :
    placeUpdated table rows map = .ok map' ↔
      KeysApart table (earlier ++ rows) ∧ Keyed table (earlier ++ rows) map' := by
  induction rows generalizing earlier map with
  | nil =>
    simp only [placeUpdated, Except.ok.injEq, append_nil]
    constructor
    · rintro rfl
      exact ⟨h.apart, h⟩
    · rintro ⟨-, h'⟩
      exact h.ext h'
  | cons row rows ih =>
    have hassoc : earlier ++ row :: rows = (earlier ++ [row]) ++ rows := by simp
    simp only [placeUpdated, bind_eq_ok, guardOk_eq_ok, exists_const, not_mem_iff_getElem?, hassoc]
    constructor
    · rintro ⟨key, hkey, hfree, hrest⟩
      exact (ih (h.insert hkey hfree)).mp hrest
    · rintro ⟨hapart, hfinal⟩
      obtain ⟨key, hkey⟩ := hapart.key (show row ∈ (earlier ++ [row]) ++ rows by simp)
      have hfree := (h.free_iff hkey).mpr hapart.left
      exact ⟨key, hkey, hfree, (ih (h.insert hkey hfree)).mpr ⟨hapart, hfinal⟩⟩

/-- Inserted rows are placed as updated ones are, after their row ids are checked. -/
theorem placeInserted_iff {advanced : Bool} {first expected : UInt64} :
    placeInserted table advanced first rows expected map = .ok map' ↔
      (rows ≠ [] → table.keyless = false ∨ table.nextRowId = first ∨ advanced = true) ∧
        (table.keyless = false ∨ contiguousFrom expected rows = true) ∧
        placeUpdated table rows map = .ok map' := by
  induction rows generalizing map expected with
  | nil => simp [placeInserted, placeUpdated, contiguousFrom]
  | cons row rows ih =>
    simp only [placeInserted, placeUpdated, bind_eq_ok, guardOk_eq_ok, exists_const, ih,
      contiguousFrom, Bool.and_eq_true, decide_eq_true_eq, ne_eq, reduceCtorEq, not_false_eq_true,
      true_implies]
    constructor
    · rintro ⟨hfirst, hid, key, hkey, hfree, -, hids, hrest⟩
      exact ⟨hfirst, by tauto, key, hkey, hfree, hrest⟩
    · rintro ⟨hfirst, hids, key, hkey, hfree, hrest⟩
      exact ⟨hfirst, hids.imp id And.left, key, hkey, hfree, fun _ => hfirst,
        hids.imp id And.right, hrest⟩

theorem placeInserted_eq_ok {advanced : Bool} {first expected : UInt64}
    (h : Keyed table earlier map) :
    placeInserted table advanced first rows expected map = .ok map' ↔
      (rows ≠ [] → table.keyless = false ∨ table.nextRowId = first ∨ advanced = true) ∧
        (table.keyless = false ∨ contiguousFrom expected rows = true) ∧
        KeysApart table (earlier ++ rows) ∧ Keyed table (earlier ++ rows) map' := by
  rw [placeInserted_iff, placeUpdated_eq_ok h]

/-- No record of other rows stands under the key of a row. -/
theorem key_free_of_apart {key : Bytes} {m : RecordMap}
    (himage : IsImage (recordAt table) rows (fun k => m[k]?))
    (hkey : rowStorageKey table row = .ok key) (hapart : KeysApart table (rows ++ [row])) :
    m[key]? = none := by
  rw [Option.eq_none_iff_forall_ne_some]
  intro v hv
  obtain ⟨owner, howner, hat⟩ := (himage.holds key v).mp hv
  obtain ⟨own, hown⟩ := hapart.left.key howner
  rcases recordAt_letter hown hat with ⟨rfl, -⟩ | hletter
  · have hnd := (keysApart_iff.mp hapart).1
    rw [map_append, nodup_append] at hnd
    exact hnd.2.2 _ (mem_map.mpr ⟨owner, howner, rfl⟩) (rowStorageKey table row) (by simp)
      (by rw [hown, hkey])
  · exact rowStorageKey_not_letter hkey hletter

/-- The order in which the records of a row are put does not matter. -/
theorem putAll_recordEntries {key : Bytes} {keys : List Bytes}
    {entries : List LitePhysicalIndexEntry} (hkey : rowStorageKey table row = .ok key)
    (hkeys : uniqueKeysOf table row.value.bytes = .ok keys)
    (hentries : buildSecondaryIndexEntries table row.value.bytes key = .ok entries)
    (hnd : ((recordEntries row.value key keys entries).map Prod.fst).Nodup) (m : RecordMap) :
    putAll m (recordEntries row.value key keys entries) =
      putAll m (ownRecords table row).toList := by
  apply Std.ExtTreeMap.ext_getElem?
  intro k
  rw [putAll_getElem? (m := m) k, putAll_getElem? (m := m) k]
  congr 1
  apply Option.ext
  intro v
  rw [putAll_empty_eq_some hnd, putAll_empty_eq_some (ownRecords_keys_nodup table row),
    ownRecords_toList, recordAt_eq_some hkey hkeys hentries hnd]

/-- The records of one more row fit exactly when they can be built and their keys are free. -/
theorem addRowRecords_image {key : Bytes} {m m' : RecordMap}
    {message : LitePhysicalIndexEntry → String}
    (himage : IsImage (recordAt table) rows (fun k => m[k]?))
    (hkey : rowStorageKey table row = .ok key) (hapart : KeysApart table (rows ++ [row])) :
    addRowRecords message table row.value key m = .ok m' ↔
      (∃ own, rowRecords table row = .ok own) ∧
        (∀ k, recordAt table row k ≠ none → m[k]? = none) ∧
        m' = putAll m (ownRecords table row).toList := by
  rw [addRowRecords_eq_ok (key_free_of_apart himage hkey hapart)]
  constructor
  · rintro ⟨keys, entries, hkeys, hentries, hnd, hfree, rfl⟩
    have hown := rowRecords_eq_ok.mpr ⟨key, keys, entries, hkey, hkeys, hentries, hnd, rfl⟩
    refine ⟨⟨_, hown⟩, fun k hk => ?_, ?_⟩
    · obtain ⟨v, hv⟩ := Option.ne_none_iff_exists'.mp hk
      rw [recordAt_eq_some hkey hkeys hentries hnd] at hv
      exact hfree k (mem_map.mpr ⟨_, hv, rfl⟩)
    · exact putAll_recordEntries hkey hkeys hentries hnd m
  · rintro ⟨⟨own, hown⟩, hfree, rfl⟩
    obtain ⟨key', keys, entries, hkey', hkeys, hentries, hnd, rfl⟩ := rowRecords_eq_ok.mp hown
    rw [hkey] at hkey'
    cases hkey'
    refine ⟨keys, entries, hkeys, hentries, hnd, fun k hk => ?_, ?_⟩
    · obtain ⟨e, he, rfl⟩ := mem_map.mp hk
      exact hfree e.1 (by rw [(recordAt_eq_some hkey hkeys hentries hnd).mpr he]; simp)
    · exact (putAll_recordEntries hkey hkeys hentries hnd m).symm

theorem addImageRows_eq_ok {pairs : List (Bytes × LiteRow)} {final final' : RecordMap}
    (himage : IsImage (recordAt table) earlier (fun k => final[k]?))
    (hkeys : ∀ p ∈ pairs, rowStorageKey table p.2 = .ok p.1)
    (hapart : KeysApart table (earlier ++ pairs.map Prod.snd)) :
    addImageRows table pairs final = .ok final' ↔
      (∀ p ∈ pairs, ∃ own, rowRecords table p.2 = .ok own) ∧
        Apart (recordAt table) (earlier ++ pairs.map Prod.snd) ∧
        IsImage (recordAt table) (earlier ++ pairs.map Prod.snd) (fun k => final'[k]?) := by
  induction pairs generalizing earlier final with
  | nil =>
    simp only [addImageRows, Except.ok.injEq, not_mem_nil, false_implies, implies_true,
      map_nil, append_nil, true_and]
    constructor
    · rintro rfl
      exact ⟨himage.apart, himage⟩
    · rintro ⟨-, h⟩
      apply Std.ExtTreeMap.ext_getElem?
      intro k
      exact congrFun (himage.unique h) k
  | cons p rest ih =>
    obtain ⟨key, row⟩ := p
    have hassoc : earlier ++ (((key, row) :: rest).map Prod.snd) =
        (earlier ++ [row]) ++ rest.map Prod.snd := by simp
    rw [hassoc] at hapart ⊢
    have hkey : rowStorageKey table row = .ok key := hkeys (key, row) mem_cons_self
    have hrest := fun p hp => hkeys p (mem_cons_of_mem _ hp)
    simp only [addImageRows, bind_eq_ok, addRowRecords_image himage hkey hapart.left,
      mem_cons, forall_eq_or_imp]
    constructor
    · rintro ⟨mid, ⟨hown, hfree, rfl⟩, htail⟩
      obtain ⟨hbuilt, hap, hfinal⟩ := (ih (isImage_put_row himage hfree) hrest hapart).mp htail
      exact ⟨⟨hown, hbuilt⟩, hap, hfinal⟩
    · rintro ⟨⟨hown, hbuilt⟩, hap, hfinal⟩
      have hfree := himage.apart_snoc.mp hap.left
      exact ⟨_, ⟨hown, hfree, rfl⟩,
        (ih (isImage_put_row himage hfree) hrest hapart).mpr ⟨hbuilt, hap, hfinal⟩⟩

end litestore
