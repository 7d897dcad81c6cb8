-- A lookup of one key in a transaction against its scan. The two agree on a key unless the
-- transaction vacated the key and another of its rows arrived there.
import LiteStore.TxnView

namespace litestore

open checked overlay PendingTable LiteTxnContext

/-! ## Keys of rows -/

/-- The key of a row; empty when it has none. -/
def keyOf (table : LiteTableDef) (row : LiteRow) : Bytes :=
  match rowStorageKey table row with
  | .ok key => key
  | .error _ => []

variable {row : LiteRow} {rows base : List LiteRow} {records : RecordMap} {table : LiteTableDef}

theorem keyOf_of_ok {key : Bytes} (h : rowStorageKey table row = .ok key) :
    keyOf table row = key := by
  unfold keyOf
  rw [h]

/-- A key that is not empty is the key of a row exactly when it can be built. -/
theorem keyOf_eq_iff {key : Bytes} (hne : key ≠ []) :
    keyOf table row = key ↔ rowStorageKey table row = .ok key := by
  unfold keyOf
  cases rowStorageKey table row with
  | ok k => simp
  | error e => simpa using Ne.symm hne

theorem rowStorageKey_keyed (hkeyed : table.keyless = false) (row : LiteRow) :
    rowStorageKey table row = liteBuildPrimaryKey table row.value.bytes := by
  simp [rowStorageKey, hkeyed]

/-- The rows of an image have different keys. -/
theorem RowsImage.keys_nodup (h : RowsImage table rows records) :
    (rows.map (keyOf table)).Nodup := by
  refine List.Nodup.map_on (fun r hr s hs hkey => ?_) h.nodup
  obtain ⟨rk, hrk⟩ := (h.built r hr).storageKey
  obtain ⟨sk, hsk⟩ := (h.built s hs).storageKey
  rw [keyOf_of_ok hrk, keyOf_of_ok hsk] at hkey
  subst hkey
  exact h.key_unique hr hs hrk hsk

/-- The staged changes fit the rows of the snapshot. -/
theorem Viewed.fits {p : PendingTable} (h : Viewed table base p)
    (himage : RowsImage table base records) :
    ∃ stay, Fits (keyOf table) base p.changes stay ∧
      (p.overlayRows base).Perm (stay ++ p.changes.incoming) := by
  obtain ⟨stay, hsplit⟩ := h.split
  refine ⟨stay, ⟨by rw [changes_outgoing]; exact hsplit, himage.keys_nodup⟩, ?_⟩
  rw [changes_incoming]
  exact overlayRows_perm hsplit

/-! ## The lookup, without its errors -/

section Lookup

variable {k : Bytes}

/-- A staged row whose keys can be built. -/
def HasKeys (table : LiteTableDef) (row : LiteRow) : Prop :=
  ∃ keys, rowWriteKeys table row = .ok keys

theorem HasKeys.key (h : HasKeys table row) : rowStorageKey table row = .ok (keyOf table row) := by
  obtain ⟨keys, hkeys⟩ := h
  simp only [rowWriteKeys, bind_eq_ok] at hkeys
  obtain ⟨key, hkey, -⟩ := hkeys
  rw [hkey, keyOf_of_ok hkey]

theorem pendingRowMatchesKey_eq (hkeyed : table.keyless = false) (hk : k.head? = some letterP)
    (h : HasKeys table row) : pendingRowMatchesKey table row k = .ok (keyOf table row = k) := by
  have hkey := h.key
  rw [rowStorageKey_keyed hkeyed] at hkey
  simp [pendingRowMatchesKey, hk, hkey]

theorem findPending_eq (hkeyed : table.keyless = false) (hk : k.head? = some letterP)
    (h : ∀ row ∈ rows, HasKeys table row) :
    findPending table k rows = .ok (rows.find? (keyOf table · = k)) := by
  induction rows with
  | nil => rfl
  | cons row rest ih =>
    have hrest := ih fun r hr => h r (List.mem_cons_of_mem _ hr)
    simp only [findPending, pendingRowMatchesKey_eq hkeyed hk (h row List.mem_cons_self), ok_bind,
      List.find?_cons, hrest]
    by_cases hrow : keyOf table row = k <;> simp [hrow]

/-- What the last update that touches a key says about it. -/
def updateAnswer (table : LiteTableDef) (k : Bytes) (u : LiteRow × LiteRow) : Option LiteRow :=
  if keyOf table u.2 = k then some u.2 else none

theorem findUpdate_eq {us : List LiteRowMutation} (hkeyed : table.keyless = false)
    (hk : k.head? = some letterP)
    (h : ∀ u ∈ us, HasKeys table u.before ∧ HasKeys table u.afterRow) :
    findUpdate table k us = .ok (((us.map fun u => (u.before, u.afterRow)).find?
      fun u => keyOf table u.2 = k || keyOf table u.1 = k).map (updateAnswer table k)) := by
  induction us with
  | nil => rfl
  | cons u rest ih =>
    have hrest := ih fun v hv => h v (List.mem_cons_of_mem _ hv)
    obtain ⟨hbefore, hafter⟩ := h u List.mem_cons_self
    simp only [findUpdate, pendingRowMatchesKey_eq hkeyed hk hafter,
      pendingRowMatchesKey_eq hkeyed hk hbefore, ok_bind, List.map_cons, List.find?_cons, hrest]
    by_cases ha : keyOf table u.afterRow = k
    · simp [ha, updateAnswer]
    · by_cases hb : keyOf table u.before = k
      · simp [ha, hb, updateAnswer]
      · simp [ha, hb]

/-- The staged answer followed by the snapshot is the lookup of the library. -/
theorem answer_eq {p : PendingTable} (base : Option LiteRow) (htable : p.table = table)
    (hkeyed : table.keyless = false) (hk : k.head? = some letterP)
    (h : ∀ row ∈ p.outgoing ++ p.incoming, HasKeys table row) :
    ∃ answer, p.answer k = .ok answer ∧
      answer.getD base = lookup (keyOf table) p.changes base k := by
  obtain ⟨hups, hdels, hins⟩ := forall_staged.mp h
  have hlast : ((p.updates.reverse.map fun u => (u.before, u.afterRow)).find?
      fun u => keyOf table u.2 = k || keyOf table u.1 = k) =
      lastTouch (keyOf table) p.changes.updates k := by
    simp only [lastTouch, changes, List.map_reverse]
  simp only [answer, htable, findPending_eq hkeyed hk hdels, ok_bind,
    findUpdate_eq hkeyed hk fun u hu => hups u (List.mem_reverse.mp hu), hlast, findPending_eq hkeyed hk hins]
  unfold lookup
  by_cases hd : p.deletes.any (keyOf table · = k) = true
  · have hfound : (p.deletes.find? (keyOf table · = k)).isSome = true := by
      simpa [List.find?_isSome] using hd
    exact ⟨some none, by rw [if_pos hfound], by simp [changes, hd]⟩
  · have hfound : ¬ (p.deletes.find? (keyOf table · = k)).isSome = true := by
      simpa [List.find?_isSome] using hd
    rw [if_neg hfound]
    have hnot : ¬ p.changes.deletes.any (keyOf table · = k) = true := hd
    rw [if_neg hnot]
    cases lastTouch (keyOf table) p.changes.updates k with
    | some u => exact ⟨some (updateAnswer table k u), rfl, rfl⟩
    | none =>
      cases hf : p.rows.find? (keyOf table · = k) with
      | some row => exact ⟨some (some row), by simp, by simp [changes, hf]⟩
      | none => exact ⟨none, by simp, by simp [changes, hf]⟩

end Lookup

/-- The snapshot gives, for a primary key, the row that has it. -/
theorem RowsImage.storedRowByKey (h : RowsImage table rows records)
    (hkeyed : table.keyless = false) {k : Bytes} (hk : k.head? = some letterP) :
    ∃ found, litestore.storedRowByKey records k = .ok found ∧
      ∀ row, found = some row ↔ row ∈ rows ∧ keyOf table row = k := by
  have hne : k ≠ [] := by
    rintro rfl
    simp at hk
  have hbase : isBaseKey k = true := by
    cases k with
    | nil => rfl
    | cons b rest =>
      simp only [List.head?_cons, Option.some.injEq] at hk
      subst hk
      rfl
  unfold litestore.storedRowByKey getRowByKeyAtSnapshot
  cases hget : records[k]? with
  | none =>
    refine ⟨none, rfl, fun row => ⟨fun hrow => by simp at hrow, fun hrow => ?_⟩⟩
    rw [h.stored hrow.1 ((keyOf_eq_iff hne).mp hrow.2)] at hget
    simp at hget
  | some v =>
    obtain ⟨row, hrow, hkey, rfl⟩ := h.row_of_base hbase hget
    have hlen : k.length ≠ 8 := by
      rcases rowStorageKey_shape hkey with ⟨hless, -⟩ | ⟨-, -, hlen, -⟩
      · rw [hkeyed] at hless
        simp at hless
      · omega
    have hrowEq : (⟨if k.length = 8 then readUint64 k else 0, row.value⟩ : LiteRow) = row := by
      rw [if_neg hlen, ← (h.built row hrow).numbered hkeyed]
    refine ⟨some row, by simp only [decodeRowValue_encodeRowValue, hrowEq], fun r => ?_⟩
    rw [Option.some.injEq]
    constructor
    · rintro rfl
      exact ⟨hrow, keyOf_of_ok hkey⟩
    · rintro ⟨hr, hrk⟩
      exact h.key_unique hrow hr hkey ((keyOf_eq_iff hne).mp hrk)

/-- What a lookup of a primary key finds in a transaction. -/
theorem findRow_eq {t : TxnTable} (hkeyed : t.table.keyless = false)
    (himage : RowsImage t.table base t.snapshot) (hview : Viewed t.table base t.pendingD)
    {k : Bytes} (hk : k.head? = some letterP) :
    ∃ stored, (∀ row, stored = some row ↔ row ∈ base ∧ keyOf t.table row = k) ∧
      t.findRow k = .ok (lookup (keyOf t.table) t.pendingD.changes stored k) := by
  obtain ⟨stored, hstored, hrows⟩ := himage.storedRowByKey hkeyed hk
  refine ⟨stored, hrows, ?_⟩
  obtain ⟨answer, hanswer, hlookup⟩ :=
    answer_eq stored hview.loaded hkeyed hk hview.keys
  rw [← hlookup]
  unfold TxnTable.findRow
  cases hp : t.pending with
  | none =>
    have hload : t.pendingD = loadPending t.table := by simp [TxnTable.pendingD, hp]
    have hnone : t.pendingD.answer k = .ok none := by
      rw [hload]
      rfl
    rw [hanswer, Except.ok.injEq] at hnone
    simp [hnone, hstored]
  | some p =>
    have hpd : t.pendingD = p := by simp [TxnTable.pendingD, hp]
    rw [hpd] at hanswer
    simp only [hanswer, ok_bind]
    cases answer with
    | none => exact hstored
    | some found => rfl

/-! ## Runs that name visible rows -/

/-- A scan of the transaction shows the row. -/
def Shown (records : RecordMap) (p : PendingTable) (row : LiteRow) : Prop :=
  match storedRows records with
  | .ok base => VisibleRow base p row
  | .error _ => False

instance (records : RecordMap) (p : PendingTable) (row : LiteRow) :
    Decidable (Shown records p row) :=
  match h : storedRows records with
  | .ok base => decidable_of_iff (row ∈ p.overlayRows base) (by simp [Shown, h, VisibleRow])
  | .error _ => .isFalse (by simp [Shown, h])

theorem shown_iff (h : storedRows records = .ok base) (p : PendingTable) (row : LiteRow) :
    Shown records p row ↔ VisibleRow base p row := by
  simp [Shown, h]

/-- A lookup finds only rows that a scan shows. -/
theorem lookup_shown (hkeyed : table.keyless = false) (hscan : storedRows records = .ok base)
    (himage : RowsImage table base records) :
    LookupNames (Shown records) (Viewed table base) table records := by
  intro t htable hsnapshot hview row key found hkey hfound
  subst htable
  subst hsnapshot
  have hhead := (liteBuildPrimaryKey_shape hkey).1
  obtain ⟨stored, hstored, hfind⟩ := findRow_eq hkeyed himage hview hhead
  obtain ⟨stay, hfits, hperm⟩ := hview.fits himage
  rw [hfind, Except.ok.injEq] at hfound
  have hmem := (hfits.lookup_mem hstored hfound).1
  exact (shown_iff hscan _ _).mpr (hperm.mem_iff.mpr hmem)

/-- After a run that names visible rows, the rows that leave are rows of the snapshot. -/
theorem run_viewed {st : TableState} {calls : List TxnCall} {t : TxnTable} {u : Unit}
    (himage : TableImage st.table st.records) (hkeyed : st.table.keyless = false)
    (hrun : runCalls (.ok st.table) calls (beginTable st) = .ok u t)
    (hnamed : RunNames (Shown st.records) (beginTable st) calls) :
    t.table = st.table ∧ ∃ base, storedRows t.snapshot = .ok base ∧
      RowsImage t.table base t.snapshot ∧ Viewed t.table base t.pendingD := by
  obtain ⟨base, hscan, himage⟩ := himage.scanned
  have hstep : ∀ {p q : PendingTable} {event : StageEvent}, Viewed st.table base p →
      (∀ row ∈ event.named, Shown st.records p row) → p.stage event = .ok q →
      Viewed st.table base q := fun hp hnames hstage =>
    hp.stage (fun row hrow => (shown_iff hscan _ _).mp (hnames row hrow)) hstage
  obtain ⟨hview, htable, hsnapshot⟩ := runCalls_invariant (t := beginTable st) hstep
    (lookup_shown hkeyed hscan himage) (viewed_load st.table base) hnamed hrun
  rw [htable, hsnapshot]
  exact ⟨rfl, base, hscan, himage, hview⟩

/-! ## The lookup against the scan -/

/-- The lookup found a row exactly when the scan shows one with the key, and it found the
value of such a row. -/
def PointAgrees (table : LiteTableDef) (k : Bytes) (rows : List LiteRow)
    (found : Option LiteRow) : Prop :=
  (found.isSome = true ↔ ∃ row ∈ rows, liteBuildPrimaryKey table row.value.bytes = .ok k) ∧
    ∀ row, found = some row → ∃ shown ∈ rows,
      liteBuildPrimaryKey table shown.value.bytes = .ok k ∧ shown.value = row.value

/-- After any run of calls that name visible rows, the lookup of a primary key agrees with
the scan unless a staged change vacated the key and another staged row arrived there. -/
theorem point_read_agrees_iff {st : TableState} {calls : List TxnCall} {t : TxnTable} {k : Bytes}
    (himage : TableImage st.table st.records) (hkeyed : st.table.keyless = false)
    (hrun : runCalls (.ok st.table) calls (beginTable st) = .ok () t)
    (hnamed : RunNames (Shown st.records) (beginTable st) calls)
    (hk : k.head? = some letterP) :
    ∃ rows found t₁ t₂, scanRows t = .ok rows t₁ ∧
      getRowByKey k t = .ok found t₂ ∧
      (PointAgrees st.table k rows found ↔
        ¬ (Vacated (keyOf st.table) t.pendingD.changes k ∧
          Reoccupied (keyOf st.table) t.pendingD.changes k)) := by
  obtain ⟨htable, base, hscan, hbase, hview⟩ := run_viewed himage hkeyed hrun hnamed
  rw [← htable] at hkeyed ⊢
  obtain ⟨stored, hstored, hfind⟩ := findRow_eq hkeyed hbase hview hk
  obtain ⟨stay, hfits, hperm⟩ := hview.fits hbase
  obtain ⟨t₁, hrows⟩ := scanRows_visible hscan
  refine ⟨_, _, t₁, _, hrows, getRowByKey_eq_ok.mpr ⟨hfind, rfl⟩, ?_⟩
  have hkeys : ∀ row, liteBuildPrimaryKey t.table row.value.bytes = .ok k ↔
      keyOf t.table row = k := fun row => by
    rw [← rowStorageKey_keyed hkeyed, keyOf_eq_iff]
    rintro rfl
    simp at hk
  rw [← hfits.lookup_agrees_iff hstored]
  unfold PointAgrees
  simp only [hkeys, hperm.mem_iff]
  constructor
  · exact fun h => h.1
  · intro h
    refine ⟨h, fun row hrow => ?_⟩
    exact ⟨row, (hfits.lookup_mem hstored hrow).1, (hfits.lookup_mem hstored hrow).2, rfl⟩

/-- The small transaction moved the row away from its key. -/
theorem small_point_read_agrees_iff :
    ∃ rows found t₁ t₂, scanRows smallTxn = .ok rows t₁ ∧
      getRowByKey (keyOf smallTable ⟨0, smallRow 1 1⟩) smallTxn = .ok found t₂ ∧
      (PointAgrees smallTable (keyOf smallTable ⟨0, smallRow 1 1⟩) rows found ↔
        ¬ (Vacated (keyOf smallTable) smallTxn.pendingD.changes
            (keyOf smallTable ⟨0, smallRow 1 1⟩) ∧
          Reoccupied (keyOf smallTable) smallTxn.pendingD.changes
            (keyOf smallTable ⟨0, smallRow 1 1⟩))) :=
  point_read_agrees_iff smallStored_image rfl smallTxn_run (by decide +kernel) (by decide +kernel)

/-- A row is deleted and a row with the same key is inserted: the scan shows the new row,
and the lookup of its key finds nothing. -/
theorem lookup_misses_a_reinserted_row :
    ∃ t t₁ t₂, TableImage (smallStored [(1, 1)]).table (smallStored [(1, 1)]).records ∧
      RunNames (Shown (smallStored [(1, 1)]).records) (beginTable (smallStored [(1, 1)]))
        [.deleteRows [⟨0, smallRow 1 1⟩], .insertRow (smallRow 1 2)] ∧
      runCalls (.ok smallTable) [.deleteRows [⟨0, smallRow 1 1⟩], .insertRow (smallRow 1 2)]
        (beginTable (smallStored [(1, 1)])) = .ok () t ∧
      scanRows t = .ok [⟨1, smallRow 1 2⟩] t₁ ∧
      getRowByKey (keyOf smallTable ⟨1, smallRow 1 2⟩) t = .ok none t₂ ∧
      liteBuildPrimaryKey smallTable (smallRow 1 2).bytes =
        .ok (keyOf smallTable ⟨1, smallRow 1 2⟩) :=
  ⟨_, _, _, smallStored_image, by decide +kernel, stateful.eq_ok_of_valueOf (by decide +kernel),
    stateful.eq_ok_of_valueOf (by decide +kernel), stateful.eq_ok_of_valueOf (by decide +kernel),
    by decide +kernel⟩

end litestore
