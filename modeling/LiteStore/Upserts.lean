-- The upsert of a transaction: it looks its key up and updates the row it finds, or
-- inserts. So it keeps one row for the key exactly when the lookup sees what the scan
-- shows.
import LiteStore.PointReads
import LiteStore.CommitAgreement

namespace litestore

open checked overlay rowimage List LiteTxn LiteTxnContext
open stateful hiding bind_eq_ok

/-! ## Changes that fit the snapshot -/

/-- The rows that the staged updates and deletes take out are rows of the snapshot, and none is
taken out twice. -/
def StagedFits (st : TableState) (p : PendingTable) : Prop :=
  ∃ base stay, storedRows st.records = .ok base ∧ base.Perm (p.outgoing ++ stay)

variable {st : TableState} {t : TxnTable} {k : Bytes}

/-- The keys of every staged row can be built, whatever the calls name. -/
theorem run_keys {calls : List TxnCall} {u : Unit}
    (h : runCalls (.ok st.table) calls (beginTable st) = .ok u t) :
    t.pendingD.table = st.table ∧
      ∀ row ∈ t.pendingD.outgoing ++ t.pendingD.incoming, HasKeys st.table row := by
  have hstep : ∀ {p q : PendingTable} {event : StageEvent},
      (p.table = st.table ∧ ∀ row ∈ p.outgoing ++ p.incoming, HasKeys st.table row) →
      (∀ row ∈ event.named, True) → p.stage event = .ok q →
      q.table = st.table ∧ ∀ row ∈ q.outgoing ++ q.incoming, HasKeys st.table row := by
    intro p q event hp _ hstage
    obtain ⟨htable, hshift, hkeys⟩ := stage_shift hstage
    refine ⟨htable.trans hp.1, fun row hrow => ?_⟩
    rcases hshift.mem hrow with hold | hnew
    · exact hp.2 row hold
    · rw [← hp.1]
      exact hkeys row hnew
  have hload := viewed_load st.table []
  have hnames : RunNames (fun _ _ => True) (beginTable st) calls :=
    runNames_of_forall (fun _ _ => trivial) _ _
  exact (runCalls_invariant (t := beginTable st) hstep (fun _ _ _ _ _ _ _ _ _ => trivial)
    ⟨rfl, hload.keys⟩ hnames h).1

/-! ## Keys that rows claim -/

/-- No two rows claim one key, and no row claims a key twice. -/
def NoUniqueViolation (table : LiteTableDef) (rows : List LiteRow) : Prop :=
  ∃ keys, rows.mapM (rowWriteKeys table) = .ok keys ∧ keys.flatten.Nodup

variable {table : LiteTableDef}

theorem rowRecords_of_keys {row : LiteRow} {keys : List Bytes}
    (h : rowWriteKeys table row = .ok keys) (hnodup : keys.Nodup) :
    ∃ own, rowRecords table row = .ok own := by
  simp only [rowWriteKeys, bind_eq_ok, Except.ok.injEq] at h
  obtain ⟨key, hkey, unique, hunique, entries, hentries, rfl⟩ := h
  refine ⟨_, rowRecords_eq_ok.mpr ⟨key, unique, entries, hkey, hunique, hentries, ?_, rfl⟩⟩
  rw [recordEntries_names]
  exact hnodup

theorem mem_keys_of_recordAt {row : LiteRow} {keys : List Bytes} {v : Bytes}
    (h : rowWriteKeys table row = .ok keys) (hrecord : recordAt table row k = some v) :
    k ∈ keys := by
  cases hown : rowRecords table row with
  | error e => simp [recordAt, ownRecords, hown] at hrecord
  | ok own =>
    obtain ⟨key, unique, entries, hkey, hunique, hentries, hnodup, -⟩ := rowRecords_eq_ok.mp hown
    simp only [rowWriteKeys, hkey, hunique, hentries, ok_bind, Except.ok.injEq] at h
    have hmem := (recordAt_eq_some hkey hunique hentries hnodup).mp hrecord
    have hfst := mem_map_of_mem (f := Prod.fst) hmem
    rw [recordEntries_names] at hfst
    rwa [← h]

/-- Rows with different keys have records of their own. -/
theorem apart_of_noUniqueViolation {rows : List LiteRow} (h : NoUniqueViolation table rows) :
    Apart (recordAt table) rows ∧ ∀ row ∈ rows, ∃ own, rowRecords table row = .ok own := by
  obtain ⟨keys, hkeys, hnodup⟩ := h
  rw [mapM_eq_ok] at hkeys
  have hmember : ∀ {rows : List LiteRow} {keys : List (List Bytes)},
      Forall₂ (fun row ks => rowWriteKeys table row = .ok ks) rows keys →
      ∀ {k v : Bytes}, ∀ row ∈ rows, recordAt table row k = some v → k ∈ keys.flatten := by
    intro rows keys hall
    induction hall with
    | nil => simp
    | @cons row ks rows keys hrow _ ih =>
      intro k v r hr hrecord
      rw [flatten_cons, mem_append]
      rcases mem_cons.mp hr with rfl | hr
      · exact .inl (mem_keys_of_recordAt hrow hrecord)
      · exact .inr (ih r hr hrecord)
  induction hkeys with
  | nil => exact ⟨fun k => by simp, by simp⟩
  | @cons row ks rows keys hrow hall ih =>
    have hparts := hnodup
    rw [flatten_cons, nodup_append] at hparts
    obtain ⟨hapart, hown⟩ := ih hparts.2.1
    constructor
    · intro k
      rw [owners_cons]
      split
      · rename_i hsome
        obtain ⟨v, hv⟩ := Option.isSome_iff_exists.mp hsome
        have hk := mem_keys_of_recordAt hrow hv
        have hzero : owners (recordAt table) rows k = 0 := by
          rw [owners_zero]
          intro r hr
          rw [Option.eq_none_iff_forall_ne_some]
          intro w hw
          exact hparts.2.2 k hk k (hmember hall r hr hw) rfl
        omega
      · exact hapart k
    · exact forall_mem_cons.mpr ⟨rowRecords_of_keys hrow hparts.1, hown⟩

/-- The rows that leave are stored under keys of their own. -/
theorem storedApart_of_split {base out stay : List LiteRow}
    (hbase : RowsImage st.table base st.records) (hsplit : base.Perm (out ++ stay)) :
    StoredApart st out := by
  have hkey : ∀ row ∈ out, rowStorageKey st.table row = .ok (keyOf st.table row) := by
    intro row hrow
    have hmem := hsplit.mem_iff.mpr (mem_append_left _ hrow)
    obtain ⟨key, hkey⟩ := (hbase.built row hmem).storageKey
    rw [keyOf_of_ok hkey]
    exact hkey
  refine ⟨out.map (keyOf st.table), ?_, ?_⟩
  · have hnodup := (hsplit.map (keyOf st.table)).nodup_iff.mp hbase.keys_nodup
    rw [map_append] at hnodup
    exact hnodup.of_append_left
  · rw [forall₂_map_right_iff, forall₂_same]
    intro row hrow
    refine ⟨hkey row hrow, ?_⟩
    exact hbase.stored (hsplit.mem_iff.mpr (mem_append_left _ hrow)) (hkey row hrow)

/-- A transaction that runs alone commits when the rows it shows claim no key twice. -/
theorem commits_of_noUniqueViolation {base : List LiteRow}
    (hbase : RowsImage st.table base st.records) (hkeyed : st.table.keyless = false)
    (hview : Viewed st.table base t.pendingD)
    (hno : NoUniqueViolation st.table (t.pendingD.overlayRows base)) :
    ∃ after, commitStaged noFaults false st t = .ok after := by
  obtain ⟨stay, hsplit⟩ := hview.split
  obtain ⟨hapart, hown⟩ := apart_of_noUniqueViolation hno
  have hperm := overlayRows_perm hsplit
  unfold commitStaged
  cases hp : t.pending with
  | none => exact ⟨st, rfl⟩
  | some p =>
    have hpd : t.pendingD = p := by simp [TxnTable.pendingD, hp]
    rw [hpd] at hsplit hperm hapart hown hview
    have haccepts : ∃ batch, appendPendingMutationsAtomic noFaults false st p.table p.mutations =
        .ok batch := by
      cases hne : p.mutations.isEmpty with
      | true => exact ⟨{}, by simp [appendPendingMutationsAtomic, hne]⟩
      | false =>
        have hsame := map_normalRow_of_built fun row hrow =>
          hbase.built row (hsplit.mem_iff.mpr (mem_append_left _ hrow))
        have hids : checkRowIds st.table p.mutations.inserts = .ok () := by
          unfold checkRowIds
          split
          · rfl
          · simp [hkeyed]
        refine (append_ok_iff hne).mpr ⟨⟨rfl, by rw [hview.loaded]⟩, rfl,
          (deltaAccepted_iff hbase).mpr ⟨⟨storedApart_of_split hbase hsplit, ?_, stay, ?_, ?_⟩,
            hids⟩⟩
        · intro row hrow
          exact hown row (hperm.mem_iff.mpr (mem_append_right _ hrow))
        · show base.Perm (p.outgoing.map (normalRow st.table) ++ stay)
          rw [hsame]
          exact hsplit
        · exact hapart.perm hperm
    obtain ⟨batch, hbatch⟩ := haccepts
    exact ⟨st.applyBatch batch, by simp [hbatch]⟩

/-! ## The law -/

/-- What an upsert leaves: one row with its key, which has the given value, and all other rows as
they were. The transaction can be committed unless its rows claim a key twice. -/
structure UpsertLaw (st : TableState) (row : Row) (k : Bytes) (seen seen' : List LiteRow)
    (t' : TxnTable) : Prop where
  one : ∃ shown, seen'.filter (fun r => keyOf st.table r = k) = [shown] ∧ shown.value = row
  others : (seen'.filter fun r => keyOf st.table r ≠ k).Perm
    (seen.filter fun r => keyOf st.table r ≠ k)
  commits : NoUniqueViolation st.table seen' → ∃ after, commitStaged noFaults false st t' = .ok after

/-- A list that a row with a key came to, where a row with the key may have left. -/
theorem filter_replaced {key : LiteRow → Bytes} (gone : Option LiteRow) {new : LiteRow}
    {seen seen' : List LiteRow} (hperm : (gone.toList ++ seen').Perm (new :: seen))
    (hnew : key new = k) (hgone : ∀ r ∈ gone, r ∈ seen ∧ key r = k) :
    ((∃ shown, seen'.filter (fun r => key r = k) = [shown] ∧ shown.value = new.value) ↔
        (seen.filter fun r => key r = k).length ≤ gone.toList.length) ∧
      (seen'.filter fun r => key r ≠ k).Perm (seen.filter fun r => key r ≠ k) := by
  have hkey := hperm.filter fun r => decide (key r = k)
  have hother := hperm.filter fun r => decide (key r ≠ k)
  have hmine : gone.toList.filter (fun r => key r = k) = gone.toList :=
    filter_eq_self.mpr (by simpa using fun r hr => (hgone r hr).2)
  have hnone : gone.toList.filter (fun r => key r ≠ k) = [] :=
    filter_eq_nil_iff.mpr (by simpa using fun r hr => (hgone r hr).2)
  rw [filter_append, hmine, filter_cons_of_pos (by simpa using hnew)] at hkey
  rw [filter_append, hnone, filter_cons_of_neg (by simpa using hnew)] at hother
  refine ⟨⟨?_, fun hle => ?_⟩, hother⟩
  · rintro ⟨shown, hshown, -⟩
    have hlen := hkey.length_eq
    rw [hshown, length_append, length_singleton, length_cons] at hlen
    omega
  · cases gone with
    | none =>
      rw [length_eq_zero_iff.mp (Nat.le_zero.mp hle)] at hkey
      exact ⟨new, perm_singleton.mp hkey, rfl⟩
    | some r =>
      have hin : r ∈ seen.filter fun r => decide (key r = k) := by simp [hgone r rfl]
      obtain ⟨only, honly⟩ := length_eq_one_iff.mp
        (Nat.le_antisymm hle (length_pos_of_mem hin))
      rw [honly] at hin hkey
      obtain rfl := mem_singleton.mp hin
      have hsingle := (hkey.trans (Perm.swap _ _ _)).cons_inv
      exact ⟨new, perm_singleton.mp hsingle, rfl⟩

/-- The key of a row that is given no row id yet. -/
def upsertKey (table : LiteTableDef) (row : Row) : Bytes := keyOf table ⟨0, row⟩

theorem keyOf_upsert (hkeyed : table.keyless = false) (rowId : UInt64) (row : Row) :
    keyOf table ⟨rowId, row⟩ = upsertKey table row := by
  unfold upsertKey keyOf
  rw [rowStorageKey_keyed hkeyed, rowStorageKey_keyed hkeyed]

/-- What an upsert stages for a row that the lookup found. -/
def upsertEvent (row : Row) : Option LiteRow → StageEvent
  | none => .insert row
  | some existing => .update ⟨existing, row⟩

/-- A successful upsert is one stage: an update of what the lookup finds, or an insert. -/
theorem upsertRow_stage {t' : TxnTable} {row : Row} {rowId : UInt64}
    (hkeyed : t.table.keyless = false) (h : upsertRow (.ok t.table) row t = .ok rowId t') :
    ∃ found, (upsertKey t.table row).head? = some letterP ∧
      t.findRow (upsertKey t.table row) = .ok found ∧ t'.snapshot = t.snapshot ∧
      t.pendingD.stage (upsertEvent row found) = .ok t'.pendingD := by
  have hstaged := upsertRow_staged h
  simp only [upsertRow, stateful.bind_eq_ok, get_eq_ok, lift_eq_ok, getRowByKey_eq_ok] at h
  obtain ⟨_, _, ⟨rfl, rfl⟩, _, _, ⟨-, rfl⟩, key, _, ⟨hkey, rfl⟩, found, _, ⟨hfound, rfl⟩, -⟩ := h
  have hsame : upsertKey t.table row = key := by
    apply keyOf_of_ok
    rw [rowStorageKey_keyed hkeyed]
    exact hkey
  rw [hsame]
  have hevents := hstaged.staged
  simp only [TxnCall.events, hkey, hfound] at hevents
  refine ⟨found, (liteBuildPrimaryKey_shape hkey).1, hfound, hstaged.snapshot, ?_⟩
  have hone : stageAll t.pendingD [upsertEvent row found] = .ok t'.pendingD := by
    cases found <;> exact hevents
  simp only [stageAll, bind_eq_ok, Except.ok.injEq] at hone
  obtain ⟨q, hq, rfl⟩ := hone
  exact hq

/-- After any run, an upsert keeps its law exactly when at most one row with its key was shown
before, and the transaction did not vacate the key and bring another row to it. The rows that
the transaction takes out are rows of its snapshot. -/
theorem upsert_law_iff {st : TableState} {calls : List TxnCall} {t t' : TxnTable} {row : Row}
    {rowId : UInt64} (himage : TableImage st.table st.records) (hkeyed : st.table.keyless = false)
    (hrun : runCalls (.ok st.table) calls (beginTable st) = .ok () t)
    (hfits : StagedFits st t.pendingD)
    (hupsert : upsertRow (.ok st.table) row t = .ok rowId t') :
    ∃ seen seen' t₁ t₂, scanRows t = .ok seen t₁ ∧
      scanRows t' = .ok seen' t₂ ∧
      (UpsertLaw st row (upsertKey st.table row) seen seen' t' ↔
        (seen.filter fun r => keyOf st.table r = upsertKey st.table row).length ≤ 1 ∧
          ¬ (Vacated (keyOf st.table) t.pendingD.changes (upsertKey st.table row) ∧
            Reoccupied (keyOf st.table) t.pendingD.changes (upsertKey st.table row))) := by
  obtain ⟨base, hscan, hbase⟩ := himage.scanned
  obtain ⟨-, htable, hsnapshot⟩ := runCalls_table hrun
  obtain ⟨hloaded, hkeys⟩ := run_keys hrun
  obtain ⟨base', stay, hscan', hsplit⟩ := hfits
  obtain rfl : base = base' := Except.ok.inj (hscan.symm.trans hscan')
  have hview : Viewed st.table base t.pendingD := ⟨hloaded, ⟨stay, hsplit⟩, hkeys⟩
  rw [← htable] at hupsert
  obtain ⟨found, hhead, hfound, hsnapshot', hstage⟩ :=
    upsertRow_stage (by rw [htable]; exact hkeyed) hupsert
  rw [htable] at hhead hfound
  -- The lookup, as the library sees it.
  obtain ⟨stored, hstored, hfind⟩ := findRow_eq (t := t) (by rw [htable]; exact hkeyed)
    (by rw [htable, hsnapshot]; exact hbase) (by rw [htable]; exact hview) hhead
  rw [htable] at hstored hfind
  obtain ⟨stay', hfitsBase, hperm⟩ := hview.fits hbase
  have hagrees := hfitsBase.lookup_agrees_iff hstored
  rw [hfound, Except.ok.injEq] at hfind
  rw [← hfind] at hagrees
  simp only [← hperm.mem_iff] at hagrees
  have hvisible : ∀ r ∈ (upsertEvent row found).named, VisibleRow base t.pendingD r ∧
      keyOf st.table r = upsertKey st.table row := by
    intro r hr
    cases found with
    | none => simp [upsertEvent, StageEvent.named] at hr
    | some existing =>
      simp only [upsertEvent, StageEvent.named, Option.mem_def, Option.some.injEq] at hr
      subst hr
      obtain ⟨hmem, hkey⟩ := hfitsBase.lookup_mem hstored hfind.symm
      exact ⟨hperm.mem_iff.mpr hmem, hkey⟩
  have hview' := hview.stage (fun r hr => (hvisible r hr).1) hstage
  have hshown := stage_visible hview (fun r hr => (hvisible r hr).1) hstage
  obtain ⟨t₁, hseen⟩ := scanRows_visible (t := t) (by rw [hsnapshot]; exact hscan)
  obtain ⟨t₂, hseen'⟩ := scanRows_visible (t := t') (by rw [hsnapshot', hsnapshot]; exact hscan)
  refine ⟨_, _, t₁, t₂, hseen, hseen', ?_⟩
  have hcommits := commits_of_noUniqueViolation hbase hkeyed hview'
  rw [← hagrees]
  cases found with
  | none =>
    obtain ⟨hone, hothers⟩ := filter_replaced none hshown
      (keyOf_upsert hkeyed t.pendingD.nextRowId row) hvisible
    constructor
    · intro hlaw
      have hnone := hone.mp hlaw.one
      exact ⟨Nat.le_succ_of_le hnone, by simpa using hnone⟩
    · rintro ⟨-, hnone⟩
      exact ⟨hone.mpr (by simpa using hnone), hothers, hcommits⟩
  | some existing =>
    obtain ⟨hmem, hkey⟩ := hvisible existing rfl
    obtain ⟨hone, hothers⟩ := filter_replaced (some existing) hshown
      (keyOf_upsert hkeyed existing.rowId row) hvisible
    constructor
    · intro hlaw
      exact ⟨hone.mp hlaw.one, by simpa using ⟨existing, hmem, hkey⟩⟩
    · rintro ⟨hcount, -⟩
      exact ⟨hone.mpr hcount, hothers, hcommits⟩

/-- The small transaction with one more upsert. -/
def smallUpserted : TxnTable :=
  stateful.stateOf (upsertRow (.ok smallTable) (smallRow 2 9) smallTxn)

theorem small_upsert_law_iff :
    ∃ seen seen' t₁ t₂, scanRows smallTxn = .ok seen t₁ ∧
      scanRows smallUpserted = .ok seen' t₂ ∧
      (UpsertLaw (smallStored [(1, 1)]) (smallRow 2 9) (upsertKey smallTable (smallRow 2 9)) seen
          seen' smallUpserted ↔
        (seen.filter fun r => keyOf smallTable r = upsertKey smallTable (smallRow 2 9)).length ≤ 1 ∧
          ¬ (Vacated (keyOf smallTable) smallTxn.pendingD.changes
              (upsertKey smallTable (smallRow 2 9)) ∧
            Reoccupied (keyOf smallTable) smallTxn.pendingD.changes
              (upsertKey smallTable (smallRow 2 9)))) :=
  have hupsert : upsertRow (.ok smallTable) (smallRow 2 9) smallTxn =
      .ok 0 smallUpserted := eq_ok_of_valueOf (by decide +kernel)
  upsert_law_iff smallStored_image rfl smallTxn_run
    ⟨[⟨0, smallRow 1 1⟩], [], by decide +kernel, by decide +kernel⟩
    hupsert

/-- A row is deleted, another row is moved to its key, and the key is upserted: the lookup stops
at the delete, so the upsert inserts, and the scan shows two rows with the key. -/
theorem upsert_doubles_a_moved_key :
    ∃ t t' t₁, TableImage (smallStored [(1, 1), (2, 2)]).table
        (smallStored [(1, 1), (2, 2)]).records ∧
      RunNames (Shown (smallStored [(1, 1), (2, 2)]).records)
        (beginTable (smallStored [(1, 1), (2, 2)]))
        [.deleteRows [⟨0, smallRow 1 1⟩], .updateRows [⟨⟨0, smallRow 2 2⟩, smallRow 1 5⟩]] ∧
      runCalls (.ok smallTable)
        [.deleteRows [⟨0, smallRow 1 1⟩], .updateRows [⟨⟨0, smallRow 2 2⟩, smallRow 1 5⟩]]
        (beginTable (smallStored [(1, 1), (2, 2)])) = .ok () t ∧
      upsertRow (.ok smallTable) (smallRow 1 9) t = .ok 1 t' ∧
      scanRows t' = .ok [⟨0, smallRow 1 5⟩, ⟨1, smallRow 1 9⟩] t₁ ∧
      keyOf smallTable ⟨0, smallRow 1 5⟩ = keyOf smallTable ⟨1, smallRow 1 9⟩ :=
  ⟨_, _, _, tableImage_plain rfl rfl rfl (by decide) (by decide +kernel), by decide +kernel,
    eq_ok_of_valueOf (by decide +kernel), eq_ok_of_valueOf (by decide +kernel),
    eq_ok_of_valueOf (by decide +kernel), by decide +kernel⟩

end litestore
