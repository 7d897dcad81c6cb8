-- What a transaction sees of a table is what it commits. The staged lists split the rows
-- of the snapshot into rows that leave and rows that stay; the scan shows the rows that
-- stay and the rows that arrive, and so does the commit.
import LiteStore.TxnRuns
import LiteStore.Lib.Overlay

namespace litestore

open checked overlay List LiteTxnContext TxnTable
open stateful hiding bind_eq_ok

/-! ## The staged lists as changes -/

def PendingTable.changes (p : PendingTable) : Changes LiteRow where
  updates := p.updates.map fun u => (u.before, u.afterRow)
  deletes := p.deletes
  inserts := p.rows

/-- The rows of the snapshot that the staged changes take out. -/
def PendingTable.outgoing (p : PendingTable) : List LiteRow := p.mutations.outgoing

/-- The rows that the staged changes bring. -/
def PendingTable.incoming (p : PendingTable) : List LiteRow := p.mutations.incoming

theorem forall_staged {p : PendingTable} {P : LiteRow → Prop} :
    (∀ row ∈ p.outgoing ++ p.incoming, P row) ↔ (∀ u ∈ p.updates, P u.before ∧ P u.afterRow) ∧
      (∀ row ∈ p.deletes, P row) ∧ ∀ row ∈ p.rows, P row := by
  simp only [PendingTable.outgoing, PendingTable.incoming, Mutations.outgoing, Mutations.incoming,
    PendingTable.mutations, forall_mem_append, forall_mem_map]
  grind

theorem changes_outgoing (p : PendingTable) : p.changes.outgoing = p.outgoing := by
  simp [PendingTable.changes, Changes.outgoing, PendingTable.outgoing, Mutations.outgoing,
    PendingTable.mutations, Function.comp_def]

theorem changes_incoming (p : PendingTable) : p.changes.incoming = p.incoming := by
  simp [PendingTable.changes, Changes.incoming, PendingTable.incoming, Mutations.incoming,
    PendingTable.mutations, Function.comp_def]

theorem overlayRows_eq_rewrite (p : PendingTable) (rows : List LiteRow) :
    p.overlayRows rows = rewrite p.changes rows := by
  simp [PendingTable.overlayRows, rewrite, PendingTable.changes, foldl_map]

variable {p q : PendingTable} {base : List LiteRow} {row : LiteRow} {event : StageEvent}
  {table : LiteTableDef} {t : TxnTable} {key : Bytes} {st : TableState}

/-- The scan shows the rows that stay and the rows that arrive. -/
theorem overlayRows_perm {stay : List LiteRow} (h : base.Perm (p.outgoing ++ stay)) :
    (p.overlayRows base).Perm (stay ++ p.incoming) := by
  rw [overlayRows_eq_rewrite, ← changes_incoming]
  exact rewrite_perm (by rwa [changes_outgoing])

/-! ## What one stage does to the lists -/

theorem retarget_before (u : LiteRowMutation) (us : List LiteRowMutation) :
    (retarget u us).map (·.before) = us.map (·.before) := by
  induction us with
  | nil => rfl
  | cons v rest ih =>
    unfold retarget
    split
    · rfl
    · simp [ih]

theorem retarget_afterRow (u : LiteRowMutation) (us : List LiteRowMutation) :
    (retarget u us).map (·.afterRow) = (us.map (·.afterRow)).replace u.before u.afterRow := by
  induction us with
  | nil => rfl
  | cons v rest ih =>
    unfold retarget
    by_cases hv : v.afterRow = u.before
    · have hrow : ({ v with after := u.after } : LiteRowMutation).afterRow = u.afterRow := by
        have hid : v.before.rowId = u.before.rowId := by rw [← hv]; rfl
        simp [LiteRowMutation.afterRow, hid]
      rw [if_pos hv, map_cons, map_cons, hrow, hv, replace_cons_self]
    · have hne : (u.before == v.afterRow) = false := beq_eq_false_iff_ne.mpr (Ne.symm hv)
      rw [if_neg hv, map_cons, map_cons, ih, replace_cons, hne]

/-- The row that an event brings. -/
def StageEvent.arriving (p : PendingTable) : StageEvent → Option LiteRow
  | .insert row => some ⟨p.nextRowId, row⟩
  | .update u => some u.afterRow
  | .delete _ => none

/-- How an event changes the staged lists: the row it names arrived before and goes again,
or it is a row of the snapshot that leaves now. -/
def Shift (p q : PendingTable) (gone new : Option LiteRow) : Prop :=
  (q.outgoing.Perm p.outgoing ∧ (gone.toList ++ q.incoming).Perm (new.toList ++ p.incoming)) ∨
    (q.outgoing.Perm (gone.toList ++ p.outgoing) ∧ q.incoming.Perm (new.toList ++ p.incoming) ∧
      ∀ row ∈ gone, row ∉ p.incoming)

theorem insert_shift (p : PendingTable) (row : Row) :
    Shift p (p.insert row) none (some ⟨p.nextRowId, row⟩) := by
  refine .inl ⟨Perm.refl _, ?_⟩
  have hin : (p.insert row).incoming = p.incoming ++ [⟨p.nextRowId, row⟩] := by
    simp [PendingTable.incoming, Mutations.incoming, PendingTable.mutations, PendingTable.insert]
  rw [hin]
  exact perm_append_singleton _ _

theorem mem_incoming : row ∈ p.incoming ↔ (∃ v ∈ p.updates, v.afterRow = row) ∨ row ∈ p.rows := by
  simp [PendingTable.incoming, Mutations.incoming, PendingTable.mutations]

theorem mergeUpdate_shift (p : PendingTable) (u : LiteRowMutation) :
    Shift p (p.mergeUpdate u) (some u.before) (some u.afterRow) := by
  have hback : ∀ {l : List LiteRow}, u.before ∈ l →
      (u.before :: l.replace u.before u.afterRow).Perm (u.afterRow :: l) := fun {l} hl =>
    ((replace_perm hl).cons _).trans
      ((Perm.swap _ _ _).trans ((perm_cons_erase hl).symm.cons _))
  unfold PendingTable.mergeUpdate
  by_cases hrows : u.before ∈ p.rows
  · rw [if_pos hrows]
    refine .inl ⟨Perm.refl _, ?_⟩
    show (u.before :: (p.updates.map (·.afterRow) ++ p.rows.replace u.before u.afterRow)).Perm
      (u.afterRow :: (p.updates.map (·.afterRow) ++ p.rows))
    exact perm_middle.symm.trans (((hback hrows).append_left _).trans perm_middle)
  · rw [if_neg hrows]
    by_cases hups : ∃ v ∈ p.updates, v.afterRow = u.before
    · rw [if_pos hups]
      refine .inl ⟨?_, ?_⟩
      · show ((retarget u p.updates).map (·.before) ++ p.deletes).Perm
          (p.updates.map (·.before) ++ p.deletes)
        rw [retarget_before]
      · show (u.before :: ((retarget u p.updates).map (·.afterRow) ++ p.rows)).Perm
          (u.afterRow :: (p.updates.map (·.afterRow) ++ p.rows))
        rw [retarget_afterRow]
        exact (hback (mem_map.mpr hups)).append_right p.rows
    · rw [if_neg hups]
      refine .inr ⟨?_, ?_, fun row hrow => ?_⟩
      · show ((p.updates ++ [u]).map (·.before) ++ p.deletes).Perm
          (u.before :: (p.updates.map (·.before) ++ p.deletes))
        rw [map_append, append_assoc]
        exact perm_middle
      · show ((p.updates ++ [u]).map (·.afterRow) ++ p.rows).Perm
          (u.afterRow :: (p.updates.map (·.afterRow) ++ p.rows))
        rw [map_append, append_assoc]
        exact perm_middle
      · cases hrow
        exact fun hin => (mem_incoming.mp hin).elim hups hrows

theorem mergeDelete_shift (h : p.mergeDelete row = .ok q) : Shift p q (some row) none := by
  unfold PendingTable.mergeDelete at h
  by_cases hrows : row ∈ p.rows
  · rw [if_pos hrows] at h
    obtain rfl := Except.ok.inj h
    refine .inl ⟨Perm.refl _, ?_⟩
    show (row :: (p.updates.map (·.afterRow) ++ p.rows.erase row)).Perm
      (p.updates.map (·.afterRow) ++ p.rows)
    exact perm_middle.symm.trans ((perm_cons_erase hrows).symm.append_left _)
  · rw [if_neg hrows] at h
    cases hfind : p.updates.find? (·.afterRow = row) with
    | some u =>
      rw [hfind] at h
      obtain rfl := Except.ok.inj h
      have hperm := eraseP_perm hfind
      have hafter : u.afterRow = row := by simpa using find?_some hfind
      refine .inl ⟨?_, ?_⟩
      · show ((p.updates.eraseP (·.afterRow = row)).map (·.before) ++ (p.deletes ++ [u.before])).Perm
          (p.updates.map (·.before) ++ p.deletes)
        have hbefore := (hperm.map (·.before)).append_right p.deletes
        refine Perm.trans ?_ hbefore.symm
        rw [← append_assoc]
        exact perm_append_comm
      · show (row :: ((p.updates.eraseP (·.afterRow = row)).map (·.afterRow) ++ p.rows)).Perm
          (p.updates.map (·.afterRow) ++ p.rows)
        have hafters := (hperm.map (·.afterRow)).append_right p.rows
        rw [← hafter] at hafters ⊢
        exact hafters.symm
    | none =>
      rw [hfind] at h
      by_cases hdel : row ∈ p.deletes
      · simp [hdel] at h
      · simp only [hdel, if_false, Except.ok.injEq] at h
        subst h
        refine .inr ⟨?_, Perm.refl _, fun r hr => ?_⟩
        · show (p.updates.map (·.before) ++ (p.deletes ++ [row])).Perm
            (row :: (p.updates.map (·.before) ++ p.deletes))
          rw [← append_assoc]
          exact perm_append_comm
        · cases hr
          intro hin
          rcases mem_incoming.mp hin with ⟨v, hv, hrow⟩ | hin
          · exact find?_eq_none.mp hfind v hv (by simpa using hrow)
          · exact hrows hin

/-- What one event does to the staged lists. -/
theorem stage_shift (h : p.stage event = .ok q) :
    q.table = p.table ∧ Shift p q event.named (event.arriving p) ∧
      ∀ row ∈ event.named.toList ++ (event.arriving p).toList,
        ∃ keys, rowWriteKeys p.table row = .ok keys := by
  cases event with
  | insert row =>
    simp only [PendingTable.stage, bind_eq_ok, Except.ok.injEq] at h
    obtain ⟨keys, hkeys, rfl⟩ := h
    refine ⟨rfl, insert_shift p row, fun r hr => ?_⟩
    simp only [StageEvent.named, StageEvent.arriving, Option.toList_none, Option.toList_some,
      nil_append, mem_singleton] at hr
    exact ⟨keys, by rw [hr, hkeys]⟩
  | update u =>
    simp only [PendingTable.stage, bind_eq_ok, Except.ok.injEq] at h
    obtain ⟨before, hbefore, after, hafter, rfl⟩ := h
    refine ⟨?_, mergeUpdate_shift p u, fun r hr => ?_⟩
    · unfold PendingTable.mergeUpdate
      split
      · rfl
      · split <;> rfl
    · simp only [StageEvent.named, StageEvent.arriving, Option.toList_some, cons_append,
        nil_append, mem_cons, not_mem_nil, or_false] at hr
      rcases hr with rfl | rfl
      · exact ⟨before, hbefore⟩
      · exact ⟨after, hafter⟩
  | delete row =>
    simp only [PendingTable.stage, bind_eq_ok] at h
    obtain ⟨keys, hkeys, h⟩ := h
    refine ⟨?_, mergeDelete_shift h, fun r hr => ?_⟩
    · unfold PendingTable.mergeDelete at h
      split at h
      · exact (Except.ok.inj h) ▸ rfl
      · split at h
        · exact (Except.ok.inj h) ▸ rfl
        · split at h
          · simp at h
          · exact (Except.ok.inj h) ▸ rfl
    · simp only [StageEvent.named, StageEvent.arriving, Option.toList_none, Option.toList_some,
        append_nil, mem_singleton] at hr
      exact ⟨keys, by rw [hr, hkeys]⟩

/-! ## The split of the snapshot -/

/-- The staged lists of a table: the rows that leave are rows of the snapshot, and the keys
of every staged row can be built. -/
structure Viewed (table : LiteTableDef) (base : List LiteRow) (p : PendingTable) : Prop where
  loaded : p.table = table
  split : ∃ stay, base.Perm (p.outgoing ++ stay)
  keys : ∀ row ∈ p.outgoing ++ p.incoming, ∃ keys, rowWriteKeys table row = .ok keys

/-- The row is one that a scan shows now. -/
def VisibleRow (base : List LiteRow) (p : PendingTable) (row : LiteRow) : Prop :=
  row ∈ p.overlayRows base

theorem viewed_load (table : LiteTableDef) (base : List LiteRow) :
    Viewed table base (loadPending table) :=
  ⟨rfl, ⟨base, Perm.refl _⟩, by
    simp [loadPending, PendingTable.outgoing, PendingTable.incoming, Mutations.outgoing,
      Mutations.incoming, PendingTable.mutations]⟩

/-- The rows that leave after an event are rows that left before it, or the row it names. -/
theorem Shift.mem {gone new : Option LiteRow} (h : Shift p q gone new)
    (hrow : row ∈ q.outgoing ++ q.incoming) :
    row ∈ p.outgoing ++ p.incoming ∨ row ∈ gone.toList ++ new.toList := by
  rcases h with ⟨hout, hin⟩ | ⟨hout, hin, -⟩
  · rcases mem_append.mp hrow with ho | hi
    · exact .inl (mem_append_left _ (hout.mem_iff.mp ho))
    · rcases mem_append.mp (hin.mem_iff.mp (mem_append_right _ hi)) with hn | hp
      · exact .inr (mem_append_right _ hn)
      · exact .inl (mem_append_right _ hp)
  · rcases mem_append.mp hrow with ho | hi
    · rcases mem_append.mp (hout.mem_iff.mp ho) with hg | hp
      · exact .inr (mem_append_left _ hg)
      · exact .inl (mem_append_left _ hp)
    · rcases mem_append.mp (hin.mem_iff.mp hi) with hn | hp
      · exact .inr (mem_append_right _ hn)
      · exact .inl (mem_append_right _ hp)

/-- A visible row that an event takes away is a row that arrived or a row that stayed. -/
theorem Shift.split {gone new : Option LiteRow} {stay : List LiteRow} (h : Shift p q gone new)
    (hsplit : base.Perm (p.outgoing ++ stay)) (hvisible : ∀ row ∈ gone, VisibleRow base p row) :
    ∃ stay', base.Perm (q.outgoing ++ stay') ∧
      (gone.toList ++ (stay' ++ q.incoming)).Perm (new.toList ++ (stay ++ p.incoming)) := by
  rcases h with ⟨hout, hin⟩ | ⟨hout, hin, hnot⟩
  · refine ⟨stay, hsplit.trans (hout.symm.append_right _), ?_⟩
    exact (perm_append_comm_assoc _ _ _).trans
      ((hin.append_left stay).trans (perm_append_comm_assoc _ _ _))
  · cases gone with
    | none =>
      refine ⟨stay, hsplit.trans (hout.symm.append_right _), ?_⟩
      exact (hin.append_left stay).trans (perm_append_comm_assoc _ _ _)
    | some row =>
      have hstay : row ∈ stay := by
        have hmem := (overlayRows_perm hsplit).mem_iff.mp (hvisible row rfl)
        exact (mem_append.mp hmem).resolve_right (hnot row rfl)
      have herase := perm_cons_erase hstay
      refine ⟨stay.erase row, ?_, ?_⟩
      · refine hsplit.trans ((herase.append_left _).trans ?_)
        exact perm_middle.trans (hout.symm.append_right _)
      · show (row :: (stay.erase row ++ q.incoming)).Perm (new.toList ++ (stay ++ p.incoming))
        exact (herase.symm.append_right q.incoming).trans
          ((hin.append_left stay).trans (perm_append_comm_assoc _ _ _))

theorem Viewed.stage (h : Viewed table base p)
    (hnamed : ∀ row ∈ event.named, VisibleRow base p row) (hstage : p.stage event = .ok q) :
    Viewed table base q := by
  obtain ⟨htable, hshift, hkeys⟩ := stage_shift hstage
  obtain ⟨stay, hsplit⟩ := h.split
  obtain ⟨stay', hsplit', -⟩ := hshift.split hsplit hnamed
  refine ⟨htable.trans h.loaded, ⟨stay', hsplit'⟩, fun row hrow => ?_⟩
  rcases hshift.mem hrow with hold | hnew
  · exact h.keys row hold
  · rw [← h.loaded]
    exact hkeys row hnew

/-- What an event does to the rows that a scan shows: the named row goes and the new row
arrives. -/
theorem stage_visible (h : Viewed table base p)
    (hnamed : ∀ row ∈ event.named, VisibleRow base p row) (hstage : p.stage event = .ok q) :
    (event.named.toList ++ q.overlayRows base).Perm
      ((event.arriving p).toList ++ p.overlayRows base) := by
  obtain ⟨-, hshift, -⟩ := stage_shift hstage
  obtain ⟨stay, hsplit⟩ := h.split
  obtain ⟨stay', hsplit', hrows⟩ := hshift.split hsplit hnamed
  refine ((overlayRows_perm hsplit').append_left _).trans (hrows.trans ?_)
  exact (overlayRows_perm hsplit).symm.append_left _

/-! ## The scan and the commit of a whole transaction -/

/-- A transaction that begins on a table. -/
def beginTable (st : TableState) : TxnTable where
  table := st.table
  snapshot := st.records

/-- The commit of what the transaction staged on the table, with nothing else going on. -/
def commitStaged (faults : Faults) (bulkLoad : Bool) (st : TableState) (t : TxnTable) :
    Except String TableState :=
  match t.pending with
  | none => .ok st
  | some p => do
    let batch ← appendPendingMutationsAtomic faults bulkLoad st p.table p.mutations
    .ok (st.applyBatch batch)

theorem overlayRows_load (table : LiteTableDef) (rows : List LiteRow) :
    (loadPending table).overlayRows rows = rows := by
  simp [loadPending, PendingTable.overlayRows]

/-- A scan that can read the snapshot shows it with the staged changes. -/
theorem scanRows_visible (h : storedRows t.snapshot = .ok base) :
    ∃ t', scanRows t = .ok (t.pendingD.overlayRows base) t' := by
  refine ⟨{ t with readRanges := { full := true } :: t.readRanges }, ?_⟩
  simp only [scanRows, recordFullScanLocked, stateful.bind_eq_ok,
    modify_eq_ok, get_eq_ok, lift_eq_ok]
  refine ⟨(), _, rfl, _, _, ⟨rfl, rfl⟩, base, _, ⟨h, rfl⟩, ?_⟩
  cases hp : t.pending with
  | none => simp [pendingD, hp, overlayRows_load]
  | some p => simp [pendingD, hp]

/-- The row is given as a scan gives it: with row id zero, or as a row that the transaction
inserted. -/
def NamesStored (p : PendingTable) (row : LiteRow) : Prop := row.rowId = 0 ∨ row ∈ p.rows

/-- The rows of the snapshot that leave have row id zero. -/
structure ZeroIds (table : LiteTableDef) (p : PendingTable) : Prop where
  loaded : p.table = table
  zero : ∀ row ∈ p.outgoing, row.rowId = 0

theorem ZeroIds.stage (h : ZeroIds table p) (hnamed : ∀ row ∈ event.named, NamesStored p row)
    (hstage : p.stage event = .ok q) : ZeroIds table q := by
  obtain ⟨htable, hshift, -⟩ := stage_shift hstage
  refine ⟨htable.trans h.loaded, fun row hrow => ?_⟩
  rcases hshift with ⟨hout, -⟩ | ⟨hout, -, hnot⟩
  · exact h.zero row (hout.mem_iff.mp hrow)
  · rcases mem_append.mp (hout.mem_iff.mp hrow) with hgone | hold
    · have hmem := Option.mem_toList.mp hgone
      rcases hnamed row hmem with hzero | hins
      · exact hzero
      · exact absurd (mem_incoming.mpr (.inr hins)) (hnot row hmem)
    · exact h.zero row hold

theorem findPending_mem {rows : List LiteRow} (h : findPending table key rows = .ok (some row)) :
    row ∈ rows := by
  induction rows with
  | nil => simp [findPending] at h
  | cons r rest ih =>
    simp only [findPending, bind_eq_ok] at h
    obtain ⟨found, -, h⟩ := h
    split at h
    · simp only [Except.ok.injEq, Option.some.injEq] at h
      exact h ▸ mem_cons_self
    · exact mem_cons_of_mem _ (ih h)

theorem findUpdate_mem {us : List LiteRowMutation}
    (h : findUpdate table key us = .ok (some (some row))) : ∃ u ∈ us, u.afterRow = row := by
  induction us with
  | nil => simp [findUpdate] at h
  | cons u rest ih =>
    simp only [findUpdate, bind_eq_ok] at h
    obtain ⟨found, -, h⟩ := h
    split at h
    · simp only [Except.ok.injEq, Option.some.injEq] at h
      exact ⟨u, mem_cons_self, h⟩
    · simp only [bind_eq_ok] at h
      obtain ⟨left, -, h⟩ := h
      split at h
      · simp at h
      · obtain ⟨v, hv, hrow⟩ := ih h
        exact ⟨v, mem_cons_of_mem _ hv, hrow⟩

/-- A row that the staged changes answer with is a row that arrives. -/
theorem answer_mem (h : p.answer key = .ok (some (some row))) : row ∈ p.incoming := by
  simp only [PendingTable.answer, bind_eq_ok] at h
  obtain ⟨deleted, -, h⟩ := h
  split at h
  · simp at h
  · simp only [bind_eq_ok] at h
    obtain ⟨updated, hupdated, h⟩ := h
    cases updated with
    | some found =>
      simp only [Except.ok.injEq, Option.some.injEq] at h
      subst h
      obtain ⟨u, hu, hrow⟩ := findUpdate_mem hupdated
      exact mem_incoming.mpr (.inl ⟨u, mem_reverse.mp hu, hrow⟩)
    | none =>
      simp only [bind_eq_ok] at h
      obtain ⟨inserted, hinserted, h⟩ := h
      cases inserted with
      | some found =>
        simp only [Except.ok.injEq, Option.some.injEq] at h
        subst h
        exact mem_incoming.mpr (.inr (findPending_mem hinserted))
      | none => simp at h

/-- A row that the snapshot gives for a primary key has row id zero. -/
theorem storedRowByKey_rowId {records : RecordMap} (hhead : key.head? = some letterP)
    (hlen : 9 ≤ key.length) (h : storedRowByKey records key = .ok (some row)) : row.rowId = 0 := by
  unfold storedRowByKey getRowByKeyAtSnapshot at h
  split at h
  · simp at h
  · split at h
    · simp only [Except.ok.injEq, Option.some.injEq] at h
      subst h
      have hne : key.length ≠ 8 := by omega
      simp [hne]
    · simp [hhead, letterP, letterU] at h

/-- An upsert names the row by the row id that a scan gives it. -/
theorem lookup_namesStored (table : LiteTableDef) (snapshot : RecordMap) :
    LookupNames NamesStored (ZeroIds table) table snapshot := by
  intro t htable _ hzero row key found hkey hfound
  obtain ⟨hhead, hlen, -⟩ := liteBuildPrimaryKey_shape hkey
  simp only [findRow, bind_eq_ok] at hfound
  obtain ⟨answer, hanswer, hfound⟩ := hfound
  cases answer with
  | none => exact .inl (storedRowByKey_rowId hhead hlen hfound)
  | some r =>
    simp only [Except.ok.injEq] at hfound
    subst hfound
    cases hp : t.pending with
    | none => simp [hp] at hanswer
    | some p =>
      simp only [hp] at hanswer
      have hpd : t.pendingD = p := by simp [pendingD, hp]
      rw [hpd] at hzero ⊢
      rcases mem_incoming.mp (answer_mem hanswer) with ⟨u, hu, rfl⟩ | hins
      · exact .inl (hzero.zero u.before (mem_append_left _ (mem_map_of_mem hu)))
      · exact .inr hins

/-- A run keeps the definition of the table and the snapshot. -/
theorem runCalls_table {calls : List TxnCall} {u : Unit}
    (h : runCalls (.ok st.table) calls (beginTable st) = .ok u t) :
    t.pendingD.table = st.table ∧ t.table = st.table ∧ t.snapshot = st.records := by
  have hstep : ∀ {p q : PendingTable} {event : StageEvent}, p.table = st.table →
      (∀ row ∈ event.named, True) → p.stage event = .ok q → q.table = st.table :=
    fun hp _ hstage => (stage_shift hstage).1.trans hp
  have hnames : RunNames (fun _ _ => True) (beginTable st) calls :=
    runNames_of_forall (fun _ _ => trivial) _ _
  exact runCalls_invariant (t := beginTable st) hstep (fun _ _ _ _ _ _ _ _ _ => trivial) rfl
    hnames h

/-- The rows that leave are given as the store knows them. -/
theorem outgoing_normal {calls : List TxnCall} {u : Unit}
    (hrun : runCalls (.ok st.table) calls (beginTable st) = .ok u t)
    (hnamed : st.table.keyless = false → RunNames NamesStored (beginTable st) calls) :
    t.pendingD.outgoing.map (normalRow st.table) = t.pendingD.outgoing := by
  have hsame : ∀ row ∈ t.pendingD.outgoing, normalRow st.table row = row := by
    intro row hrow
    unfold normalRow
    cases hk : st.table.keyless with
    | true => rfl
    | false =>
      have hzero := (runCalls_invariant (t := beginTable st) ZeroIds.stage
        (lookup_namesStored _ _) ⟨rfl, by simp [beginTable, pendingD, loadPending,
          PendingTable.outgoing, Mutations.outgoing, PendingTable.mutations]⟩ (hnamed hk) hrun).1
      have hid := hzero.zero row hrow
      cases row
      simp only at hid
      subst hid
      rfl
  exact (map_congr_left hsame).trans (map_id _)

/-- The rows that the commit leaves, when it accepts what was staged. -/
theorem commitStaged_rows {faults : Faults} {after : TableState}
    (hbase : RowsImage st.table base st.records)
    (hout : t.pendingD.outgoing.map (normalRow st.table) = t.pendingD.outgoing)
    (hids : BaseRowIds st.table t.pendingD.rows)
    (hcommit : commitStaged faults false st t = .ok after) :
    ∃ stay, base.Perm (t.pendingD.outgoing ++ stay) ∧
      RowsImage after.table (stay ++ t.pendingD.incoming.map (normalRow st.table))
        after.records := by
  unfold commitStaged at hcommit
  cases hp : t.pending with
  | none =>
    rw [hp] at hcommit
    obtain rfl := Except.ok.inj hcommit
    have hload : t.pendingD = loadPending t.table := by simp [pendingD, hp]
    refine ⟨base, ?_, ?_⟩
    · rw [hload]
      exact Perm.refl _
    · rw [hload]
      simpa [loadPending, PendingTable.incoming, Mutations.incoming, PendingTable.mutations]
        using hbase
  | some p =>
    have hpd : t.pendingD = p := by simp [pendingD, hp]
    rw [hpd] at hout hids ⊢
    rw [hp] at hcommit
    simp only [bind_eq_ok, Except.ok.injEq] at hcommit
    obtain ⟨batch, hbatch, rfl⟩ := hcommit
    cases hne : p.mutations.isEmpty with
    | false =>
      obtain ⟨stay, hperm, himage⟩ := append_rows hbase hne hbatch hids
      exact ⟨stay, by rw [← hout]; exact hperm, himage⟩
    | true =>
      simp only [appendPendingMutationsAtomic, hne, if_true, Except.ok.injEq] at hbatch
      subst hbatch
      simp only [Mutations.isEmpty, Bool.and_eq_true, List.isEmpty_iff] at hne
      obtain ⟨⟨hu, hd⟩, hi⟩ := hne
      refine ⟨base, ?_, ?_⟩
      · simp [PendingTable.outgoing, Mutations.outgoing, hu, hd]
      · simpa [PendingTable.incoming, Mutations.incoming, hu, hi, TableState.applyBatch,
          writeBatch, eraseAll] using hbase

/-- What a transaction sees is what it commits: in a transaction that runs alone, the rows
of a scan before the commit are the rows of the table after it. The row id of a table with
a primary key is not stored, so it is left out of the comparison; in such a table a row of
the snapshot is named by row id zero, as a scan shows it. -/
theorem transaction_commits_what_it_sees {faults : Faults} {st after : TableState}
    {calls : List TxnCall} {t : TxnTable} (himage : TableImage st.table st.records)
    (hrun : runCalls (.ok st.table) calls (beginTable st) = .ok () t)
    (hnamed : st.table.keyless = false → RunNames NamesStored (beginTable st) calls)
    (hids : BaseRowIds st.table t.pendingD.rows)
    (hcommit : commitStaged faults false st t = .ok after) :
    ∃ seen t' rows, scanRows t = .ok seen t' ∧
      storedRows after.records = .ok rows ∧ rows.Perm (seen.map (normalRow st.table)) := by
  obtain ⟨base, hscan, hbase⟩ := himage.scanned
  obtain ⟨-, -, hsnapshot⟩ := runCalls_table hrun
  obtain ⟨t', hseen⟩ := scanRows_visible (t := t) (by rw [hsnapshot]; exact hscan)
  obtain ⟨stay, hperm, hafter⟩ :=
    commitStaged_rows hbase (outgoing_normal hrun hnamed) hids hcommit
  obtain ⟨rows, hrows, hfound⟩ := hafter.storedRows
  refine ⟨_, t', rows, hseen, hrows, hfound.trans ?_⟩
  have hstay := map_normalRow_of_built fun row hrow =>
    hbase.built row (hperm.mem_iff.mpr (mem_append_right _ hrow))
  have hvisible := (overlayRows_perm hperm).map (normalRow st.table)
  rw [map_append, hstay] at hvisible
  exact hvisible.symm

instance (p : PendingTable) (row : LiteRow) : Decidable (NamesStored p row) :=
  inferInstanceAs (Decidable (_ ∨ _))

/-- A transaction on a table with one row: it updates the row, inserts two rows, and updates
the first of them. -/
def smallCalls : List TxnCall :=
  [.updateRows [⟨⟨0, smallRow 1 1⟩, smallRow 2 5⟩], .insertRow (smallRow 3 3),
    .upsertRow (smallRow 4 4), .updateRows [⟨⟨1, smallRow 3 3⟩, smallRow 3 7⟩]]

theorem smallStored_image :
    TableImage (smallStored [(1, 1)]).table (smallStored [(1, 1)]).records :=
  tableImage_plain rfl rfl rfl (by decide) (by decide +kernel)

/-- The transaction after these calls. -/
def smallTxn : TxnTable :=
  stateful.stateOf (runCalls (.ok smallTable) smallCalls (beginTable (smallStored [(1, 1)])))

theorem smallTxn_run :
    runCalls (.ok smallTable) smallCalls (beginTable (smallStored [(1, 1)])) = .ok () smallTxn :=
  eq_ok_of_valueOf (by decide +kernel)

theorem small_transaction_commits_what_it_sees :
    ∃ seen t' rows, scanRows smallTxn = .ok seen t' ∧
      storedRows (smallStored [(2, 5), (3, 7), (4, 4)]).records = .ok rows ∧
      rows.Perm (seen.map (normalRow smallTable)) :=
  transaction_commits_what_it_sees smallStored_image smallTxn_run
    (fun _ => by decide +kernel) (fun h => absurd h (by decide))
    (show commitStaged noFaults false (smallStored [(1, 1)]) _ = .ok _ by decide +kernel)

/-- In a table with a primary key, an update that gives the row another row id is not seen
by the scan, but the commit looks the row up by its key and applies it. -/
theorem update_with_a_row_id_is_committed_unseen :
    ∃ t t' after, TableImage (smallStored [(1, 1)]).table (smallStored [(1, 1)]).records ∧
      runCalls (.ok smallTable) [.updateRows [⟨⟨5, smallRow 1 1⟩, smallRow 1 2⟩]]
        (beginTable (smallStored [(1, 1)])) = .ok () t ∧
      scanRows t = .ok [⟨0, smallRow 1 1⟩] t' ∧
      commitStaged noFaults false (smallStored [(1, 1)]) t = .ok after ∧
      storedRows after.records = .ok [⟨0, smallRow 1 2⟩] :=
  ⟨_, _, smallStored [(1, 2)], smallStored_image,
    eq_ok_of_valueOf (by decide +kernel),
    eq_ok_of_valueOf (by decide +kernel), by decide +kernel, by decide +kernel⟩

end litestore
