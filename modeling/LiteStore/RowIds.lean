-- The row ids of a table without a primary key. A staged insert takes the next row id at
-- once, and the commit wants the row ids of the inserts that are left to count up from the
-- row id in the catalog. This holds when no insert that is left was made after an insert
-- that the transaction deleted again.
import LiteStore.TxnView

namespace litestore

open checked List

/-! ## The inserts of a transaction -/

/-- The inserts that a transaction made so far are numbered from zero; `left` holds the
numbers of those it did not delete again. -/
structure OwnInserts where
  made : Nat := 0
  left : List Nat := []
deriving DecidableEq

def OwnInserts.after (own : OwnInserts) (p : PendingTable) : StageEvent → OwnInserts
  | .insert _ => ⟨own.made + 1, own.left ++ [own.made]⟩
  | .update _ => own
  | .delete row =>
    if row ∈ p.rows then { own with left := own.left.eraseIdx (p.rows.idxOf row) } else own

def ownInsertsOf : PendingTable → OwnInserts → List StageEvent → OwnInserts
  | _, own, [] => own
  | p, own, event :: rest =>
    match p.stage event with
    | .ok q => ownInsertsOf q (own.after p event) rest
    | .error _ => own

/-- The inserts of a run of calls. -/
def ownInserts : TxnTable → OwnInserts → List TxnCall → OwnInserts
  | _, own, [] => own
  | t, own, call :: rest =>
    match call.run (.ok t.table) t with
    | .ok _ t' => ownInserts t' (ownInsertsOf t.pendingD own (call.events t)) rest
    | .error _ _ => own

/-- No insert that is left was made after one that was deleted again. -/
def OwnInserts.NoGap (own : OwnInserts) : Prop := ∀ i ∈ own.left, ∀ j < i, j ∈ own.left

instance (own : OwnInserts) : Decidable own.NoGap :=
  inferInstanceAs (Decidable (∀ i ∈ own.left, ∀ j < i, j ∈ own.left))

/-! ## Row ids follow the numbers -/

/-- The row id of a pending insert is the row id in the catalog plus its number. -/
structure Numbered (first : UInt64) (p : PendingTable) (own : OwnInserts) : Prop where
  next : p.nextRowId = first + UInt64.ofNat own.made
  ids : p.rows.map (·.rowId) = own.left.map fun i => first + UInt64.ofNat i
  sorted : own.left.Pairwise (· < ·)
  below : ∀ i ∈ own.left, i < own.made

theorem map_rowId_replace {u : LiteRowMutation} (rows : List LiteRow) :
    (rows.replace u.before u.afterRow).map (·.rowId) = rows.map (·.rowId) := by
  induction rows with
  | nil => rfl
  | cons row rest ih =>
    rw [replace_cons]
    by_cases hrow : u.before = row
    · subst hrow
      simp
    · have hne : (u.before == row) = false := beq_eq_false_iff_ne.mpr hrow
      rw [hne, map_cons, map_cons, ih]

variable {first : UInt64} {p q : PendingTable} {own : OwnInserts}

section

variable (h : Numbered first p own)

include h

theorem Numbered.mergeUpdate (u : LiteRowMutation) :
    Numbered first (p.mergeUpdate u) own := by
  unfold PendingTable.mergeUpdate
  split
  · exact ⟨h.next, by rw [map_rowId_replace]; exact h.ids, h.sorted, h.below⟩
  · split
    · exact { h with }
    · exact { h with }

theorem Numbered.mergeDelete {row : LiteRow}
    (hq : p.mergeDelete row = .ok q) : Numbered first q (own.after p (.delete row)) := by
  unfold PendingTable.mergeDelete at hq
  unfold OwnInserts.after
  by_cases hrow : row ∈ p.rows
  · simp only [hrow, if_true, Except.ok.injEq] at hq ⊢
    subst hq
    refine ⟨h.next, ?_, h.sorted.sublist (eraseIdx_sublist _ _), fun i hi => ?_⟩
    · show (p.rows.erase row).map (·.rowId) = _
      rw [erase_eq_eraseIdx_of_idxOf, ← eraseIdx_map, h.ids, eraseIdx_map]
      rfl
    · exact h.below i ((eraseIdx_sublist _ _).subset hi)
  · simp only [hrow, if_false] at hq ⊢
    split at hq
    · obtain rfl := Except.ok.inj hq
      exact { h with }
    · split at hq
      · simp at hq
      · obtain rfl := Except.ok.inj hq
        exact { h with }

theorem Numbered.stage {event : StageEvent}
    (hq : p.stage event = .ok q) : Numbered first q (own.after p event) := by
  cases event with
  | insert row =>
    simp only [PendingTable.stage, bind_eq_ok, Except.ok.injEq] at hq
    obtain ⟨-, -, rfl⟩ := hq
    refine ⟨?_, ?_, ?_, fun i hi => ?_⟩
    · show p.nextRowId + 1 = first + UInt64.ofNat (own.made + 1)
      rw [h.next, UInt64.ofNat_add, UInt64.add_assoc]
      rfl
    · simp [PendingTable.insert, OwnInserts.after, h.ids, h.next]
    · show (own.left ++ [own.made]).Pairwise (· < ·)
      rw [pairwise_append]
      refine ⟨h.sorted, pairwise_singleton _ _, fun i hi j hj => ?_⟩
      rw [mem_singleton.mp hj]
      exact h.below i hi
    · show i < own.made + 1
      rcases mem_append.mp hi with hi | hi
      · have := h.below i hi
        omega
      · rw [mem_singleton.mp hi]
        omega
  | update u =>
    simp only [PendingTable.stage, bind_eq_ok, Except.ok.injEq] at hq
    obtain ⟨-, -, -, -, rfl⟩ := hq
    exact h.mergeUpdate u
  | delete row =>
    simp only [PendingTable.stage, bind_eq_ok] at hq
    obtain ⟨-, -, hq⟩ := hq
    exact h.mergeDelete hq

theorem Numbered.stageAll {events : List StageEvent}
    (hq : litestore.stageAll p events = .ok q) : Numbered first q (ownInsertsOf p own events) := by
  induction events generalizing p own with
  | nil =>
    simp only [litestore.stageAll, Except.ok.injEq] at hq
    exact hq ▸ h
  | cons event rest ih =>
    simp only [litestore.stageAll, bind_eq_ok] at hq
    obtain ⟨mid, hmid, hrest⟩ := hq
    simp only [ownInsertsOf, hmid]
    exact ih (h.stage hmid) hrest

end

theorem Numbered.run {t t' : TxnTable} {calls : List TxnCall} {u : Unit}
    (h : Numbered first t.pendingD own) (hrun : runCalls (.ok t.table) calls t = .ok u t') :
    Numbered first t'.pendingD (ownInserts t own calls) := by
  induction calls generalizing t own with
  | nil =>
    obtain ⟨-, rfl⟩ := stateful.pure_eq_ok.mp hrun
    exact h
  | cons call rest ih =>
    simp only [runCalls, stateful.bind_eq_ok] at hrun
    obtain ⟨_, m, hcall, hrest⟩ := hrun
    have hstaged := call_staged hcall
    rw [← hstaged.table] at hrest
    simp only [ownInserts, hcall]
    exact ih (h.stageAll hstaged.staged) hrest

/-! ## The check of the commit -/

/-- A sorted list of numbers without a gap counts up from zero. -/
theorem eq_range_of_noGap {l : List Nat} (hsorted : l.Pairwise (· < ·))
    (hgap : ∀ i ∈ l, ∀ j < i, j ∈ l) : l = range l.length := by
  induction l using reverseRecOn with
  | nil => rfl
  | append_singleton l m ih =>
    rw [pairwise_append] at hsorted
    have hless : ∀ i ∈ l, i < m := fun i hi => hsorted.2.2 i hi m (by simp)
    have hback : ∀ j < m, j ∈ l := fun j hj => by
      have hmem := hgap m (by simp) j hj
      simp only [mem_append, mem_singleton] at hmem
      exact hmem.resolve_right (by omega)
    have hl : l = range l.length := ih hsorted.1 fun i hi j hj =>
      hback j (hj.trans (hless i hi))
    -- the numbers below the last one are in the list, and no others
    have hm : m = l.length := by
      by_contra hne
      rcases Nat.lt_or_gt_of_ne hne with hlt | hgt
      · have hin : m ∈ l := by
          rw [hl]
          exact mem_range.mpr hlt
        exact absurd (hless m hin) (by omega)
      · have hin := hback l.length hgt
        rw [hl, length_range] at hin
        exact absurd (mem_range.mp hin) (by omega)
    rw [length_append, length_singleton, range_succ, ← hl, hm]

theorem contiguousFrom_of_ids {rows : List LiteRow} {start : Nat}
    (h : rows.map (·.rowId) = (List.range' start rows.length).map fun i => first + UInt64.ofNat i) :
    contiguousFrom (first + UInt64.ofNat start) rows = true := by
  induction rows generalizing start with
  | nil => rfl
  | cons row rest ih =>
    simp only [map_cons, length_cons, range'_succ, List.cons.injEq] at h
    simp only [contiguousFrom, h.1, decide_true, Bool.true_and]
    have hnext := ih h.2
    rwa [UInt64.ofNat_add, ← UInt64.add_assoc] at hnext

theorem checkRowIds_of_numbered {table : LiteTableDef} (h : Numbered table.nextRowId p own)
    (hgap : own.NoGap) : checkRowIds table p.rows = .ok () := by
  have hlength : p.rows.length = own.left.length := by
    have hlen := congrArg List.length h.ids
    simpa using hlen
  have hids : p.rows.map (·.rowId) =
      (List.range' 0 p.rows.length).map fun i => table.nextRowId + UInt64.ofNat i := by
    rw [h.ids, eq_range_of_noGap h.sorted hgap, hlength, range_eq_range']
  have hrun : contiguousFrom table.nextRowId p.rows = true := by
    simpa using contiguousFrom_of_ids hids
  unfold checkRowIds
  cases hrows : p.rows with
  | nil => rfl
  | cons row rest =>
    rw [hrows] at hrun
    have hfirst : row.rowId = table.nextRowId := by
      simp only [contiguousFrom, Bool.and_eq_true, decide_eq_true_eq] at hrun
      exact hrun.1
    simp only [hfirst, ne_eq, not_true_eq_false, if_false, hrun]
    split <;> rfl

/-- A transaction that runs alone does not fail because of the row ids it took, when no
insert that is left was made after one that it deleted again. -/
theorem row_ids_are_accepted {st : TableState} {calls : List TxnCall} {t : TxnTable}
    (hrun : runCalls (.ok st.table) calls (beginTable st) = .ok () t)
    (hgap : (ownInserts (beginTable st) {} calls).NoGap) :
    checkRowIds st.table t.pendingD.rows = .ok () := by
  have hstart : Numbered st.table.nextRowId (beginTable st).pendingD {} :=
    ⟨by simp [beginTable, TxnTable.pendingD, loadPending], rfl, .nil, by simp⟩
  exact checkRowIds_of_numbered (hstart.run (t := beginTable st) hrun) hgap

/-- Two inserts, of which one is deleted again. -/
def insertTwiceDelete (row : LiteRow) : List TxnCall :=
  [.insertRow (smallRow 1 1), .insertRow (smallRow 2 2), .deleteRows [row]]

/-- The last insert may be deleted again. -/
theorem row_ids_are_accepted_without_the_last_insert :
    checkRowIds smallLog (stateful.stateOf (runCalls (.ok smallLog)
      (insertTwiceDelete ⟨2, smallRow 2 2⟩) (beginTable (emptyTable smallLog)))).pendingD.rows =
        .ok () := by
  have hrun : runCalls (.ok (emptyTable smallLog).table) (insertTwiceDelete ⟨2, smallRow 2 2⟩)
      (beginTable (emptyTable smallLog)) = .ok () _ :=
    stateful.eq_ok_of_valueOf (by decide +kernel)
  exact row_ids_are_accepted hrun (by decide +kernel)

/-- When the first insert is deleted again, the commit refuses the second. -/
theorem row_id_gap_fails_the_commit :
    ∃ t, runCalls (.ok smallLog) (insertTwiceDelete ⟨1, smallRow 1 1⟩)
        (beginTable (emptyTable smallLog)) = .ok () t ∧
      checkRowIds smallLog t.pendingD.rows = .error rowIdAllocationChanged ∧
      commitStaged noFaults false (emptyTable smallLog) t = .error rowIdAllocationChanged :=
  ⟨_, stateful.eq_ok_of_valueOf (by decide +kernel), by decide +kernel, by decide +kernel⟩

end litestore
