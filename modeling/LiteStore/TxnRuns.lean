-- Runs of calls in one transaction. A successful call changes the staged lists by a row at
-- a time; `PendingTable.stage` says what one row does, and every law of the staged lists is
-- proved along these single stages.
import LiteStore.TxnReads

namespace litestore

open checked
open stateful hiding bind_eq_ok

/-! ## What a call records -/

/-- The keys that a staged row writes. -/
def rowWriteKeys (table : LiteTableDef) (row : LiteRow) : Except String (List Bytes) := do
  let rowKey ← rowStorageKey table row
  let keys ← uniqueKeysOf table row.value.bytes
  let entries ← buildSecondaryIndexEntries table row.value.bytes rowKey
  .ok (rowKey :: (keys ++ entries.map (·.key)))

def TxnTable.recordKeys (t : TxnTable) (keys : List Bytes) : TxnTable :=
  keys.foldl TxnTable.recordKey t

@[simp] theorem TxnTable.recordKeys_nil (t : TxnTable) : t.recordKeys [] = t := rfl

@[simp] theorem TxnTable.recordKeys_cons (t : TxnTable) (key : Bytes) (keys : List Bytes) :
    t.recordKeys (key :: keys) = (t.recordKey key).recordKeys keys := rfl

theorem TxnTable.recordKeys_append (t : TxnTable) (keys more : List Bytes) :
    t.recordKeys (keys ++ more) = (t.recordKeys keys).recordKeys more := by
  simp [recordKeys, List.foldl_append]

/-- Recording changes what was read and written, and nothing else. -/
structure Recorded (t t' : TxnTable) : Prop where
  table : t'.table = t.table
  snapshot : t'.snapshot = t.snapshot
  pending : t'.pending = t.pending

theorem Recorded.refl (t : TxnTable) : Recorded t t := ⟨rfl, rfl, rfl⟩

variable {t t' : TxnTable} {u : Unit} {row : Row} {p q p' : PendingTable} {event : StageEvent}

theorem Recorded.trans {u v : TxnTable} (h : Recorded t u) (h' : Recorded u v) : Recorded t v :=
  ⟨h'.table.trans h.table, h'.snapshot.trans h.snapshot, h'.pending.trans h.pending⟩

theorem recorded_recordKeys (t : TxnTable) (keys : List Bytes) :
    Recorded t (t.recordKeys keys) := by
  induction keys generalizing t with
  | nil => exact Recorded.refl t
  | cons key keys ih =>
    have hone : Recorded t (t.recordKey key) := ⟨rfl, rfl, rfl⟩
    exact hone.trans (ih (t.recordKey key))

theorem recordBuiltKey_eq_ok {key : Option Bytes} :
    recordBuiltKey key t = .ok u t' ↔ t.recordKeys key.toList = t' := by
  cases key with
  | none => simp [recordBuiltKey]
  | some k => simp [recordBuiltKey, recordWriteKeyLocked]

theorem recordUniqueKeys_eq_ok {table : LiteTableDef} {row : Bytes}
    {constraints : List (List Nat)} {ordinal : Nat} :
    recordUniqueKeys table row constraints ordinal t = .ok u t' ↔
      ∃ keys, uniqueKeysFrom table row constraints ordinal = .ok keys ∧ t.recordKeys keys = t' := by
  induction constraints generalizing ordinal t with
  | nil => simp [recordUniqueKeys, uniqueKeysFrom]
  | cons columns rest ih =>
    simp only [recordUniqueKeys, uniqueKeysFrom, stateful.bind_eq_ok, lift_eq_ok,
      recordBuiltKey_eq_ok, ih, bind_eq_ok, Except.ok.injEq]
    constructor
    · rintro ⟨key, _, ⟨hkey, rfl⟩, _, m, rfl, keys, hkeys, rfl⟩
      exact ⟨_, ⟨key, hkey, keys, hkeys, rfl⟩, TxnTable.recordKeys_append _ _ _⟩
    · rintro ⟨_, ⟨key, hkey, keys, hkeys, rfl⟩, rfl⟩
      exact ⟨key, t, ⟨hkey, rfl⟩, (), _, rfl, keys, hkeys,
        (TxnTable.recordKeys_append _ _ _).symm⟩

theorem recordIndexKeys_eq_ok {entries : List LitePhysicalIndexEntry} :
    recordIndexKeys entries t = .ok u t' ↔ t.recordKeys (entries.map (·.key)) = t' := by
  induction entries generalizing t with
  | nil => simp [recordIndexKeys]
  | cons entry rest ih =>
    simp only [recordIndexKeys, recordWriteKeyLocked, stateful.bind_eq_ok, modify_eq_ok,
      ih, List.map_cons, TxnTable.recordKeys_cons]
    simp

/-- A staged row is recorded when its keys can be built. -/
theorem recordRowWriteLocked_eq_ok {table : LiteTableDef} {row : LiteRow} :
    recordRowWriteLocked table row t = .ok u t' ↔
      ∃ keys, rowWriteKeys table row = .ok keys ∧ t.recordKeys keys = t' := by
  simp only [recordRowWriteLocked, rowWriteKeys, recordWriteKeyLocked, stateful.bind_eq_ok,
    lift_eq_ok, modify_eq_ok, recordUniqueKeys_eq_ok, recordIndexKeys_eq_ok,
    bind_eq_ok, Except.ok.injEq]
  constructor
  · rintro ⟨key, _, ⟨hkey, rfl⟩, _, m, rfl, _, n, ⟨keys, hkeys, rfl⟩, entries, _,
      ⟨hentries, rfl⟩, rfl⟩
    refine ⟨_, ⟨key, hkey, keys, hkeys, entries, hentries, rfl⟩, ?_⟩
    rw [TxnTable.recordKeys_cons, TxnTable.recordKeys_append]
  · rintro ⟨_, ⟨key, hkey, keys, hkeys, entries, hentries, rfl⟩, rfl⟩
    refine ⟨key, t, ⟨hkey, rfl⟩, (), _, rfl, (), _, ⟨keys, hkeys, rfl⟩, entries, _,
      ⟨hentries, rfl⟩, ?_⟩
    rw [TxnTable.recordKeys_cons, TxnTable.recordKeys_append]

/-! ## One row at a time -/

inductive StageEvent
  | insert (row : Row)
  | update (u : LiteRowMutation)
  | delete (row : LiteRow)

/-- The row that an event names: it must be there for the event to make sense. -/
def StageEvent.named : StageEvent → Option LiteRow
  | .insert _ => none
  | .update u => some u.before
  | .delete row => some row

def PendingTable.insert (p : PendingTable) (row : Row) : PendingTable :=
  { p with nextRowId := p.nextRowId + 1, rows := p.rows ++ [⟨p.nextRowId, row⟩] }

/-- What one row does to the staged lists. -/
def PendingTable.stage (p : PendingTable) : StageEvent → Except String PendingTable
  | .insert row => do
    let _ ← rowWriteKeys p.table ⟨p.nextRowId, row⟩
    .ok (p.insert row)
  | .update u => do
    let _ ← rowWriteKeys p.table u.before
    let _ ← rowWriteKeys p.table u.afterRow
    .ok (p.mergeUpdate u)
  | .delete row => do
    let _ ← rowWriteKeys p.table row
    p.mergeDelete row

def stageAll : PendingTable → List StageEvent → Except String PendingTable
  | p, [] => .ok p
  | p, event :: rest => do
    let q ← p.stage event
    stageAll q rest

theorem stageAll_append {events more : List StageEvent} (h : stageAll p events = .ok q) :
    stageAll p (events ++ more) = stageAll q more := by
  induction events generalizing p with
  | nil =>
    simp only [stageAll, Except.ok.injEq] at h
    subst h
    rfl
  | cons event rest ih =>
    simp only [stageAll, bind_eq_ok] at h
    obtain ⟨mid, hmid, hrest⟩ := h
    simp only [List.cons_append, stageAll, hmid, ok_bind]
    exact ih hrest

def loadPending (table : LiteTableDef) : PendingTable := { table, nextRowId := table.nextRowId }

/-- The staged lists of a table; a table that was not touched has none. -/
def TxnTable.pendingD (t : TxnTable) : PendingTable := t.pending.getD (loadPending t.table)

/-- The events lead from one state of the transaction to another. -/
structure Staged (t : TxnTable) (events : List StageEvent) (t' : TxnTable) : Prop where
  table : t'.table = t.table
  snapshot : t'.snapshot = t.snapshot
  staged : stageAll t.pendingD events = .ok t'.pendingD

theorem Staged.refl (t : TxnTable) : Staged t [] t := ⟨rfl, rfl, rfl⟩

theorem Staged.trans {u v : TxnTable} {events more : List StageEvent} (h : Staged t events u)
    (h' : Staged u more v) : Staged t (events ++ more) v :=
  ⟨h'.table.trans h.table, h'.snapshot.trans h.snapshot,
    (stageAll_append h.staged).trans h'.staged⟩

/-- One event, recorded and written back. -/
theorem staged_single {m : TxnTable} (htable : m.table = t.table)
    (hsnapshot : m.snapshot = t.snapshot) (hq : t.pendingD.stage event = .ok q) :
    Staged t [event] { m with pending := some q } :=
  ⟨htable, hsnapshot, by simp only [stageAll, hq, ok_bind]; rfl⟩

theorem pendingTable_eq_ok (h : pendingTable (.ok t.table) t = .ok p t') :
    Staged t [] t' ∧ t'.pendingD = p := by
  simp only [pendingTable, stateful.bind_eq_ok, get_eq_ok] at h
  obtain ⟨_, _, ⟨rfl, rfl⟩, h⟩ := h
  cases hp : t.pending with
  | some q =>
    rw [hp] at h
    obtain ⟨rfl, rfl⟩ := pure_eq_ok.mp h
    exact ⟨Staged.refl t, by simp [TxnTable.pendingD, hp]⟩
  | none =>
    rw [hp] at h
    simp only [setPending, stateful.bind_eq_ok, lift_eq_ok, Except.ok.injEq,
      modify_eq_ok, pure_eq_ok] at h
    obtain ⟨_, _, ⟨rfl, rfl⟩, _, _, rfl, rfl, rfl⟩ := h
    exact ⟨⟨rfl, rfl, by simp [stageAll, TxnTable.pendingD, hp, loadPending]⟩, rfl⟩

theorem stageInsert_eq_ok (hp : t.pendingD = p) (h : stageInsert p row t = .ok p' t') :
    Staged t [.insert row] t' ∧ t'.pendingD = p' := by
  simp only [stageInsert, setPending, stateful.bind_eq_ok, modify_eq_ok,
    recordRowWriteLocked_eq_ok, pure_eq_ok] at h
  obtain ⟨_, _, rfl, _, m, ⟨keys, hkeys, rfl⟩, _, _, rfl, rfl, rfl⟩ := h
  have hrec := recorded_recordKeys { t with pending := some { p with nextRowId := p.nextRowId + 1 } }
    keys
  refine ⟨staged_single hrec.table hrec.snapshot ?_, rfl⟩
  simp only [hp, PendingTable.stage, hkeys, ok_bind, PendingTable.insert]

theorem stageUpdate_eq_ok {u : LiteRowMutation} (hp : t.pendingD = p)
    (h : stageUpdate p u t = .ok p' t') : Staged t [.update u] t' ∧ t'.pendingD = p' := by
  simp only [stageUpdate, setPending, stateful.bind_eq_ok, withError_eq_ok,
    modify_eq_ok, recordRowWriteLocked_eq_ok, pure_eq_ok] at h
  obtain ⟨_, _, ⟨before, hbefore, rfl⟩, _, _, ⟨after, hafter, rfl⟩, _, _, rfl, rfl, rfl⟩ := h
  have hrec := (recorded_recordKeys t before).trans (recorded_recordKeys _ after)
  refine ⟨staged_single hrec.table hrec.snapshot ?_, rfl⟩
  simp only [hp, PendingTable.stage, hbefore, hafter, ok_bind]

theorem stageDelete_eq_ok {row : LiteRow} (hp : t.pendingD = p)
    (h : stageDelete p row t = .ok p' t') : Staged t [.delete row] t' ∧ t'.pendingD = p' := by
  simp only [stageDelete, setPending, stateful.bind_eq_ok, lift_eq_ok,
    modify_eq_ok, recordRowWriteLocked_eq_ok, pure_eq_ok] at h
  obtain ⟨_, _, ⟨keys, hkeys, rfl⟩, q, _, ⟨hq, rfl⟩, _, _, rfl, rfl, rfl⟩ := h
  have hrec := recorded_recordKeys t keys
  refine ⟨staged_single hrec.table hrec.snapshot ?_, rfl⟩
  simp only [hp, PendingTable.stage, hkeys, ok_bind, hq]

/-- The loop over the rows of a call, one event for each row. -/
theorem stageEach_eq_ok {α : Type} (one : PendingTable → α → TxnStep PendingTable)
    (event : α → StageEvent) (hone : ∀ {t t' p p' a}, t.pendingD = p → one p a t = .ok p' t' →
      Staged t [event a] t' ∧ t'.pendingD = p') {l : List α} (hp : t.pendingD = p)
    (h : stageEach one p l t = .ok u t') : Staged t (l.map event) t' := by
  induction l generalizing p t with
  | nil =>
    obtain ⟨-, rfl⟩ := pure_eq_ok.mp h
    exact Staged.refl t
  | cons a rest ih =>
    simp only [stageEach, stateful.bind_eq_ok] at h
    obtain ⟨q, m, hfirst, hrest⟩ := h
    obtain ⟨hstaged, hq⟩ := hone hp hfirst
    exact hstaged.trans (ih hq hrest)

/-! ## Calls -/

/-- The calls that change a table in a transaction. -/
inductive TxnCall
  | insertRow (row : Row)
  | insertRows (rows : List Row)
  | updateRows (mutations : List LiteRowMutation)
  | deleteRows (rows : List LiteRow)
  | upsertRow (row : Row)

def TxnCall.run (loaded : Except String LiteTableDef) : TxnCall → TxnStep Unit
  | .insertRow row => do
    let _ ← LiteTxnContext.insertRow loaded row
  | .insertRows rows => LiteTxnContext.insertRows loaded rows
  | .updateRows mutations => LiteTxnContext.updateRows loaded mutations
  | .deleteRows rows => LiteTxnContext.deleteRows loaded rows
  | .upsertRow row => do
    let _ ← LiteTxn.upsertRow loaded row

def runCalls (loaded : Except String LiteTableDef) : List TxnCall → TxnStep Unit
  | [] => pure ()
  | call :: rest => do
    call.run loaded
    runCalls loaded rest

/-- The row that a lookup finds. -/
def TxnTable.findRow (t : TxnTable) (storageKey : Bytes) : Except String (Option LiteRow) := do
  match ← (match t.pending with
    | none => .ok none
    | some p => p.answer storageKey : Except String (Option (Option LiteRow))) with
  | some found => .ok found
  | none => storedRowByKey t.snapshot storageKey

theorem getRowByKey_eq_ok {storageKey : Bytes} {found : Option LiteRow} :
    LiteTxnContext.getRowByKey storageKey t = .ok found t' ↔
      t.findRow storageKey = .ok found ∧
        { t with readRanges := ⟨storageKey, storageKey, false⟩ :: t.readRanges } = t' := by
  simp only [LiteTxnContext.getRowByKey, recordReadPointLocked, TxnTable.findRow,
    stateful.bind_eq_ok, modify_eq_ok, get_eq_ok, lift_eq_ok, bind_eq_ok]
  constructor
  · rintro ⟨_, _, rfl, _, _, ⟨rfl, rfl⟩, answer, _, ⟨hanswer, rfl⟩, h⟩
    cases answer with
    | some r =>
      obtain ⟨rfl, rfl⟩ := pure_eq_ok.mp h
      exact ⟨⟨_, hanswer, rfl⟩, rfl⟩
    | none =>
      obtain ⟨hbase, rfl⟩ := lift_eq_ok.mp h
      exact ⟨⟨_, hanswer, hbase⟩, rfl⟩
  · rintro ⟨⟨answer, hanswer, h⟩, rfl⟩
    refine ⟨(), _, rfl, _, _, ⟨rfl, rfl⟩, answer, _, ⟨hanswer, rfl⟩, ?_⟩
    cases answer with
    | some r => exact pure_eq_ok.mpr ⟨Except.ok.inj h, rfl⟩
    | none => exact lift_eq_ok.mpr ⟨h, rfl⟩

/-- The single stages of a call. An upsert updates the row that its key finds. -/
def TxnCall.events (t : TxnTable) : TxnCall → List StageEvent
  | .insertRow row => [.insert row]
  | .insertRows rows => rows.map .insert
  | .updateRows mutations => mutations.map .update
  | .deleteRows rows => rows.map .delete
  | .upsertRow row =>
    match liteBuildPrimaryKey t.table row.bytes with
    | .error _ => []
    | .ok key =>
      match t.findRow key with
      | .ok (some existing) => [.update ⟨existing, row⟩]
      | _ => [.insert row]

theorem insertRow_staged {rowId : UInt64}
    (h : LiteTxnContext.insertRow (.ok t.table) row t = .ok rowId t') :
    Staged t [.insert row] t' := by
  simp only [LiteTxnContext.insertRow, stateful.bind_eq_ok, lift_eq_ok, pure_eq_ok] at h
  obtain ⟨p, m, hload, _, _, ⟨-, rfl⟩, q, _, hstage, -, rfl⟩ := h
  obtain ⟨hload, hp⟩ := pendingTable_eq_ok hload
  exact hload.trans (stageInsert_eq_ok hp hstage).1

theorem updateRows_staged {us : List LiteRowMutation}
    (h : LiteTxnContext.updateRows (.ok t.table) us t = .ok u t') :
    Staged t (us.map .update) t' := by
  simp only [LiteTxnContext.updateRows, stateful.bind_eq_ok] at h
  obtain ⟨p, m, hload, hrest⟩ := h
  obtain ⟨hload, hp⟩ := pendingTable_eq_ok hload
  exact hload.trans (stageEach_eq_ok stageUpdate .update stageUpdate_eq_ok hp hrest)

/-- A lookup changes only what was read. -/
theorem Staged.of_read {ranges : List OccReadRange} {events : List StageEvent}
    (h : Staged { t with readRanges := ranges } events t') : Staged t events t' :=
  ⟨h.table, h.snapshot, h.staged⟩

theorem upsertRow_staged {rowId : UInt64}
    (h : LiteTxn.upsertRow (.ok t.table) row t = .ok rowId t') :
    Staged t (TxnCall.events t (.upsertRow row)) t' := by
  simp only [LiteTxn.upsertRow, stateful.bind_eq_ok, get_eq_ok, lift_eq_ok, getRowByKey_eq_ok] at h
  obtain ⟨_, _, ⟨rfl, rfl⟩, _, _, ⟨-, rfl⟩, key, _, ⟨hkey, rfl⟩, found, _, ⟨hfound, rfl⟩, h⟩ := h
  simp only [TxnCall.events, hkey, hfound]
  cases found with
  | none => exact (insertRow_staged h).of_read
  | some existing =>
    simp only [stateful.bind_eq_ok, pure_eq_ok] at h
    obtain ⟨_, _, h, -, rfl⟩ := h
    exact (updateRows_staged h).of_read

/-- A successful call does its stages. -/
theorem call_staged {call : TxnCall} (h : call.run (.ok t.table) t = .ok u t') :
    Staged t (call.events t) t' := by
  cases call with
  | insertRow row =>
    simp only [TxnCall.run, stateful.bind_eq_ok, pure_eq_ok] at h
    obtain ⟨_, _, h, -, rfl⟩ := h
    exact insertRow_staged h
  | insertRows rows =>
    simp only [TxnCall.run, LiteTxnContext.insertRows] at h
    split at h
    · rename_i hempty
      obtain ⟨-, rfl⟩ := pure_eq_ok.mp h
      rw [List.isEmpty_iff.mp hempty]
      exact Staged.refl t
    · simp only [stateful.bind_eq_ok] at h
      obtain ⟨p, m, hload, hrest⟩ := h
      obtain ⟨hload, hp⟩ := pendingTable_eq_ok hload
      exact hload.trans (stageEach_eq_ok stageInsert .insert stageInsert_eq_ok hp hrest)
  | updateRows us =>
    rw [TxnCall.run] at h
    exact updateRows_staged h
  | deleteRows rows =>
    simp only [TxnCall.run, LiteTxnContext.deleteRows, stateful.bind_eq_ok] at h
    obtain ⟨p, m, hload, hrest⟩ := h
    obtain ⟨hload, hp⟩ := pendingTable_eq_ok hload
    exact hload.trans (stageEach_eq_ok stageDelete .delete stageDelete_eq_ok hp hrest)
  | upsertRow row =>
    simp only [TxnCall.run, stateful.bind_eq_ok, pure_eq_ok] at h
    obtain ⟨_, _, h, -, rfl⟩ := h
    exact upsertRow_staged h

/-! ## Runs -/

/-- Each event names a row as the staged lists in front of it allow. -/
def NamesAll (named : PendingTable → LiteRow → Prop) : PendingTable → List StageEvent → Prop
  | _, [] => True
  | p, event :: rest => (∀ row ∈ event.named, named p row) ∧
    match p.stage event with
    | .ok q => NamesAll named q rest
    | .error _ => True

/-- The rows that a call names. An upsert names no row: it looks the row up. -/
def TxnCall.Names (named : PendingTable → LiteRow → Prop) (t : TxnTable) : TxnCall → Prop
  | .upsertRow _ => True
  | call => NamesAll named t.pendingD (call.events t)

def RunNames (named : PendingTable → LiteRow → Prop) : TxnTable → List TxnCall → Prop
  | _, [] => True
  | t, call :: rest => call.Names named t ∧
    match call.run (.ok t.table) t with
    | .ok _ t' => RunNames named t' rest
    | .error _ _ => True

variable {named : PendingTable → LiteRow → Prop} {P : PendingTable → Prop}

instance decidableNamesAll [∀ p row, Decidable (named p row)] :
    ∀ (p : PendingTable) (events : List StageEvent), Decidable (NamesAll named p events)
  | _, [] => .isTrue trivial
  | p, event :: rest =>
    have : Decidable (match p.stage event with
        | .ok q => NamesAll named q rest
        | .error _ => True) :=
      match p.stage event with
      | .ok q => decidableNamesAll q rest
      | .error _ => .isTrue trivial
    inferInstanceAs (Decidable (_ ∧ _))

instance decidableCallNames [∀ p row, Decidable (named p row)] (t : TxnTable) :
    ∀ call : TxnCall, Decidable (call.Names named t)
  | .upsertRow _ => .isTrue trivial
  | .insertRow row => decidableNamesAll _ (TxnCall.events t (.insertRow row))
  | .insertRows rows => decidableNamesAll _ (TxnCall.events t (.insertRows rows))
  | .updateRows us => decidableNamesAll _ (TxnCall.events t (.updateRows us))
  | .deleteRows rows => decidableNamesAll _ (TxnCall.events t (.deleteRows rows))

instance decidableRunNames [∀ p row, Decidable (named p row)] :
    ∀ (t : TxnTable) (calls : List TxnCall), Decidable (RunNames named t calls)
  | _, [] => .isTrue trivial
  | t, call :: rest =>
    have : Decidable (match call.run (.ok t.table) t with
        | .ok _ t' => RunNames named t' rest
        | .error _ _ => True) :=
      match call.run (.ok t.table) t with
      | .ok _ t' => decidableRunNames t' rest
      | .error _ _ => .isTrue trivial
    inferInstanceAs (Decidable (_ ∧ _))

theorem NamesAll.rest {rest : List StageEvent} (h : NamesAll named p (event :: rest))
    (hq : p.stage event = .ok q) : NamesAll named q rest := by
  have htail := h.2
  rw [hq] at htail
  exact htail

theorem RunNames.rest {call : TxnCall} {rest : List TxnCall} (h : RunNames named t (call :: rest))
    (ht : call.run (.ok t.table) t = .ok u t') : RunNames named t' rest := by
  have htail := h.2
  rw [ht] at htail
  exact htail

theorem stageAll_invariant
    (hstep : ∀ {p q event}, P p → (∀ row ∈ event.named, named p row) → p.stage event = .ok q → P q)
    {events : List StageEvent} (hP : P p) (hnamed : NamesAll named p events)
    (h : stageAll p events = .ok q) : P q := by
  induction events generalizing p with
  | nil =>
    simp only [stageAll, Except.ok.injEq] at h
    exact h ▸ hP
  | cons event rest ih =>
    simp only [stageAll, bind_eq_ok] at h
    obtain ⟨mid, hmid, hrest⟩ := h
    exact ih (hstep hP hnamed.1 hmid) (hnamed.rest hmid) hrest

theorem namesAll_single (h : ∀ row ∈ event.named, named p row) : NamesAll named p [event] := by
  refine ⟨h, ?_⟩
  split <;> trivial

/-- What the lookup of an upsert finds may be named. -/
def LookupNames (named : PendingTable → LiteRow → Prop) (P : PendingTable → Prop)
    (table : LiteTableDef) (snapshot : RecordMap) : Prop :=
  ∀ t : TxnTable, t.table = table → t.snapshot = snapshot → P t.pendingD →
    ∀ (row : Row) (key : Bytes) (found : LiteRow), liteBuildPrimaryKey table row.bytes = .ok key →
      t.findRow key = .ok (some found) → named t.pendingD found

theorem names_of_upsert (hlookup : LookupNames named P t.table t.snapshot) (hP : P t.pendingD) :
    NamesAll named t.pendingD (TxnCall.events t (.upsertRow row)) := by
  simp only [TxnCall.events]
  cases hkey : liteBuildPrimaryKey t.table row.bytes with
  | error e => trivial
  | ok key =>
    have hinsert : NamesAll named t.pendingD [.insert row] :=
      namesAll_single fun r hr => by simp [StageEvent.named] at hr
    cases hfound : t.findRow key with
    | error e =>
      simp only [hfound]
      exact hinsert
    | ok found =>
      cases found with
      | none =>
        simp only [hfound]
        exact hinsert
      | some existing =>
        simp only [hfound]
        refine namesAll_single fun r hr => ?_
        simp only [StageEvent.named, Option.mem_def, Option.some.injEq] at hr
        subst hr
        exact hlookup t rfl rfl hP row key existing hkey hfound

/-- A law that every stage keeps holds after every run of calls. -/
theorem runCalls_invariant {calls : List TxnCall}
    (hstep : ∀ {p q event}, P p → (∀ row ∈ event.named, named p row) → p.stage event = .ok q → P q)
    (hlookup : LookupNames named P t.table t.snapshot) (hP : P t.pendingD)
    (hnamed : RunNames named t calls) (h : runCalls (.ok t.table) calls t = .ok u t') :
    P t'.pendingD ∧ t'.table = t.table ∧ t'.snapshot = t.snapshot := by
  induction calls generalizing t with
  | nil =>
    obtain ⟨-, rfl⟩ := pure_eq_ok.mp h
    exact ⟨hP, rfl, rfl⟩
  | cons call rest ih =>
    simp only [runCalls, stateful.bind_eq_ok] at h
    obtain ⟨_, m, hcall, hrest⟩ := h
    have hstaged := call_staged hcall
    have hnames : NamesAll named t.pendingD (call.events t) := by
      cases call with
      | upsertRow row => exact names_of_upsert hlookup hP
      | insertRow row | insertRows rows | updateRows us | deleteRows rows => exact hnamed.1
    have hm := stageAll_invariant hstep hP hnames hstaged.staged
    rw [← hstaged.table] at hrest
    obtain ⟨hP', htable, hsnapshot⟩ := ih
      (by rw [hstaged.table, hstaged.snapshot]; exact hlookup) hm (hnamed.rest hcall) hrest
    exact ⟨hP', htable.trans hstaged.table, hsnapshot.trans hstaged.snapshot⟩

theorem namesAll_of_forall (h : ∀ p row, named p row) (p : PendingTable)
    (events : List StageEvent) : NamesAll named p events := by
  induction events generalizing p with
  | nil => trivial
  | cons event rest ih =>
    refine ⟨fun row _ => h p row, ?_⟩
    split
    · exact ih _
    · trivial

theorem runNames_of_forall (h : ∀ p row, named p row) (t : TxnTable) (calls : List TxnCall) :
    RunNames named t calls := by
  induction calls generalizing t with
  | nil => trivial
  | cons call rest ih =>
    refine ⟨?_, ?_⟩
    · cases call with
      | upsertRow row => trivial
      | insertRow row | insertRows rows | updateRows us | deleteRows rows =>
        exact namesAll_of_forall h _ _
    · split
      · exact ih _
      · trivial

end litestore
