-- What a call leaves behind when it fails. The bulk calls of a transaction stage one row after
-- the other, and each row records its keys before it is staged. A row that is refused ends the
-- call, and nothing takes back what the call did before.
import LiteStore.TxnView

namespace litestore

open checked List Mutations
open stateful hiding bind_eq_ok

/-! ## The keys that a row records -/

/-- The unique keys of a row, up to the first that cannot be built. -/
def uniqueKeysUpTo (table : LiteTableDef) (row : Bytes) : List (List Nat) → Nat → List Bytes
  | [], _ => []
  | columns :: rest, ordinal =>
    match liteBuildUniqueKey table row columns ordinal with
    | .ok key => key.toList ++ uniqueKeysUpTo table row rest (ordinal + 1)
    | .error _ => []

section

variable (table : LiteTableDef) (row : LiteRow)

/-- The index keys of a row come last, when all of its unique keys can be built. -/
def indexKeysUpTo (row rowKey : Bytes) : List Bytes :=
  match uniqueKeysOf table row, buildSecondaryIndexEntries table row rowKey with
  | .ok _, .ok entries => entries.map (·.key)
  | _, _ => []

/-- The keys that a row records, also when some of its keys cannot be built. -/
def writtenKeys : List Bytes :=
  match rowStorageKey table row with
  | .ok rowKey => rowKey :: (uniqueKeysUpTo table row.value.bytes table.uniqueKeyColumns 0 ++
      indexKeysUpTo table row.value.bytes rowKey)
  | .error _ => []

/-- All keys of the row can be built. -/
def keysBuildable : Bool := (rowWriteKeys table row).isOk

theorem recordUniqueKeys_eq (row : Bytes) (constraints : List (List Nat)) (ordinal : Nat)
    (t : TxnTable) : recordUniqueKeys table row constraints ordinal t =
      stateful.lift ((uniqueKeysFrom table row constraints ordinal).map fun _ => ())
        (t.recordKeys (uniqueKeysUpTo table row constraints ordinal)) := by
  induction constraints generalizing ordinal t with
  | nil => rfl
  | cons columns rest ih =>
    unfold recordUniqueKeys uniqueKeysUpTo uniqueKeysFrom
    cases liteBuildUniqueKey table row columns ordinal with
    | error e => rfl
    | ok key =>
      rw [bind_of_ok (lift_ok key t), bind_of_ok ((recordBuiltKey_eq_ok (u := ())).mpr rfl), ih]
      simp only [ok_bind, TxnTable.recordKeys_append]
      cases uniqueKeysFrom table row rest (ordinal + 1) <;> rfl

/-- A row records its keys up to the first that cannot be built, and the call ends there. -/
theorem recordRowWriteLocked_eq (t : TxnTable) : recordRowWriteLocked table row t =
      stateful.lift ((rowWriteKeys table row).map fun _ => ())
        (t.recordKeys (writtenKeys table row)) := by
  unfold recordRowWriteLocked writtenKeys rowWriteKeys indexKeysUpTo uniqueKeysOf
  cases rowStorageKey table row with
  | error e => rfl
  | ok rowKey =>
    rw [bind_of_ok (lift_ok rowKey t)]
    have hfirst : recordWriteKeyLocked rowKey t = .ok () (t.recordKey rowKey) := rfl
    have hunique := recordUniqueKeys_eq table row.value.bytes table.uniqueKeyColumns 0
      (t.recordKey rowKey)
    rw [bind_of_ok hfirst]
    simp only [ok_bind, TxnTable.recordKeys_cons]
    cases hkeys : uniqueKeysFrom table row.value.bytes table.uniqueKeyColumns 0 with
    | error e =>
      rw [hkeys] at hunique
      rw [bind_of_error hunique, append_nil]
      rfl
    | ok keys =>
      rw [hkeys] at hunique
      rw [bind_of_ok hunique]
      simp only [ok_bind]
      cases buildSecondaryIndexEntries table row.value.bytes rowKey with
      | error e =>
        simp only [append_nil]
        rfl
      | ok entries =>
        rw [bind_of_ok (lift_ok entries _), recordIndexKeys_eq_ok.mpr rfl,
          TxnTable.recordKeys_append]
        rfl

end

variable {table : LiteTableDef} {row first : LiteRow} {t : TxnTable} {keys : List Bytes}
  {u : LiteRowMutation} {e : String} {p q : PendingTable} {loaded : Except String LiteTableDef}
  {rows front : List LiteRow} {ups us : List LiteRowMutation}

theorem recordRowWriteLocked_of_ok (h : rowWriteKeys table row = .ok keys) (t : TxnTable) :
    recordRowWriteLocked table row t = .ok () (t.recordKeys (writtenKeys table row)) := by
  rw [recordRowWriteLocked_eq, h]
  rfl

theorem recordRowWriteLocked_of_error (h : rowWriteKeys table row = .error e) (t : TxnTable) :
    recordRowWriteLocked table row t = .error e (t.recordKeys (writtenKeys table row)) := by
  rw [recordRowWriteLocked_eq, h]
  rfl

theorem mem_writeKeys_recordKeys {key : Bytes} :
    key ∈ (t.recordKeys keys).writeKeys ↔ key ∈ keys ∨ key ∈ t.writeKeys := by
  induction keys generalizing t with
  | nil => simp
  | cons first keys ih =>
    rw [TxnTable.recordKeys_cons, ih, mem_cons]
    show _ ∨ key ∈ first :: t.writeKeys ↔ _
    rw [mem_cons]
    tauto

/-! ## One row of a call -/

/-- The rows whose keys an event records, in order. -/
def StageEvent.images (p : PendingTable) : StageEvent → List LiteRow
  | .insert row => [⟨p.nextRowId, row⟩]
  | .update u => [u.before, u.afterRow]
  | .delete row => [row]

/-- The keys that these rows record, up to the first that cannot be built. -/
def imageKeys (table : LiteTableDef) : List LiteRow → List Bytes
  | [] => []
  | row :: rest =>
    writtenKeys table row ++ if keysBuildable table row then imageKeys table rest else []

theorem imageKeys_single (table : LiteTableDef) (row : LiteRow) :
    imageKeys table [row] = writtenKeys table row := by
  rw [imageKeys, imageKeys, ite_self, append_nil]

/-- The three lists of a transaction. -/
def TxnTable.lists (t : TxnTable) : Mutations := (t.pending.map PendingTable.mutations).getD {}

/-- A step that adds keys to the write set, in the same snapshot. -/
def Adds (t t' : TxnTable) (keys : List Bytes) : Prop :=
  t'.snapshot = t.snapshot ∧ ∀ key, key ∈ t'.writeKeys ↔ key ∈ keys ∨ key ∈ t.writeKeys

theorem adds_recordKeys (t : TxnTable) (keys : List Bytes) (pending : Option PendingTable) :
    Adds t { t.recordKeys keys with pending } keys :=
  ⟨(recorded_recordKeys t keys).snapshot, fun _ => mem_writeKeys_recordKeys⟩

theorem Adds.trans {u v : TxnTable} {more : List Bytes} (h : Adds t u keys) (h' : Adds u v more) :
    Adds t v (keys ++ more) := by
  refine ⟨h'.1.trans h.1, fun key => ?_⟩
  rw [h'.2, h.2, mem_append]
  tauto

theorem keysBuildable_of_ok (h : rowWriteKeys table row = .ok keys) :
    keysBuildable table row = true := by
  rw [keysBuildable, h]
  rfl

theorem keysBuildable_of_error (h : rowWriteKeys table row = .error e) :
    keysBuildable table row = false := by
  rw [keysBuildable, h]
  rfl

/-- What a call does for one of its rows: it stages the row, or leaves the lists as they are. -/
structure Stages {α : Type} (one : PendingTable → α → TxnStep PendingTable)
    (event : α → StageEvent) : Prop where
  ok : ∀ {p q : PendingTable} {a : α} {t : TxnTable}, t.pending = some p →
    p.stage (event a) = .ok q → ∃ t', one p a t = .ok q t' ∧ t'.pending = some q ∧
      Adds t t' (imageKeys p.table ((event a).images p))
  error : ∀ {p : PendingTable} {a : α} {t : TxnTable} {e : String}, t.pending = some p →
    p.stage (event a) = .error e → ∃ e' t', one p a t = .error e' t' ∧ t'.lists = p.mutations ∧
      Adds t t' (imageKeys p.table ((event a).images p))

/-- The end of each row: the new lists are put back. -/
def putPending (p : PendingTable) : TxnStep PendingTable := do
  setPending p
  pure p

theorem putPending_eq (p : PendingTable) (t : TxnTable) :
    putPending p t = .ok p { t with pending := some p } := rfl

theorem lists_eq (h : t.pending = some p) : t.lists = p.mutations := by
  rw [TxnTable.lists, h]
  rfl

theorem lists_recordKeys (h : t.pending = some p) (keys : List Bytes) :
    (t.recordKeys keys).lists = p.mutations :=
  lists_eq ((recorded_recordKeys t keys).pending.trans h)

/-- A row that fails leaves nothing but the keys that it recorded. -/
theorem error_recordKeys (hp : t.pending = some p)
    {result : EStateM.Result String TxnTable PendingTable}
    (h : result = .error e (t.recordKeys keys)) : ∃ e' t', result = .error e' t' ∧
      t'.lists = p.mutations ∧ Adds t t' keys :=
  ⟨e, _, h, lists_recordKeys hp _, adds_recordKeys t _ (TxnTable.recordKeys _ _).pending⟩

theorem stages_insert : Stages stageInsert .insert := by
  have hone : ∀ p row t, stageInsert p row t =
      (recordRowWriteLocked p.table ⟨p.nextRowId, row⟩ >>= fun _ => putPending (p.insert row))
        { t with pending := some { p with nextRowId := p.nextRowId + 1 } } := fun _ _ _ => rfl
  constructor
  · intro p q row t hp h
    simp only [PendingTable.stage, bind_eq_ok, Except.ok.injEq] at h
    obtain ⟨keys, hkeys, rfl⟩ := h
    rw [hone, bind_of_ok (recordRowWriteLocked_of_ok hkeys _), putPending_eq]
    refine ⟨_, rfl, rfl, ?_⟩
    rw [StageEvent.images, imageKeys_single]
    exact adds_recordKeys { t with pending := some { p with nextRowId := p.nextRowId + 1 } } _ _
  · intro p row t e hp h
    cases hkeys : rowWriteKeys p.table ⟨p.nextRowId, row⟩ with
    | ok keys =>
      rw [PendingTable.stage, hkeys] at h
      cases h
    | error e' =>
      rw [hone, bind_of_error (recordRowWriteLocked_of_error hkeys _)]
      refine ⟨e', _, rfl, ?_, ?_⟩
      · exact lists_recordKeys (p := { p with nextRowId := p.nextRowId + 1 }) rfl _
      · rw [StageEvent.images, imageKeys_single]
        exact adds_recordKeys { t with pending := some { p with nextRowId := p.nextRowId + 1 } } _
          (TxnTable.recordKeys _ _).pending

theorem stages_update : Stages stageUpdate .update := by
  have hone : ∀ p u t, stageUpdate p u t =
      (stateful.withError ("record OCC before-image keys: " ++ ·)
          (recordRowWriteLocked p.table u.before) >>= fun _ =>
        stateful.withError ("record OCC after-image keys: " ++ ·)
          (recordRowWriteLocked p.table u.afterRow) >>= fun _ =>
        putPending (p.mergeUpdate u)) t := fun _ _ _ => rfl
  constructor
  · intro p q u t hp h
    simp only [PendingTable.stage, bind_eq_ok, Except.ok.injEq] at h
    obtain ⟨before, hbefore, after, hafter, rfl⟩ := h
    have hfirst := recordRowWriteLocked_of_ok hbefore t
    have hsecond := recordRowWriteLocked_of_ok hafter (t.recordKeys (writtenKeys p.table u.before))
    rw [hone, bind_of_ok (withError_eq_ok.mpr hfirst),
      bind_of_ok (withError_eq_ok.mpr hsecond), putPending_eq]
    refine ⟨_, rfl, rfl, ?_⟩
    rw [StageEvent.images, imageKeys, keysBuildable_of_ok hbefore, if_pos rfl, imageKeys_single,
      ← TxnTable.recordKeys_append]
    exact adds_recordKeys t _ _
  · intro p u t e hp h
    cases hbefore : rowWriteKeys p.table u.before with
    | error e' =>
      have hrecord := recordRowWriteLocked_of_error hbefore t
      rw [hone, bind_of_error (withError_of_error hrecord), StageEvent.images, imageKeys,
        keysBuildable_of_error hbefore, if_neg (by decide), append_nil]
      exact error_recordKeys hp rfl
    | ok before =>
      cases hafter : rowWriteKeys p.table u.afterRow with
      | ok after =>
        rw [PendingTable.stage, hbefore, hafter] at h
        cases h
      | error e' =>
        have hfirst := recordRowWriteLocked_of_ok hbefore t
        have hrecord := recordRowWriteLocked_of_error hafter
          (t.recordKeys (writtenKeys p.table u.before))
        rw [hone, bind_of_ok (withError_eq_ok.mpr hfirst), bind_of_error (withError_of_error
          hrecord), ← TxnTable.recordKeys_append, StageEvent.images, imageKeys,
          keysBuildable_of_ok hbefore, if_pos rfl, imageKeys_single]
        exact error_recordKeys hp rfl

theorem stages_delete : Stages stageDelete .delete := by
  have hone : ∀ p row t, stageDelete p row t =
      (recordRowWriteLocked p.table row >>= fun _ =>
        stateful.lift (p.mergeDelete row) >>= putPending) t := fun _ _ _ => rfl
  constructor
  · intro p q row t hp h
    simp only [PendingTable.stage, bind_eq_ok] at h
    obtain ⟨keys, hbuilt, hmerge⟩ := h
    rw [hone, bind_of_ok (recordRowWriteLocked_of_ok hbuilt t), hmerge,
      bind_of_ok (lift_ok q _), putPending_eq]
    refine ⟨_, rfl, rfl, ?_⟩
    rw [StageEvent.images, imageKeys_single]
    exact adds_recordKeys t _ _
  · intro p row t e hp h
    cases hbuilt : rowWriteKeys p.table row with
    | error e' =>
      rw [hone, bind_of_error (recordRowWriteLocked_of_error hbuilt t), StageEvent.images,
        imageKeys_single]
      exact error_recordKeys hp rfl
    | ok keys =>
      have hmerge : p.mergeDelete row = .error e := by
        rw [PendingTable.stage, hbuilt] at h
        exact h
      rw [hone, bind_of_ok (recordRowWriteLocked_of_ok hbuilt t), hmerge,
        bind_of_error (lift_error e _), StageEvent.images, imageKeys_single]
      exact error_recordKeys hp rfl

/-! ## A call -/

/-- The keys that the events record, as far as they get. -/
def runKeys : PendingTable → List StageEvent → List Bytes
  | _, [] => []
  | p, event :: rest => imageKeys p.table (event.images p) ++
      match p.stage event with
      | .ok q => runKeys q rest
      | .error _ => []

namespace Stages

variable {α : Type} {one : PendingTable → α → TxnStep PendingTable} {event : α → StageEvent}

theorem loop_ok (h : Stages one event) {l : List α} (hp : t.pending = some p)
    (hl : stageAll p (l.map event) = .ok q) : ∃ t', stageEach one p l t = .ok () t' := by
  induction l generalizing p t with
  | nil => exact ⟨t, rfl⟩
  | cons a rest ih =>
    simp only [map_cons, stageAll, bind_eq_ok] at hl
    obtain ⟨m, hm, hrest⟩ := hl
    obtain ⟨u, hone, hu, -⟩ := h.ok hp hm
    rw [stageEach, bind_of_ok hone]
    exact ih hu hrest

/-- The rows before the refused one stay staged. -/
theorem loop_error (h : Stages one event) {front back : List α} {a : α} (hp : t.pending = some p)
    (hfront : stageAll p (front.map event) = .ok q) (ha : q.stage (event a) = .error e) :
    ∃ e' t', stageEach one p (front ++ a :: back) t = .error e' t' ∧ t'.lists = q.mutations ∧
      Adds t t' (runKeys p (front.map event) ++ imageKeys q.table ((event a).images q)) := by
  induction front generalizing p t with
  | nil =>
    cases Except.ok.inj hfront
    obtain ⟨e', t', hone, hlists, hadds⟩ := h.error hp ha
    rw [nil_append, stageEach, bind_of_error hone]
    exact ⟨e', t', rfl, hlists, hadds⟩
  | cons b rest ih =>
    simp only [map_cons, stageAll, bind_eq_ok] at hfront
    obtain ⟨m, hm, hrest⟩ := hfront
    obtain ⟨u, hone, hu, hadds⟩ := h.ok hp hm
    obtain ⟨e', t', hloop, hlists, hmore⟩ := ih hu hrest
    rw [cons_append, stageEach, bind_of_ok hone]
    refine ⟨e', t', hloop, hlists, ?_⟩
    rw [map_cons, runKeys, hm, append_assoc]
    exact hadds.trans hmore

end Stages

theorem stageAll_eq_error {events : List StageEvent} (h : stageAll p events = .error e) :
    ∃ front event back q, events = front ++ event :: back ∧
      stageAll p front = .ok q ∧ q.stage event = .error e := by
  induction events generalizing p with
  | nil => cases h
  | cons first rest ih =>
    cases hfirst : p.stage first with
    | error e' =>
      rw [stageAll, hfirst] at h
      cases h
      exact ⟨[], first, rest, p, rfl, rfl, hfirst⟩
    | ok q =>
      rw [stageAll, hfirst] at h
      obtain ⟨front, event, back, m, rfl, hfront, hevent⟩ := ih h
      refine ⟨first :: front, event, back, m, rfl, ?_, hevent⟩
      rw [stageAll, hfirst]
      exact hfront

/-- The calls that stage any number of rows. -/
inductive BulkCall
  | insertRows (rows : List Row)
  | updateRows (mutations : List LiteRowMutation)
  | deleteRows (rows : List LiteRow)

def BulkCall.run (loaded : Except String LiteTableDef) : BulkCall → TxnStep Unit
  | .insertRows rows => LiteTxnContext.insertRows loaded rows
  | .updateRows mutations => LiteTxnContext.updateRows loaded mutations
  | .deleteRows rows => LiteTxnContext.deleteRows loaded rows

def BulkCall.events : BulkCall → List StageEvent
  | .insertRows rows => rows.map .insert
  | .updateRows mutations => mutations.map .update
  | .deleteRows rows => rows.map .delete

/-- The same visible rows, the same lists and the same write set. -/
structure Unchanged (t t' : TxnTable) : Prop where
  visible : stateful.valueOf (LiteTxnContext.scanRows t') =
    stateful.valueOf (LiteTxnContext.scanRows t)
  lists : t'.lists = t.lists
  writeKeys : ∀ key, key ∈ t'.writeKeys ↔ key ∈ t.writeKeys

def AllOrNothing (step : TxnStep Unit) (t : TxnTable) : Prop :=
  ∀ e t', step t = .error e t' → Unchanged t t'

/-- The lists that a call starts from. The first call on a table loads its definition. -/
def TxnTable.startPending (t : TxnTable) (loaded : Except String LiteTableDef) :
    Except String PendingTable :=
  match t.pending with
  | some p => .ok p
  | none => loaded.map loadPending

theorem pendingTable_eq (loaded : Except String LiteTableDef) (t : TxnTable) :
    pendingTable loaded t = match t.startPending loaded with
      | .ok p => .ok p { t with pending := some p }
      | .error e => .error e t := by
  have hget : (get : TxnStep TxnTable) t = .ok t t := rfl
  unfold TxnTable.startPending pendingTable
  rw [bind_of_ok hget]
  obtain ⟨table, snapshot, pending, readRanges, writeKeys⟩ := t
  cases pending with
  | some q => rfl
  | none => cases loaded <;> rfl

theorem lists_of_startPending (h : t.startPending loaded = .ok p) : t.lists = p.mutations := by
  unfold TxnTable.startPending at h
  unfold TxnTable.lists
  cases hp : t.pending with
  | some q =>
    rw [hp] at h
    cases h
    rfl
  | none =>
    rw [hp] at h
    cases loaded with
    | error e => cases h
    | ok table =>
      cases h
      rfl

/-- What a scan sees depends on the snapshot and the lists. -/
theorem valueOf_scanRows (t : TxnTable) :
    stateful.valueOf (LiteTxnContext.scanRows t) =
      (storedRows t.snapshot).toOption.map fun rows =>
        t.lists.deletes.foldl List.erase
          (t.lists.updates.foldl (fun rows u => rows.replace u.before u.afterRow) rows) ++
            t.lists.inserts := by
  obtain ⟨table, snapshot, pending, readRanges, writeKeys⟩ := t
  cases pending with
  | none =>
    have hscan : LiteTxnContext.scanRows ⟨table, snapshot, none, readRanges, writeKeys⟩ =
        (stateful.lift (storedRows snapshot) >>= fun rows => pure rows)
          ⟨table, snapshot, none, { full := true } :: readRanges, writeKeys⟩ := rfl
    rw [hscan]
    cases storedRows snapshot with
    | error e => rfl
    | ok rows => exact congrArg some (append_nil rows).symm
  | some p =>
    have hscan : LiteTxnContext.scanRows ⟨table, snapshot, some p, readRanges, writeKeys⟩ =
        (stateful.lift (storedRows snapshot) >>= fun rows => pure (p.overlayRows rows))
          ⟨table, snapshot, some p, { full := true } :: readRanges, writeKeys⟩ := rfl
    rw [hscan]
    cases storedRows snapshot with
    | error e => rfl
    | ok rows => rfl

theorem unchanged_iff {t' : TxnTable} (h : Adds t t' keys) :
    Unchanged t t' ↔ t'.lists = t.lists ∧ ∀ key ∈ keys, key ∈ t.writeKeys := by
  constructor
  · intro hsame
    exact ⟨hsame.lists, fun key hkey => (hsame.writeKeys key).mp ((h.2 key).mpr (.inl hkey))⟩
  · rintro ⟨hlists, hkeys⟩
    refine ⟨?_, hlists, fun key => ?_⟩
    · rw [valueOf_scanRows, valueOf_scanRows, hlists, h.1]
    · rw [h.2]
      exact or_iff_right_of_imp (hkeys key)

theorem unchanged_refl (t : TxnTable) : Unchanged t t := ⟨rfl, rfl, fun _ => Iff.rfl⟩

/-- Every event that the others can break off at finds the lists and the written keys as the first
one found them. -/
def BreaksUnchanged (p : PendingTable) (events : List StageEvent) (written : List Bytes) : Prop :=
  ∀ front e back q message, events = front ++ e :: back → stageAll p front = .ok q →
    q.stage e = .error message → q.mutations = p.mutations ∧
      ∀ key ∈ runKeys p front ++ imageKeys q.table (e.images q), key ∈ written

/-- A loop over rows is all or nothing when it can break off only where nothing is changed. -/
theorem Stages.allOrNothing_iff {α : Type} {one : PendingTable → α → TxnStep PendingTable}
    {event : α → StageEvent} (h : Stages one event) {l : List α} :
    AllOrNothing (pendingTable loaded >>= fun p => stageEach one p l) t ↔
      ∀ p, t.startPending loaded = .ok p → BreaksUnchanged p (l.map event) t.writeKeys := by
  unfold AllOrNothing
  cases hstart : t.startPending loaded with
  | error e =>
    rw [bind_of_error ((pendingTable_eq loaded t).trans (by rw [hstart]))]
    refine iff_of_true (fun e t' heq => ?_) fun p hp => (nomatch hp)
    cases heq
    exact unchanged_refl t
  | ok p =>
    rw [bind_of_ok ((pendingTable_eq loaded t).trans (by rw [hstart]))]
    have hlists := lists_of_startPending hstart
    -- Both sides speak of the row at which the loop breaks off.
    have hbreak : ∀ {front back : List α} {a : α} {q : PendingTable} {message : String},
        l = front ++ a :: back → stageAll p (front.map event) = .ok q →
        q.stage (event a) = .error message →
        ∃ e' t', stageEach one p l { t with pending := some p } = .error e' t' ∧
          (Unchanged t t' ↔ q.mutations = p.mutations ∧
            ∀ key ∈ runKeys p (front.map event) ++ imageKeys q.table ((event a).images q),
              key ∈ t.writeKeys) := by
      rintro front back a q message rfl hfront ha
      obtain ⟨e', t', hloop, hend, hadds⟩ :=
        h.loop_error (t := { t with pending := some p }) rfl hfront ha
      refine ⟨e', t', hloop, ?_⟩
      rw [unchanged_iff (t := t) hadds, hend, hlists]
    constructor
    · rintro hall p' hp' front e back q message hsplit hfront he
      cases hp'
      obtain ⟨front, rest, rfl, rfl, hrest⟩ := map_eq_append_iff.mp hsplit
      obtain ⟨a, back, rfl, rfl, rfl⟩ := map_eq_cons_iff.mp hrest
      obtain ⟨e', t', hloop, hiff⟩ := hbreak rfl hfront he
      exact hiff.mp (hall e' t' hloop)
    · intro hall e t' hloop
      cases hstage : stageAll p (l.map event) with
      | ok q =>
        obtain ⟨u, hok⟩ := h.loop_ok (t := { t with pending := some p }) rfl hstage
        rw [hok] at hloop
        cases hloop
      | error message =>
        obtain ⟨front, e', back, q, hsplit, hfront, he⟩ := stageAll_eq_error hstage
        have hkeep := hall p rfl front e' back q message hsplit hfront he
        obtain ⟨front, rest, rfl, rfl, hrest⟩ := map_eq_append_iff.mp hsplit
        obtain ⟨a, back, rfl, rfl, rfl⟩ := map_eq_cons_iff.mp hrest
        obtain ⟨e'', u, hloop', hiff⟩ := hbreak rfl hfront he
        rw [hloop'] at hloop
        cases hloop
        exact hiff.mpr hkeep

/-! ## Rows that are refused -/

/-- The rows that the transaction inserted, and the rows that its updates left. -/
def PendingTable.stagedRows (p : PendingTable) : List LiteRow :=
  p.rows ++ p.updates.map (·.afterRow)

/-- Deletes of the rows in front reach the row that the update left: they delete it more often
than it is inserted, or left by the updates before this one. -/
def Reached (rows : List LiteRow) (ups : List LiteRowMutation) (front : List LiteRow)
    (u : LiteRowMutation) : Prop :=
  rows.count u.afterRow + (ups.map (·.afterRow)).count u.afterRow < front.count u.afterRow

/-- The row is what a staged update found, and deletes of the rows in front reach the update. -/
def FoundByDeletedUpdate (p : PendingTable) (front : List LiteRow) (row : LiteRow) : Prop :=
  ∃ ups u more, p.updates = ups ++ u :: more ∧ u.before = row ∧ Reached p.rows ups front u

/-- Deletes of the rows in front have used up every staged copy of the row, and it is deleted:
by an earlier call, by the rows in front, or as the row that an update had found. -/
def SelectedAgain (p : PendingTable) (front : List LiteRow) (row : LiteRow) : Prop :=
  p.stagedRows.count row ≤ front.count row ∧
    (row ∈ p.deletes ∨ p.stagedRows.count row < front.count row ∨
      FoundByDeletedUpdate p front row)

theorem not_error_of_ok {α : Type} {a : α} : ¬ ∃ e, (.ok a : Except String α) = .error e := by
  simp

theorem mergeDelete_cases (h : p.mergeDelete row = .ok q) :
    (row ∈ p.rows ∧ q = { p with rows := p.rows.erase row }) ∨
    (row ∉ p.rows ∧ ∃ ups u more, p.updates = ups ++ u :: more ∧ u.afterRow = row ∧
      (∀ v ∈ ups, v.afterRow ≠ row) ∧
      q = { p with deletes := p.deletes ++ [u.before], updates := ups ++ more }) ∨
    (row ∉ p.stagedRows ∧ row ∉ p.deletes ∧ q = { p with deletes := p.deletes ++ [row] }) := by
  unfold PendingTable.mergeDelete at h
  split at h
  · rename_i hrows
    exact .inl ⟨hrows, (Except.ok.inj h).symm⟩
  · rename_i hrows
    refine .inr ?_
    split at h
    · rename_i u hfind
      obtain ⟨hu, ups, more, hups, hbefore⟩ := find?_eq_some_iff_append.mp hfind
      simp only [decide_eq_true_eq, Bool.not_eq_true', decide_eq_false_iff_not] at hu hbefore
      refine .inl ⟨hrows, ups, u, more, hups, hu, hbefore, ?_⟩
      have herase : p.updates.eraseP (·.afterRow = row) = ups ++ more := by
        rw [hups, eraseP_append_right _ (by simpa using hbefore),
          eraseP_cons_of_pos (by simpa using hu)]
      rw [← Except.ok.inj h, herase]
    · rename_i hfind
      split at h
      · cases h
      · rename_i hdeletes
        refine .inr ⟨?_, hdeletes, (Except.ok.inj h).symm⟩
        rw [PendingTable.stagedRows, mem_append, not_or]
        refine ⟨hrows, ?_⟩
        simpa using hfind

theorem mergeDelete_eq_error : (∃ e, p.mergeDelete row = .error e) ↔ SelectedAgain p [] row := by
  have hagain : SelectedAgain p [] row ↔ row ∉ p.stagedRows ∧ row ∈ p.deletes := by
    simp [SelectedAgain, FoundByDeletedUpdate, Reached, count_eq_zero]
  rw [hagain, PendingTable.stagedRows, mem_append, not_or]
  unfold PendingTable.mergeDelete
  split
  · rename_i hrows
    exact iff_of_false not_error_of_ok fun h => h.1.1 hrows
  · rename_i hrows
    split
    · rename_i u hfind
      have hu : u.afterRow = row := by simpa using find?_some hfind
      refine iff_of_false not_error_of_ok fun h => h.1.2 ?_
      exact mem_map.mpr ⟨u, mem_of_find?_eq_some hfind, hu⟩
    · rename_i hfind
      have hups : row ∉ p.updates.map (·.afterRow) := by simpa using hfind
      split
      · rename_i hdeletes
        exact iff_of_true ⟨_, rfl⟩ ⟨⟨hrows, hups⟩, hdeletes⟩
      · rename_i hdeletes
        exact iff_of_false not_error_of_ok fun h => hdeletes h.2

theorem exists_split_append {α : Type} {xs ys : List α} {P : List α → α → Prop} :
    (∃ l a r, xs ++ ys = l ++ a :: r ∧ P l a) ↔
      (∃ l a r, xs = l ++ a :: r ∧ P l a) ∨ ∃ l a r, ys = l ++ a :: r ∧ P (xs ++ l) a := by
  constructor
  · rintro ⟨l, a, r, h, ha⟩
    obtain ⟨m, rfl, hm⟩ | ⟨m, rfl, hm⟩ := append_eq_append_iff.mp h
    · exact .inr ⟨m, a, r, hm, ha⟩
    · cases m with
      | nil => exact .inr ⟨[], a, r, hm.symm, by simpa using ha⟩
      | cons b m =>
        obtain ⟨rfl, rfl⟩ := List.cons.inj hm
        exact .inl ⟨l, a, m, rfl, ha⟩
  · rintro (⟨l, a, r, rfl, ha⟩ | ⟨l, a, r, rfl, ha⟩)
    · exact ⟨l, a, r ++ ys, by simp, ha⟩
    · exact ⟨xs ++ l, a, r, by simp, ha⟩

theorem exists_split_cons {α : Type} {x : α} {ys : List α} {P : List α → α → Prop} :
    (∃ l a r, x :: ys = l ++ a :: r ∧ P l a) ↔
      P [] x ∨ ∃ l a r, ys = l ++ a :: r ∧ P (x :: l) a := by
  constructor
  · rintro ⟨l, a, r, h, ha⟩
    cases l with
    | nil =>
      cases h
      exact .inl ha
    | cons b l =>
      cases h
      exact .inr ⟨l, a, r, rfl, ha⟩
  · rintro (hx | ⟨l, a, r, rfl, ha⟩)
    · exact ⟨[], x, ys, rfl, hx⟩
    · exact ⟨x :: l, a, r, rfl, ha⟩

/-- One more of `first`. -/
theorem count_first (first row : LiteRow) (front : List LiteRow) :
    (first :: front).count row = front.count row + if first = row then 1 else 0 := by
  simp [count_cons]

theorem reached_of_ne (h : first ≠ u.afterRow) :
    Reached rows ups (first :: front) u ↔ Reached rows ups front u := by
  unfold Reached
  rw [count_first, if_neg h, Nat.add_zero]

theorem reached_of_erased {more : List LiteRowMutation} {v : LiteRowMutation}
    (hv : v.afterRow = first) :
    Reached rows (ups ++ v :: more) (first :: front) u ↔ Reached rows (ups ++ more) front u := by
  unfold Reached
  simp only [map_append, map_cons, count_append, hv, count_first]
  omega

theorem reached_first (hu : u.afterRow = first) (hrows : first ∉ rows)
    (hups : ∀ v ∈ ups, v.afterRow ≠ first) : Reached rows ups (first :: front) u := by
  have hnone : first ∉ ups.map (·.afterRow) := by
    intro hmem
    obtain ⟨v, hv, hfirst⟩ := mem_map.mp hmem
    exact hups v hv hfirst
  unfold Reached
  rw [hu, count_eq_zero.mpr hrows, count_eq_zero.mpr hnone, count_first, if_pos rfl]
  omega

/-- A delete that reaches an update counts the row that the update found. -/
theorem foundByDeletedUpdate_cons {more : List LiteRowMutation} (hrows : first ∉ p.rows)
    (hups : p.updates = ups ++ u :: more) (hu : u.afterRow = first)
    (hbefore : ∀ v ∈ ups, v.afterRow ≠ first) (deletes : List LiteRow) (row : LiteRow) :
    FoundByDeletedUpdate p (first :: front) row ↔ u.before = row ∨
      FoundByDeletedUpdate { p with deletes, updates := ups ++ more } front row := by
  unfold FoundByDeletedUpdate
  rw [hups, exists_split_append (P := fun l a => a.before = row ∧ Reached p.rows l _ a),
    exists_split_cons (P := fun l a => a.before = row ∧ Reached p.rows (ups ++ l) _ a),
    exists_split_append (P := fun l a => a.before = row ∧ Reached p.rows l _ a),
    append_nil, and_iff_left (reached_first hu hrows hbefore), or_left_comm]
  -- The updates before this one leave other rows, and those behind it count it too.
  refine or_congr Iff.rfl (or_congr ?_ ?_)
  · refine exists₃_congr fun l a r => ?_
    refine and_congr_right fun hsplit => and_congr_right' (reached_of_ne ?_)
    exact fun heq => hbefore a (by simp [hsplit]) heq.symm
  · refine exists₃_congr fun l a r => ?_
    exact and_congr_right' (and_congr_right' (reached_of_erased hu))

theorem foundByDeletedUpdate_of_not_staged (hstaged : first ∉ p.stagedRows)
    (front deletes : List LiteRow) (row : LiteRow) :
    FoundByDeletedUpdate p (first :: front) row ↔
      FoundByDeletedUpdate { p with deletes } front row := by
  refine exists₃_congr fun ups u more => ?_
  refine and_congr_right fun hups => and_congr_right' (reached_of_ne ?_)
  rintro rfl
  refine hstaged (mem_append_right _ (mem_map.mpr ⟨u, ?_, rfl⟩))
  rw [hups]
  simp

/-- A delete in front takes its row from the staged rows, and what is left decides the rest. -/
theorem selectedAgain_cons (h : p.mergeDelete first = .ok q) (front : List LiteRow)
    (row : LiteRow) : SelectedAgain p (first :: front) row ↔ SelectedAgain q front row := by
  obtain ⟨hrows, rfl⟩ | ⟨hrows, ups, u, more, hups, hu, hbefore, rfl⟩ | ⟨hstaged, hdeletes, rfl⟩ :=
    mergeDelete_cases h
  · have hcount : ∀ r, p.rows.count r =
        (p.rows.erase first).count r + if first = r then 1 else 0 := fun r => by
      rw [← count_first, ← (perm_cons_erase hrows).count_eq]
    simp only [SelectedAgain, FoundByDeletedUpdate, Reached, PendingTable.stagedRows,
      count_append, count_first, hcount]
    refine and_congr (by omega) (or_congr Iff.rfl (or_congr (by omega) ?_))
    refine exists₃_congr fun ups u more => ?_
    exact and_congr_right' (and_congr_right' (by omega))
  · generalize hq : ({ p with deletes := p.deletes ++ [u.before], updates := ups ++ more } :
      PendingTable) = q
    have hcount : p.stagedRows.count row =
        q.stagedRows.count row + if first = row then 1 else 0 := by
      simp only [PendingTable.stagedRows, hups, ← hq, map_append, map_cons,
        count_append, hu, count_first]
      omega
    have hdeletes : q.deletes = p.deletes ++ [u.before] := by rw [← hq]
    unfold SelectedAgain
    rw [foundByDeletedUpdate_cons hrows hups hu hbefore (p.deletes ++ [u.before]), hq, hcount,
      hdeletes, count_first, mem_append, mem_singleton, eq_comm (b := u.before), or_assoc,
      or_left_comm (b := u.before = row)]
    exact and_congr (by omega) (or_congr Iff.rfl (or_congr Iff.rfl (or_congr (by omega) Iff.rfl)))
  · have hzero : p.stagedRows.count first = 0 := count_eq_zero.mpr hstaged
    unfold SelectedAgain
    rw [foundByDeletedUpdate_of_not_staged hstaged front (p.deletes ++ [first]), count_first,
      mem_append, mem_singleton]
    by_cases hrow : first = row
    · subst hrow
      refine iff_of_true ⟨by omega, .inr (.inl (by rw [if_pos rfl]; omega))⟩ ⟨?_, .inl (.inr rfl)⟩
      show p.stagedRows.count first ≤ _
      omega
    · rw [if_neg hrow, or_iff_left (Ne.symm hrow)]
      rfl

/-! ## The condition -/

def StageEvent.deletedRow : StageEvent → Option LiteRow
  | .delete row => some row
  | _ => none

/-- A row of a call is refused, with the rows in front of it staged: its keys cannot be built, or
a delete selects it once more. -/
def Refused (p : PendingTable) (front : List StageEvent) : StageEvent → Prop
  | .insert row =>
    keysBuildable p.table ⟨p.nextRowId + UInt64.ofNat front.length, row⟩ = false
  | .update u => keysBuildable p.table u.before = false ∨ keysBuildable p.table u.afterRow = false
  | .delete row => keysBuildable p.table row = false ∨
      SelectedAgain p (front.filterMap StageEvent.deletedRow) row

/-- The row at which a call breaks off. -/
structure FirstRefused (p : PendingTable) (events front : List StageEvent) (event : StageEvent) :
    Prop where
  split : front ++ [event] <+: events
  refused : Refused p front event
  before : ∀ early e, early ++ [e] <+: front → ¬ Refused p early e

/-- The staged rows after updates of rows that are all staged; a row that was not staged, an insert
or a delete adds to the lists. -/
def follow : List LiteRow → List StageEvent → Option (List LiteRow)
  | rows, [] => some rows
  | rows, .update u :: rest =>
    if u.before ∈ rows then follow (rows.replace u.before u.afterRow) rest else none
  | _, _ :: _ => none

/-- Whatever row the call breaks off at, the rows in front only update staged rows and lead each of
them back to where it was, and every key that is recorded up to there is written already. -/
def KeepsWhenRefused (p : PendingTable) (written : List Bytes) (events : List StageEvent) : Prop :=
  ∀ front event, FirstRefused p events front event →
    follow p.stagedRows front = some p.stagedRows ∧
      ∀ e ∈ front ++ [event], ∀ key ∈ imageKeys p.table (e.images p), key ∈ written

/-- The refusals, the lists and the keys of a call, told from the lists it starts from. -/
structure Explains (p : PendingTable) (events : List StageEvent) : Prop where
  refused : ∀ {front event q}, front ++ [event] <+: events → stageAll p front = .ok q →
    ((∃ e, q.stage event = .error e) ↔ Refused p front event)
  lists : ∀ {front q}, front <+: events → stageAll p front = .ok q →
    (q.mutations = p.mutations ↔ follow p.stagedRows front = some p.stagedRows)
  keys : ∀ {front event q}, front ++ [event] <+: events → stageAll p front = .ok q →
    q.mutations = p.mutations → runKeys p front ++ imageKeys q.table (event.images q) =
      (front ++ [event]).flatMap fun e => imageKeys p.table (e.images p)

theorem stageAll_concat {events : List StageEvent} {event : StageEvent}
    (h : stageAll p events = .ok q) : stageAll p (events ++ [event]) = q.stage event := by
  rw [stageAll_append h, stageAll]
  cases q.stage event <;> rfl

theorem stageAll_append_error {events : List StageEvent} (h : stageAll p events = .error e)
    (more : List StageEvent) : stageAll p (events ++ more) = .error e := by
  induction events generalizing p with
  | nil => cases h
  | cons event rest ih =>
    rw [cons_append, stageAll]
    rw [stageAll] at h
    cases hevent : p.stage event with
    | error e' =>
      rw [hevent] at h
      exact h
    | ok q =>
      rw [hevent] at h
      exact ih h

/-- The rows in front are staged exactly when none of them is refused. -/
theorem Explains.staged_iff {events front : List StageEvent} (h : Explains p events)
    (hfront : front <+: events) :
    (∃ q, stageAll p front = .ok q) ↔ ∀ early e, early ++ [e] <+: front → ¬ Refused p early e := by
  induction front using reverseRecOn with
  | nil =>
    refine iff_of_true ⟨p, rfl⟩ fun early e hpre => ?_
    have hlen := hpre.length_le
    simp at hlen
  | append_singleton front event ih =>
    have hold := ih ((prefix_append _ _).trans hfront)
    constructor
    · rintro ⟨q, hq⟩ early e hpre hrefused
      cases hm : stageAll p front with
      | error message =>
        rw [stageAll_append_error hm] at hq
        cases hq
      | ok m =>
        rw [stageAll_concat hm] at hq
        obtain hsame | hpre := prefix_concat_iff.mp hpre
        · obtain ⟨rfl, hlast⟩ := append_inj' hsame rfl
          cases hlast
          obtain ⟨message, herror⟩ := (h.refused hfront hm).mpr hrefused
          rw [hq] at herror
          cases herror
        · exact hold.mp ⟨m, hm⟩ early e hpre hrefused
    · intro hall
      obtain ⟨m, hm⟩ := hold.mpr fun early e hpre =>
        hall early e (hpre.trans (prefix_append _ _))
      rw [stageAll_concat hm]
      cases hlast : m.stage event with
      | ok q => exact ⟨q, rfl⟩
      | error message =>
        exact absurd ((h.refused hfront hm).mp ⟨message, hlast⟩) (hall front event prefix_rfl)

theorem Explains.keeps_iff {events : List StageEvent} (h : Explains p events)
    (written : List Bytes) :
    BreaksUnchanged p events written ↔ KeepsWhenRefused p written events := by
  constructor
  · intro hall front event hfirst
    have hsplit : front <+: events := (prefix_append _ _).trans hfirst.split
    obtain ⟨q, hq⟩ := (h.staged_iff hsplit).mpr hfirst.before
    obtain ⟨message, hevent⟩ := (h.refused hfirst.split hq).mpr hfirst.refused
    obtain ⟨back, hback⟩ := hfirst.split
    have hkeep := hall front event back q message (by simpa using hback.symm) hq hevent
    refine ⟨(h.lists hsplit hq).mp hkeep.1, fun e he key hkey => ?_⟩
    refine hkeep.2 key ?_
    rw [h.keys hfirst.split hq hkeep.1]
    exact mem_flatMap.mpr ⟨e, he, hkey⟩
  · intro hkeeps front e back q message hsplit hq he
    have hpre : front ++ [e] <+: events := ⟨back, by simp [hsplit]⟩
    have hfront : front <+: events := (prefix_append _ _).trans hpre
    have hfirst : FirstRefused p events front e :=
      ⟨hpre, (h.refused hpre hq).mp ⟨message, he⟩, (h.staged_iff hfront).mp ⟨q, hq⟩⟩
    obtain ⟨hfollow, hkeys⟩ := hkeeps front e hfirst
    have hlists := (h.lists hfront hq).mpr hfollow
    refine ⟨hlists, fun key hkey => ?_⟩
    rw [h.keys hpre hq hlists] at hkey
    obtain ⟨e', he', hkey⟩ := mem_flatMap.mp hkey
    exact hkeys e' he' key hkey

theorem concat_prefix_map {α : Type} {event : α → StageEvent} {l : List α}
    {front : List StageEvent} {e : StageEvent} (h : front ++ [e] <+: l.map event) :
    ∃ (front' : List α) (a : α), front = front'.map event ∧ e = event a := by
  obtain ⟨early, -, hearly⟩ := prefix_map_iff.mp h
  obtain ⟨front', last, -, hfront, hlast⟩ := map_eq_append_iff.mp hearly.symm
  obtain ⟨a, -, -, ha, -⟩ := map_eq_cons_iff.mp hlast
  exact ⟨front', a, hfront.symm, ha.symm⟩

/-- Rows that always change the lists: a call that breaks off keeps them at its first row only. -/
theorem explains_of_changes {α : Type} {event : α → StageEvent} {l : List α}
    (hkind : ∀ a rows rest, follow rows (event a :: rest) = none)
    (hnone : ∀ {front : List α} {q}, stageAll p (front.map event) = .ok q →
      q.mutations = p.mutations → front = [])
    (hrefused : ∀ {front : List α} {a q}, stageAll p (front.map event) = .ok q →
      ((∃ e, q.stage (event a) = .error e) ↔ Refused p (front.map event) (event a))) :
    Explains p (l.map event) := by
  constructor
  · intro front e q hpre hq
    obtain ⟨front, a, rfl, rfl⟩ := concat_prefix_map hpre
    exact hrefused hq
  · intro front q hpre hq
    obtain ⟨front, -, rfl⟩ := prefix_map_iff.mp hpre
    cases front with
    | nil =>
      cases hq
      exact iff_of_true rfl rfl
    | cons a rest =>
      refine iff_of_false (fun hsame => ?_) fun hfollow => ?_
      · cases hnone hq hsame
      · rw [map_cons, hkind] at hfollow
        cases hfollow
  · intro front e q hpre hq hsame
    obtain ⟨front, -, rfl⟩ := prefix_map_iff.mp ((prefix_append _ _).trans hpre)
    obtain rfl := hnone hq hsame
    cases hq
    simp [runKeys]

/-! ## Inserts -/

theorem stage_insert_error {row : Row} :
    (∃ e, p.stage (.insert row) = .error e) ↔
      keysBuildable p.table ⟨p.nextRowId, row⟩ = false := by
  rw [PendingTable.stage]
  cases hkeys : rowWriteKeys p.table ⟨p.nextRowId, row⟩ with
  | ok keys =>
    rw [keysBuildable_of_ok hkeys]
    exact iff_of_false not_error_of_ok (by decide)
  | error e => exact iff_of_true ⟨e, rfl⟩ (keysBuildable_of_error hkeys)

theorem stageAll_inserts {rows : List Row} (h : stageAll p (rows.map .insert) = .ok q) :
    q.table = p.table ∧ q.nextRowId = p.nextRowId + UInt64.ofNat rows.length ∧
      q.rows.length = p.rows.length + rows.length := by
  induction rows generalizing p with
  | nil =>
    cases h
    simp
  | cons row rest ih =>
    simp only [map_cons, stageAll, PendingTable.stage, bind_eq_ok, Except.ok.injEq] at h
    obtain ⟨_, ⟨keys, -, rfl⟩, hrest⟩ := h
    obtain ⟨htable, hnext, hlength⟩ := ih hrest
    refine ⟨htable, ?_, ?_⟩
    · rw [hnext, PendingTable.insert, length_cons, Nat.add_comm rest.length 1,
        UInt64.ofNat_add, ← UInt64.add_assoc]
      rfl
    · rw [hlength, PendingTable.insert, length_append, length_cons]
      simp only [length_cons, length_nil]
      omega

theorem explains_inserts (p : PendingTable) (rows : List Row) :
    Explains p (rows.map .insert) := by
  refine explains_of_changes (fun _ _ _ => rfl) (fun {front q} hq hsame => ?_) fun hq => ?_
  · have hlength := (stageAll_inserts hq).2.2
    have hrows : q.rows = p.rows := congrArg inserts hsame
    rw [hrows] at hlength
    exact length_eq_zero_iff.mp (by omega)
  · obtain ⟨htable, hnext, -⟩ := stageAll_inserts hq
    rw [stage_insert_error, htable, hnext, Refused, length_map]

/-! ## Deletes -/

theorem stage_delete_error :
    (∃ e, p.stage (.delete row) = .error e) ↔
      keysBuildable p.table row = false ∨ SelectedAgain p [] row := by
  rw [← mergeDelete_eq_error, PendingTable.stage]
  cases hkeys : rowWriteKeys p.table row with
  | ok keys =>
    rw [keysBuildable_of_ok hkeys]
    exact (or_iff_right (by decide)).symm
  | error e => exact iff_of_true ⟨e, rfl⟩ (.inl (keysBuildable_of_error hkeys))

theorem stageAll_deletes (h : stageAll p (rows.map .delete) = .ok q) :
    q.table = p.table ∧
      q.deletes.length + p.rows.length = p.deletes.length + q.rows.length + rows.length ∧
        ∀ row, SelectedAgain p rows row ↔ SelectedAgain q [] row := by
  induction rows generalizing p with
  | nil =>
    cases h
    exact ⟨rfl, rfl, fun _ => Iff.rfl⟩
  | cons first rest ih =>
    simp only [map_cons, stageAll, PendingTable.stage, bind_eq_ok] at h
    obtain ⟨m, ⟨keys, -, hmerge⟩, hrest⟩ := h
    obtain ⟨htable, hlength, hagain⟩ := ih hrest
    have hfirst : m.table = p.table ∧
        m.deletes.length + p.rows.length = p.deletes.length + m.rows.length + 1 := by
      obtain ⟨hrows, rfl⟩ | ⟨-, ups, u, more, -, -, -, rfl⟩ | ⟨-, -, rfl⟩ :=
        mergeDelete_cases hmerge
      · have hpos := length_pos_of_mem hrows
        refine ⟨rfl, ?_⟩
        simp only [length_erase_of_mem hrows]
        omega
      iterate 2
        · refine ⟨rfl, ?_⟩
          simp only [length_append, length_cons, length_nil]
          omega
    refine ⟨htable.trans hfirst.1, ?_, fun row => ?_⟩
    · rw [length_cons]
      omega
    · rw [selectedAgain_cons hmerge, hagain]

theorem filterMap_deletedRow (rows : List LiteRow) :
    (rows.map StageEvent.delete).filterMap StageEvent.deletedRow = rows := by
  rw [filterMap_map]
  exact filterMap_some

theorem explains_deletes (p : PendingTable) (rows : List LiteRow) :
    Explains p (rows.map .delete) := by
  refine explains_of_changes (fun _ _ _ => rfl) (fun {front q} hq hsame => ?_) fun hq => ?_
  · have hlength := (stageAll_deletes hq).2.1
    have hrows : q.rows = p.rows := congrArg inserts hsame
    have hdeletes : q.deletes = p.deletes := congrArg deletes hsame
    rw [hrows, hdeletes] at hlength
    exact length_eq_zero_iff.mp (by omega)
  · obtain ⟨htable, -, hagain⟩ := stageAll_deletes hq
    rw [stage_delete_error, htable, Refused, filterMap_deletedRow, hagain]

/-! ## Updates -/

theorem stage_update_error :
    (∃ e, p.stage (.update u) = .error e) ↔
      keysBuildable p.table u.before = false ∨ keysBuildable p.table u.afterRow = false := by
  rw [PendingTable.stage]
  cases hbefore : rowWriteKeys p.table u.before with
  | error e => exact iff_of_true ⟨e, rfl⟩ (.inl (keysBuildable_of_error hbefore))
  | ok keys =>
    cases hafter : rowWriteKeys p.table u.afterRow with
    | error e => exact iff_of_true ⟨e, rfl⟩ (.inr (keysBuildable_of_error hafter))
    | ok keys' =>
      rw [keysBuildable_of_ok hbefore, keysBuildable_of_ok hafter]
      exact iff_of_false not_error_of_ok (by decide)

/-- An update of a staged row replaces it where it stands. -/
theorem mergeUpdate_cases (p : PendingTable) (u : LiteRowMutation) :
    (u.before ∈ p.stagedRows ∧
      (p.mergeUpdate u).stagedRows = p.stagedRows.replace u.before u.afterRow ∧
      (p.mergeUpdate u).rows.length = p.rows.length ∧
      (p.mergeUpdate u).updates.map (·.before) = p.updates.map (·.before)) ∨
    (u.before ∉ p.stagedRows ∧ (p.mergeUpdate u).updates.length = p.updates.length + 1) := by
  unfold PendingTable.mergeUpdate PendingTable.stagedRows
  split
  · rename_i hrows
    refine .inl ⟨mem_append_left _ hrows, ?_, ?_, rfl⟩
    · rw [replace_append_left hrows]
    · exact length_replace
  · rename_i hrows
    split_ifs with hups
    · refine .inl ⟨mem_append_right _ (mem_map.mpr hups), ?_, rfl, retarget_before u _⟩
      rw [retarget_afterRow, replace_append_right hrows]
    · refine .inr ⟨?_, by simp⟩
      rw [mem_append, not_or]
      exact ⟨hrows, fun hmem => hups (mem_map.mp hmem)⟩

theorem mergeUpdate_keeps (p : PendingTable) (u : LiteRowMutation) :
    (p.mergeUpdate u).table = p.table ∧ (p.mergeUpdate u).deletes = p.deletes ∧
      p.updates.length ≤ (p.mergeUpdate u).updates.length := by
  have hlength : (retarget u p.updates).length = p.updates.length := by
    rw [← length_map (·.before), retarget_before, length_map]
  unfold PendingTable.mergeUpdate
  split
  · exact ⟨rfl, rfl, le_refl _⟩
  · split
    · exact ⟨rfl, rfl, hlength.ge⟩
    · exact ⟨rfl, rfl, by simp⟩

theorem stageAll_updates (h : stageAll p (us.map .update) = .ok q) :
    q.table = p.table ∧ q.deletes = p.deletes ∧ p.updates.length ≤ q.updates.length ∧
      (follow p.stagedRows (us.map .update) = none → p.updates.length < q.updates.length) ∧
      ∀ rows, follow p.stagedRows (us.map .update) = some rows → q.stagedRows = rows ∧
        q.rows.length = p.rows.length ∧ q.updates.map (·.before) = p.updates.map (·.before) := by
  induction us generalizing p with
  | nil =>
    cases h
    refine ⟨rfl, rfl, le_refl _, by simp [follow], fun rows hrows => ?_⟩
    exact ⟨Option.some.inj hrows, rfl, rfl⟩
  | cons u rest ih =>
    simp only [map_cons, stageAll, PendingTable.stage, bind_eq_ok, Except.ok.injEq] at h
    obtain ⟨_, ⟨before, -, after, -, rfl⟩, hrest⟩ := h
    obtain ⟨htable, hdeletes, hlength, hgrown, hled⟩ := ih hrest
    obtain ⟨htable', hdeletes', hlength'⟩ := mergeUpdate_keeps p u
    refine ⟨htable.trans htable', hdeletes.trans hdeletes', hlength'.trans hlength, ?_⟩
    rw [map_cons, follow]
    obtain ⟨hmem, hstaged, hrows, hbefores⟩ | ⟨hnot, hmore⟩ := mergeUpdate_cases p u
    · rw [if_pos hmem, ← hstaged]
      refine ⟨fun hnone => hlength'.trans_lt (hgrown hnone), fun rows hsome => ?_⟩
      obtain ⟨hend, hlast, hkept⟩ := hled rows hsome
      exact ⟨hend, hlast.trans hrows, hkept.trans hbefores⟩
    · rw [if_neg hnot]
      exact ⟨fun _ => by omega, by simp⟩

theorem updates_ext {vs : List LiteRowMutation} (hbefore : us.map (·.before) = vs.map (·.before))
    (hafter : us.map (·.afterRow) = vs.map (·.afterRow)) : us = vs := by
  induction us generalizing vs with
  | nil =>
    cases vs with
    | nil => rfl
    | cons v vs => cases hbefore
  | cons u us ih =>
    cases vs with
    | nil => cases hbefore
    | cons v vs =>
      obtain ⟨hfirst, hrest⟩ := List.cons.inj hbefore
      obtain ⟨hfirst', hrest'⟩ := List.cons.inj hafter
      have hvalue : u.after = v.after := congrArg LiteRow.value hfirst'
      rw [ih hrest hrest']
      congr 1
      cases u
      cases v
      cases hfirst
      cases hvalue
      rfl

theorem runKeys_updates (h : stageAll p (us.map .update) = .ok q) :
    runKeys p (us.map .update) =
      (us.map StageEvent.update).flatMap fun e => imageKeys p.table (e.images p) := by
  induction us generalizing p with
  | nil => rfl
  | cons u rest ih =>
    simp only [map_cons, stageAll, bind_eq_ok] at h
    obtain ⟨m, hm, hrest⟩ := h
    have htable : m.table = p.table := (stage_shift hm).1
    rw [map_cons, runKeys, hm, flatMap_cons]
    dsimp only
    rw [ih hrest, htable, flatMap_map, flatMap_map]
    rfl

theorem explains_updates (p : PendingTable) (us : List LiteRowMutation) :
    Explains p (us.map .update) := by
  constructor
  · intro front e q hpre hq
    obtain ⟨front, u, rfl, rfl⟩ := concat_prefix_map hpre
    rw [stage_update_error, (stageAll_updates hq).1, Refused]
  · intro front q hpre hq
    obtain ⟨front, -, rfl⟩ := prefix_map_iff.mp hpre
    obtain ⟨-, hdeletes, -, hgrown, hled⟩ := stageAll_updates hq
    constructor
    · intro hsame
      have hups : q.updates = p.updates := congrArg updates hsame
      have hrows : q.rows = p.rows := congrArg inserts hsame
      cases hfollow : follow p.stagedRows (front.map .update) with
      | none =>
        have hmore := hgrown hfollow
        rw [hups] at hmore
        omega
      | some rows =>
        rw [← (hled rows hfollow).1, PendingTable.stagedRows, hups, hrows]
        rfl
    · intro hfollow
      obtain ⟨hstaged, hlength, hbefores⟩ := hled _ hfollow
      obtain ⟨hrows, hafters⟩ := append_inj hstaged hlength
      unfold PendingTable.mutations
      rw [hrows, hdeletes, updates_ext hbefores hafters]
  · intro front e q hpre hq hsame
    obtain ⟨front, u, rfl, rfl⟩ := concat_prefix_map hpre
    rw [runKeys_updates hq, flatMap_append, (stageAll_updates hq).1]
    simp [StageEvent.images]

/-! ## All or nothing -/

theorem BulkCall.explains (p : PendingTable) (call : BulkCall) : Explains p call.events := by
  cases call with
  | insertRows rows => exact explains_inserts p rows
  | updateRows mutations => exact explains_updates p mutations
  | deleteRows rows => exact explains_deletes p rows

/-- A bulk call that fails leaves the transaction as it was exactly when the row it breaks off at
is reached with nothing changed. -/
theorem bulk_call_is_all_or_nothing_iff (t : TxnTable) (loaded : Except String LiteTableDef)
    (call : BulkCall) :
    AllOrNothing (call.run loaded) t ↔
      ∀ p, t.startPending loaded = .ok p → KeepsWhenRefused p t.writeKeys call.events := by
  have hcall : AllOrNothing (call.run loaded) t ↔
      ∀ p, t.startPending loaded = .ok p → BreaksUnchanged p call.events t.writeKeys := by
    cases call with
    | insertRows rows =>
      cases rows with
      | nil =>
        refine iff_of_true (fun _ _ h => (nomatch h)) fun _ _ front e back _ _ hsplit => ?_
        exact absurd hsplit.symm (by simp [BulkCall.events])
      | cons row rest => exact stages_insert.allOrNothing_iff
    | updateRows mutations => exact stages_update.allOrNothing_iff
    | deleteRows rows => exact stages_delete.allOrNothing_iff
  rw [hcall]
  exact forall₂_congr fun p _ => (call.explains p).keeps_iff t.writeKeys

/-- A delete that names the one row of the table twice is refused, and the row is gone. -/
theorem refused_delete_hides_the_row :
    ∃ t', (BulkCall.deleteRows [⟨0, smallRow 1 1⟩, ⟨0, smallRow 1 1⟩]).run (.ok smallTable)
        (beginTable (smallStored [(1, 1)])) =
          .error "lite delete selected a row more than once" t' ∧
      stateful.valueOf (LiteTxnContext.scanRows (beginTable (smallStored [(1, 1)]))) =
        some [⟨0, smallRow 1 1⟩] ∧
      stateful.valueOf (LiteTxnContext.scanRows t') = some [] ∧
      ¬ AllOrNothing ((BulkCall.deleteRows [⟨0, smallRow 1 1⟩, ⟨0, smallRow 1 1⟩]).run
        (.ok smallTable)) (beginTable (smallStored [(1, 1)])) := by
  generalize hresult : (BulkCall.deleteRows [⟨0, smallRow 1 1⟩, ⟨0, smallRow 1 1⟩]).run
    (.ok smallTable) (beginTable (smallStored [(1, 1)])) = result
  have hfails : result = .error "lite delete selected a row more than once"
      (stateful.stateOf result) :=
    eq_error_of_errorOf (by rw [← hresult]; decide +kernel)
  have hbefore : stateful.valueOf (LiteTxnContext.scanRows (beginTable (smallStored [(1, 1)]))) =
      some [⟨0, smallRow 1 1⟩] := by decide +kernel
  have hafter : stateful.valueOf (LiteTxnContext.scanRows (stateful.stateOf result)) = some [] := by
    rw [← hresult]
    decide +kernel
  refine ⟨_, hfails, hbefore, hafter, fun hall => ?_⟩
  have hsame := (hall _ _ (hresult.trans hfails)).visible
  rw [hbefore, hafter] at hsame
  cases hsame

end litestore
