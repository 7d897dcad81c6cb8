-- Commits in flight. A commit waits for its intent, builds its batch under the lock of the manager
-- and writes it after the lock is released, while others are built and written.
import LiteStore.CommitIntents
import LiteStore.StagedFailures
import LiteStore.Upserts

namespace litestore

open checked rowimage transitions List

/-! ## A batch depends on the keys that it touches -/

/-- The keys of the rows that leave and of the rows that arrive. -/
def Mutations.Touches (m : Mutations) (table : LiteTableDef) (k : Bytes) : Prop :=
  ∃ row ∈ m.outgoing ++ m.incoming, recordAt table row k ≠ none

/-- A commit, when no read fails, builds this batch. -/
abbrev Builds (st : TableState) (table : LiteTableDef) (m : Mutations) (batch : TableBatch) :=
  appendPendingMutationsAtomic noFaults false st table m = .ok batch

variable {st st' : TableState} {table table' : LiteTableDef}
  {m m' : Mutations} {batch batch' : TableBatch} {n : UInt64} {k : Bytes}

section

variable (hsame : SameRecords st.table st'.table)
  (huid : st'.table.objectUid = st.table.objectUid)
  (hnext : m.inserts ≠ [] → st.table.keyless = true → st'.table = st.table)
  (hkept : ∀ k, m.Touches st.table k → st'.records[k]? = st.records[k]?)

include hsame hnext hkept

theorem DeltaAccepted.frame (h : DeltaAccepted noFaults st m) : DeltaAccepted noFaults st' m := by
  obtain ⟨⟨keys, hleaving, hnd⟩, harriving, hapart, hfree, hids⟩ := h
  refine ⟨⟨keys, ?_, hnd⟩, ?_, ?_, ?_, ?_⟩
  · rw [forall₂_iff_zip] at hleaving ⊢
    refine ⟨hleaving.1, fun {row key} hmem => ?_⟩
    obtain ⟨hnamed, -, hstored, own, hown⟩ := hleaving.2 hmem
    have htouched : m.Touches st.table key :=
      ⟨row, mem_append_left _ (of_mem_zip hmem).1, by simp [recordAt_own_key hnamed hown]⟩
    exact ⟨(rowStorageKey_congr hsame.columns hsame.primaryKeyColumns row).trans hnamed, rfl,
      (hkept key htouched).trans hstored, own, (hsame.rowRecords row).trans hown⟩
  · simpa only [hsame.rowRecords] using harriving
  · rwa [hsame.recordAt]
  · intro k hk
    rw [hsame.recordAt] at hk ⊢
    refine (hfree k hk).imp id fun hnone => ⟨rfl, (hkept k ?_).trans hnone.2⟩
    obtain ⟨row, hrow, hat⟩ := owners_pos_iff.mp hk
    exact ⟨row, mem_append_right _ hrow, hat⟩
  · by_cases htaken : m.inserts ≠ [] ∧ st.table.keyless = true
    · rwa [hnext htaken.1 htaken.2]
    · unfold checkRowIds
      split <;> simp_all [hsame.keyless]

include huid

/-- A commit builds the same batch from every table that agrees with the stored one on the keys it
touches and on the row ids it takes. -/
theorem Builds.frame (h : Builds st table m batch) : Builds st' table m batch := by
  cases hne : m.isEmpty with
  | true => simpa [Builds, appendPendingMutationsAtomic, hne] using h
  | false =>
    obtain ⟨⟨-, hown⟩, -, hacc, puts, himage, rfl⟩ := (appendPendingMutationsAtomic_eq_ok hne).mp h
    refine (appendPendingMutationsAtomic_eq_ok hne).mpr ⟨⟨rfl, huid.trans hown⟩, rfl,
      hacc.frame hsame hnext hkept, puts, by rwa [hsame.recordAt], ?_⟩
    have hremoved : removedBy st'.table = removedBy st.table := by
      unfold removedBy ownRecords
      simp only [hsame.rowRecords]
    rw [hremoved, hsame.keyless]
    congr 1
    split
    · rename_i hcond
      simp only [Bool.and_eq_true, Bool.not_eq_true', List.isEmpty_eq_false_iff] at hcond
      rw [hnext hcond.2 hcond.1]
    · rfl

end

section

variable (h : Builds st table m batch)

include h

/-- All commits that insert into a keyless table at one time want the same first row id. -/
theorem Builds.touches_next (hkeyless : st.table.keyless = true) (hinserts : m.inserts ≠ []) :
    m.Touches st.table (uint64Bytes st.table.nextRowId) := by
  have hacc := (append_accepted (by simp [Mutations.isEmpty, hinserts]) h).1
  obtain ⟨first, rest, hrows⟩ := exists_cons_of_ne_nil hinserts
  have hfirst : first ∈ m.incoming := mem_append_right _ (by simp [hrows])
  have hid : first.rowId = st.table.nextRowId := by
    have hids := hacc.rowIds
    by_contra hne
    simp [checkRowIds, hrows, hkeyless, hne] at hids
  obtain ⟨own, hown⟩ := hacc.arriving first hfirst
  have hkey : rowStorageKey st.table first = .ok (uint64Bytes st.table.nextRowId) := by
    rw [rowStorageKey, if_pos hkeyless, hid]
  exact ⟨first, mem_append_right _ hfirst, by simp [recordAt_own_key hkey hown]⟩

/-- A written batch moves the next row id if it has inserts, and keeps the records that its rows
do not own. -/
theorem Builds.applyBatch :
    (∃ n, (st.applyBatch batch).table = { st.table with nextRowId := n } ∧
      (m.inserts = [] → n = st.table.nextRowId)) ∧
    ∀ k, ¬ m.Touches st.table k → (st.applyBatch batch).records[k]? = st.records[k]? := by
  cases hne : m.isEmpty with
  | true =>
    simp only [Builds, appendPendingMutationsAtomic, hne, if_true, Except.ok.injEq] at h
    subst h
    exact ⟨⟨_, rfl, fun _ => rfl⟩, fun _ _ => rfl⟩
  | false =>
    have hbatch := (append_accepted hne h).2
    constructor
    · rw [TableState.applyBatch, hbatch.table]
      split
      · rename_i hcond
        exact ⟨_, rfl, fun hnil => by simp [hnil] at hcond⟩
      · exact ⟨_, rfl, fun _ => rfl⟩
    · intro k hk
      have hnone : ∀ row ∈ m.outgoing ++ m.incoming, recordAt st.table row k = none :=
        fun row hrow => by_contra fun hat => hk ⟨row, hrow, hat⟩
      rw [forall_mem_append, ← owners_zero, ← owners_zero] at hnone
      exact hbatch.changed.kept k hnone.2 hnone.1

/-- A commit builds the same batch after the write of another one that touches none of its keys. -/
theorem Builds.after_write (h' : Builds st table' m' batch')
    (hapart : ∀ k, m.Touches st.table k → ¬ m'.Touches st.table k) :
    Builds (st.applyBatch batch') table m batch := by
  obtain ⟨⟨n, htable, hn⟩, hkept⟩ := h'.applyBatch
  refine h.frame (htable ▸ sameRecords_nextRowId _ n) (by rw [htable])
    (fun hinserts hkeyless => ?_) fun k hk => hkept k (hapart k hk)
  rw [htable, hn]
  by_contra hinserts'
  exact hapart _ (h.touches_next hkeyless hinserts) (h'.touches_next hkeyless hinserts')

end

theorem touches_nextRowId (h : table' = { table with nextRowId := n }) :
    m.Touches table' k ↔ m.Touches table k := by
  rw [h]
  unfold Mutations.Touches
  rw [(sameRecords_nextRowId table n).recordAt]

/-! ## The write set covers the commit -/

/-- The rows that a transaction stages, one after the other, and the keys that they record. -/
def stageRecorded : PendingTable → List StageEvent → Except String (PendingTable × List Bytes)
  | p, [] => .ok (p, [])
  | p, event :: rest => do
    let keys ← (event.images p).mapM (rowWriteKeys p.table)
    let q ← p.stage event
    let (last, more) ← stageRecorded q rest
    .ok (last, keys.flatten ++ more)

variable {p q : PendingTable} {keys : List Bytes}

/-- The keys that the staged rows own are recorded. -/
theorem touches_recorded {events : List StageEvent} (h : stageRecorded p events = .ok (q, keys))
    (hk : q.mutations.Touches p.table k) : k ∈ keys ∨ p.mutations.Touches p.table k := by
  induction events generalizing p keys with
  | nil =>
    cases h
    exact .inr hk
  | cons event rest ih =>
    simp only [stageRecorded, bind_eq_ok, Except.ok.injEq, Prod.mk.injEq] at h
    obtain ⟨first, hfirst, mid, hmid, ⟨_, more⟩, hrest, rfl, rfl⟩ := h
    obtain ⟨htable, hshift, -⟩ := stage_shift hmid
    rw [← htable] at hk
    obtain hk | ⟨row, hrow, hat⟩ := ih hrest hk
    · exact .inl (mem_append_right _ hk)
    · rw [htable] at hat
      obtain hold | hnew := hshift.mem hrow
      · exact .inr ⟨row, hold, hat⟩
      · have himage : row ∈ event.images p := by cases event <;> exact hnew
        obtain ⟨rowKeys, hmem, hrowKeys⟩ := forall₂_exists_right (mapM_eq_ok.mp hfirst) himage
        obtain ⟨v, hv⟩ := Option.ne_none_iff_exists'.mp hat
        exact .inl (mem_append_left _ (mem_flatten_of_mem hmem (mem_keys_of_recordAt hrowKeys hv)))

/-! ## The pipeline -/

/-- A commit that holds its intent: what its transaction staged, and the batch once it is built. -/
structure CommitInFlight where
  intent : LiteActiveCommit
  changes : PendingTable
  batch : Option TableBatch := none

/-- The stored table, the commits in flight, and the changes that were written, in order. -/
structure CommitPipeline where
  stored : TableState
  inFlight : List CommitInFlight := []
  written : List PendingTable := []

/-- `acquire` brings a transaction that loaded the table at some time and staged some rows. -/
inductive CommitStep
  | acquire (intent : LiteActiveCommit) (loaded : LiteTableDef) (events : List StageEvent)
  | build (i : Nat)
  | write (i : Nat)
  | abort (i : Nat)

/-- Each commit is built and written before the next one begins. -/
def serialCommits (start : TableState) (changes : List PendingTable) : Except String TableState :=
  changes.foldlM (fun st p => do
    let batch ← appendPendingMutationsAtomic noFaults false st p.table p.mutations
    .ok (st.applyBatch batch)) start

namespace CommitPipeline

def step (s : CommitPipeline) : CommitStep → Option CommitPipeline
  | .acquire intent loaded events =>
    match stageRecorded (loadPending loaded) events with
    | .error _ => none
    | .ok (changes, keys) =>
      if loaded = { s.stored.table with nextRowId := loaded.nextRowId } ∧
          (∀ k ∈ keys, (loaded.objectUid, k) ∈ intent.writes.val) ∧
          LiteCommitCoordinator.conflicts (s.inFlight.map (·.intent)) intent = false then
        some { s with inFlight := s.inFlight ++ [{ intent, changes }] }
      else none
  | .build i => do
    let c ← s.inFlight[i]?
    match c.batch, appendPendingMutationsAtomic noFaults false s.stored c.changes.table
        c.changes.mutations with
    | none, .ok batch => some { s with inFlight := { c with batch } :: s.inFlight.eraseIdx i }
    | _, _ => none
  | .write i => do
    let c ← s.inFlight[i]?
    let batch ← c.batch
    some ⟨s.stored.applyBatch batch, s.inFlight.eraseIdx i, s.written ++ [c.changes]⟩
  -- a check, a read or the write failed
  | .abort i => some { s with inFlight := s.inFlight.eraseIdx i }

/-- The intents keep the commits apart, and each batch in flight is the one that its commit would
build now. -/
structure Inv (start : TableState) (s : CommitPipeline) : Prop where
  apart : s.inFlight.Pairwise fun a b => List.Disjoint a.intent.writes.val b.intent.writes.val
  covers : ∀ c ∈ s.inFlight, ∀ k, c.changes.mutations.Touches s.stored.table k →
    (s.stored.table.objectUid, k) ∈ c.intent.writes.val
  built : ∀ c ∈ s.inFlight, ∀ batch ∈ c.batch,
    Builds s.stored c.changes.table c.changes.mutations batch
  serial : serialCommits start s.written = .ok s.stored

variable {start : TableState} {s next : CommitPipeline} {i : Nat} {c : CommitInFlight}
  {l : List CommitInFlight}

theorem Inv.subperm (h : s.Inv start) (hl : l <+~ s.inFlight) :
    { s with inFlight := l }.Inv start := by
  obtain ⟨l', hperm, hsub⟩ := hl
  have hmem : ∀ c ∈ l, c ∈ s.inFlight := fun c hc => hsub.subset (hperm.mem_iff.mpr hc)
  exact ⟨(hperm.pairwise_iff fun h => h.symm).mp (h.apart.sublist hsub),
    fun c hc => h.covers c (hmem c hc), fun c hc => h.built c (hmem c hc), h.serial⟩

theorem Inv.acquire {intent : LiteActiveCommit} {loaded : LiteTableDef} {events : List StageEvent}
    (h : s.Inv start) (hstep : s.step (.acquire intent loaded events) = some next) :
    next.Inv start := by
  dsimp only [step] at hstep
  split at hstep
  · cases hstep
  rename_i changes keys hrecorded
  obtain ⟨⟨htable, hkeys, hfree⟩, hnext⟩ := Option.ite_none_right_eq_some.mp hstep
  obtain rfl := Option.some.inj hnext
  refine ⟨?_, ?_, ?_, h.serial⟩
  · refine pairwise_append.mpr ⟨h.apart, pairwise_singleton _ _, fun a ha b hb w hw hw' => ?_⟩
    rw [mem_singleton.mp hb] at hw'
    exact (exclusive_of_not_conflicts hfree _ (mem_map_of_mem ha)).writes w hw w hw' ⟨rfl, .inl rfl⟩
  · refine forall_mem_append.mpr ⟨h.covers, forall_mem_singleton.mpr fun k hk => ?_⟩
    have hcovered := touches_recorded hrecorded ((touches_nextRowId htable).mpr hk)
    rw [htable] at hkeys
    exact hkeys k (hcovered.resolve_right fun ⟨_, hrow, _⟩ => nomatch hrow)
  · exact forall_mem_append.mpr ⟨h.built, forall_mem_singleton.mpr nofun⟩

theorem Inv.build (h : s.Inv start) (hc : s.inFlight[i]? = some c)
    (hbatch : Builds s.stored c.changes.table c.changes.mutations batch) :
    { s with inFlight := { c with batch } :: s.inFlight.eraseIdx i }.Inv start := by
  obtain ⟨hi, rfl⟩ := List.getElem?_eq_some_iff.mp hc
  obtain ⟨hapart, hcovers, hbuilt, hserial⟩ := h.subperm (getElem_cons_eraseIdx_perm hi).subperm
  rw [forall_mem_cons] at hcovers hbuilt
  refine ⟨pairwise_cons.mpr (pairwise_cons.mp hapart), forall_mem_cons.mpr hcovers, ?_, hserial⟩
  refine forall_mem_cons.mpr ⟨fun b hb => ?_, hbuilt.2⟩
  cases hb
  exact hbatch

theorem Inv.write (h : s.Inv start) (hc : s.inFlight[i]? = some c)
    (hbatch : c.batch = some batch) :
    Inv start ⟨s.stored.applyBatch batch, s.inFlight.eraseIdx i, s.written ++ [c.changes]⟩ := by
  obtain ⟨hi, rfl⟩ := List.getElem?_eq_some_iff.mp hc
  obtain ⟨hapart, hcovers, hbuilt, hserial⟩ := h.subperm (getElem_cons_eraseIdx_perm hi).subperm
  rw [pairwise_cons] at hapart
  rw [forall_mem_cons] at hcovers hbuilt
  have hnow := hbuilt.1 batch hbatch
  obtain ⟨⟨n, hn, -⟩, -⟩ := hnow.applyBatch
  refine ⟨hapart.2, fun a ha k hk => ?_, fun a ha b hb => ?_, ?_⟩
  · have hkey := hcovers.2 a ha k ((touches_nextRowId hn).mp hk)
    rwa [hn]
  · refine (hbuilt.2 a ha b hb).after_write hnow fun k hk hk' => ?_
    exact hapart.1 a ha (hcovers.1 k hk') (hcovers.2 a ha k hk)
  · unfold serialCommits at hserial ⊢
    rw [foldlM_append, hserial]
    simp [hnow]

theorem Inv.step {x : CommitStep} (h : s.Inv start) (hstep : s.step x = some next) :
    next.Inv start := by
  cases x with
  | acquire intent loaded events => exact h.acquire hstep
  | build i =>
    obtain ⟨c, hc, hstep⟩ := Option.bind_eq_some_iff.mp hstep
    split at hstep
    · rename_i hbatch
      cases hstep
      exact h.build hc hbatch
    · cases hstep
  | write i =>
    obtain ⟨c, hc, hstep⟩ := Option.bind_eq_some_iff.mp hstep
    obtain ⟨batch, hbatch, hstep⟩ := Option.bind_eq_some_iff.mp hstep
    cases hstep
    exact h.write hc hbatch
  | abort i =>
    cases hstep
    exact h.subperm (eraseIdx_sublist _ _).subperm

end CommitPipeline

/-- Whatever commits wait, are built, written and given up, the written ones leave what they would
leave one after the other, each accepted in its turn. -/
theorem commits_in_flight_are_serial (start : TableState) (steps : List CommitStep) :
    Along CommitPipeline.step (fun s => serialCommits start s.written = .ok s.stored)
      { stored := start } steps := by
  refine (along_of_inv (fun _ _ _ => CommitPipeline.Inv.step) ?_).imp fun s h => h.serial
  exact ⟨.nil, nofun, nofun, rfl⟩

/-- One row, under the intent of its key. -/
def insertOne (row : Row) : CommitStep :=
  let key := (rowStorageKey smallTable ⟨0, row⟩).toOption.getD []
  .acquire ⟨0, [], [(7, key)], pairwise_singleton _ _⟩ smallTable [.insert row]

example : (run CommitPipeline.step { stored := smallStored [] } [insertOne (smallRow 1 1),
    insertOne (smallRow 2 2), .build 0, .build 1, .write 1, .write 0]).map (·.stored) =
      some (smallStored [(1, 1), (2, 2)]) := by
  decide +kernel

end litestore
