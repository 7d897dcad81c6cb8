-- Groups of the physical log as a system of steps. Groups of several shards are
-- under way at the same time, and the process may stop between any two writes.
-- The invariant says which batches are in the data, and to which batch each
-- intent in a log belongs.
import LiteStore.PhysicalWal

namespace litestore

open checked batch List

variable {root : Bytes}

/-! ## The system -/

/-- How far a group has come. -/
inductive GroupStage
  | queued | intended | written
deriving DecidableEq

/-- A group that a leader is writing: the numbers of its batches, each with the id it got. -/
structure InFlight where
  shard : Fin 8
  members : List (Nat × UInt64)
  stage : GroupStage := .queued

/-- A batch that was handed in, and the batches that had been acknowledged by then. -/
structure Submission (root : Bytes) where
  batch : LiteUnifiedWriteBatch root
  before : List Nat

/-- Where recovery stands: the shards that are left, the intents of the first of them once it
was scanned, and whether the first intent was replayed. -/
structure RecoveryPoint where
  shards : List (Fin 8)
  scanned : Option (List (Bytes × List WriteOp)) := none
  replayed : Bool := false

inductive StoreMode
  | running (groups : List InFlight)
  | down
  | recovering (point : RecoveryPoint)

/-- The databases, and the batches handed in and acknowledged so far. -/
structure WalLedger (root : Bytes) where
  store : WalStore
  submitted : List (Submission root) := []
  acked : List Nat := []

/-- The same with the process that writes. -/
structure WalSystem (root : Bytes) extends WalLedger root where
  nextWalId : UInt64 := 1
  mode : StoreMode := .down

/-- The ids that a leader gives to the batches of its group. -/
def assignWalIds (now : UInt64) : UInt64 → List (LiteUnifiedWriteBatch root) →
    List UInt64 × UInt64
  | next, [] => ([], next)
  | next, b :: rest =>
    let ids := if b.walId = 0 then allocateWalId next now else (b.walId, next)
    let others := assignWalIds now ids.2 rest
    (ids.1 :: others.1, others.2)

/-- The operations of a batch that was handed in. -/
def WalLedger.operations (s : WalLedger root) (t : Nat) : List WriteOp :=
  (s.submitted[t]?.map fun b => b.batch.physical).getD []

/-- The requests of a group. -/
def WalLedger.requests (s : WalLedger root) (members : List (Nat × UInt64)) : List WalRequest :=
  members.map fun m => ⟨m.2, s.operations m.1⟩

/-- One step of recovery. It ends with a running store and no group. -/
def recoverStep (st : WalStore) (point : RecoveryPoint) : Except String (WalStore × StoreMode) :=
  match point.shards with
  | [] => .ok (st, .running [])
  | shard :: rest =>
    match point.scanned with
    | none => .ok (st, .recovering { point with scanned := some (pendingIntents (st.wal shard)) })
    | some [] => .ok (st, .recovering { shards := rest })
    | some (intent :: others) =>
      if point.replayed then
        .ok (removeIntent st shard intent, .recovering ⟨point.shards, some others, false⟩)
      else do
        let replayed ← replayIntent st intent
        .ok (replayed, .recovering { point with replayed := true })

/-- What can happen: a leader takes a group from the queue of a shard, one of its three writes
is done, the process stops, it starts again, or recovery goes on. -/
inductive WalStep (root : Bytes)
  | submit (shardCount : Fin 8) (shard : Fin 8) (batches : List (LiteUnifiedWriteBatch root))
      (now : UInt64)
  | intent (group : Nat)
  | canonical (group : Nat)
  | remove (group : Nat)
  | crash
  | restart
  | recover

def WalSystem.step (s : WalSystem root) : WalStep root → Option (WalSystem root)
  | .submit shardCount shard batches now =>
    match s.mode with
    | .running groups =>
      if batches.all fun b => b.shard shardCount = shard then
        let ids := assignWalIds now s.nextWalId batches
        let tokens := List.range' s.submitted.length batches.length
        some { s with
          nextWalId := ids.2
          submitted := s.submitted ++ batches.map fun b => ⟨b, s.acked⟩
          mode := .running (groups ++ [{ shard := shard, members := tokens.zip ids.1 }]) }
      else none
    | _ => none
  | .intent n =>
    match s.mode with
    | .running groups =>
      match groups[n]? with
      | some ⟨shard, members, .queued⟩ =>
        some { s with
          store := writeIntents s.store shard (s.requests members)
          mode := .running (groups.set n ⟨shard, members, .intended⟩) }
      | _ => none
    | _ => none
  | .canonical n =>
    match s.mode with
    | .running groups =>
      match groups[n]? with
      | some ⟨shard, members, .intended⟩ =>
        some { s with
          store := writeCanonical s.store (s.requests members)
          mode := .running (groups.set n ⟨shard, members, .written⟩) }
      | _ => none
    | _ => none
  | .remove n =>
    match s.mode with
    | .running groups =>
      match groups[n]? with
      | some ⟨shard, members, .written⟩ =>
        some { s with
          store := removeIntents s.store shard (s.requests members)
          mode := .running (groups.eraseIdx n)
          acked := s.acked ++ members.map Prod.fst }
      | _ => none
    | _ => none
  | .crash => some { s with mode := .down }
  | .restart =>
    match s.mode with
    | .down => some { s with nextWalId := 1, mode := .recovering ⟨finRange 8, none, false⟩ }
    | _ => none
  | .recover =>
    match s.mode with
    | .recovering point =>
      match recoverStep s.store point with
      | .ok (store, mode) => some { s with store := store, mode := mode }
      | .error _ => some { s with mode := .down }
    | _ => none

def WalSystem.run (s : WalSystem root) : List (WalStep root) → Option (WalSystem root)
  | [] => some s
  | c :: rest => (s.step c).bind fun s' => s'.run rest

open WalLedger

/-! ## What stays true -/

def InFlight.tokens (g : InFlight) : List Nat := g.members.map Prod.fst

/-- Batches were applied in an order that callers could see: what was acknowledged when a
batch was handed in comes before it. -/
def InOrder (submitted : List (Submission root)) (log : List Nat) : Prop :=
  ∀ i t b, log[i]? = some t → submitted[t]? = some b → ∀ a ∈ b.before, a ∈ log.take i

/-- An intent in a log belongs to a batch that is not acknowledged. When the batch was applied,
its marker is there. -/
structure IntentOf (s : WalLedger root) (log : List Nat) (key : Bytes) (ops : List WriteOp)
    (t : Nat) (id : UInt64) : Prop where
  known : t < s.submitted.length
  waiting : t ∉ s.acked
  key_eq : key = walPendingKey id
  ops_eq : ops = (⟨id, s.operations t⟩ : WalRequest).withMarker
  marked : physicalCommitMarker id ∈ s.store.base ∨ t ∉ log

/-- A batch of a group that is under way. -/
structure MemberOf (s : WalLedger root) (log : List Nat) (stage : GroupStage) (m : Nat × UInt64) :
    Prop where
  known : m.1 < s.submitted.length
  waiting : m.1 ∉ s.acked
  unwritten : stage ≠ .written → m.1 ∉ log
  applied : stage = .written → m.1 ∈ log
  marked : stage = .written → physicalCommitMarker m.2 ∈ s.store.base

/-- The groups under way share no batch, and every intent is one of theirs. -/
structure RunningInv (s : WalLedger root) (log : List Nat) (groups : List InFlight) : Prop where
  distinct : (groups.flatMap InFlight.tokens).Nodup
  members : ∀ g ∈ groups, ∀ m ∈ g.members, MemberOf s log g.stage m
  owned : ∀ shard key ops, (s.store.wal shard)[key]? = some ops →
    ∃ g ∈ groups, g.shard = shard ∧ ∃ m ∈ g.members, IntentOf s log key ops m.1 m.2

/-- Every intent belongs to a batch, and all intents of a batch have its id. -/
def IntentsInv (s : WalLedger root) (log : List Nat) : Prop :=
  ∃ idOf : Nat → UInt64, ∀ shard key ops, (s.store.wal shard)[key]? = some ops →
    ∃ t, IntentOf s log key ops t (idOf t)

/-- Recovery has emptied the shards behind it, and it has the list of what is left in the
shard that it is in. -/
structure PointInv (s : WalLedger root) (point : RecoveryPoint) : Prop where
  distinct : point.shards.Nodup
  cleared : ∀ shard, shard ∉ point.shards → s.store.wal shard = ∅
  scanned : ∀ shard rest intents, point.shards = shard :: rest → point.scanned = some intents →
    (intents.map Prod.fst).Nodup ∧
      ∀ key ops, (s.store.wal shard)[key]? = some ops ↔ (key, ops) ∈ intents

def ModeInv (s : WalLedger root) (log : List Nat) : StoreMode → Prop
  | .running groups => RunningInv s log groups
  | .down => IntentsInv s log
  | .recovering point => IntentsInv s log ∧ PointInv s point

/-- The data are those of the batches in the log, each applied once and as a whole. -/
structure LedgerInv (init : RecordMap) (s : WalLedger root) (log : List Nat) : Prop where
  nodup : log.Nodup
  known : ∀ t ∈ log, t < s.submitted.length
  acked : ∀ t ∈ s.acked, t ∈ log
  before : ∀ b ∈ s.submitted, ∀ a ∈ b.before, a ∈ s.acked
  order : InOrder s.submitted log
  data : SameData s.store.base (apply init (log.flatMap s.operations))

structure WalInv (init : RecordMap) (s : WalSystem root) (log : List Nat) : Prop where
  ledger : LedgerInv init s.toWalLedger log
  mode : ModeInv s.toWalLedger log s.mode

/-! ## Markers -/

/-- The operations of a batch name no marker. -/
theorem marker_notMem_operations (s : WalLedger root) (t : Nat) (id : UInt64) :
    physicalCommitMarker id ∉ (s.operations t).map Op.key := by
  unfold WalLedger.operations
  cases s.submitted[t]? with
  | none => simp
  | some b => exact physical_key_ne_marker b.batch .m23 _

theorem commitMarker_inj {a b : UInt64} (h : physicalCommitMarker a = physicalCommitMarker b) :
    a = b :=
  decimal20_inj (append_cancel_left (append_cancel_left h))

variable {id : UInt64} {key : Bytes} {ops : List WriteOp} {shard sh : Fin 8}
  {members : List (Nat × UInt64)}

/-- A batch with its marker adds that marker and takes none away. -/
theorem mem_withMarker {base : RecordMap} {r : WalRequest}
    (h : ∀ id, physicalCommitMarker id ∉ r.operations.map Op.key) :
    physicalCommitMarker id ∈ apply base r.withMarker ↔
      physicalCommitMarker id ∈ base ∨ r.walId = id := by
  unfold WalRequest.withMarker
  rw [apply_append]
  simp only [apply_cons, apply_nil, applyOp]
  rw [Std.ExtTreeMap.mem_insert, Std.LawfulEqCmp.compare_eq_iff_eq,
    ← Std.ExtTreeMap.isSome_getElem?_iff_mem, apply_of_notMem (h id),
    Std.ExtTreeMap.isSome_getElem?_iff_mem]
  constructor
  · rintro (heq | hmem)
    · exact .inr (commitMarker_inj heq)
    · exact .inl hmem
  · rintro (hmem | rfl)
    · exact .inr hmem
    · exact .inl rfl

/-- A group adds the markers of its batches and takes none away. -/
theorem mem_writeCanonical {base : RecordMap} {requests : List WalRequest}
    (h : ∀ r ∈ requests, ∀ id, physicalCommitMarker id ∉ r.operations.map Op.key) :
    physicalCommitMarker id ∈ apply base (requests.flatMap WalRequest.withMarker) ↔
      physicalCommitMarker id ∈ base ∨ ∃ r ∈ requests, r.walId = id := by
  induction requests generalizing base with
  | nil => simp
  | cons r rest ih =>
    rw [flatMap_cons, apply_append, ih fun q hq => h q (mem_cons_of_mem _ hq),
      mem_withMarker (h r mem_cons_self)]
    simp only [mem_cons, exists_eq_or_imp, or_assoc]

/-- The data of a group are those of its batches one after another. -/
theorem SameData.requests {a b : RecordMap} (h : SameData a b) (requests : List WalRequest) :
    SameData (batch.apply a (requests.flatMap WalRequest.withMarker))
      (batch.apply b (requests.flatMap WalRequest.operations)) := by
  induction requests generalizing a b with
  | nil => exact h
  | cons r rest ih =>
    rw [flatMap_cons, flatMap_cons, apply_append, apply_append]
    exact ih (h.withMarker r)

/-! ## The order of the log -/

theorem inOrder_snoc {submitted : List (Submission root)} {log : List Nat} {t : Nat}
    (h : InOrder submitted log)
    (ht : ∀ b, submitted[t]? = some b → ∀ a ∈ b.before, a ∈ log) :
    InOrder submitted (log ++ [t]) := by
  intro i u b hu hb a ha
  rcases Nat.lt_trichotomy i log.length with hi | rfl | hi
  · rw [getElem?_append_left hi] at hu
    rw [take_append_of_le_length (by omega)]
    exact h i u b hu hb a ha
  · rw [getElem?_append_right (by omega)] at hu
    simp only [Nat.sub_self, getElem?_cons_zero, Option.some.injEq] at hu
    subst hu
    rw [take_left]
    exact ht b hb a ha
  · rw [getElem?_eq_none (by simp; omega)] at hu
    cases hu

theorem inOrder_append {submitted : List (Submission root)} {log ts : List Nat}
    (h : InOrder submitted log)
    (ht : ∀ t ∈ ts, ∀ b, submitted[t]? = some b → ∀ a ∈ b.before, a ∈ log) :
    InOrder submitted (log ++ ts) := by
  induction ts generalizing log with
  | nil => rwa [append_nil]
  | cons t ts ih =>
    rw [append_cons]
    apply ih (inOrder_snoc h (ht t mem_cons_self))
    intro u hu b hb a ha
    exact mem_append_left _ (ht u (mem_cons_of_mem _ hu) b hb a ha)

/-- What was acknowledged when a batch was handed in has been applied. -/
theorem LedgerInv.before_mem {init : RecordMap} {s : WalLedger root} {log : List Nat}
    (h : LedgerInv init s log) (t : Nat) :
    ∀ b, s.submitted[t]? = some b → ∀ a ∈ b.before, a ∈ log := by
  intro b hb a ha
  exact h.acked a (h.before b (mem_of_getElem? hb) a ha)

/-! ## Groups -/

section Groups

variable {init : RecordMap} {s : WalLedger root} {log : List Nat} {groups others : List InFlight}
variable {g : InFlight}

theorem RunningInv.perm {groups' : List InFlight} (h : RunningInv s log groups)
    (hp : groups.Perm groups') : RunningInv s log groups' where
  distinct := (hp.flatMap_right _).nodup_iff.mp h.distinct
  members g hg := h.members g (hp.mem_iff.mpr hg)
  owned shard key ops hkey := by
    obtain ⟨g, hg, hrest⟩ := h.owned shard key ops hkey
    exact ⟨g, hp.mem_iff.mp hg, hrest⟩

/-- A group of a list stands in front of the others. -/
theorem groups_perm {n : Nat} (h : groups[n]? = some g) : groups.Perm (g :: groups.eraseIdx n) := by
  obtain ⟨hn, rfl⟩ := List.getElem?_eq_some_iff.mp h
  exact (getElem_cons_eraseIdx_perm hn).symm

theorem groups_set_perm {n : Nat} (h : groups[n]? = some g) (g' : InFlight) :
    (groups.set n g').Perm (g' :: groups.eraseIdx n) := by
  obtain ⟨hn, -⟩ := List.getElem?_eq_some_iff.mp h
  exact set_perm_cons_eraseIdx hn g'

/-- The batches of a group are in no other group. -/
theorem RunningInv.apart (h : RunningInv s log (g :: others)) {g' : InFlight} (hg' : g' ∈ others)
    {m : Nat × UInt64} (hm : m ∈ g'.members) : m.1 ∉ g.tokens := by
  intro hmem
  have hd := h.distinct
  rw [flatMap_cons, nodup_append] at hd
  exact hd.2.2 m.1 hmem m.1
    (mem_flatMap.mpr ⟨g', hg', mem_map.mpr ⟨m, hm, rfl⟩⟩) rfl

end Groups

/-! ## The three writes of a group -/

section Writes

variable {init : RecordMap} {s : WalLedger root} {log : List Nat}
variable {others : List InFlight} {g : InFlight}

/-- An intent stays the intent of its batch while the batch is not acknowledged. -/
theorem IntentOf.keep {t : Nat} (h : IntentOf s log key ops t id) (s' : WalLedger root)
    (log' : List Nat) (hlen : s.submitted.length ≤ s'.submitted.length)
    (hops : s'.operations t = s.operations t) (hwaiting : t ∉ s'.acked)
    (hmarked : physicalCommitMarker id ∈ s.store.base ∨ t ∉ log →
      physicalCommitMarker id ∈ s'.store.base ∨ t ∉ log') : IntentOf s' log' key ops t id :=
  ⟨Nat.lt_of_lt_of_le h.known hlen, hwaiting, h.key_eq, by rw [hops]; exact h.ops_eq,
    hmarked h.marked⟩

/-- A batch of a group is not touched by what happens to the others. -/
theorem MemberOf.keep {stage : GroupStage} {m : Nat × UInt64} (h : MemberOf s log stage m)
    (s' : WalLedger root) (log' : List Nat) (hlen : s.submitted.length ≤ s'.submitted.length)
    (hwaiting : m.1 ∉ s'.acked) (hlog : m.1 ∈ log' ↔ m.1 ∈ log)
    (hbase : physicalCommitMarker m.2 ∈ s.store.base → physicalCommitMarker m.2 ∈ s'.store.base) :
    MemberOf s' log' stage m where
  known := Nat.lt_of_lt_of_le h.known hlen
  waiting := hwaiting
  unwritten hstage := by
    rw [hlog]
    exact h.unwritten hstage
  applied hstage := hlog.mpr (h.applied hstage)
  marked hstage := hbase (h.marked hstage)

/-- The log of a shard after a write to one of them. -/
theorem onShard_wal {st : WalStore} {ops : List (Op Bytes (List WriteOp))} :
    (st.onShard shard ops).wal sh = if sh = shard then apply (st.wal sh) ops else st.wal sh := by
  unfold WalStore.onShard
  by_cases h : sh = shard
  · subst h
    simp
  · simp [h]

/-- An intent that is in a log after the first write was there before or is of the group. -/
theorem writeIntents_wal
    (h : ((writeIntents s.store shard (s.requests members)).wal sh)[key]? = some ops) :
    (s.store.wal sh)[key]? = some ops ∨ sh = shard ∧ ∃ m ∈ members, key = walPendingKey m.2 ∧
      ops = (⟨m.2, s.operations m.1⟩ : WalRequest).withMarker := by
  simp only [writeIntents, onShard_wal] at h
  split at h
  · rename_i hshard
    rcases mem_of_apply h with hput | hold
    · simp only [requests, map_map, mem_map, Function.comp_apply, Op.put.injEq] at hput
      obtain ⟨m, hm, hmkey, hmops⟩ := hput
      exact .inr ⟨hshard, m, hm, hmkey.symm, hmops.symm⟩
    · exact .inl hold
  · exact .inl h

/-- After the first write the intents of the group are in the log of its shard. -/
theorem RunningInv.intent (h : RunningInv s log (g :: others)) (hg : g.stage = .queued) :
    RunningInv { s with store := writeIntents s.store g.shard (s.requests g.members) } log
      ({ g with stage := .intended } :: others) where
  distinct := h.distinct
  members g' hg' m hm := by
    rcases mem_cons.mp hg' with rfl | hg'
    · obtain ⟨hknown, hwaiting, hunwritten, -, -⟩ := h.members g mem_cons_self m hm
      exact ⟨hknown, hwaiting, fun _ => hunwritten (by rw [hg]; simp), by simp, by simp⟩
    · have hmember := h.members g' (mem_cons_of_mem _ hg') m hm
      exact hmember.keep _ _ le_rfl hmember.waiting Iff.rfl id
  owned shard key ops hkey := by
    rcases writeIntents_wal hkey with hold | ⟨rfl, m, hm, hmkey, hmops⟩
    · obtain ⟨g', hg', hshard, m, hm, hintent⟩ := h.owned shard key ops hold
      have hkeep := hintent.keep
        { s with store := writeIntents s.store g.shard (s.requests g.members) } log
        le_rfl rfl hintent.waiting id
      rcases mem_cons.mp hg' with rfl | hg'
      · exact ⟨_, mem_cons_self, hshard, m, hm, hkeep⟩
      · exact ⟨g', mem_cons_of_mem _ hg', hshard, m, hm, hkeep⟩
    · obtain ⟨hknown, hwaiting, hunwritten, -, -⟩ := h.members g mem_cons_self m hm
      exact ⟨_, mem_cons_self, rfl, m, hm, hknown, hwaiting, hmkey, hmops,
        Or.inr (hunwritten (by rw [hg]; simp))⟩

/-- The markers after the second write. -/
theorem marker_mem_writeCanonical :
    physicalCommitMarker id ∈ (writeCanonical s.store (s.requests members)).base ↔
      physicalCommitMarker id ∈ s.store.base ∨ ∃ m ∈ members, m.2 = id := by
  unfold writeCanonical
  rw [mem_writeCanonical]
  · simp [requests]
  · intro r hr
    obtain ⟨m, -, rfl⟩ := mem_map.mp hr
    exact marker_notMem_operations s m.1

/-- After the second write the batches of the group are applied and marked. -/
theorem RunningInv.canonical (h : RunningInv s log (g :: others)) :
    RunningInv { s with store := writeCanonical s.store (s.requests g.members) }
      (log ++ g.tokens) ({ g with stage := .written } :: others) where
  distinct := h.distinct
  members g' hg' m hm := by
    rcases mem_cons.mp hg' with rfl | hg'
    · obtain ⟨hknown, hwaiting, -, -, -⟩ := h.members g mem_cons_self m hm
      exact ⟨hknown, hwaiting, fun hne => absurd rfl hne,
        fun _ => mem_append_right _ (mem_map.mpr ⟨m, hm, rfl⟩),
        fun _ => marker_mem_writeCanonical.mpr (.inr ⟨m, hm, rfl⟩)⟩
    · have hmember := h.members g' (mem_cons_of_mem _ hg') m hm
      refine hmember.keep _ _ le_rfl hmember.waiting ?_ fun hbase =>
        marker_mem_writeCanonical.mpr (.inl hbase)
      simp [h.apart hg' hm]
  owned shard key ops hkey := by
    obtain ⟨g', hg', hshard, m, hm, hintent⟩ := h.owned shard key ops hkey
    have hkeep : (m.1 ∈ g.tokens → m ∈ g.members) → IntentOf
        { s with store := writeCanonical s.store (s.requests g.members) } (log ++ g.tokens)
        key ops m.1 m.2 := by
      intro hmine
      refine hintent.keep _ _ le_rfl rfl hintent.waiting ?_
      rintro (hbase | hlog)
      · exact .inl (marker_mem_writeCanonical.mpr (.inl hbase))
      by_cases hmem : m.1 ∈ g.tokens
      · exact .inl (marker_mem_writeCanonical.mpr (.inr ⟨m, hmine hmem, rfl⟩))
      · exact .inr (by simp [hlog, hmem])
    rcases mem_cons.mp hg' with rfl | hg'
    · exact ⟨_, mem_cons_self, hshard, m, hm, hkeep fun _ => hm⟩
    · exact ⟨g', mem_cons_of_mem _ hg', hshard, m, hm,
        hkeep fun hmem => absurd hmem (h.apart hg' hm)⟩

theorem LedgerInv.canonical (hledger : LedgerInv init s log) (h : RunningInv s log (g :: others))
    (hg : g.stage ≠ .written) :
    LedgerInv init { s with store := writeCanonical s.store (s.requests g.members) }
      (log ++ g.tokens) where
  nodup := by
    have hd := h.distinct
    rw [flatMap_cons, nodup_append] at hd
    refine hledger.nodup.append hd.1 ?_
    intro t hlog ht
    obtain ⟨m, hm, rfl⟩ := mem_map.mp ht
    exact (h.members g mem_cons_self m hm).unwritten hg hlog
  known t ht := by
    rcases mem_append.mp ht with ht | ht
    · exact hledger.known t ht
    · obtain ⟨m, hm, rfl⟩ := mem_map.mp ht
      exact (h.members g mem_cons_self m hm).known
  acked t ht := mem_append_left _ (hledger.acked t ht)
  before := hledger.before
  order := inOrder_append hledger.order fun t _ => hledger.before_mem t
  data := by
    have hops : (s.requests g.members).flatMap WalRequest.operations =
        g.tokens.flatMap s.operations := by
      simp only [requests, InFlight.tokens, flatMap_map]
    have hdata := hledger.data.requests (s.requests g.members)
    rw [hops, ← apply_append, ← flatMap_append] at hdata
    exact hdata

/-- An intent that is in a log after the third write was there before, and its key is not one
of the group. -/
theorem removeIntents_wal
    (h : ((removeIntents s.store shard (s.requests members)).wal sh)[key]? = some ops) :
    (s.store.wal sh)[key]? = some ops ∧ (sh = shard → ∀ m ∈ members, key ≠ walPendingKey m.2) := by
  have hkeys : (s.requests members).map (fun r => (.delete (walPendingKey r.walId) : Op _ _)) =
      (members.map fun m => walPendingKey m.2).map (Op.delete (V := List WriteOp)) := by
    simp only [requests, map_map, Function.comp_def]
  rw [removeIntents, onShard_wal, hkeys, apply_deletes] at h
  by_cases hshard : sh = shard
  · rw [if_pos hshard, eraseAll_getElem?] at h
    split at h
    · cases h
    · rename_i hmem
      refine ⟨h, fun _ m hm heq => hmem ?_⟩
      rw [heq]
      exact mem_map.mpr ⟨m, hm, rfl⟩
  · rw [if_neg hshard] at h
    exact ⟨h, fun heq => absurd heq hshard⟩

/-- After the third write the group is done, and no intent of it is left. -/
theorem RunningInv.remove (h : RunningInv s log (g :: others)) :
    RunningInv { s with
      store := removeIntents s.store g.shard (s.requests g.members)
      acked := s.acked ++ g.tokens } log others where
  distinct := by
    have hd := h.distinct
    rw [flatMap_cons, nodup_append] at hd
    exact hd.2.1
  members g' hg' m hm := by
    have hmember := h.members g' (mem_cons_of_mem _ hg') m hm
    refine hmember.keep _ _ le_rfl ?_ Iff.rfl id
    simp [hmember.waiting, h.apart hg' hm]
  owned shard key ops hkey := by
    obtain ⟨hold, hothers⟩ := removeIntents_wal hkey
    obtain ⟨g', hg', hshard, m, hm, hintent⟩ := h.owned shard key ops hold
    rcases mem_cons.mp hg' with rfl | hg'
    · exact absurd hintent.key_eq (hothers hshard.symm m hm)
    · refine ⟨g', hg', hshard, m, hm, hintent.keep _ _ le_rfl rfl ?_ id⟩
      simp [hintent.waiting, h.apart hg' hm]

theorem LedgerInv.remove (hledger : LedgerInv init s log) (h : RunningInv s log (g :: others))
    (hg : g.stage = .written) :
    LedgerInv init { s with
      store := removeIntents s.store g.shard (s.requests g.members)
      acked := s.acked ++ g.tokens } log := { hledger with
  acked t ht := by
    rcases mem_append.mp ht with ht | ht
    · exact hledger.acked t ht
    · obtain ⟨m, hm, rfl⟩ := mem_map.mp ht
      exact (h.members g mem_cons_self m hm).applied hg
  before b hb a ha := mem_append_left _ (hledger.before b hb a ha) }

/-- A new group has new numbers. -/
theorem RunningInv.submit {groups : List InFlight} (h : RunningInv s log groups)
    (hledger : LedgerInv init s log) (new : List (Submission root)) (g : InFlight)
    (hg : g.stage = .queued) (htokens : g.tokens = List.range' s.submitted.length new.length) :
    RunningInv { s with submitted := s.submitted ++ new } log (groups ++ [g]) where
  distinct := by
    rw [flatMap_append, flatMap_singleton, htokens]
    refine h.distinct.append nodup_range' ?_
    intro t ht hnew
    obtain ⟨g', hg', ht⟩ := mem_flatMap.mp ht
    obtain ⟨m, hm, rfl⟩ := mem_map.mp ht
    have hknown := (h.members g' hg' m hm).known
    have hge := (mem_range'_1.mp hnew).1
    omega
  members g' hg' m hm := by
    rcases mem_append.mp hg' with hg' | hg'
    · have hmember := h.members g' hg' m hm
      exact hmember.keep _ _ (by simp) hmember.waiting Iff.rfl id
    · rw [mem_singleton.mp hg'] at hm ⊢
      have hnew : m.1 ∈ g.tokens := mem_map.mpr ⟨m, hm, rfl⟩
      rw [htokens, mem_range'_1] at hnew
      have hlog : m.1 ∉ log := by
        intro hmem
        have := hledger.known m.1 hmem
        omega
      exact ⟨by simp; omega, fun hmem => hlog (hledger.acked m.1 hmem), fun _ => hlog,
        by simp [hg], by simp [hg]⟩
  owned shard key ops hkey := by
    obtain ⟨g', hg', hshard, m, hm, hintent⟩ := h.owned shard key ops hkey
    refine ⟨g', mem_append_left _ hg', hshard, m, hm,
      hintent.keep _ _ (by simp) ?_ hintent.waiting id⟩
    simp only [WalLedger.operations, getElem?_append_left hintent.known]

theorem LedgerInv.submit (hledger : LedgerInv init s log)
    (batches : List (LiteUnifiedWriteBatch root)) :
    LedgerInv init { s with submitted := s.submitted ++ batches.map fun b => ⟨b, s.acked⟩ }
      log := { hledger with
  known t ht := by
    have := hledger.known t ht
    simp
    omega
  before b hb := by
    rcases mem_append.mp hb with hb | hb
    · exact hledger.before b hb
    · obtain ⟨b, -, rfl⟩ := mem_map.mp hb
      exact fun a ha => ha
  order i t b hi hb := by
    rw [getElem?_append_left (hledger.known t (mem_of_getElem? hi))] at hb
    exact hledger.order i t b hi hb
  data := by
    have hops : log.flatMap (WalLedger.operations
        { s with submitted := s.submitted ++ batches.map fun b => ⟨b, s.acked⟩ }) =
        log.flatMap s.operations := by
      apply flatMap_congr
      intro t ht
      simp only [WalLedger.operations, getElem?_append_left (hledger.known t ht)]
    rw [hops]
    exact hledger.data }

end Writes

end litestore
