-- Recovery of the physical log, one write at a time. The process may stop
-- anywhere, inside recovery as well. After the next recovery every
-- acknowledged batch is in the data, and every other batch is there as a whole
-- or not at all.
import LiteStore.WalGroups

namespace litestore

open Std (ExtTreeMap)
open checked batch List

variable {root : Bytes}

/-! ## Recovery -/

section Recovery

variable {init : RecordMap} {s : WalLedger root} {log : List Nat}

/-- In a list without repeated keys the value is a function of the key. -/
theorem exists_value_of_nodup {α β : Type} [Inhabited β] {entries : List (α × β)}
    (h : (entries.map Prod.fst).Nodup) : ∃ valueOf : α → β, ∀ e ∈ entries, valueOf e.1 = e.2 := by
  classical
  refine ⟨fun a => if h : ∃ e ∈ entries, e.1 = a then h.choose.2 else default, fun e he => ?_⟩
  have hex : ∃ e' ∈ entries, e'.1 = e.1 := ⟨e, he, rfl⟩
  beta_reduce
  rw [dif_pos hex, inj_on_of_nodup_map h hex.choose_spec.1 he hex.choose_spec.2]

/-- The groups are lost in a crash, their intents are not. -/
theorem RunningInv.intents {groups : List InFlight} (h : RunningInv s log groups) :
    IntentsInv s log := by
  have hkeys : ((groups.flatMap InFlight.members).map Prod.fst).Nodup := by
    rw [map_flatMap]
    exact h.distinct
  obtain ⟨idOf, hid⟩ := exists_value_of_nodup hkeys
  refine ⟨idOf, ?_⟩
  intro shard key ops hkey
  obtain ⟨g, hg, -, m, hm, hintent⟩ := h.owned shard key ops hkey
  refine ⟨m.1, ?_⟩
  rw [hid m (mem_flatMap.mpr ⟨g, hg, hm⟩)]
  exact hintent

theorem ModeInv.intents {mode : StoreMode} (h : ModeInv s log mode) : IntentsInv s log := by
  cases mode with
  | running groups => exact RunningInv.intents h
  | down => exact h
  | recovering point => exact h.1

/-- All intents of a log are found. -/
theorem IntentsInv.pending (h : IntentsInv s log) (shard : Fin 8) :
    pendingIntents (s.store.wal shard) = (s.store.wal shard).toList := by
  obtain ⟨idOf, hintents⟩ := h
  apply filter_eq_self.mpr
  intro e he
  obtain ⟨t, hintent⟩ := hintents shard e.1 e.2 (ExtTreeMap.mem_toList_iff_getElem?_eq_some.mp he)
  rw [hintent.key_eq]
  exact isPrefixOf_iff_prefix.mpr (prefix_append _ _)

theorem replayIntent_walPendingKey (st : WalStore) (id : UInt64) (ops : List WriteOp) :
    replayIntent st (walPendingKey id, ops) = .ok { st with
      base := if physicalCommitMarker id ∈ st.base then st.base else apply st.base ops } := by
  unfold replayIntent
  simp only [parsePhysicalWalId_walPendingKey]
  split <;> rfl

variable {shard : Fin 8} {key : Bytes} {st : WalStore} {intent : Bytes × List WriteOp}
  {rest : List (Fin 8)}

/-- Replaying an intent applies its batch, or the batch was applied before. -/
theorem replayIntent_inv (hledger : LedgerInv init s log) (h : IntentsInv s log)
    {ops : List WriteOp} (hkey : (s.store.wal shard)[key]? = some ops) :
    ∃ base log', replayIntent s.store (key, ops) = .ok { s.store with base := base } ∧
      LedgerInv init { s with store := { s.store with base := base } } log' ∧
      IntentsInv { s with store := { s.store with base := base } } log' := by
  obtain ⟨idOf, hintents⟩ := h
  obtain ⟨t, hof⟩ := hintents shard key ops hkey
  rw [hof.key_eq, replayIntent_walPendingKey]
  by_cases hmarker : physicalCommitMarker (idOf t) ∈ s.store.base
  · exact ⟨s.store.base, log, by rw [if_pos hmarker], hledger, idOf, hintents⟩
  -- without its marker the batch was not applied: it comes last in the log
  have hlog : t ∉ log := hof.marked.resolve_left hmarker
  have hmem : ∀ id, physicalCommitMarker id ∈ apply s.store.base ops ↔
      physicalCommitMarker id ∈ s.store.base ∨ idOf t = id := by
    intro id
    rw [hof.ops_eq]
    exact mem_withMarker (marker_notMem_operations s t)
  refine ⟨apply s.store.base ops, log ++ [t], by rw [if_neg hmarker], ?_, idOf, ?_⟩
  · refine ⟨?_, ?_, ?_, hledger.before, ?_, ?_⟩
    · exact hledger.nodup.append (nodup_singleton t) (disjoint_singleton.mpr hlog)
    · intro u hu
      rcases mem_append.mp hu with hu | hu
      · exact hledger.known u hu
      · rw [mem_singleton.mp hu]
        exact hof.known
    · exact fun u hu => mem_append_left _ (hledger.acked u hu)
    · exact inOrder_snoc hledger.order (hledger.before_mem t)
    · have hdata := hledger.data.withMarker ⟨idOf t, s.operations t⟩
      rw [← hof.ops_eq, ← apply_append, ← flatMap_singleton s.operations t,
        ← flatMap_append] at hdata
      exact hdata
  · intro sh key ops hkey
    obtain ⟨u, hu⟩ := hintents sh key ops hkey
    refine ⟨u, hu.keep _ _ le_rfl rfl hu.waiting ?_⟩
    rintro (hbase | hlog')
    · exact .inl ((hmem _).mpr (.inl hbase))
    by_cases htu : u = t
    · rw [htu]
      exact .inl ((hmem _).mpr (.inr rfl))
    · exact .inr (by simp [hlog', htu])

/-- Fewer intents and the same data. -/
theorem IntentsInv.mono (h : IntentsInv s log) (wal : Fin 8 → WalShard)
    (hwal : ∀ (shard : Fin 8) (key : Bytes) (ops : List WriteOp), (wal shard)[key]? = some ops →
      (s.store.wal shard)[key]? = some ops) :
    IntentsInv { s with store := { s.store with wal := wal } } log := by
  obtain ⟨idOf, hintents⟩ := h
  refine ⟨idOf, ?_⟩
  intro shard key ops hkey
  obtain ⟨t, hintent⟩ := hintents shard key ops (hwal shard key ops hkey)
  exact ⟨t, hintent.keep _ _ le_rfl rfl hintent.waiting id⟩

theorem removeIntent_wal {sh : Fin 8} :
    ((removeIntent st shard intent).wal sh)[key]? =
      if sh = shard ∧ intent.1 = key then none else (st.wal sh)[key]? := by
  rw [removeIntent, onShard_wal]
  by_cases hshard : sh = shard
  · rw [if_pos hshard, apply_cons, apply_nil, applyOp_getElem?]
    simp [hshard, Op.key, Op.result]
  · rw [if_neg hshard, if_neg fun h => hshard h.1]

theorem removeIntent_subset {sh : Fin 8} {ops : List WriteOp}
    (h : ((removeIntent st shard intent).wal sh)[key]? = some ops) :
    (st.wal sh)[key]? = some ops := by
  rw [removeIntent_wal] at h
  split at h
  · cases h
  · exact h

/-- What the scan of a shard finds is what is in its log. -/
theorem PointInv.scan (hintents : IntentsInv s log) (h : PointInv s ⟨shard :: rest, none, false⟩)
    (replayed : Bool) :
    PointInv s ⟨shard :: rest, some (pendingIntents (s.store.wal shard)), replayed⟩ := { h with
  scanned := by
    rintro _ _ _ ⟨⟩ ⟨⟩
    rw [hintents.pending]
    constructor
    · rw [ExtTreeMap.map_fst_toList_eq_keys]
      exact ExtTreeMap.nodup_keys
    · intro key ops
      exact ExtTreeMap.mem_toList_iff_getElem?_eq_some.symm }

/-- A shard is left when it is empty. -/
theorem PointInv.leave {replayed : Bool} (h : PointInv s ⟨shard :: rest, some [], replayed⟩) :
    PointInv s { shards := rest } where
  distinct := h.distinct.of_cons
  cleared sh hsh := by
    by_cases heq : sh = shard
    · have hnone := (h.scanned shard rest [] rfl rfl).2
      rw [heq]
      apply ExtTreeMap.ext_getElem?
      intro key
      rw [ExtTreeMap.getElem?_empty, Option.eq_none_iff_forall_not_mem]
      intro ops hops
      simpa using (hnone key ops).mp hops
    · exact h.cleared sh (by simp [heq, hsh])
  scanned := by
    rintro _ _ _ _ ⟨⟩

/-- The first intent is removed, and the others are left. -/
theorem PointInv.removed {others : List (Bytes × List WriteOp)} {replayed : Bool}
    (h : PointInv s ⟨shard :: rest, some (intent :: others), replayed⟩) :
    PointInv { s with store := removeIntent s.store shard intent }
      ⟨shard :: rest, some others, false⟩ where
  distinct := h.distinct
  cleared sh hsh := by
    have hne : sh ≠ shard := fun heq => hsh (by simp [heq])
    show (removeIntent s.store shard intent).wal sh = ∅
    rw [removeIntent, onShard_wal, if_neg hne]
    exact h.cleared sh hsh
  scanned := by
    rintro _ _ _ ⟨⟩ ⟨⟩
    obtain ⟨hnodup, hmem⟩ := h.scanned shard rest (intent :: others) rfl rfl
    rw [map_cons, nodup_cons] at hnodup
    refine ⟨hnodup.2, ?_⟩
    intro key ops
    show ((removeIntent s.store shard intent).wal shard)[key]? = some ops ↔ _
    rw [removeIntent_wal]
    by_cases hkey : intent.1 = key
    · have hnot : (key, ops) ∉ others := fun hin =>
        hnodup.1 (mem_map.mpr ⟨(key, ops), hin, hkey.symm⟩)
      simp [hkey, hnot]
    · have hne : (key, ops) ≠ intent := fun heq => hkey (by rw [← heq])
      rw [if_neg fun hand => hkey hand.2, hmem key ops]
      simp [hne]

/-- A step of recovery never fails, and it keeps the invariant. -/
theorem recoverStep_inv (hledger : LedgerInv init s log) (h : IntentsInv s log)
    {point : RecoveryPoint} (hpoint : PointInv s point) :
    ∃ st mode log', recoverStep s.store point = .ok (st, mode) ∧
      LedgerInv init { s with store := st } log' ∧
      ModeInv { s with store := st } log' mode := by
  obtain ⟨shards, scanned, replayed⟩ := point
  unfold recoverStep
  cases shards with
  | nil =>
    refine ⟨s.store, .running [], log, rfl, hledger, nodup_nil, by simp, ?_⟩
    intro shard key ops hkey
    rw [hpoint.cleared shard (by simp)] at hkey
    simp at hkey
  | cons shard rest =>
    match scanned with
    | none =>
      exact ⟨s.store, _, log, rfl, hledger, h,
        PointInv.scan h ⟨hpoint.distinct, hpoint.cleared, by rintro _ _ _ _ ⟨⟩⟩ replayed⟩
    | some [] => exact ⟨s.store, _, log, rfl, hledger, h, hpoint.leave⟩
    | some (intent :: others) =>
      cases replayed with
      | true =>
        refine ⟨_, _, log, rfl, ?_, ?_, hpoint.removed⟩
        · exact { hledger with }
        · exact h.mono _ fun sh key ops => removeIntent_subset
      | false =>
        have hkey := ((hpoint.scanned shard rest _ rfl rfl).2 intent.1 intent.2).mpr
          mem_cons_self
        obtain ⟨base, log', hreplay, hledger', hintents'⟩ := replayIntent_inv hledger h hkey
        refine ⟨_, .recovering ⟨shard :: rest, some (intent :: others), true⟩, log', ?_, hledger',
          hintents', ?_⟩
        · simp only [Bool.false_eq_true, if_false]
          rw [hreplay]
          rfl
        · exact ⟨hpoint.distinct, hpoint.cleared, hpoint.scanned⟩

end Recovery

/-! ## Runs -/

section Runs

variable {init : RecordMap} {s s' : WalSystem root} {log : List Nat}

theorem assignWalIds_length (now next : UInt64) (batches : List (LiteUnifiedWriteBatch root)) :
    (assignWalIds now next batches).1.length = batches.length := by
  induction batches generalizing next with
  | nil => rfl
  | cons b rest ih => simp only [assignWalIds, length_cons, ih]

/-- Every step keeps the invariant. -/
theorem WalInv.step (h : WalInv init s log) {c : WalStep root} (hstep : s.step c = some s') :
    ∃ log', WalInv init s' log' := by
  obtain ⟨hledger, hmode⟩ := h
  unfold WalSystem.step at hstep
  cases c with
  | submit shardCount shard batches now =>
    dsimp only at hstep
    split at hstep
    · rename_i groups hrunning
      rw [hrunning] at hmode
      split at hstep
      · cases hstep
        refine ⟨log, hledger.submit batches, ?_⟩
        refine RunningInv.submit hmode hledger (batches.map fun b => ⟨b, s.acked⟩) _ rfl ?_
        simp [InFlight.tokens, map_fst_zip, assignWalIds_length]
      · cases hstep
    · cases hstep
  | intent n =>
    dsimp only at hstep
    split at hstep
    · rename_i groups hrunning
      rw [hrunning] at hmode
      split at hstep
      · rename_i shard members hgroup
        cases hstep
        have hfirst := RunningInv.perm hmode (groups_perm hgroup)
        exact ⟨log, { hledger with }, (hfirst.intent rfl).perm (groups_set_perm hgroup _).symm⟩
      · cases hstep
    · cases hstep
  | canonical n =>
    dsimp only at hstep
    split at hstep
    · rename_i groups hrunning
      rw [hrunning] at hmode
      split at hstep
      · rename_i shard members hgroup
        cases hstep
        have hfirst := RunningInv.perm hmode (groups_perm hgroup)
        exact ⟨_, hledger.canonical hfirst (by simp),
          hfirst.canonical.perm (groups_set_perm hgroup _).symm⟩
      · cases hstep
    · cases hstep
  | remove n =>
    dsimp only at hstep
    split at hstep
    · rename_i groups hrunning
      rw [hrunning] at hmode
      split at hstep
      · rename_i shard members hgroup
        cases hstep
        have hfirst := RunningInv.perm hmode (groups_perm hgroup)
        exact ⟨log, hledger.remove hfirst rfl, hfirst.remove⟩
      · cases hstep
    · cases hstep
  | crash =>
    cases hstep
    exact ⟨log, hledger, hmode.intents⟩
  | restart =>
    dsimp only at hstep
    split at hstep
    · rename_i hdown
      rw [hdown] at hmode
      cases hstep
      refine ⟨log, hledger, hmode, nodup_finRange 8, ?_, by rintro _ _ _ _ ⟨⟩⟩
      exact fun shard hshard => absurd (mem_finRange shard) hshard
    · cases hstep
  | recover =>
    dsimp only at hstep
    split at hstep
    · rename_i point hrecovering
      rw [hrecovering] at hmode
      obtain ⟨st, mode, log', hok, hledger', hmode'⟩ := recoverStep_inv hledger hmode.1 hmode.2
      simp only [hok, Option.some.injEq] at hstep
      subst hstep
      exact ⟨log', hledger', hmode'⟩
    · cases hstep

theorem WalInv.run (h : WalInv init s log) {calls : List (WalStep root)}
    (hrun : s.run calls = some s') : ∃ log', WalInv init s' log' := by
  induction calls generalizing s log with
  | nil =>
    cases hrun
    exact ⟨log, h⟩
  | cons c rest ih =>
    obtain ⟨next, hstep, hrest⟩ := Option.bind_eq_some_iff.mp hrun
    obtain ⟨log', h'⟩ := h.step hstep
    exact ih h' hrest

theorem WalSystem.run_append (first second : List (WalStep root)) :
    s.run (first ++ second) = (s.run first).bind fun mid => mid.run second := by
  induction first generalizing s with
  | nil => rfl
  | cons c rest ih =>
    rw [cons_append, WalSystem.run, WalSystem.run]
    cases s.step c with
    | none => rfl
    | some mid => exact ih

/-- The loop over the intents of a shard, one write at a time. -/
theorem recoverIntents_steps {intents : List (Bytes × List WriteOp)}
    (hmode : s.mode = .recovering ⟨shard :: rest, some intents, false⟩)
    (h : recoverIntents shard intents s.store = .ok st) :
    ∃ k, s.run (replicate k .recover) =
      some { s with store := st, mode := .recovering { shards := rest } } := by
  induction intents generalizing s with
  | nil =>
    cases h
    refine ⟨1, ?_⟩
    simp only [replicate_one, WalSystem.run, WalSystem.step, hmode, recoverStep]
    rfl
  | cons intent others ih =>
    obtain ⟨replayed, hreplay, hothers⟩ := checked.bind_eq_ok.mp h
    -- two steps for the first intent: it is replayed, then it is removed
    let mid : WalSystem root := { s with
      store := removeIntent replayed shard intent
      mode := .recovering ⟨shard :: rest, some others, false⟩ }
    have htwo : s.run (replicate 2 .recover) = some mid := by
      simp only [replicate_succ, replicate_zero, WalSystem.run, WalSystem.step, hmode,
        recoverStep, hreplay]
      rfl
    obtain ⟨k, hk⟩ := ih (s := mid) rfl hothers
    refine ⟨2 + k, ?_⟩
    rw [replicate_add, WalSystem.run_append, htwo]
    exact hk

theorem recoverShards_steps {shards : List (Fin 8)}
    (hmode : s.mode = .recovering { shards := shards })
    (h : recoverShards shards s.store = .ok st) :
    ∃ k, s.run (replicate k .recover) = some { s with store := st, mode := .running [] } := by
  induction shards generalizing s with
  | nil =>
    cases h
    refine ⟨1, ?_⟩
    simp only [replicate_one, WalSystem.run, WalSystem.step, hmode, recoverStep]
    rfl
  | cons shard rest ih =>
    obtain ⟨recovered, hintents, hrest⟩ := checked.bind_eq_ok.mp h
    let scanned : WalSystem root := { s with
      mode := .recovering ⟨shard :: rest, some (pendingIntents (s.store.wal shard)), false⟩ }
    have hone : s.run (replicate 1 .recover) = some scanned := by
      simp only [replicate_one, WalSystem.run, WalSystem.step, hmode, recoverStep]
      rfl
    obtain ⟨k, hk⟩ := recoverIntents_steps (s := scanned) rfl hintents
    obtain ⟨k', hk'⟩ := ih (s := { s with store := recovered, mode := .recovering { shards := rest } })
      rfl hrest
    refine ⟨1 + (k + k'), ?_⟩
    rw [replicate_add, WalSystem.run_append, hone, Option.bind_some, replicate_add,
      WalSystem.run_append, hk]
    exact hk'

/-- Recovery of a log that holds intents only does not fail, and it adds no intent. -/
theorem recoverIntents_ok (shard : Fin 8) {intents : List (Bytes × List WriteOp)} (st : WalStore)
    (h : ∀ e ∈ intents, ∃ id, e.1 = walPendingKey id) :
    ∃ st', recoverIntents shard intents st = .ok st' ∧
      ∀ (sh : Fin 8) (key : Bytes) (ops : List WriteOp), (st'.wal sh)[key]? = some ops →
        (st.wal sh)[key]? = some ops := by
  induction intents generalizing st with
  | nil => exact ⟨st, rfl, fun _ _ _ hkey => hkey⟩
  | cons intent rest ih =>
    obtain ⟨key, ops⟩ := intent
    obtain ⟨id, rfl⟩ := h (key, ops) mem_cons_self
    rw [recoverIntents, replayIntent_walPendingKey]
    obtain ⟨st', hok, hsub⟩ := ih (removeIntent _ shard (walPendingKey id, ops))
      fun e he => h e (mem_cons_of_mem _ he)
    exact ⟨st', hok, fun sh key ops hkey => removeIntent_subset (hsub sh key ops hkey)⟩

theorem recoverShards_ok (shards : List (Fin 8)) (st : WalStore)
    (h : ∀ (sh : Fin 8) (key : Bytes) (ops : List WriteOp), (st.wal sh)[key]? = some ops →
      ∃ id, key = walPendingKey id) : ∃ st', recoverShards shards st = .ok st' := by
  induction shards generalizing st with
  | nil => exact ⟨st, rfl⟩
  | cons shard rest ih =>
    have hpending : ∀ e ∈ pendingIntents (st.wal shard), ∃ id, e.1 = walPendingKey id := by
      intro e he
      exact h shard e.1 e.2 (ExtTreeMap.mem_toList_iff_getElem?_eq_some.mp (mem_filter.mp he).1)
    obtain ⟨st1, hok, hsub⟩ := recoverIntents_ok shard st hpending
    obtain ⟨st2, hok2⟩ := ih st1 fun sh key ops hkey => h sh key ops (hsub sh key ops hkey)
    refine ⟨st2, ?_⟩
    rw [recoverShards, hok]
    exact hok2

/-- A recovered store: there is an order of whole batches such that the data are theirs, every
acknowledged batch is among them, none is there twice, and none comes before a batch that had
been acknowledged when it was handed in. No intent is left, and recovery has nothing to do. -/
structure Recovered (init : RecordMap) (s : WalLedger root) (st : WalStore) (log : List Nat) :
    Prop where
  nodup : log.Nodup
  known : ∀ t ∈ log, t < s.submitted.length
  acked : ∀ t ∈ s.acked, t ∈ log
  order : InOrder s.submitted log
  data : SameData st.base (apply init (log.flatMap s.operations))
  cleared : ∀ shard, st.wal shard = ∅
  again : recoverPhysicalWals st = .ok st

/-- A store that was opened on some data. -/
def WalSystem.fresh (init : RecordMap) : WalSystem root where
  store := ⟨init, fun _ => ∅⟩
  mode := .running []

theorem WalInv.fresh (init : RecordMap) : WalInv init (WalSystem.fresh init : WalSystem root) [] where
  ledger := ⟨nodup_nil, by simp, by simp [WalSystem.fresh], by simp [WalSystem.fresh],
    fun i t b hi => by simp at hi, fun key _ => rfl⟩
  mode := ⟨nodup_nil, by simp, fun shard key ops hkey => by simp [WalSystem.fresh] at hkey⟩

/-- A running store with no group under way is a recovered one. -/
theorem WalInv.recovered (h : WalInv init s log) (hmode : s.mode = .running []) :
    Recovered init s.toWalLedger s.store log := by
  obtain ⟨hledger, hrunning⟩ := h
  rw [hmode] at hrunning
  have hcleared : ∀ shard, s.store.wal shard = ∅ := by
    intro shard
    apply ExtTreeMap.ext_getElem?
    intro key
    rw [ExtTreeMap.getElem?_empty, Option.eq_none_iff_forall_not_mem]
    intro ops hops
    obtain ⟨g, hg, -⟩ := hrunning.owned shard key ops hops
    simp at hg
  exact { hledger with cleared := hcleared, again := recoverPhysicalWals_of_empty hcleared }

/-- Wherever a run is stopped, between the writes of its groups or inside a recovery, the next
recovery completes. Step by step or in one go it reaches the same store, and that store holds
the acknowledged batches and some of the others, each of them whole. -/
theorem crash_atomicity (init : RecordMap) (calls : List (WalStep root)) (s : WalSystem root)
    (hrun : (WalSystem.fresh init).run calls = some s) :
    ∃ st log, recoverPhysicalWals s.store = .ok st ∧
      (∃ k, s.run (.crash :: .restart :: replicate k .recover) =
        some { s with store := st, nextWalId := 1, mode := .running [] }) ∧
      Recovered init s.toWalLedger st log := by
  obtain ⟨log, hinv⟩ := (WalInv.fresh init).run hrun
  obtain ⟨idOf, hintents⟩ := hinv.mode.intents
  obtain ⟨st, hok⟩ := recoverShards_ok (finRange 8) s.store fun sh key ops hkey => by
    obtain ⟨t, hintent⟩ := hintents sh key ops hkey
    exact ⟨idOf t, hintent.key_eq⟩
  obtain ⟨k, hk⟩ := recoverShards_steps
    (s := { s with nextWalId := 1, mode := .recovering { shards := finRange 8 } }) rfl hok
  have hsteps : s.run (.crash :: .restart :: replicate k .recover) =
      some { s with store := st, nextWalId := 1, mode := .running [] } := hk
  obtain ⟨log', hinv'⟩ := hinv.run hsteps
  exact ⟨st, log', hok, ⟨k, hsteps⟩, { hinv'.recovered rfl with }⟩

end Runs

/-- Two batches in one group: the process stops after the intents, and again when recovery has
replayed the first of them. -/
def crashedCalls : List (WalStep []) :=
  [.submit ⟨0, by decide⟩ ⟨0, by decide⟩ [putByte 7, putByte 8] 100, .intent 0, .crash, .restart,
    .recover, .recover, .crash]

theorem crash_inside_recovery :
    ∃ s, (WalSystem.fresh ∅).run crashedCalls = some s ∧
      ∃ st log, recoverPhysicalWals s.store = .ok st ∧ Recovered ∅ s.toWalLedger st log := by
  have hsome : ((WalSystem.fresh ∅).run crashedCalls).isSome = true := by decide +kernel
  obtain ⟨s, hs⟩ := Option.isSome_iff_exists.mp hsome
  obtain ⟨st, log, hok, -, hrec⟩ := crash_atomicity ∅ crashedCalls s hs
  exact ⟨s, hs, st, log, hok, hrec⟩

end litestore
