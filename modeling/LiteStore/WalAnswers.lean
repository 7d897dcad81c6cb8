-- The answers of commits through the physical log. A caller that hears of a
-- failure expects its batch to be gone. It is, as long as no intent stays in a
-- log past a restart and no removal of an intent fails.
import LiteStore.PhysicalWal

namespace litestore

open checked batch

variable {root : Bytes}

/-! ## Calls and restarts -/

/-- An open store: what is on disk, and the next id of a batch. -/
structure WalProcess where
  store : WalStore
  nextWalId : UInt64 := 1

/-- `LiteUnifiedWriteBatchCommit` of a caller that finds its queue empty: it leads a group of
one. -/
def liteUnifiedWriteBatchCommit (batch : LiteUnifiedWriteBatch root) (faults : WalFaults)
    (shardCount : Fin 8) (now : UInt64) (p : WalProcess) : Except String Unit × WalProcess :=
  let ids := if batch.walId = 0 then allocateWalId p.nextWalId now
    else (batch.walId, p.nextWalId)
  let written := writeGroup faults (batch.shard shardCount) [⟨ids.1, batch.physical⟩] p.store
  (written.1, ⟨written.2, ids.2⟩)

/-- What happens to a store: a commit, with the writes that fail in it, or a restart. -/
inductive WalCall (root : Bytes)
  | commit (batch : LiteUnifiedWriteBatch root) (faults : WalFaults) (shardCount : Fin 8)
      (now : UInt64)
  | restart

/-- The store, and the batches whose commit returned true. -/
structure WalHistory (root : Bytes) where
  process : WalProcess
  committed : List (LiteUnifiedWriteBatch root) := []

/-- A store that does not recover stays closed as it is. -/
def WalHistory.step (s : WalHistory root) : WalCall root → WalHistory root
  | .commit batch faults shardCount now =>
    match liteUnifiedWriteBatchCommit batch faults shardCount now s.process with
    | (.error _, process) => { s with process := process }
    | (.ok (), process) => ⟨process, s.committed ++ [batch]⟩
  | .restart =>
    match recoverPhysicalWals s.process.store with
    | .error _ => s
    | .ok store => { s with process := ⟨store, 1⟩ }

def WalHistory.run (s : WalHistory root) (calls : List (WalCall root)) : WalHistory root :=
  calls.foldl WalHistory.step s

/-- A store that was opened on some data. -/
def walStart (base : RecordMap) : WalHistory root := ⟨⟨⟨base, fun _ => ∅⟩, 1⟩, []⟩

/-- The data are those of the batches that were answered with true, in their order. -/
def AnswersHold (base : RecordMap) (s : WalHistory root) : Prop :=
  SameData s.process.store.base
    (apply base (s.committed.flatMap LiteUnifiedWriteBatch.physical))

/-! ## When the answers hold -/

/-- No removal of an intent fails, and a restart finds no intent in a log. -/
def WalCall.Clean (s : WalHistory root) : WalCall root → Prop
  | .commit _ faults _ _ => faults.removal = none
  | .restart => ∀ shard, s.process.store.wal shard = ∅

/-- Every call of a run is clean in the state that it meets. -/
def RunClean (s : WalHistory root) : List (WalCall root) → Prop
  | [] => True
  | c :: rest => c.Clean s ∧ RunClean (s.step c) rest

/-- A call that is clean keeps the answers true. -/
theorem answersHold_step {base : RecordMap} {s : WalHistory root} {c : WalCall root}
    (h : AnswersHold base s) (hc : c.Clean s) : AnswersHold base (s.step c) := by
  cases c with
  | commit batch faults shardCount now =>
    unfold WalHistory.step liteUnifiedWriteBatchCommit
    simp only
    rcases writeGroup_cases faults (batch.shard shardCount) [⟨_, batch.physical⟩]
        s.process.store with ⟨e, after, hgroup, hbase⟩ | ⟨after, hgroup, hbase⟩
    · rw [hgroup]
      show SameData after.base _
      rw [hbase hc]
      exact h
    · rw [hgroup]
      unfold AnswersHold
      simp only [hbase, List.flatMap_cons, List.flatMap_nil, List.append_nil,
        List.flatMap_append, apply_append]
      exact SameData.withMarker h ⟨_, batch.physical⟩
  | restart =>
    unfold WalHistory.step
    rw [recoverPhysicalWals_of_empty hc]
    exact h

theorem answersHold_run {base : RecordMap} {s : WalHistory root} {calls : List (WalCall root)}
    (h : AnswersHold base s) (hclean : RunClean s calls) : AnswersHold base (s.run calls) := by
  induction calls generalizing s with
  | nil => exact h
  | cons c rest ih => exact ih (answersHold_step h hclean.1) hclean.2

/-- In a run whose calls are all clean, a batch shows in the data exactly when its commit
returned true. -/
theorem answers_hold_in_clean_runs (base : RecordMap) (calls : List (WalCall root))
    (hclean : RunClean (walStart base) calls) :
    AnswersHold base ((walStart base).run calls) := by
  apply answersHold_run _ hclean
  intro key _
  rfl

/-! ## An answer that does not hold -/

/-- The canonical write of the first batch fails; the second batch overwrites the key. -/
def lostAnswerCalls : List (WalCall []) :=
  [.commit (putByte 7) { canonical := some "IO error" } 7 100,
   .commit (putByte 8) {} 7 100]

theorem answers_hold_before_a_restart :
    RunClean (walStart ∅) lostAnswerCalls ∧
      AnswersHold ∅ ((walStart ∅ : WalHistory []).run lostAnswerCalls) :=
  ⟨⟨rfl, rfl, trivial⟩, answers_hold_in_clean_runs ∅ lostAnswerCalls ⟨rfl, rfl, trivial⟩⟩

/-- The restart replays the batch whose commit had failed, over the one that was committed. -/
theorem failed_commit_is_replayed_after_a_restart :
    ¬ AnswersHold ∅ ((walStart ∅ : WalHistory []).run (lostAnswerCalls ++ [.restart])) := by
  intro h
  have hkey := h (physicalKey (catalogDb []) [1]) (by decide)
  revert hkey
  decide +kernel

end litestore
