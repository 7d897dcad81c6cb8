-- Commits through the physical log (`writeGroup`, `recoverPhysicalWals`). A
-- group of batches is written three times: as intents into the log of its
-- shard, as one batch with commit markers into the store, and as removals of
-- the intents. Recovery replays an intent whose marker is not in the store.
import LiteStore.Unified
import LiteStore.CatalogKeys

namespace litestore

open checked batch List

/-! ## Keys of the log -/

def pendingText : Bytes := textBytes "pending/"

def walPendingKey (id : UInt64) : Bytes := pendingText ++ decimal20 id

def physicalCommitMarker (id : UInt64) : Bytes :=
  markerKey .m23 (textBytes "commit/" ++ decimal20 id)

def isPhysicalWalPendingKey (key : Bytes) : Bool := pendingText.isPrefixOf key

/-- `strtoull` in base ten, and what it leaves of the text. -/
def strtoull (s : List Char) : UInt64 × List Char :=
  let body := s.dropWhile isSpace
  let signed := match body with
    | '-' :: rest => (true, rest)
    | '+' :: rest => (false, rest)
    | rest => (false, rest)
  if (signed.2.takeWhile Char.isDigit).isEmpty then (0, s)
  else
    let n := leadingDigits signed.2
    let v := if n ≥ 2 ^ 64 then 2 ^ 64 - 1 else if signed.1 then 2 ^ 64 - n else n
    (UInt64.ofNat v, signed.2.dropWhile Char.isDigit)

def parsePhysicalWalId (key : Bytes) : Option UInt64 :=
  if !isPhysicalWalPendingKey key then none
  else
    let parsed := strtoull (cText (key.drop pendingText.length))
    if parsed.2.isEmpty then some parsed.1 else none

theorem leadingDigits_map {ds : List Nat} (h : ∀ d ∈ ds, d < 10) :
    leadingDigits (ds.map fun d => Char.ofNat (48 + d)) = digits.value 10 ds ∧
    ((ds.map fun d => Char.ofNat (48 + d)).takeWhile Char.isDigit =
      ds.map fun d => Char.ofNat (48 + d)) ∧
    (ds.map fun d => Char.ofNat (48 + d)).dropWhile Char.isDigit = [] := by
  have hdigit : ∀ d < 10, (Char.ofNat (48 + d)).isDigit = true ∧
      (Char.ofNat (48 + d)).toNat - '0'.toNat = d := by decide
  have hall : ∀ c ∈ ds.map (fun d => Char.ofNat (48 + d)), c.isDigit = true := by
    intro c hc
    obtain ⟨d, hd, rfl⟩ := mem_map.mp hc
    exact (hdigit d (h d hd)).1
  have htake := takeWhile_eq_self_iff.mpr hall
  refine ⟨?_, htake, dropWhile_eq_nil_iff.mpr hall⟩
  unfold leadingDigits digits.value
  rw [htake, foldl_map]
  apply foldl_ext
  intro acc d hd
  rw [(hdigit d (h d hd)).2]

/-- A text of digits is read whole. -/
theorem strtoull_digits {ds : List Nat} (hne : ds ≠ []) (h : ∀ d ∈ ds, d < 10)
    (hfit : digits.value 10 ds < 2 ^ 64) :
    strtoull (ds.map fun d => Char.ofNat (48 + d)) =
      (UInt64.ofNat (digits.value 10 ds), []) := by
  obtain ⟨hvalue, htake, hdrop⟩ := leadingDigits_map h
  obtain ⟨d, rest, rfl⟩ := exists_cons_of_ne_nil hne
  -- the first character is a digit: no blank is skipped and no sign is taken
  have hfirst : ∀ d < 10, isSpace (Char.ofNat (48 + d)) = false ∧
      Char.ofNat (48 + d) ≠ '-' ∧ Char.ofNat (48 + d) ≠ '+' := by decide
  obtain ⟨hspace, hminus, hplus⟩ := hfirst d (h d mem_cons_self)
  have hbody : ((d :: rest).map fun d => Char.ofNat (48 + d)).dropWhile isSpace =
      (d :: rest).map fun d => Char.ofNat (48 + d) := by
    rw [map_cons, dropWhile_cons_of_neg (by simp [hspace])]
  unfold strtoull
  rw [hbody]
  have hsigned : (match (d :: rest).map fun d => Char.ofNat (48 + d) with
      | '-' :: rest => (true, rest)
      | '+' :: rest => (false, rest)
      | rest => (false, rest)) = (false, (d :: rest).map fun d => Char.ofNat (48 + d)) := by
    rw [map_cons]
    split
    · rename_i heq
      exact absurd (List.cons.inj heq).1 hminus
    · rename_i heq
      exact absurd (List.cons.inj heq).1 hplus
    · rfl
  simp only [hsigned, htake, hvalue, hdrop]
  rw [if_neg (by simp), if_neg (by omega)]
  simp

/-- The id of an intent is read back from its key. -/
theorem parsePhysicalWalId_walPendingKey (id : UInt64) :
    parsePhysicalWalId (walPendingKey id) = some id := by
  have hlt : ∀ d ∈ digits.fixed 10 20 id.toNat, d < 10 := fun d => digits.fixed_lt (by decide)
  have hbyte : ∀ d < 10, UInt8.ofNat (48 + d) ≠ 0 ∧ (UInt8.ofNat (48 + d)).toNat = 48 + d := by
    decide
  have htext : cText (decimal20 id) =
      (digits.fixed 10 20 id.toNat).map fun d => Char.ofNat (48 + d) := by
    unfold cText decimal20
    rw [takeWhile_eq_self_iff.mpr, map_map]
    · apply map_congr_left
      intro d hd
      show Char.ofNat (UInt8.ofNat (48 + d)).toNat = Char.ofNat (48 + d)
      rw [(hbyte d (hlt d hd)).2]
    · intro c hc
      obtain ⟨d, hd, rfl⟩ := mem_map.mp hc
      simpa using (hbyte d (hlt d hd)).1
  have hid : id.toNat < 2 ^ 64 := id.toNat_lt
  have hnum : digits.value 10 (digits.fixed 10 20 id.toNat) = id.toNat := by
    rw [digits.value_fixed, Nat.mod_eq_of_lt (by omega)]
  have hpre : isPhysicalWalPendingKey (walPendingKey id) = true :=
    isPrefixOf_iff_prefix.mpr (prefix_append _ _)
  have hrest : (walPendingKey id).drop pendingText.length = decimal20 id := by
    unfold walPendingKey
    rw [drop_left]
  have hne : digits.fixed 10 20 id.toNat ≠ [] := by
    rw [digits.fixed_succ]
    simp
  unfold parsePhysicalWalId
  rw [hpre, hrest, htext, strtoull_digits hne hlt (by rw [hnum]; exact hid), hnum]
  simp

/-! ## Batches and shards -/

abbrev WriteOp := Op Bytes Bytes

/-- `LiteUnifiedWriteBatch`: operations of logical handles. A batch that was handed in before
keeps its id. -/
structure LiteUnifiedWriteBatch (root : Bytes) where
  operations : List (LogicalDb root × WriteOp)
  walId : UInt64 := 0

/-- The operations under their physical keys. -/
def LiteUnifiedWriteBatch.physical {root : Bytes} (batch : LiteUnifiedWriteBatch root) :
    List WriteOp :=
  batch.operations.map fun o => o.2.mapKey (physicalKey o.1)

def batchKeyHash (key : Bytes) : UInt64 :=
  key.foldl (fun hash c => (hash ^^^ c.toUInt64) * 1099511628211) 1469598103934665603

def mixBatchShard (shardHash : UInt64) (key : Bytes) : UInt64 :=
  let golden : UInt64 := 0x9e3779b97f4a7c15
  shardHash ^^^ (batchKeyHash key + golden + (shardHash <<< 6) + (shardHash >>> 2))

def LiteUnifiedWriteBatch.shardHash {root : Bytes} (batch : LiteUnifiedWriteBatch root) : UInt64 :=
  (batch.physical.map Op.key).foldl mixBatchShard 1469598103934665603

/-- The shard of a batch, for a setting of `TRAF_LITE_DURABLE_SHARDS` between one and eight. -/
def LiteUnifiedWriteBatch.shard {root : Bytes} (batch : LiteUnifiedWriteBatch root)
    (shardCount : Fin 8) : Fin 8 :=
  ⟨batch.shardHash.toNat % (shardCount.val + 1),
    Nat.lt_of_lt_of_le (Nat.mod_lt _ (by omega)) (by omega)⟩

/-- No operation of a batch names a marker. -/
theorem physical_key_ne_marker {root : Bytes} (batch : LiteUnifiedWriteBatch root)
    (family : MarkerFamily) (rest : Bytes) :
    markerKey family rest ∉ batch.physical.map Op.key := by
  intro hmem
  unfold LiteUnifiedWriteBatch.physical at hmem
  rw [map_map, mem_map] at hmem
  obtain ⟨o, -, ho⟩ := hmem
  rw [Function.comp_apply, Op.key_mapKey] at ho
  exact physicalKey_ne_marker o.1 o.2.key family rest ho

/-- The handle of the catalog. -/
def catalogDb (root : Bytes) : LogicalDb root where
  path := root ++ textBytes "/catalog"
  keyPrefix := textBytes "catalog/"
  opened := by simp [logicalPrefixForPath]

/-- A batch that puts one byte under one key of the catalog. -/
def putByte (value : UInt8) : LiteUnifiedWriteBatch [] where
  operations := [(catalogDb [], .put [1] [value])]

/-! ## Writing a group -/

/-- The log of one shard. RocksDB reads a serialized batch back as it was, so an intent is
kept as its operations. -/
abbrev WalShard := Std.ExtTreeMap Bytes (List WriteOp) compare

/-- The databases on disk: the store and the logs of the eight shards. -/
structure WalStore where
  base : RecordMap
  wal : Fin 8 → WalShard

/-- A request of a group: the id of its batch and the operations. -/
structure WalRequest where
  walId : UInt64
  operations : List WriteOp

/-- `withMarker`: the batch and its commit marker. -/
def WalRequest.withMarker (r : WalRequest) : List WriteOp :=
  r.operations ++ [.put (physicalCommitMarker r.walId) []]

section

variable (st : WalStore) (shard : Fin 8) (requests : List WalRequest)

def WalStore.onShard (ops : List (Op Bytes (List WriteOp))) : WalStore :=
  { st with wal := Function.update st.wal shard (apply (st.wal shard) ops) }

/-- The three writes of a group. -/
def writeIntents : WalStore :=
  st.onShard shard (requests.map fun r => .put (walPendingKey r.walId) r.withMarker)

def writeCanonical : WalStore :=
  { st with base := apply st.base (requests.flatMap WalRequest.withMarker) }

def removeIntents : WalStore :=
  st.onShard shard (requests.map fun r => .delete (walPendingKey r.walId))

end

/-- The error of RocksDB at each of the three writes, if it fails. -/
structure WalFaults where
  intent : Option String := none
  canonical : Option String := none
  removal : Option String := none

/-- `writeGroup` on the path of the physical log: the answer, and what is on disk after it. -/
def writeGroup (faults : WalFaults) (shard : Fin 8) (requests : List WalRequest) (st : WalStore) :
    Except String Unit × WalStore :=
  match faults.intent with
  | some e => (.error ("write Lite physical WAL: " ++ e), st)
  | none =>
    let intended := writeIntents st shard requests
    match faults.canonical with
    | some e => (.error ("commit Lite unified batch: " ++ e), intended)
    | none =>
      let written := writeCanonical intended requests
      match faults.removal with
      | some e => (.error ("remove Lite physical WAL: " ++ e), written)
      | none => (.ok (), removeIntents written shard requests)

/-- A group that fails leaves the data as they were, unless the last of its writes failed;
a group that does not fail has written its batches. -/
theorem writeGroup_cases (faults : WalFaults) (shard : Fin 8) (requests : List WalRequest)
    (st : WalStore) :
    (∃ e after, writeGroup faults shard requests st = (.error e, after) ∧
      (faults.removal = none → after.base = st.base)) ∨
    ∃ after, writeGroup faults shard requests st = (.ok (), after) ∧
      after.base = apply st.base (requests.flatMap WalRequest.withMarker) := by
  unfold writeGroup
  cases faults.intent with
  | some e => exact .inl ⟨_, st, rfl, fun _ => rfl⟩
  | none =>
    cases faults.canonical with
    | some e => exact .inl ⟨_, _, rfl, fun _ => rfl⟩
    | none =>
      cases faults.removal with
      | some e => exact .inl ⟨_, _, rfl, fun h => by cases h⟩
      | none => exact .inr ⟨_, rfl, rfl⟩

/-- `allocateWalId`: the ids begin at the time of the first use, in microseconds. -/
def allocateWalId (nextWalId now : UInt64) : UInt64 × UInt64 :=
  let first := if nextWalId = 1 then now else nextWalId
  (first, first + 1)

/-! ## Recovery -/

/-- The intents in a log, in the order of their keys. -/
def pendingIntents (log : WalShard) : List (Bytes × List WriteOp) :=
  log.toList.filter fun e => isPhysicalWalPendingKey e.1

/-- Replay one intent when its commit marker is missing. -/
def replayIntent (st : WalStore) (intent : Bytes × List WriteOp) : Except String WalStore :=
  match parsePhysicalWalId intent.1 with
  | none => .error "invalid Lite physical WAL intent key"
  | some id =>
    if physicalCommitMarker id ∈ st.base then .ok st
    else .ok { st with base := apply st.base intent.2 }

def removeIntent (st : WalStore) (shard : Fin 8) (intent : Bytes × List WriteOp) : WalStore :=
  st.onShard shard [.delete intent.1]

/-- The loop over the intents of one shard. -/
def recoverIntents (shard : Fin 8) : List (Bytes × List WriteOp) → WalStore →
    Except String WalStore
  | [], st => .ok st
  | intent :: rest, st => do
    let replayed ← replayIntent st intent
    recoverIntents shard rest (removeIntent replayed shard intent)

def recoverShards : List (Fin 8) → WalStore → Except String WalStore
  | [], st => .ok st
  | shard :: rest, st => do
    let recovered ← recoverIntents shard (pendingIntents (st.wal shard)) st
    recoverShards rest recovered

def recoverPhysicalWals (st : WalStore) : Except String WalStore :=
  recoverShards (finRange 8) st

/-! ## Data -/

/-- The keys of the commit markers. -/
def isCommitMarker (key : Bytes) : Bool := (markerKey .m23 (textBytes "commit/")).isPrefixOf key

/-- Two stores hold the same data: they agree on every key that is no commit marker. -/
def SameData (a b : RecordMap) : Prop := ∀ key, isCommitMarker key = false → a[key]? = b[key]?

theorem SameData.apply {a b : RecordMap} (h : SameData a b) (ops : List WriteOp) :
    SameData (batch.apply a ops) (batch.apply b ops) :=
  fun key hkey => apply_congr (.inr (h key hkey))

theorem commitMarker_is_marker (id : UInt64) : isCommitMarker (physicalCommitMarker id) = true := by
  unfold isCommitMarker physicalCommitMarker markerKey
  rw [ isPrefixOf_iff_prefix, ← append_assoc]
  exact prefix_append _ _

/-- The marker of a batch is no data. -/
theorem SameData.withMarker {a b : RecordMap} (h : SameData a b) (r : WalRequest) :
    SameData (batch.apply a r.withMarker) (batch.apply b r.operations) := by
  intro key hkey
  unfold WalRequest.withMarker
  rw [apply_append, apply_of_notMem]
  · exact h.apply r.operations key hkey
  · intro hmem
    have hmarker : key = physicalCommitMarker r.walId := mem_singleton.mp hmem
    rw [hmarker, commitMarker_is_marker] at hkey
    cases hkey

/-- A store with nothing in its logs recovers to itself. -/
theorem recoverPhysicalWals_of_empty {st : WalStore} (h : ∀ shard, st.wal shard = ∅) :
    recoverPhysicalWals st = .ok st := by
  have hshards : ∀ shards, recoverShards shards st = .ok st := by
    intro shards
    induction shards with
    | nil => rfl
    | cons shard rest ih =>
      have hpending : pendingIntents (st.wal shard) = [] := by
        rw [h]
        rfl
      rw [recoverShards, hpending]
      exact ih
  exact hshards _

end litestore
