-- The history that optimistic validation looks at. A commit publishes the keys that it
-- wrote, an index finds them by table and key, and both are shortened when no active
-- transaction needs them any more, or when there are too many of them.
import LiteStore.Txn
import LiteStore.Lib.OrderedScan

namespace litestore

open Std (ExtTreeMap)
open orderedscan List

/-! ## The coordinator -/

/-- A read of a table, with the table's uid. -/
structure OccObjectRead extends OccReadRange where
  objectUid : UInt64
deriving DecidableEq

/-- The keys that a commit wrote, each with the uid of its table. -/
abbrev OccWriteSet := { writes : List (UInt64 × Bytes) // writes.Nodup }

/-- The owner of a transaction is an address. Sequences are compared and never computed with,
so they are plain numbers. -/
structure OccCommittedWriteSet where
  owner : UInt64
  sequence : Nat
  writes : OccWriteSet
deriving DecidableEq

structure OccCommittedWriteRef where
  owner : UInt64
  sequence : Nat
  key : Bytes
deriving DecidableEq

abbrev OccKeyIndex := ExtTreeMap Bytes (List OccCommittedWriteRef)

abbrev OccIndex := ExtTreeMap UInt64 OccKeyIndex

structure LiteOccCoordinator where
  active : ExtTreeMap UInt64 Nat := {}
  history : List OccCommittedWriteSet := []
  indexedHistory : OccIndex := {}
  overflowSequence : Nat := 0

section

variable (s : LiteOccCoordinator) (owner : UInt64) (sequence : Nat) (index : OccIndex)

/-- The writes that one table and one key are indexed with. -/
def OccIndex.refs (uid : UInt64) (key : Bytes) : List OccCommittedWriteRef :=
  (index[uid]?.bind fun keys => keys[key]?).getD []

/-- Entries that become empty are erased. -/
def OccKeyIndex.removeSequence (keys : OccKeyIndex) : OccKeyIndex :=
  keys.filterMap fun _ writes =>
    let kept := writes.filter fun write => write.sequence ≠ sequence
    if kept = [] then none else some kept

def removeIndexedSequence : OccIndex :=
  index.filterMap fun _ keys =>
    let kept := keys.removeSequence sequence
    if kept.isEmpty then none else some kept

/-- The smallest start of an active transaction. -/
def LiteOccCoordinator.oldest (s : LiteOccCoordinator) : Nat :=
  s.active.foldl (fun oldest _ start => min oldest start) (2 ^ 64 - 1)

/-- The first loop of `collect`. -/
def expireLoop (expired : OccCommittedWriteSet → Bool) :
    List OccCommittedWriteSet → OccIndex → List OccCommittedWriteSet × OccIndex
  | [], index => ([], index)
  | front :: history, index =>
    if expired front then expireLoop expired history (removeIndexedSequence front.sequence index)
    else (front :: history, index)

def occHistoryLimit : Nat := 1000000

/-- The second loop of `collect`, over more writes than the history may hold. -/
def overflowLoop (writeCount : Nat) :
    List OccCommittedWriteSet → OccIndex → Nat → List OccCommittedWriteSet × OccIndex × Nat
  | [], index, overflow => ([], index, overflow)
  | front :: history, index, overflow =>
    if writeCount > occHistoryLimit then
      overflowLoop (writeCount - front.writes.val.length) history
        (removeIndexedSequence front.sequence index) (max overflow front.sequence)
    else (front :: history, index, overflow)

def historySize (history : List OccCommittedWriteSet) : Nat :=
  (history.map fun committed => committed.writes.val.length).sum

/-- The coordinator behind the first loop of `collect`. -/
def LiteOccCoordinator.expire : LiteOccCoordinator :=
  let left := expireLoop (fun front => s.active.isEmpty || front.sequence ≤ s.oldest)
    s.history s.indexedHistory
  { s with
    history := left.1
    indexedHistory := left.2 }

def LiteOccCoordinator.collect : LiteOccCoordinator :=
  let left := overflowLoop (historySize s.expire.history) s.expire.history
    s.expire.indexedHistory s.overflowSequence
  { s with
    history := left.1
    indexedHistory := left.2.1
    overflowSequence := if s.active.isEmpty then 0 else left.2.2 }

def LiteOccCoordinator.begin (startSequence : Nat) : LiteOccCoordinator :=
  { s with active := s.active.insert owner startSequence }

def LiteOccCoordinator.end : LiteOccCoordinator :=
  LiteOccCoordinator.collect { s with active := s.active.erase owner }

def addWriteRef (write : UInt64 × Bytes) : OccIndex :=
  index.alter write.1 fun keys =>
    some ((keys.getD {}).alter write.2 fun writes =>
      some (writes.getD [] ++ [⟨owner, sequence, write.2⟩]))

/-- A new set at the end of the history, and in the index. -/
def LiteOccCoordinator.append (committed : OccCommittedWriteSet) : LiteOccCoordinator :=
  { s with
    history := s.history ++ [committed]
    indexedHistory := committed.writes.val.foldl
      (addWriteRef committed.owner committed.sequence) s.indexedHistory }

def LiteOccCoordinator.publish (committed : OccCommittedWriteSet) : LiteOccCoordinator :=
  if committed.writes.val = [] then s else (s.append committed).collect

end

/-- Whether a written key is among the keys of a read. The empty key stands for the whole
table. -/
def OccReadRange.intersects (read : OccReadRange) (key : Bytes) : Bool :=
  key.isEmpty || read.full ||
    if read.start = read.endKey then decide (read.start = key)
    else decide (compare key read.start ≠ .lt) &&
      (read.endKey.isEmpty || decide (compare key read.endKey = .lt))

/-- The loop of `validate` over the keys of a table, from the first one that it looks at. -/
def conflictInKeys (owner : UInt64) (startSequence : Nat) (read : OccReadRange) :
    List (Bytes × List OccCommittedWriteRef) → Bool
  | [] => false
  | (key, writes) :: keys =>
    let found := writes.any fun write =>
      startSequence < write.sequence && write.owner ≠ owner && read.intersects write.key
    if !read.full && !key.isEmpty then
      if compare key read.start = .lt then conflictInKeys owner startSequence read keys
      else if read.start = read.endKey then
        if key ≠ read.start then false
        else found || conflictInKeys owner startSequence read keys
      else if !read.endKey.isEmpty && compare key read.endKey ≠ .lt then false
      else found || conflictInKeys owner startSequence read keys
    else found || conflictInKeys owner startSequence read keys

section

variable (s : LiteOccCoordinator)

def LiteOccCoordinator.conflicts (owner : UInt64) (startSequence : Nat) (read : OccObjectRead) :
    Bool :=
  match s.indexedHistory[read.objectUid]? with
  | none => false
  | some keys =>
    conflictInKeys owner startSequence read.toOccReadRange
      (if read.full || keys.contains [] then keys.toList
        else keys.toList.dropWhile fun entry => compare entry.1 read.start = .lt)

def conflictType (read : OccReadRange) : String :=
  if read.full then "full_scan" else if read.start = read.endKey then "point" else "range"

def LiteOccCoordinator.validate (owner : UInt64) (startSequence : Nat)
    (reads : List OccObjectRead) : Except String Unit :=
  if s.overflowSequence ≠ 0 ∧ startSequence < s.overflowSequence then
    .error ("lite serializable validation failed (SQLSTATE " ++
      "40001, OCC history overflow); restart transaction")
  else
    match reads.find? (s.conflicts owner startSequence) with
    | none => .ok ()
    | some read =>
      .error ("lite serializable validation failed " ++
        "(SQLSTATE 40001, OCC read/write conflict, type=" ++
        conflictType read.toOccReadRange ++ "); restart transaction")

/-! ## Runs -/

inductive OccCall
  | begin (owner : UInt64) (startSequence : Nat)
  | end (owner : UInt64)
  | publish (committed : OccCommittedWriteSet)
  | validate (owner : UInt64) (startSequence : Nat) (reads : List OccObjectRead)

/-- A validation changes counters only. -/
def LiteOccCoordinator.step : OccCall → LiteOccCoordinator
  | .begin owner startSequence => s.begin owner startSequence
  | .end owner => s.end owner
  | .publish committed => s.publish committed
  | .validate _ _ _ => s

def coordinatorAfter (calls : List OccCall) : LiteOccCoordinator :=
  calls.foldl LiteOccCoordinator.step {}

/-- The sets that the overflow loop takes off the front of a history. -/
def overflowed (writeCount : Nat) : List OccCommittedWriteSet → List OccCommittedWriteSet
  | [] => []
  | front :: history =>
    if writeCount > occHistoryLimit then
      front :: overflowed (writeCount - front.writes.val.length) history
    else []

def LiteOccCoordinator.overflowedByCollect : List OccCommittedWriteSet :=
  overflowed (historySize s.expire.history) s.expire.history

/-- The sets that one call drops because the history is too long. -/
def LiteOccCoordinator.droppedBy : OccCall → List OccCommittedWriteSet
  | .end owner => LiteOccCoordinator.overflowedByCollect { s with active := s.active.erase owner }
  | .publish committed =>
    if committed.writes.val = [] then [] else (s.append committed).overflowedByCollect
  | _ => []

end

/-- A set of writes is dropped by the overflow rule while some transaction is active. -/
def DroppedWhileActive (calls : List OccCall) (committed : OccCommittedWriteSet) : Prop :=
  ∃ before call, before ++ [call] <+: calls ∧
    committed ∈ (coordinatorAfter before).droppedBy call ∧
    ¬ (coordinatorAfter (before ++ [call])).active.isEmpty

/-- The owner began at `start` when nothing beyond it was published, and has neither ended nor
begun again. -/
def ActiveSince (before after : List OccCall) (owner : UInt64) (start : Nat) : Prop :=
  (∀ committed, .publish committed ∈ before → committed.sequence ≤ start) ∧
    ∀ call ∈ after, call ≠ .end owner ∧ ∀ again, call ≠ .begin owner again

open LiteOccCoordinator OccReadRange

/-! ## The index -/

theorem OccKeyIndex.getElem?_removeSequence (sequence : Nat) (keys : OccKeyIndex) (key : Bytes) :
    ((keys.removeSequence sequence)[key]?).getD [] =
      ((keys[key]?).getD []).filter fun write => write.sequence ≠ sequence := by
  unfold OccKeyIndex.removeSequence
  rw [ExtTreeMap.getElem?_filterMap']
  cases keys[key]? with
  | none => rfl
  | some writes =>
    simp only [Option.bind_some, Option.getD_some]
    split
    · rename_i hnone
      rw [hnone]
      rfl
    · rfl

theorem refs_removeIndexedSequence (sequence : Nat) (index : OccIndex) (uid : UInt64)
    (key : Bytes) : (removeIndexedSequence sequence index).refs uid key =
      (index.refs uid key).filter fun write => write.sequence ≠ sequence := by
  unfold removeIndexedSequence OccIndex.refs
  rw [ExtTreeMap.getElem?_filterMap']
  cases index[uid]? with
  | none => rfl
  | some keys =>
    simp only [Option.bind_some]
    rw [← OccKeyIndex.getElem?_removeSequence]
    split
    · rename_i hempty
      rw [ExtTreeMap.isEmpty_iff.mp hempty]
      simp
    · rfl

variable {index : OccIndex} {uid : UInt64} {key : Bytes} {ref : OccCommittedWriteRef}
  {calls : List OccCall} {committed : OccCommittedWriteSet} {s : LiteOccCoordinator}
  {owner : UInt64} {start : Nat}

theorem mem_refs_removeIndexedSequence {sequence : Nat} :
    ref ∈ (removeIndexedSequence sequence index).refs uid key ↔
      ref ∈ index.refs uid key ∧ ref.sequence ≠ sequence := by
  rw [refs_removeIndexedSequence, mem_filter, decide_eq_true_eq]

theorem refs_addWriteRef (owner : UInt64) (sequence : Nat) (index : OccIndex)
    (write : UInt64 × Bytes) (uid : UInt64) (key : Bytes) :
    (addWriteRef owner sequence index write).refs uid key =
      if write = (uid, key) then index.refs uid key ++ [⟨owner, sequence, key⟩]
      else index.refs uid key := by
  obtain ⟨uid', key'⟩ := write
  unfold addWriteRef OccIndex.refs
  rw [ExtTreeMap.getElem?_alter]
  dsimp only
  by_cases huid : uid' = uid
  · subst huid
    rw [if_pos Std.ReflCmp.compare_self, Option.bind_some, ExtTreeMap.getElem?_alter]
    by_cases hkey : key' = key
    · subst hkey
      rw [if_pos Std.ReflCmp.compare_self, if_pos rfl]
      cases index[uid']? with
      | none => simp
      | some keys => rfl
    · rw [if_neg (by rwa [Std.compare_eq_iff_eq]), if_neg fun h => hkey (Prod.ext_iff.mp h).2]
      cases index[uid']? with
      | none => simp
      | some keys => rfl
  · rw [if_neg (by rwa [Std.compare_eq_iff_eq]), if_neg fun h => huid (Prod.ext_iff.mp h).1]

theorem mem_refs_foldl_addWriteRef {sequence : Nat} {writes : List (UInt64 × Bytes)} :
    ref ∈ (writes.foldl (addWriteRef owner sequence) index).refs uid key ↔
      ref ∈ index.refs uid key ∨ (uid, key) ∈ writes ∧ ref = ⟨owner, sequence, key⟩ := by
  induction writes generalizing index with
  | nil => simp
  | cons write writes ih =>
    rw [foldl_cons, ih, refs_addWriteRef, mem_cons, eq_comm (b := write)]
    split
    · rw [mem_append, mem_singleton]
      tauto
    · tauto

/-! ## The loops of collect -/

theorem expireLoop_subset (expired : OccCommittedWriteSet → Bool)
    (history : List OccCommittedWriteSet) (index : OccIndex) :
    (expireLoop expired history index).1 ⊆ history := by
  induction history generalizing index with
  | nil => exact List.Subset.refl _
  | cons front history ih =>
    unfold expireLoop
    split
    · exact List.Subset.trans (ih _) (subset_cons_self _ _)
    · exact List.Subset.refl _

/-- The first loop takes the sequences of the expired sets out of the index. -/
theorem mem_refs_expireLoop {expired : OccCommittedWriteSet → Bool}
    {history : List OccCommittedWriteSet} :
    (ref ∈ (expireLoop expired history index).2.refs uid key → ref ∈ index.refs uid key) ∧
      (ref ∈ index.refs uid key →
        (∀ front ∈ history, expired front = true → front.sequence ≠ ref.sequence) →
        ref ∈ (expireLoop expired history index).2.refs uid key) := by
  induction history generalizing index with
  | nil => exact ⟨id, fun h _ => h⟩
  | cons front history ih =>
    unfold expireLoop
    split
    · rename_i hexpired
      refine ⟨fun h => (mem_refs_removeIndexedSequence.mp (ih.1 h)).1, fun h hkeep => ?_⟩
      have hfront := hkeep front mem_cons_self hexpired
      exact ih.2 (mem_refs_removeIndexedSequence.mpr ⟨h, hfront.symm⟩)
        fun other hother => hkeep other (mem_cons_of_mem _ hother)
    · exact ⟨id, fun h _ => h⟩

theorem overflowed_subset (writeCount : Nat) (history : List OccCommittedWriteSet) :
    overflowed writeCount history ⊆ history := by
  induction history generalizing writeCount with
  | nil => exact List.Subset.refl _
  | cons front history ih =>
    unfold overflowed
    split
    · exact cons_subset_cons front (ih _)
    · exact nil_subset _

theorem overflowLoop_subset (writeCount : Nat) (history : List OccCommittedWriteSet)
    (index : OccIndex) (overflow : Nat) :
    (overflowLoop writeCount history index overflow).1 ⊆ history := by
  induction history generalizing writeCount index overflow with
  | nil => exact List.Subset.refl _
  | cons front history ih =>
    unfold overflowLoop
    split
    · exact List.Subset.trans (ih _ _ _) (subset_cons_self _ _)
    · exact List.Subset.refl _

/-- The overflow mark covers what it was before and the sets that the loop drops, and it is one
of these. -/
theorem overflowLoop_mark (writeCount : Nat) (history : List OccCommittedWriteSet)
    (index : OccIndex) (overflow : Nat) :
    overflow ≤ (overflowLoop writeCount history index overflow).2.2 ∧
    (∀ dropped ∈ overflowed writeCount history,
      dropped.sequence ≤ (overflowLoop writeCount history index overflow).2.2) ∧
    ((overflowLoop writeCount history index overflow).2.2 = overflow ∨
      ∃ dropped ∈ overflowed writeCount history,
        dropped.sequence = (overflowLoop writeCount history index overflow).2.2) := by
  induction history generalizing writeCount index overflow with
  | nil => exact ⟨le_refl _, fun _ h => (nomatch h), .inl rfl⟩
  | cons front history ih =>
    unfold overflowLoop overflowed
    split
    · obtain ⟨hle, hall, hone⟩ := ih (writeCount - front.writes.val.length)
        (removeIndexedSequence front.sequence index) (max overflow front.sequence)
      refine ⟨by omega, forall_mem_cons.mpr ⟨by omega, hall⟩, ?_⟩
      obtain heq | ⟨dropped, hdropped, heq⟩ := hone
      · by_cases hmax : front.sequence ≤ overflow
        · left
          rw [heq, Nat.max_eq_left hmax]
        · right
          refine ⟨front, mem_cons_self, ?_⟩
          rw [heq, Nat.max_eq_right (by omega)]
      · exact .inr ⟨dropped, mem_cons_of_mem _ hdropped, heq⟩
    · exact ⟨le_refl _, fun _ h => (nomatch h), .inl rfl⟩

/-- What the second loop takes out of the index is covered by the overflow mark. -/
theorem mem_refs_overflowLoop {writeCount : Nat} {history : List OccCommittedWriteSet}
    {overflow : Nat} :
    (ref ∈ (overflowLoop writeCount history index overflow).2.1.refs uid key →
      ref ∈ index.refs uid key) ∧
    (ref ∈ index.refs uid key →
      ref ∈ (overflowLoop writeCount history index overflow).2.1.refs uid key ∨
        ref.sequence ≤ (overflowLoop writeCount history index overflow).2.2) := by
  induction history generalizing writeCount index overflow with
  | nil => exact ⟨id, .inl⟩
  | cons front history ih =>
    unfold overflowLoop
    split
    · refine ⟨fun h => (mem_refs_removeIndexedSequence.mp (ih.1 h)).1, fun h => ?_⟩
      by_cases hsame : ref.sequence = front.sequence
      · right
        have hmark := (overflowLoop_mark (writeCount - front.writes.val.length) history
          (removeIndexedSequence front.sequence index) (max overflow front.sequence)).1
        omega
      · exact ih.2 (mem_refs_removeIndexedSequence.mpr ⟨h, hsame⟩)
    · exact ⟨id, .inl⟩

theorem foldl_min_le {starts : List (UInt64 × Nat)} {bound : Nat} (h : (owner, start) ∈ starts) :
    starts.foldl (fun oldest entry => min oldest entry.2) bound ≤ start := by
  have hbound : ∀ (l : List (UInt64 × Nat)) (b : Nat),
      l.foldl (fun oldest entry => min oldest entry.2) b ≤ b := by
    intro l
    induction l with
    | nil => exact fun b => le_refl b
    | cons entry l ih =>
      intro b
      rw [foldl_cons]
      exact (ih _).trans (min_le_left _ _)
  induction starts generalizing bound with
  | nil => cases h
  | cons entry starts ih =>
    rw [foldl_cons]
    obtain rfl | h := mem_cons.mp h
    · exact (hbound _ _).trans (min_le_right _ _)
    · exact ih h

theorem LiteOccCoordinator.oldest_le (h : s.active[owner]? = some start) : s.oldest ≤ start := by
  unfold oldest
  rw [ExtTreeMap.foldl_eq_foldl_toList]
  exact foldl_min_le (ExtTreeMap.mem_toList_iff_getElem?_eq_some.mpr h)

theorem isEmpty_eq_false_of_getElem? {active : ExtTreeMap UInt64 Nat}
    (h : active[owner]? = some start) : active.isEmpty = false := by
  rw [Bool.eq_false_iff]
  intro hempty
  rw [ExtTreeMap.isEmpty_iff.mp hempty] at h
  simp at h

/-! ## One call -/

namespace LiteOccCoordinator

theorem collect_history_subset (s : LiteOccCoordinator) : s.collect.history ⊆ s.history :=
  List.Subset.trans (overflowLoop_subset _ _ _ _) (expireLoop_subset _ _ _)

theorem overflowedByCollect_subset (s : LiteOccCoordinator) :
    s.overflowedByCollect ⊆ s.history :=
  List.Subset.trans (overflowed_subset _ _) (expireLoop_subset _ _ _)

theorem refs_of_collect (h : ref ∈ s.collect.indexedHistory.refs uid key) :
    ref ∈ s.indexedHistory.refs uid key :=
  mem_refs_expireLoop.1 (mem_refs_overflowLoop.1 h)

/-- The overflow mark is kept while some transaction is active. -/
theorem collect_overflow (h : s.active.isEmpty = false) :
    s.collect.overflowSequence = (overflowLoop (historySize s.expire.history)
      s.expire.history s.expire.indexedHistory s.overflowSequence).2.2 := by
  show (if s.active.isEmpty then 0 else _) = _
  rw [h]
  rfl

/-- While a transaction is active, a write beyond its start leaves the index only when the
overflow mark covers it. -/
theorem refs_collect (hactive : s.active[owner]? = some start)
    (h : ref ∈ s.indexedHistory.refs uid key) (hstart : start < ref.sequence) :
    ref ∈ s.collect.indexedHistory.refs uid key ∨ ref.sequence ≤ s.collect.overflowSequence := by
  rw [collect_overflow (isEmpty_eq_false_of_getElem? hactive)]
  refine mem_refs_overflowLoop.2 (mem_refs_expireLoop.2 h fun front _ hexpired => ?_)
  rw [isEmpty_eq_false_of_getElem? hactive, Bool.false_or, decide_eq_true_eq] at hexpired
  have hold := oldest_le hactive
  omega

/-- While a transaction is active the overflow mark grows, and it covers what is dropped. -/
theorem overflow_collect (hactive : s.active[owner]? = some start) :
    s.overflowSequence ≤ s.collect.overflowSequence ∧
      ∀ dropped ∈ s.overflowedByCollect, dropped.sequence ≤ s.collect.overflowSequence := by
  have hloop := overflowLoop_mark (historySize s.expire.history) s.expire.history
    s.expire.indexedHistory s.overflowSequence
  rw [collect_overflow (isEmpty_eq_false_of_getElem? hactive)]
  exact ⟨hloop.1, hloop.2.1⟩

/-- The overflow mark is zero, or it was there before, or a set with this sequence is dropped. -/
theorem overflow_of_collect (s : LiteOccCoordinator) :
    s.collect.overflowSequence = 0 ∨
      s.active.isEmpty = false ∧ (s.collect.overflowSequence = s.overflowSequence ∨
        ∃ dropped ∈ s.overflowedByCollect, dropped.sequence = s.collect.overflowSequence) := by
  cases hempty : s.active.isEmpty with
  | true =>
    left
    show (if s.active.isEmpty then 0 else _) = 0
    rw [hempty]
    rfl
  | false =>
    right
    have hloop := (overflowLoop_mark (historySize s.expire.history) s.expire.history
      s.expire.indexedHistory s.overflowSequence).2.2
    rw [collect_overflow hempty]
    exact ⟨rfl, hloop⟩

end LiteOccCoordinator

/-! ## Runs -/

theorem coordinatorAfter_concat (calls : List OccCall) (call : OccCall) :
    coordinatorAfter (calls ++ [call]) = (coordinatorAfter calls).step call := by
  simp [coordinatorAfter]

theorem DroppedWhileActive.mono {more : List OccCall} (h : DroppedWhileActive calls committed)
    (hmore : calls <+: more) : DroppedWhileActive more committed := by
  obtain ⟨before, call, hpre, hdropped, hactive⟩ := h
  exact ⟨before, call, hpre.trans hmore, hdropped, hactive⟩

/-- What the coordinator holds comes from the calls. -/
structure FromCalls (calls : List OccCall) (s : LiteOccCoordinator) : Prop where
  refs : ∀ uid key, ∀ ref ∈ s.indexedHistory.refs uid key, ref.key = key ∧
    ∃ committed, .publish committed ∈ calls ∧ committed.owner = ref.owner ∧
      committed.sequence = ref.sequence ∧ (uid, key) ∈ committed.writes.val
  history : ∀ committed ∈ s.history, .publish committed ∈ calls
  mark : s.overflowSequence = 0 ∨
    ∃ committed, DroppedWhileActive calls committed ∧ committed.sequence = s.overflowSequence

theorem FromCalls.mono {more : List OccCall} (h : FromCalls calls s) (hmore : calls <+: more) :
    FromCalls more s where
  refs uid key ref href := by
    obtain ⟨hkey, committed, hpublished, hrest⟩ := h.refs uid key ref href
    exact ⟨hkey, committed, hmore.subset hpublished, hrest⟩
  history committed hcommitted := hmore.subset (h.history committed hcommitted)
  mark := by
    obtain hzero | ⟨committed, hdropped, hsequence⟩ := h.mark
    · exact .inl hzero
    · exact .inr ⟨committed, hdropped.mono hmore, hsequence⟩

theorem FromCalls.append (h : FromCalls calls s) (hcall : .publish committed ∈ calls) :
    FromCalls calls (s.append committed) where
  refs uid key ref href := by
    obtain href | ⟨hwrite, rfl⟩ := mem_refs_foldl_addWriteRef.mp href
    · exact h.refs uid key ref href
    · exact ⟨rfl, committed, hcall, rfl, rfl, hwrite⟩
  history other hother := by
    obtain hother | hother := mem_append.mp hother
    · exact h.history other hother
    · rw [mem_singleton.mp hother]
      exact hcall
  mark := h.mark

/-- A call that ends in `collect` keeps the record, if what it drops counts as dropped. -/
theorem FromCalls.collect (h : FromCalls calls s)
    (hdrop : s.active.isEmpty = false → ∀ dropped ∈ s.overflowedByCollect,
      DroppedWhileActive calls dropped) : FromCalls calls s.collect where
  refs uid key ref href := h.refs uid key ref (refs_of_collect href)
  history committed hcommitted := h.history committed (s.collect_history_subset hcommitted)
  mark := by
    obtain hzero | ⟨hactive, hsame | ⟨dropped, hdropped, hsequence⟩⟩ := s.overflow_of_collect
    · exact .inl hzero
    · rw [hsame]
      exact h.mark
    · exact .inr ⟨dropped, hdrop hactive dropped hdropped, hsequence⟩

theorem fromCalls_coordinatorAfter (calls : List OccCall) :
    FromCalls calls (coordinatorAfter calls) := by
  induction calls using reverseRecOn with
  | nil => exact ⟨by simp [coordinatorAfter, OccIndex.refs], by simp [coordinatorAfter], .inl rfl⟩
  | append_singleton calls call ih =>
    have hold : FromCalls (calls ++ [call]) (coordinatorAfter calls) :=
      ih.mono (prefix_append _ _)
    have hdrop : (coordinatorAfter (calls ++ [call])).active.isEmpty = false →
        ∀ dropped ∈ (coordinatorAfter calls).droppedBy call,
          DroppedWhileActive (calls ++ [call]) dropped := by
      intro hactive dropped hdropped
      exact ⟨calls, call, prefix_rfl, hdropped, by rw [hactive]; decide⟩
    rw [coordinatorAfter_concat] at hdrop ⊢
    cases call with
    | begin owner start => exact ⟨hold.refs, hold.history, hold.mark⟩
    | «end» owner =>
      refine FromCalls.collect ⟨hold.refs, hold.history, hold.mark⟩ fun hactive => ?_
      exact hdrop hactive
    | validate owner start reads => exact hold
    | publish committed =>
      simp only [step, publish] at hdrop ⊢
      split
      · exact hold
      · rename_i hwrites
        rw [if_neg hwrites] at hdrop
        refine (hold.append (by simp)).collect fun hactive dropped hdropped => ?_
        refine hdrop hactive dropped ?_
        rw [droppedBy, if_neg hwrites]
        exact hdropped

theorem published_of_dropped {call : OccCall}
    (h : committed ∈ (coordinatorAfter calls).droppedBy call) :
    .publish committed ∈ calls ++ [call] := by
  have hrecorded := fromCalls_coordinatorAfter calls
  cases call with
  | «end» owner =>
    have hmem := overflowedByCollect_subset _ h
    exact mem_append_left _ (hrecorded.history committed hmem)
  | publish other =>
    simp only [droppedBy] at h
    split at h
    · cases h
    · have hmem := overflowedByCollect_subset _ h
      obtain hmem | hmem := mem_append.mp hmem
      · exact mem_append_left _ (hrecorded.history committed hmem)
      · rw [mem_singleton.mp hmem]
        simp
  | begin owner start => cases h
  | validate owner start reads => cases h

/-! ## What an active transaction can rely on -/

/-- Since a transaction began, every write beyond its start is in the index or covered by the
overflow mark, and so is every set that was dropped. -/
structure Watched (before after : List OccCall) (owner : UInt64) (start : Nat) : Prop where
  active : (coordinatorAfter (before ++ .begin owner start :: after)).active[owner]? = some start
  kept : ∀ committed, .publish committed ∈ after → start < committed.sequence →
    ∀ write ∈ committed.writes.val,
      ⟨committed.owner, committed.sequence, write.2⟩ ∈
          (coordinatorAfter (before ++ .begin owner start :: after)).indexedHistory.refs
            write.1 write.2 ∨
        committed.sequence ≤
          (coordinatorAfter (before ++ .begin owner start :: after)).overflowSequence
  dropped : ∀ front call, front ++ [call] <+: after → ∀ committed ∈
    (coordinatorAfter (before ++ .begin owner start :: front)).droppedBy call,
      committed.sequence ≤
        (coordinatorAfter (before ++ .begin owner start :: after)).overflowSequence

/-- A state whose index and overflow mark hold at least what another one guarantees. -/
def Covers (s s' : LiteOccCoordinator) (start : Nat) : Prop :=
  s.overflowSequence ≤ s'.overflowSequence ∧
  ∀ uid key, ∀ ref ∈ s.indexedHistory.refs uid key, start < ref.sequence →
    ref ∈ s'.indexedHistory.refs uid key ∨ ref.sequence ≤ s'.overflowSequence

theorem covers_collect (h : s.active[owner]? = some start) : Covers s s.collect start :=
  ⟨(overflow_collect h).1,
    fun _ _ _ href hstart => refs_collect h href hstart⟩

theorem covers_append (s : LiteOccCoordinator) (committed : OccCommittedWriteSet) (start : Nat) :
    Covers s (s.append committed) start :=
  ⟨le_refl _, fun _ _ _ href _ => .inl (mem_refs_foldl_addWriteRef.mpr (.inl href))⟩

theorem Covers.trans {s' s'' : LiteOccCoordinator} (h : Covers s s' start)
    (h' : Covers s' s'' start) : Covers s s'' start := by
  refine ⟨h.1.trans h'.1, fun uid key ref href hstart => ?_⟩
  obtain hkept | hmark := h.2 uid key ref href hstart
  · exact h'.2 uid key ref hkept hstart
  · exact .inr (hmark.trans h'.1)

/-- One call of the others leaves an active transaction active, covers what was there, covers
what it drops and puts what it publishes into the index. -/
theorem step_covers {call : OccCall} (hactive : s.active[owner]? = some start)
    (hcall : call ≠ .end owner ∧ ∀ again, call ≠ .begin owner again) :
    (s.step call).active[owner]? = some start ∧ Covers s (s.step call) start ∧
      (∀ dropped ∈ s.droppedBy call, dropped.sequence ≤ (s.step call).overflowSequence) ∧
      ∀ committed, call = .publish committed → start < committed.sequence →
        ∀ write ∈ committed.writes.val,
          ⟨committed.owner, committed.sequence, write.2⟩ ∈
              (s.step call).indexedHistory.refs write.1 write.2 ∨
            committed.sequence ≤ (s.step call).overflowSequence := by
  cases call with
  | begin other again =>
    have hother : other ≠ owner := fun h => hcall.2 again (by rw [h])
    refine ⟨?_, ⟨le_refl _, fun _ _ _ href _ => .inl href⟩, fun _ h => (nomatch h),
      fun _ h => (nomatch h)⟩
    show (s.active.insert other again)[owner]? = some start
    rw [ExtTreeMap.getElem?_insert, if_neg (by rwa [Std.compare_eq_iff_eq])]
    exact hactive
  | «end» other =>
    have hother : other ≠ owner := fun h => hcall.1 (by rw [h])
    have herased : (s.active.erase other)[owner]? = some start := by
      rw [ExtTreeMap.getElem?_erase, if_neg (by rwa [Std.compare_eq_iff_eq])]
      exact hactive
    have hcover := covers_collect (s := { s with active := s.active.erase other }) herased
    exact ⟨herased, hcover, (overflow_collect herased).2,
      fun _ h => (nomatch h)⟩
  | validate other again reads =>
    exact ⟨hactive, ⟨le_refl _, fun _ _ _ href _ => .inl href⟩, fun _ h => (nomatch h),
      fun _ h => (nomatch h)⟩
  | publish committed =>
    simp only [step, publish, droppedBy]
    split
    · rename_i hnone
      refine ⟨hactive, ⟨le_refl _, fun _ _ _ href _ => .inl href⟩, fun _ h => (nomatch h), ?_⟩
      rintro other heq _ write hwrite
      cases heq
      rw [hnone] at hwrite
      cases hwrite
    · have happended : (s.append committed).active[owner]? = some start := hactive
      have hcover := covers_collect happended
      refine ⟨hactive, (covers_append s committed start).trans hcover,
        (overflow_collect happended).2, ?_⟩
      rintro other heq hstart write hwrite
      cases heq
      exact hcover.2 write.1 write.2 _ (mem_refs_foldl_addWriteRef.mpr (.inr ⟨hwrite, rfl⟩)) hstart

theorem watched (before after : List OccCall)
    (hafter : ∀ call ∈ after, call ≠ .end owner ∧ ∀ again, call ≠ .begin owner again) :
    Watched before after owner start := by
  induction after using reverseRecOn with
  | nil =>
    refine ⟨?_, fun _ h => (nomatch h), ?_⟩
    · rw [coordinatorAfter_concat]
      exact ExtTreeMap.getElem?_insert_self
    · intro front call hpre
      have hlen := hpre.length_le
      simp at hlen
  | append_singleton after call ih =>
    have hold := ih fun other hother => hafter other (mem_append_left _ hother)
    have hstep := step_covers hold.active (hafter call (by simp))
    have hsame : before ++ .begin owner start :: (after ++ [call]) =
        (before ++ .begin owner start :: after) ++ [call] := by simp
    obtain ⟨hactive, hcover, hdropped, hpublished⟩ := hstep
    rw [← coordinatorAfter_concat, ← hsame] at hactive hcover hdropped hpublished
    refine ⟨hactive, fun committed hmem hstart write hwrite => ?_, fun front last hpre => ?_⟩
    · obtain hmem | hmem := mem_append.mp hmem
      · obtain hkept | hmark := hold.kept committed hmem hstart write hwrite
        · exact hcover.2 _ _ _ hkept hstart
        · exact .inr (hmark.trans hcover.1)
      · exact hpublished committed (mem_singleton.mp hmem).symm hstart write hwrite
    · obtain hlast | hinner := prefix_concat_iff.mp hpre
      · obtain ⟨rfl, hcall⟩ := append_inj' hlast rfl
        cases hcall
        exact hdropped
      · exact fun committed hmem => (hold.dropped front last hinner committed hmem).trans hcover.1

/-! ## Validation -/

theorem OccReadRange.intersects_iff {read : OccReadRange} (hfull : read.full = false)
    (hkey : key ≠ []) : read.intersects key = true ↔
      if read.start = read.endKey then read.start = key
      else compare key read.start ≠ .lt ∧ (read.endKey = [] ∨ compare key read.endKey = .lt) := by
  have hempty : key.isEmpty = false := by simpa using hkey
  unfold intersects
  rw [hempty, hfull]
  split <;> simp

theorem ne_nil_of_compare_lt {a b : Bytes} (h : compare a b = .lt) : b ≠ [] := by
  rintro rfl
  exact not_lt_of_extends nil_prefix h

/-- A write of another transaction, since the start, that a read meets. -/
def Hits (owner : UInt64) (start : Nat) (read : OccReadRange) (write : OccCommittedWriteRef) :
    Prop :=
  start < write.sequence ∧ write.owner ≠ owner ∧ read.intersects write.key = true

/-- The loop finds a conflict exactly when some write of the table is one. The keys are in
order, so nothing that stands behind the place where it breaks off can be among the read keys. -/
theorem conflictInKeys_iff {read : OccReadRange} {keys : List (Bytes × List OccCommittedWriteRef)}
    (hsorted : keys.Pairwise fun a b => compare a.1 b.1 = .lt)
    (hkeys : ∀ entry ∈ keys, ∀ write ∈ entry.2, write.key = entry.1) :
    conflictInKeys owner start read keys = true ↔
      ∃ entry ∈ keys, ∃ write ∈ entry.2, Hits owner start read write := by
  induction keys with
  | nil => simp [conflictInKeys]
  | cons entry keys ih =>
    obtain ⟨key, writes⟩ := entry
    obtain ⟨hfirst, hrest⟩ := pairwise_cons.mp hsorted
    have ih' := ih hrest fun other hother => hkeys other (mem_cons_of_mem _ hother)
    have hwrites : ∀ write ∈ writes, write.key = key := hkeys (key, writes) mem_cons_self
    -- An entry and all behind it are no conflict when no key from there on is read.
    have hnone : (∀ write ∈ writes, read.intersects write.key = false) →
        ((∃ entry ∈ (key, writes) :: keys, ∃ write ∈ entry.2, Hits owner start read write) ↔
          ∃ entry ∈ keys, ∃ write ∈ entry.2, Hits owner start read write) := by
      intro hfree
      rw [exists_mem_cons_iff]
      refine or_iff_right ?_
      rintro ⟨write, hwrite, -, -, hhit⟩
      rw [hfree write hwrite] at hhit
      cases hhit
    have hlook : ((writes.any fun write =>
        start < write.sequence && write.owner ≠ owner && read.intersects write.key) ||
          conflictInKeys owner start read keys) = true ↔
        ∃ entry ∈ (key, writes) :: keys, ∃ write ∈ entry.2, Hits owner start read write := by
      rw [Bool.or_eq_true, ih', exists_mem_cons_iff]
      simp [Hits, and_assoc]
    unfold conflictInKeys
    dsimp only
    split
    · rename_i hplain
      simp only [Bool.and_eq_true, Bool.not_eq_true', isEmpty_eq_false_iff] at hplain
      obtain ⟨hfull, hkey⟩ := hplain
      have hbreak : (∀ other, other = key ∨ compare key other = .lt →
          read.intersects other = false) → (false = true ↔
            ∃ entry ∈ (key, writes) :: keys, ∃ write ∈ entry.2, Hits owner start read write) := by
        intro hfree
        refine ⟨fun h => (nomatch h), ?_⟩
        rintro ⟨entry, hentry, write, hwrite, -, -, hhit⟩
        have hname := hkeys entry hentry write hwrite
        have hother : entry.1 = key ∨ compare key entry.1 = .lt := by
          obtain rfl | hentry := mem_cons.mp hentry
          · exact .inl rfl
          · exact .inr (hfirst entry hentry)
        rw [hname, hfree entry.1 hother] at hhit
        exact hhit
      have hplace : ∀ other, other = key ∨ compare key other = .lt → other ≠ [] := by
        rintro other (rfl | hlt)
        · exact hkey
        · exact ne_nil_of_compare_lt hlt
      split
      · rename_i hbefore
        rw [ih', hnone]
        intro write hwrite
        rw [hwrites write hwrite, Bool.eq_false_iff, ne_eq, intersects_iff hfull hkey]
        split
        · intro heq
          rw [heq, Std.ReflOrd.compare_self] at hbefore
          cases hbefore
        · exact fun h => h.1 hbefore
      · rename_i hnotbefore
        split
        · rename_i hpoint
          split
          · rename_i hdiffers
            refine hbreak fun other hother => ?_
            rw [Bool.eq_false_iff, ne_eq,
              intersects_iff hfull (hplace other hother), if_pos hpoint]
            rintro rfl
            obtain hsame | hlt := hother
            · exact hdiffers hsame.symm
            · exact hnotbefore hlt
          · exact hlook
        · rename_i hrange
          split
          · rename_i hpast
            simp only [Bool.and_eq_true, Bool.not_eq_true', isEmpty_eq_false_iff,
              decide_eq_true_eq] at hpast
            refine hbreak fun other hother => ?_
            rw [Bool.eq_false_iff, ne_eq,
              intersects_iff hfull (hplace other hother), if_neg hrange]
            rintro ⟨-, hend | hend⟩
            · exact hpast.1 hend
            · obtain rfl | hlt := hother
              · exact hpast.2 hend
              · exact hpast.2 (Std.TransCmp.lt_trans hlt hend)
          · exact hlook
    · exact hlook

theorem getElem?_of_mem_toList {keys : OccKeyIndex} {entry : Bytes × List OccCommittedWriteRef}
    (h : entry ∈ keys.toList) : keys[entry.1]? = some entry.2 :=
  ExtTreeMap.mem_toList_iff_getElem?_eq_some.mp h

/-- The look-up at the index finds every write that meets the read. -/
theorem LiteOccCoordinator.conflicts_iff {read : OccObjectRead}
    (hrefs : ∀ uid key, ∀ ref ∈ s.indexedHistory.refs uid key, ref.key = key) :
    s.conflicts owner start read = true ↔
      ∃ key, ∃ ref ∈ s.indexedHistory.refs read.objectUid key, start < ref.sequence ∧
        ref.owner ≠ owner ∧ read.intersects key = true := by
  unfold conflicts OccIndex.refs
  have hrefs' := hrefs read.objectUid
  unfold OccIndex.refs at hrefs'
  cases hkeys : s.indexedHistory[read.objectUid]? with
  | none => simp
  | some keys =>
    rw [hkeys] at hrefs'
    simp only [Option.bind_some] at hrefs' ⊢
    have hname : ∀ entry ∈ keys.toList, ∀ write ∈ entry.2, write.key = entry.1 := by
      intro entry hentry write hwrite
      refine hrefs' entry.1 write ?_
      rw [getElem?_of_mem_toList hentry]
      exact hwrite
    have hsorted : keys.toList.Pairwise fun a b => compare a.1 b.1 = .lt :=
      ExtTreeMap.ordered_keys_toList
    -- What the lower bound leaves out is before the range, and is not the object-wide key.
    have hseek : conflictInKeys owner start read.toOccReadRange
        (if read.full || keys.contains [] then keys.toList
          else keys.toList.dropWhile fun entry => compare entry.1 read.start = .lt) = true ↔
        ∃ entry ∈ keys.toList, ∃ write ∈ entry.2, Hits owner start read.toOccReadRange write := by
      split
      · exact conflictInKeys_iff hsorted hname
      · rename_i hbound
        simp only [Bool.or_eq_true, not_or, Bool.not_eq_true] at hbound
        rw [seek_eq_filter hsorted, conflictInKeys_iff (hsorted.filter _) fun entry hentry =>
          hname entry (mem_filter.mp hentry).1]
        refine ⟨?_, ?_⟩
        · rintro ⟨entry, hentry, hrest⟩
          exact ⟨entry, (mem_filter.mp hentry).1, hrest⟩
        · rintro ⟨entry, hentry, write, hwrite, hmeets⟩
          refine ⟨entry, mem_filter.mpr ⟨hentry, ?_⟩, write, hwrite, hmeets⟩
          have hhit := hmeets.2.2
          have hkey : entry.1 ≠ [] := by
            intro hnil
            have hmem : keys.contains entry.1 = true := by
              rw [ExtTreeMap.contains_eq_isSome_getElem?, getElem?_of_mem_toList hentry]
              rfl
            rw [hnil, hbound.2] at hmem
            cases hmem
          rw [hname entry hentry write hwrite, intersects_iff hbound.1 hkey] at hhit
          rw [decide_eq_true_eq]
          split at hhit
          · rw [hhit, Std.ReflOrd.compare_self]
            decide
          · exact hhit.1
    rw [hseek]
    refine ⟨?_, ?_⟩
    · rintro ⟨entry, hentry, write, hwrite, hstart, howner, hhit⟩
      refine ⟨entry.1, write, ?_, hstart, howner, ?_⟩
      · rw [getElem?_of_mem_toList hentry]
        exact hwrite
      · rwa [← hname entry hentry write hwrite]
    · rintro ⟨key, write, hwrite, hstart, howner, hhit⟩
      cases hkey : keys[key]? with
      | none =>
        rw [hkey] at hwrite
        cases hwrite
      | some writes =>
        have hentry : (key, writes) ∈ keys.toList :=
          ExtTreeMap.mem_toList_iff_getElem?_eq_some.mpr hkey
        rw [hkey] at hwrite
        refine ⟨(key, writes), hentry, write, hwrite, hstart, howner, ?_⟩
        rwa [hname (key, writes) hentry write hwrite]

theorem LiteOccCoordinator.validate_fails_iff {reads : List OccObjectRead} :
    (∃ message, s.validate owner start reads = .error message) ↔
      start < s.overflowSequence ∨ ∃ read ∈ reads, s.conflicts owner start read = true := by
  unfold validate
  split_ifs with hmark
  · exact iff_of_true ⟨_, rfl⟩ (.inl hmark.2)
  · have hmark' : ¬ start < s.overflowSequence := by omega
    rw [or_iff_right hmark']
    cases hfind : reads.find? (s.conflicts owner start) with
    | none =>
      refine iff_of_false (fun ⟨_, h⟩ => nomatch h) ?_
      rintro ⟨read, hread, hconflict⟩
      exact find?_eq_none.mp hfind read hread hconflict
    | some read =>
      exact iff_of_true ⟨_, rfl⟩
        ⟨read, mem_of_find?_eq_some hfind, find?_some hfind⟩

/-- A validation fails exactly when another transaction has published, since the begin, a write
that the reads meet, or a write that might be one was dropped. -/
theorem validate_fails_iff_conflict {before after : List OccCall} {owner : UInt64} {start : Nat}
    (h : ActiveSince before after owner start) (reads : List OccObjectRead) :
    (∃ message, (coordinatorAfter (before ++ .begin owner start :: after)).validate owner start
        reads = .error message) ↔
      (∃ committed, .publish committed ∈ after ∧ committed.owner ≠ owner ∧
        start < committed.sequence ∧ ∃ read ∈ reads, ∃ write ∈ committed.writes.val,
          write.1 = read.objectUid ∧ read.intersects write.2 = true) ∨
      ∃ committed, DroppedWhileActive (before ++ .begin owner start :: after) committed ∧
        start < committed.sequence := by
  obtain ⟨hbefore, hafter⟩ := h
  have hwatched : Watched before after owner start := watched before after hafter
  have hrecorded := fromCalls_coordinatorAfter (before ++ .begin owner start :: after)
  -- Whatever goes beyond the start was published after the begin.
  have hsince : ∀ committed, .publish committed ∈ before ++ .begin owner start :: after →
      start < committed.sequence → .publish committed ∈ after := by
    intro committed hmem hstart
    obtain hmem | hmem := mem_append.mp hmem
    · exact absurd (hbefore committed hmem) (by omega)
    · obtain hmem | hmem := mem_cons.mp hmem
      · cases hmem
      · exact hmem
  rw [validate_fails_iff]
  refine ⟨?_, ?_⟩
  · rintro (hmark | ⟨read, hread, hconflict⟩)
    · obtain hzero | ⟨committed, hdropped, hsequence⟩ := hrecorded.mark
      · omega
      · exact .inr ⟨committed, hdropped, by omega⟩
    · rw [conflicts_iff fun uid key ref href =>
        (hrecorded.refs uid key ref href).1] at hconflict
      obtain ⟨key, ref, href, hstart, howner, hhit⟩ := hconflict
      obtain ⟨-, committed, hmem, hsame, hsequence, hwrite⟩ := hrecorded.refs _ _ ref href
      refine .inl ⟨committed, hsince committed hmem (by omega), by rwa [hsame], by omega, read,
        hread, (read.objectUid, key), hwrite, rfl, hhit⟩
  · rintro (⟨committed, hmem, howner, hstart, read, hread, write, hwrite, huid, hhit⟩ |
      ⟨committed, ⟨front, call, hpre, hdropped, hactive⟩, hstart⟩)
    · obtain hkept | hmark := hwatched.kept committed hmem hstart write hwrite
      · refine .inr ⟨read, hread, ?_⟩
        rw [conflicts_iff fun uid key ref href =>
          (hrecorded.refs uid key ref href).1]
        rw [huid] at hkept
        exact ⟨write.2, _, hkept, hstart, howner, hhit⟩
      · exact .inl (by omega)
    · -- A call that drops such a set comes after the begin.
      have hlate : ¬ front ++ [call] <+: before ++ [.begin owner start] := by
        intro hearly
        have hmem := hearly.subset (published_of_dropped hdropped)
        obtain hmem | hmem := mem_append.mp hmem
        · exact absurd (hbefore committed hmem) (by omega)
        · cases mem_singleton.mp hmem
      rw [append_cons before] at hpre
      obtain hearly | hinside := prefix_or_prefix_of_prefix hpre (prefix_append _ after)
      · exact absurd hearly hlate
      · obtain hsame | ⟨rest, rfl⟩ := prefix_concat_iff.mp hinside
        · exact absurd (hsame ▸ prefix_rfl) hlate
        · rw [append_assoc, prefix_append_right_inj] at hpre
          rw [← append_cons] at hdropped
          have hmark := hwatched.dropped rest call hpre committed hdropped
          exact .inl (by omega)

/-- Owner 1 reads the key that owner 2 publishes after the begin. -/
theorem point_read_conflicts :
    ActiveSince [.publish ⟨2, 3, ⟨[(7, [1])], by decide⟩⟩]
        [.publish ⟨2, 5, ⟨[(7, [1])], by decide⟩⟩] 1 3 ∧
      ∃ message, (coordinatorAfter ([.publish ⟨2, 3, ⟨[(7, [1])], by decide⟩⟩] ++
        .begin 1 3 :: [.publish ⟨2, 5, ⟨[(7, [1])], by decide⟩⟩])).validate 1 3
          [{ objectUid := 7, start := [1], endKey := [1], full := false }] = .error message := by
  have hsince : ActiveSince [.publish ⟨2, 3, ⟨[(7, [1])], by decide⟩⟩]
      [.publish ⟨2, 5, ⟨[(7, [1])], by decide⟩⟩] 1 3 := by
    refine ⟨fun committed h => ?_, fun call h => ?_⟩
    · cases mem_singleton.mp h
      exact le_refl 3
    · rw [mem_singleton.mp h]
      exact ⟨fun h => (nomatch h), fun _ h => (nomatch h)⟩
  refine ⟨hsince, (validate_fails_iff_conflict hsince _).mpr (.inl ?_)⟩
  exact ⟨_, mem_singleton_self _, by decide, by decide, _, mem_singleton_self _,
    (7, [1]), mem_singleton_self _, rfl, by decide⟩

end litestore
