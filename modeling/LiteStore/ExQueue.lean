-- The queues between two operators (executor/ex_queue): a circular array whose size is a power of
-- two, with a head and a tail that count modulo 2^32. They are held against a log of the inserts.
import LiteStore.Lib.Transitions
import Mathlib.Data.Nat.ModEq
import Mathlib.Logic.Function.Basic

namespace litestore

open List transitions

/-! ## The queue -/

structure QueueEntry (α : Type) where
  parentIndex : UInt32
  /-- The request is `GET_NOMORE`. Any other request is part of the content. -/
  noMore : Bool
  content : α

def QueueEntry.cancel {α : Type} (e : QueueEntry α) : QueueEntry α := { e with noMore := true }

structure ExQueue (α : Type) where
  size : UInt32
  head : UInt32 := 0xFFFFFFFE
  tail : UInt32 := 0xFFFFFFFE
  queue : UInt32 → QueueEntry α
  needsAtps : Bool := false
  needsPstates : Bool := false

/-- The answers of the allocator to a resize. What the new entries still miss is allocated last,
when the queue has been switched over. -/
structure ResizeMemory (α : Type) where
  queue : Option (UInt32 → QueueEntry α)
  atps : Bool := true
  pstates : Bool := true
  missingAtps : Bool := true
  missingPstates : Bool := true

namespace ExQueue

/-- The loop of `roundUp2Power`: 31 shifts end at one. -/
def bitCount : Nat → UInt32 → Nat
  | 0, _ => 1
  | n + 1, s => if s > 1 then bitCount n (s >>> 1) + 1 else 1

/-- A shift that leaves the 32 bits gives zero, which the constructor refuses. -/
def roundUp2Power (i : UInt32) : UInt32 := .ofNat (2 ^ bitCount 32 (i - 1))

/-- The constructor, up to the assertion on the size. -/
def new {α : Type} (initialSize : UInt32) (q : ExQueue α) : Option (ExQueue α) :=
  if roundUp2Power initialSize > 1 then
    some { q with size := roundUp2Power initialSize, head := 0xFFFFFFFE, tail := 0xFFFFFFFE }
  else none

/-- The loop of `resize` that doubles the size: 32 doublings end at zero. -/
def doubled (newSize : UInt32) : Nat → UInt32 → UInt32
  | 0, p => p
  | n + 1, p => if p < newSize ∧ p ≠ 0 then doubled newSize n (p <<< 1) else p

variable {α : Type} (q : ExQueue α)

def mask : UInt32 := q.size - 1

def entry (i : UInt32) : QueueEntry α := q.queue (i &&& q.mask)

def store (i : UInt32) (e : QueueEntry α) : ExQueue α :=
  { q with queue := Function.update q.queue (i &&& q.mask) e }

def getLength : UInt32 := q.tail - q.head

def isFull : Bool := q.getLength = q.mask

def isEmpty : Bool := q.head = q.tail

def isVacant (i : UInt32) : Bool :=
  if q.head ≤ q.tail then !(q.head ≤ i && i < q.tail) else !(q.head ≤ i || i < q.tail)

/-- The entry is filled in at the tail. A call that fails its assertion has no step. -/
def insert (e : QueueEntry α) : Option (ExQueue α) :=
  if q.isFull then none else some { q.store q.tail e with tail := q.tail + 1 }

def removeHead : Option (ExQueue α) :=
  if q.isEmpty then none else some { q with head := q.head + 1 }

/-- Only the points that make a resize due are handled in another way, and these are left out. -/
def deleteHeadEntry : Option (ExQueue α) := q.removeHead

def resize (memory : ResizeMemory α) (newSize : UInt32) : ExQueue α :=
  let newSize := doubled newSize 32 q.size
  if newSize ≤ q.size then q
  else
    match memory.queue with
    | none => q
    | some newQueue =>
      if (q.needsAtps && !memory.atps) || (q.needsPstates && !memory.pstates) then q
      else
        let copied := (List.range q.size.toNat).foldl (fun new n => Function.update new
          ((q.head + .ofNat n) &&& (newSize - 1)) (q.entry (q.head + .ofNat n))) newQueue
        -- a failure at the end puts the old array back
        if (q.needsAtps && !memory.missingAtps) || (q.needsPstates && !memory.missingPstates) then q
        else { q with queue := copied, size := newSize }

def cancelRequest (i : UInt32) : ExQueue α :=
  if q.isVacant i then q else q.store i (q.entry i).cancel

/-- The loop over the entries from an index on. -/
def cancelWhere (meant : UInt32 → Bool) : Nat → UInt32 → ExQueue α → ExQueue α
  | 0, _, q => q
  | n + 1, i, q =>
    if q.isVacant i then q
    else cancelWhere meant n (i + 1)
      (if meant (q.entry i).parentIndex then q.cancelRequest i else q)

/-- The test of the one loop, and of the other where the range wraps. -/
def inRange (startPI endPI p : UInt32) : Bool :=
  if endPI ≥ startPI then p ≥ startPI && p ≤ endPI else p ≥ startPI || p ≤ endPI

def cancelRequestWithParentIndexRange (startPI endPI : UInt32) : ExQueue α :=
  q.cancelWhere (inRange startPI endPI) (2 ^ 32) q.head

end ExQueue

inductive QueueCall (α : Type)
  | insert (entry : QueueEntry α)
  | removeHead
  | deleteHeadEntry
  | resize (memory : ResizeMemory α) (newSize : UInt32)
  | cancel (startPI endPI : UInt32)

def ExQueue.step {α : Type} (q : ExQueue α) : QueueCall α → Option (ExQueue α)
  | .insert entry => q.insert entry
  | .removeHead => q.removeHead
  | .deleteHeadEntry => q.deleteHeadEntry
  | .resize memory newSize => some (q.resize memory newSize)
  | .cancel startPI endPI => some (q.cancelRequestWithParentIndexRange startPI endPI)

/-! ## The log -/

/-- What was inserted, in its order, and how much of it has left. -/
structure QueueLog (α : Type) where
  inserted : List (QueueEntry α) := []
  removed : Nat := 0

/-- A range of indexes is counted from its start on, also through zero. -/
def QueueLog.step {α : Type} (l : QueueLog α) : QueueCall α → QueueLog α
  | .insert entry => { l with inserted := l.inserted ++ [entry] }
  | .removeHead | .deleteHeadEntry => { l with removed := l.removed + 1 }
  | .resize _ _ => l
  | .cancel startPI endPI => { l with inserted := l.inserted.mapIdx fun n e =>
      if l.removed ≤ n ∧ e.parentIndex - startPI ≤ endPI - startPI then e.cancel else e }

/-- The index of an insert. -/
def queueIndex (n : Nat) : UInt32 := 0xFFFFFFFE + .ofNat n

section

variable {α : Type} {q : ExQueue α} {r len : Nat} {f f' : Nat → Option (QueueEntry α)}

/-- A queue that holds the inserts of a range of numbers. -/
structure ExQueue.Holds (q : ExQueue α) (r len : Nat) (f : Nat → Option (QueueEntry α)) : Prop
    where
  power : ∃ k < 32, q.size.toNat = 2 ^ k
  head : q.head = queueIndex r
  tail : q.tail = queueIndex len
  le : r ≤ len
  fits : len - r < q.size.toNat
  entries : ∀ n, r ≤ n → n < len → f n = some (q.entry (queueIndex n))

/-! ## Indexes and slots -/

theorem queueIndex_toNat (n : Nat) : (queueIndex n).toNat = (4294967294 + n) % 4294967296 := by
  simp [queueIndex, UInt32.toNat_add]

theorem queueIndex_add (n m : Nat) : queueIndex n + .ofNat m = queueIndex (n + m) := by
  apply UInt32.toNat_inj.mp
  rw [UInt32.toNat_add, queueIndex_toNat, queueIndex_toNat, UInt32.toNat_ofNat']
  omega

theorem slot_toNat {size : UInt32} {k : Nat} (hk : k < 32) (hsize : size.toNat = 2 ^ k) (n : Nat) :
    (queueIndex n &&& (size - 1)).toNat = (4294967294 + n) % 2 ^ k := by
  have hpos := Nat.two_pow_pos k
  have hmask : (size - 1).toNat = 2 ^ k - 1 := by
    rw [UInt32.toNat_sub_of_le, hsize]
    · rfl
    · rw [UInt32.le_iff_toNat_le, hsize]
      exact hpos
  rw [UInt32.toNat_and, hmask, Nat.and_two_pow_sub_one_eq_mod, queueIndex_toNat]
  exact Nat.mod_mod_of_dvd _ (pow_dvd_pow 2 hk.le : 2 ^ k ∣ 2 ^ 32)

/-- As many indexes in a row as there are slots have different slots. -/
theorem slot_inj {size : UInt32} {n m : Nat} (h : ∃ k < 32, size.toNat = 2 ^ k)
    (hle : n ≤ m) (hlt : m - n < size.toNat)
    (hslot : queueIndex n &&& (size - 1) = queueIndex m &&& (size - 1)) : n = m := by
  obtain ⟨k, hk, hsize⟩ := h
  have hmod : (4294967294 + n) % 2 ^ k = (4294967294 + m) % 2 ^ k := by
    rw [← slot_toNat hk hsize, ← slot_toNat hk hsize, hslot]
  have hdvd := (Nat.modEq_iff_dvd' (by omega)).mp hmod
  rw [Nat.add_sub_add_left] at hdvd
  have := Nat.eq_zero_of_dvd_of_lt hdvd (hsize ▸ hlt)
  omega

/-! ## What one call keeps -/

namespace ExQueue

namespace Holds

/-- The length and the tests count the entries. -/
theorem counts (h : q.Holds r len f) : q.getLength.toNat = len - r ∧
    (q.isFull = true ↔ len - r + 1 = q.size.toNat) ∧ (q.isEmpty = true ↔ len = r) := by
  have hle := h.le
  have hfits := h.fits
  have hsize := q.size.toNat_lt
  have hlength : q.getLength.toNat = len - r := by
    rw [getLength, h.head, h.tail, UInt32.toNat_sub, queueIndex_toNat, queueIndex_toNat]
    omega
  have hmask : q.mask.toNat = q.size.toNat - 1 :=
    UInt32.toNat_sub_of_le _ _ (UInt32.le_iff_toNat_le.mpr (by simp; omega))
  refine ⟨hlength, ?_, ?_⟩
  · rw [isFull, decide_eq_true_eq, ← UInt32.toNat_inj, hlength, hmask]
    omega
  · rw [isEmpty, decide_eq_true_eq, h.head, h.tail, ← UInt32.toNat_inj, queueIndex_toNat,
      queueIndex_toNat]
    omega

theorem isVacant_iff (h : q.Holds r len f) {n : Nat} (hn : r ≤ n) (hlen : n ≤ len) :
    q.isVacant (queueIndex n) = true ↔ n = len := by
  have hfits := h.fits
  have hsize := q.size.toNat_lt
  simp only [isVacant, h.head, h.tail, UInt32.le_iff_toNat_le, UInt32.lt_iff_toNat_lt,
    queueIndex_toNat]
  split <;> simp only [Bool.not_eq_true', Bool.and_eq_false_iff, Bool.or_eq_false_iff,
    decide_eq_false_iff_not] <;> omega

/-- A store changes the entry of its index only. -/
theorem entry_store (h : q.Holds r len f) {n m : Nat} (hn : r ≤ n) (hm : r ≤ m)
    (hlen : n < r + q.size.toNat) (hlen' : m < r + q.size.toNat) (e : QueueEntry α) :
    (q.store (queueIndex m) e).entry (queueIndex n) =
      if n = m then e else q.entry (queueIndex n) := by
  simp only [entry, store, mask, Function.update_apply]
  by_cases heq : n = m
  · rw [if_pos heq, if_pos (by rw [heq])]
  · rw [if_neg heq, if_neg]
    intro hslot
    rcases Nat.le_total n m with hle | hle
    · exact heq (slot_inj h.power hle (by omega) hslot)
    · exact heq (slot_inj h.power hle (by omega) hslot.symm).symm

theorem congr (h : q.Holds r len f)
    (heq : ∀ n, r ≤ n → n < len → f' n = f n) : q.Holds r len f' :=
  { h with entries := fun n hn hlen => (heq n hn hlen).trans (h.entries n hn hlen) }

theorem insert {t : ExQueue α} {e : QueueEntry α} (h : q.Holds r len f)
    (hstep : q.insert e = some t) (hold : ∀ n, n < len → f' n = f n) (hnew : f' len = some e) :
    t.Holds r (len + 1) f' := by
  unfold ExQueue.insert at hstep
  split at hstep
  · cases hstep
  rename_i hfull
  cases hstep
  have hle := h.le
  have hfits := h.fits
  rw [h.counts.2.1] at hfull
  refine ⟨h.power, h.head, ?_, by omega, by show len + 1 - r < q.size.toNat; omega, ?_⟩
  · rw [h.tail]
    exact queueIndex_add len 1
  · intro n hn hlen
    show f' n = some ((q.store q.tail e).entry (queueIndex n))
    rw [h.tail, h.entry_store hn hle (by omega) (by omega)]
    split
    · rename_i heq
      rw [heq, hnew]
    · rw [hold n (by omega), h.entries n hn (by omega)]

theorem removeHead {t : ExQueue α} (h : q.Holds r len f) (hstep : q.removeHead = some t) :
    t.Holds (r + 1) len f := by
  unfold ExQueue.removeHead at hstep
  split at hstep
  · cases hstep
  rename_i hempty
  cases hstep
  have hle := h.le
  have hfits := h.fits
  rw [h.counts.2.2] at hempty
  refine ⟨h.power, ?_, h.tail, by omega, by show len - (r + 1) < q.size.toNat; omega, ?_⟩
  · rw [h.head]
    exact queueIndex_add r 1
  · exact fun n hn hlen => h.entries n (by omega) hlen

theorem doubled_power (newSize : UInt32) {p : UInt32} (n : Nat)
    (h : p = 0 ∨ ∃ k < 32, p.toNat = 2 ^ k) :
    doubled newSize n p = 0 ∨ ∃ k < 32, (doubled newSize n p).toNat = 2 ^ k := by
  induction n generalizing p with
  | zero => exact h
  | succ n ih =>
    rw [doubled]
    split
    · rename_i hless
      obtain ⟨k, hk, hp⟩ := h.resolve_left hless.2
      apply ih
      have hshift : (p <<< 1).toNat = 2 ^ (k + 1) % 2 ^ 32 := by
        simp [UInt32.toNat_shiftLeft, hp, Nat.shiftLeft_eq, pow_succ]
      rcases Nat.lt_or_ge (k + 1) 32 with hlt | hge
      · exact Or.inr ⟨k + 1, hlt,
          hshift.trans (Nat.mod_eq_of_lt (Nat.pow_lt_pow_right (by decide) hlt))⟩
      · left
        obtain rfl : k = 31 := by omega
        exact UInt32.toNat_inj.mp hshift
    · exact h

/-- The copies of as many entries as there are slots do not meet. -/
theorem copied {newSize : UInt32} (hpower : ∃ k < 32, newSize.toNat = 2 ^ k)
    (newQueue : UInt32 → QueueEntry α) {m : Nat} (hm : m ≤ newSize.toNat) {n : Nat} (hn : n < m) :
    (List.range m).foldl (fun new n => Function.update new
        (queueIndex (r + n) &&& (newSize - 1)) (q.entry (queueIndex (r + n)))) newQueue
      (queueIndex (r + n) &&& (newSize - 1)) = q.entry (queueIndex (r + n)) := by
  induction m with
  | zero => omega
  | succ m ih =>
    rw [range_succ, foldl_append, foldl_cons, foldl_nil, Function.update_apply]
    split_ifs with hslot
    · have := slot_inj hpower (by omega) (by omega) hslot
      rw [this]
    · have hne : n ≠ m := fun heq => hslot (by rw [heq])
      exact ih (by omega) (by omega)

theorem resize (h : q.Holds r len f) (memory : ResizeMemory α) (newSize : UInt32) :
    (q.resize memory newSize).Holds r len f := by
  unfold ExQueue.resize
  have hpower := doubled_power newSize 32 (Or.inr h.power)
  generalize doubled newSize 32 q.size = grown at hpower ⊢
  dsimp only
  split
  · exact h
  rename_i hless
  rw [UInt32.le_iff_toNat_le] at hless
  have hpower := hpower.resolve_left (by rintro rfl; simp at hless)
  cases memory.queue with
  | none => exact h
  | some newQueue =>
    dsimp only
    split
    · exact h
    split
    · exact h
    have hfits := h.fits
    refine ⟨hpower, h.head, h.tail, h.le, by show len - r < grown.toNat; omega, fun n hn hlen => ?_⟩
    obtain ⟨d, rfl⟩ := Nat.exists_eq_add_of_le hn
    rw [h.entries _ hn hlen]
    simp only [h.head, queueIndex_add]
    exact congrArg some (copied hpower newQueue (by omega) (by omega)).symm

/-- The loop cancels what is meant from its index on. -/
theorem cancelWhere (h : q.Holds r len f) (meant : UInt32 → Bool) {fuel m : Nat} (hm : r ≤ m)
    (hlen : m ≤ len) (hfuel : len - m ≤ fuel) :
    (q.cancelWhere meant fuel (queueIndex m)).Holds r len fun n => (f n).map fun e =>
      if m ≤ n ∧ meant e.parentIndex then e.cancel else e := by
  induction fuel generalizing q m f with
  | zero =>
    refine h.congr fun n _ hn => ?_
    have hnot : ¬ m ≤ n := by omega
    simp [hnot]
  | succ fuel ih =>
    unfold ExQueue.cancelWhere
    split
    · rename_i hvacant
      rw [h.isVacant_iff hm hlen] at hvacant
      refine h.congr fun n _ hn => ?_
      have hnot : ¬ m ≤ n := by omega
      simp [hnot]
    rename_i hvacant
    have hlt : m < len := by
      rw [h.isVacant_iff hm hlen] at hvacant
      omega
    have hfits := h.fits
    have hone : (if meant (q.entry (queueIndex m)).parentIndex then
        q.cancelRequest (queueIndex m) else q).Holds r len fun n => (f n).map fun e =>
          if n = m ∧ meant e.parentIndex then e.cancel else e := by
      split_ifs with hmeant
      · rw [ExQueue.cancelRequest, if_neg hvacant]
        refine ⟨h.power, h.head, h.tail, h.le, h.fits, fun n hn hnlen => ?_⟩
        rw [h.entries n hn hnlen, h.entry_store hn hm (by omega) (by omega)]
        by_cases heq : n = m
        · simp [heq, hmeant]
        · simp [heq]
      · refine h.congr fun n hn hnlen => ?_
        rw [h.entries n hn hnlen]
        by_cases heq : n = m
        · simp [heq, hmeant]
        · simp [heq]
    have hrest := ih hone (m := m + 1) (by omega) hlt (by omega)
    rw [← queueIndex_add] at hrest
    refine hrest.congr fun n hn hnlen => ?_
    have hsplit : m ≤ n ↔ n = m ∨ m + 1 ≤ n := by omega
    have hpast : ¬ m + 1 ≤ m := by omega
    by_cases heq : n = m <;> simp [heq, hsplit, hpast, Function.comp_def]

end Holds

theorem inRange_iff (startPI endPI p : UInt32) :
    inRange startPI endPI p = true ↔ p - startPI ≤ endPI - startPI := by
  have := startPI.toNat_lt
  have := endPI.toNat_lt
  have := p.toNat_lt
  simp only [inRange, ge_iff_le, UInt32.le_iff_toNat_le, UInt32.toNat_sub]
  split <;> simp only [Bool.and_eq_true, Bool.or_eq_true, decide_eq_true_eq] <;> omega

/-- The queue holds what the log says. -/
def Logged (q : ExQueue α) (l : QueueLog α) : Prop :=
  q.Holds l.removed l.inserted.length (l.inserted[·]?)

theorem Logged.step {l : QueueLog α} {t : ExQueue α} {x : QueueCall α} (h : q.Logged l)
    (hstep : q.step x = some t) : t.Logged (l.step x) := by
  cases x with
  | insert e =>
    simp only [Logged, QueueLog.step, length_append, length_singleton]
    exact Holds.insert h hstep (fun n hn => List.getElem?_append_left hn) (by simp)
  | removeHead | deleteHeadEntry => exact Holds.removeHead h hstep
  | resize memory newSize =>
    cases hstep
    exact Holds.resize h memory newSize
  | cancel startPI endPI =>
    cases hstep
    have hsize := q.size.toNat_lt
    have hfits := h.fits
    simp only [Logged, QueueLog.step, length_mapIdx, List.getElem?_mapIdx]
    have hloop := Holds.cancelWhere h (inRange startPI endPI) (Nat.le_refl _) h.le
      (show _ ≤ 2 ^ 32 by omega)
    simpa only [cancelRequestWithParentIndexRange, h.head, inRange_iff] using hloop

theorem Logged.run {l : QueueLog α} {t : ExQueue α} {calls : List (QueueCall α)}
    (h : q.Logged l) (hrun : transitions.run ExQueue.step q calls = some t) :
    t.Logged (calls.foldl QueueLog.step l) := by
  induction calls generalizing q l with
  | nil =>
    cases hrun
    exact h
  | cons x rest ih =>
    obtain ⟨next, hnext, hrest⟩ := Option.bind_eq_some_iff.mp hrun
    exact ih (h.step hnext) hrest

theorem logged_new {initialSize : UInt32} {given : ExQueue α} (h : new initialSize given = some q) :
    q.Logged {} := by
  unfold new at h
  split at h
  · rename_i hsize
    cases h
    have hk : bitCount 32 (initialSize - 1) < 32 := by
      by_contra hge
      obtain ⟨d, hd⟩ := Nat.exists_eq_add_of_le (Nat.not_lt.mp hge)
      rw [gt_iff_lt, UInt32.lt_iff_toNat_lt, roundUp2Power, UInt32.toNat_ofNat', hd, pow_add,
        Nat.mul_mod_right] at hsize
      exact absurd hsize (by decide)
    have hpower : (roundUp2Power initialSize).toNat = 2 ^ bitCount 32 (initialSize - 1) := by
      rw [roundUp2Power, UInt32.toNat_ofNat']
      exact Nat.mod_eq_of_lt (Nat.pow_lt_pow_right (by decide) hk)
    refine ⟨⟨_, hk, hpower⟩, rfl, rfl, Nat.le_refl _, ?_, by simp⟩
    show 0 < (roundUp2Power initialSize).toNat
    rw [hpower]
    exact Nat.two_pow_pos _
  · cases h

end ExQueue

def emptyQueue : ExQueue Unit := ⟨0, 0, 0, fun _ => ⟨0, false, ()⟩, false, false⟩

/-- Three entries whose indexes run through zero, a removal, a resize to eight slots, one more entry
and a cancel of the parent indexes 8 to 9. -/
def wrappedCalls : List (QueueCall Unit) :=
  [.insert ⟨7, false, ()⟩, .insert ⟨8, false, ()⟩, .insert ⟨9, false, ()⟩, .removeHead,
    .resize ⟨some emptyQueue.queue, true, true, true, true⟩ 8, .insert ⟨10, false, ()⟩, .cancel 8 9]

end

end litestore
