-- The intents of commits. A commit waits until its reads and writes meet those of no active
-- commit, stays active while it is written, and is taken off the list when it is done.
import LiteStore.OccHistory
import LiteStore.Lib.Transitions

namespace litestore

open orderedscan transitions List

/-! ## The coordinator -/

/-- The order of `OccWriteKey`: by object, then by key. -/
def writeBefore (a b : UInt64 × Bytes) : Bool :=
  a.1 < b.1 || (a.1 = b.1 && compare a.2 b.2 = .lt)

/-- A `std::set` is read in its order. -/
abbrev OrderedWriteSet := { writes : List (UInt64 × Bytes) // writes.Pairwise (writeBefore · ·) }

/-- The body of the loop of `readWriteConflict`. -/
def readConflict (writes : List (UInt64 × Bytes)) (read : OccObjectRead) : Bool :=
  if (read.objectUid, []) ∈ writes then true
  else
    match writes.dropWhile
        (writeBefore · (read.objectUid, if read.full then [] else read.start)) with
    | [] => false
    | write :: _ =>
      if write.1 ≠ read.objectUid then false
      else read.full || if read.start = read.endKey then write.2 = read.start
        else read.endKey.isEmpty || compare write.2 read.endKey = .lt

def readWriteConflict (reads : List OccObjectRead) (writes : List (UInt64 × Bytes)) : Bool :=
  reads.any (readConflict writes)

def writeWriteConflict : List (UInt64 × Bytes) → List (UInt64 × Bytes) → Bool
  | a :: left, b :: right =>
    if a.1 < b.1 then writeWriteConflict left (b :: right)
    else if b.1 < a.1 then writeWriteConflict (a :: left) right
    else if a.2 = [] ∨ b.2 = [] ∨ a.2 = b.2 then true
    else if compare a.2 b.2 = .lt then writeWriteConflict left (b :: right)
    else writeWriteConflict (a :: left) right
  | _, _ => false
termination_by left right => left.length + right.length

structure LiteActiveCommit where
  owner : UInt64
  reads : List OccObjectRead
  writes : OrderedWriteSet

abbrev LiteCommitCoordinator := List LiteActiveCommit

def LiteCommitCoordinator.conflicts (active : LiteCommitCoordinator) (c : LiteActiveCommit) :
    Bool :=
  active.any fun a => readWriteConflict c.reads a.writes.val ||
    readWriteConflict a.reads c.writes.val || writeWriteConflict c.writes.val a.writes.val

inductive IntentCall
  | acquire (commit : LiteActiveCommit)
  | release (owner : UInt64)

/-- A call of `acquire` that finds a conflict waits, and looks again after a release. -/
def LiteCommitCoordinator.step (active : LiteCommitCoordinator) :
    IntentCall → Option LiteCommitCoordinator
  | .acquire c => if active.conflicts c then none else some (active ++ [c])
  | .release owner => some (active.eraseP (·.owner = owner))

/-! ## What meets -/

/-- A read meets a write of its object: it is a full scan, the write is of the whole object, or
the key is the point or in the range of the read. -/
def ReadMeets (read : OccObjectRead) (write : UInt64 × Bytes) : Prop :=
  write.1 = read.objectUid ∧ (read.full = true ∨ write.2 = [] ∨
    if read.start = read.endKey then write.2 = read.start
    else compare write.2 read.start ≠ .lt ∧
      (read.endKey = [] ∨ compare write.2 read.endKey = .lt))

def WriteMeets (a b : UInt64 × Bytes) : Prop := a.1 = b.1 ∧ (a.2 = b.2 ∨ a.2 = [] ∨ b.2 = [])

/-- Two commits that may be active together. -/
structure Exclusive (a b : LiteActiveCommit) : Prop where
  reads : ∀ read ∈ a.reads, ∀ write ∈ b.writes.val, ¬ ReadMeets read write
  reads' : ∀ read ∈ b.reads, ∀ write ∈ a.writes.val, ¬ ReadMeets read write
  writes : ∀ x ∈ a.writes.val, ∀ y ∈ b.writes.val, ¬ WriteMeets x y

variable {a b c : UInt64 × Bytes} {left right writes : List (UInt64 × Bytes)}

theorem writeBefore_iff :
    writeBefore a b = true ↔ a.1 < b.1 ∨ a.1 = b.1 ∧ compare a.2 b.2 = .lt := by
  simp [writeBefore]

theorem WriteMeets.symm (h : WriteMeets a b) : WriteMeets b a :=
  ⟨h.1.symm, h.2.imp Eq.symm Or.symm⟩

/-- A write that comes before a set without meeting its first write meets none of it. -/
theorem not_meets_of_before (hr : (b :: right).Pairwise (writeBefore · ·))
    (hab : writeBefore a b = true) (hfirst : ¬ WriteMeets a b) :
    ∀ x ∈ b :: right, ¬ WriteMeets a x := by
  intro x hx hmeets
  obtain rfl | hx := mem_cons.mp hx
  · exact hfirst hmeets
  · have hbx := (pairwise_cons.mp hr).1 x hx
    obtain ⟨hsame, hkeys⟩ := hmeets
    rw [writeBefore_iff, hsame] at hab
    rw [writeBefore_iff] at hbx
    -- all three are writes of one object, with larger and larger keys
    obtain ⟨hxb, hlt⟩ := hab.resolve_left fun h => by grind
    have hlt' := (hbx.resolve_left (by grind)).2
    obtain heq | hnil | hnil := hkeys
    · rw [heq] at hlt
      exact absurd (Std.TransCmp.lt_trans hlt hlt') (by simp)
    · exact hfirst ⟨hsame.trans hxb, .inr (.inl hnil)⟩
    · rw [hnil] at hlt'
      exact not_lt_of_extends nil_prefix hlt'

theorem meets_cons_left (hnone : ∀ b ∈ right, ¬ WriteMeets a b) :
    (∃ x ∈ a :: left, ∃ y ∈ right, WriteMeets x y) ↔ ∃ x ∈ left, ∃ y ∈ right, WriteMeets x y := by
  simp only [mem_cons, exists_eq_or_imp]
  exact or_iff_right fun ⟨b, hb, hmeets⟩ => hnone b hb hmeets

theorem meets_cons_right (hnone : ∀ a ∈ left, ¬ WriteMeets b a) :
    (∃ x ∈ left, ∃ y ∈ b :: right, WriteMeets x y) ↔ ∃ x ∈ left, ∃ y ∈ right, WriteMeets x y := by
  refine exists_congr fun x => and_congr_right fun hx => ?_
  simp only [mem_cons, exists_eq_or_imp]
  exact or_iff_right fun hmeets => hnone x hx hmeets.symm

theorem writeWriteConflict_iff (hl : left.Pairwise (writeBefore · ·))
    (hr : right.Pairwise (writeBefore · ·)) :
    writeWriteConflict left right = true ↔ ∃ a ∈ left, ∃ b ∈ right, WriteMeets a b := by
  fun_induction writeWriteConflict left right with
  | case1 a left b right hlt ih =>
    have hbefore := not_meets_of_before hr (writeBefore_iff.mpr (.inl hlt)) (by grind [WriteMeets])
    rw [ih hl.of_cons hr, meets_cons_left hbefore]
  | case2 a left b right hge hlt ih =>
    have hbefore := not_meets_of_before hl (writeBefore_iff.mpr (.inl hlt)) (by grind [WriteMeets])
    rw [ih hl hr.of_cons, meets_cons_right hbefore]
  | case3 a left b right hge hle heq =>
    have hsame : a.1 = b.1 := by grind
    exact iff_of_true rfl ⟨a, by simp, b, by simp, hsame, by tauto⟩
  | case4 a left b right hge hle hne hlt ih =>
    have hsame : a.1 = b.1 := by grind
    have hbefore := not_meets_of_before hr (writeBefore_iff.mpr (.inr ⟨hsame, hlt⟩))
      (by grind [WriteMeets])
    rw [ih hl.of_cons hr, meets_cons_left hbefore]
  | case5 a left b right hge hle hne hlt ih =>
    have hsame : b.1 = a.1 := by grind
    have hgt : compare b.2 a.2 = .lt := by
      cases hkeys : compare a.2 b.2 with
      | lt => exact absurd hkeys hlt
      | eq => exact absurd (Std.LawfulEqOrd.eq_of_compare hkeys) (by tauto)
      | gt => exact Std.OrientedCmp.gt_iff_lt.mp hkeys
    have hbefore := not_meets_of_before hl (writeBefore_iff.mpr (.inr ⟨hsame, hgt⟩))
      (by grind [WriteMeets])
    rw [ih hl hr.of_cons, meets_cons_right hbefore]
  | case6 left right hnot =>
    refine iff_of_false (by simp) ?_
    rintro ⟨a, ha, b, hb, -⟩
    obtain ⟨x, l, rfl⟩ := exists_cons_of_ne_nil (ne_nil_of_mem ha)
    obtain ⟨y, r, rfl⟩ := exists_cons_of_ne_nil (ne_nil_of_mem hb)
    exact hnot x l y r rfl rfl

section

variable (h : writes.Pairwise (writeBefore · ·))

include h

/-- The first write that is not before a key. -/
theorem seek_first
    (hseek : writes.dropWhile (writeBefore · a) = b :: right) :
    b ∈ writes ∧ ¬ writeBefore b a = true ∧
      ∀ c ∈ writes, ¬ writeBefore c a = true → c = b ∨ writeBefore b c = true := by
  have hsplit := takeWhile_append_dropWhile (p := (writeBefore · a)) (l := writes)
  rw [hseek] at hsplit
  rw [← hsplit, pairwise_append, pairwise_cons] at h
  refine ⟨by rw [← hsplit]; simp, ?_, fun c hc hnot => ?_⟩
  · have hhead := head_dropWhile_not (writeBefore · a) (l := writes) (by simp [hseek])
    simpa [hseek] using hhead
  · rw [← hsplit, mem_append, mem_cons] at hc
    obtain hc | rfl | hc := hc
    · exact absurd (mem_takeWhile_imp hc) hnot
    · exact .inl rfl
    · exact .inr (h.2.1.1 c hc)

/-- A read looks at the first write behind its start only. The others lie behind that one. -/
theorem readConflict_iff {read : OccObjectRead} :
    readConflict writes read = true ↔ ∃ write ∈ writes, ReadMeets read write := by
  unfold readConflict
  split
  · rename_i hwhole
    exact iff_of_true rfl ⟨_, hwhole, rfl, .inr (.inl rfl)⟩
  rename_i hwhole
  have hbehind : ∀ write ∈ writes, ReadMeets read write →
      ¬ writeBefore write (read.objectUid, if read.full then [] else read.start) = true := by
    rintro write hwrite ⟨hobject, hmeets⟩ hbefore
    obtain hlt | ⟨-, hlt⟩ := writeBefore_iff.mp hbefore
    · exact absurd hobject (by grind)
    · have hnil : write.2 ≠ [] := fun hnil => hwhole (by rw [← hobject, ← hnil]; exact hwrite)
      split at hlt
      · exact not_lt_of_extends nil_prefix hlt
      · grind [Std.ReflOrd.compare_self]
  split
  · rename_i hnone
    refine iff_of_false (by simp) ?_
    rintro ⟨write, hwrite, hmeets⟩
    exact hbehind write hwrite hmeets (dropWhile_eq_nil_iff.mp hnone write hwrite)
  · rename_i first rest hseek
    obtain ⟨hfirst, hnot, hleast⟩ := seek_first h hseek
    rw [writeBefore_iff] at hnot
    constructor
    · intro hread
      refine ⟨first, hfirst, ?_⟩
      unfold ReadMeets
      grind
    · rintro ⟨write, hwrite, hmeets⟩
      have hle := hleast write hwrite (hbehind write hwrite hmeets)
      rw [writeBefore_iff] at hle
      have hnil : write.2 ≠ [] := fun hnil => hwhole (by rw [← hmeets.1, ← hnil]; exact hwrite)
      unfold ReadMeets at hmeets
      obtain rfl | hlt | ⟨hobject, hlt⟩ := hle
      · grind
      · grind
      · have htrans := fun h : compare write.2 read.endKey = .lt => Std.TransCmp.lt_trans hlt h
        grind

theorem readWriteConflict_iff {reads : List OccObjectRead} :
    readWriteConflict reads writes = true ↔
      ∃ read ∈ reads, ∃ write ∈ writes, ReadMeets read write := by
  simp only [readWriteConflict, any_eq_true, readConflict_iff h]

end

/-! ## Runs -/

/-- A commit that finds no conflict may be active together with all active commits. -/
theorem exclusive_of_not_conflicts {active : LiteCommitCoordinator} {commit : LiteActiveCommit}
    (h : active.conflicts commit = false) : ∀ other ∈ active, Exclusive other commit := by
  intro other hother
  have hnone := any_eq_false.mp h other hother
  rw [Bool.or_eq_true, Bool.or_eq_true, not_or, not_or, readWriteConflict_iff other.writes.2,
    readWriteConflict_iff commit.writes.2,
    writeWriteConflict_iff commit.writes.2 other.writes.2] at hnone
  obtain ⟨⟨hreads, hreads'⟩, hwrites⟩ := hnone
  refine ⟨?_, ?_, ?_⟩
  · exact fun read hread write hwrite hmeets => hreads' ⟨read, hread, write, hwrite, hmeets⟩
  · exact fun read hread write hwrite hmeets => hreads ⟨read, hread, write, hwrite, hmeets⟩
  · exact fun x hx y hy hmeets => hwrites ⟨y, hy, x, hx, hmeets.symm⟩

theorem step_exclusive {active next : LiteCommitCoordinator} {call : IntentCall}
    (h : active.Pairwise Exclusive) (hstep : active.step call = some next) :
    next.Pairwise Exclusive := by
  cases call with
  | acquire commit =>
    obtain ⟨hnone, hnext⟩ := Option.ite_none_left_eq_some.mp hstep
    obtain rfl := Option.some.inj hnext
    rw [pairwise_append]
    refine ⟨h, pairwise_singleton _ _, fun a ha b hb => ?_⟩
    rw [mem_singleton.mp hb]
    exact exclusive_of_not_conflicts (by simpa using hnone) a ha
  | release owner =>
    obtain rfl := Option.some.inj hstep
    exact h.sublist eraseP_sublist

/-- The coordinator, and the commits whose `acquire` has returned and whose `release` is to come. -/
structure CommitGuards where
  active : LiteCommitCoordinator := []
  held : List LiteActiveCommit := []

namespace CommitGuards

/-- The only caller makes a guard for the time of one commit, with its context as the owner: a
context has one guard at a time, and `release` ends the commit of its owner. -/
def step (s : CommitGuards) : IntentCall → Option CommitGuards
  | .acquire c =>
    if ∃ other ∈ s.held, other.owner = c.owner then none
    else (s.active.step (.acquire c)).map (⟨·, c :: s.held⟩)
  | .release owner =>
    (s.active.step (.release owner)).map (⟨·, s.held.filter (·.owner ≠ owner)⟩)

structure Inv (s : CommitGuards) : Prop where
  exclusive : s.active.Pairwise Exclusive
  listed : s.held ⊆ s.active
  owners : s.held.Pairwise (·.owner ≠ ·.owner)

variable {s next : CommitGuards}

theorem Inv.step {call : IntentCall} (h : s.Inv) (hstep : s.step call = some next) :
    next.Inv := by
  cases call with
  | acquire commit =>
    obtain ⟨hnew, hstep⟩ := Option.ite_none_left_eq_some.mp hstep
    obtain ⟨active, hactive, rfl⟩ := Option.map_eq_some_iff.mp hstep
    refine ⟨step_exclusive h.exclusive hactive, ?_, ?_⟩
    · obtain ⟨-, hlist⟩ := Option.ite_none_left_eq_some.mp hactive
      obtain rfl := Option.some.inj hlist
      exact cons_subset.mpr ⟨by simp, fun c hc => mem_append_left _ (h.listed hc)⟩
    · exact pairwise_cons.mpr ⟨fun other hother heq => hnew ⟨other, hother, heq.symm⟩, h.owners⟩
  | release owner =>
    obtain rfl := Option.some.inj hstep
    have hactive : s.active.step (.release owner) = some _ := rfl
    refine ⟨step_exclusive h.exclusive hactive, fun c hc => ?_, h.owners.filter _⟩
    obtain ⟨hheld, hother⟩ := mem_filter.mp hc
    exact (mem_eraseP_of_neg (by simpa using hother)).mpr (h.listed hheld)

/-- Two commits that are held stand at two places of the list. -/
theorem Inv.held_exclusive (h : s.Inv) : s.held.Pairwise Exclusive := by
  refine h.owners.imp_of_mem fun {a b} ha hb howner => ?_
  have hsymm : Std.Symm Exclusive := ⟨fun _ _ h => ⟨h.reads', h.reads, fun x hx y hy hmeets =>
    h.writes y hy x hx hmeets.symm⟩⟩
  exact h.exclusive.forall (h.listed ha) (h.listed hb) fun heq => howner (heq ▸ rfl)

end CommitGuards

/-- The tests find exactly the reads and writes that meet, and whatever commits ask for and give
back their intents, a commit is on the list from the return of its `acquire` to its `release`, and
two that are active together do not meet. -/
theorem commit_intents_exclude :
    (∀ (reads : List OccObjectRead) (writes : OrderedWriteSet),
      readWriteConflict reads writes.val = true ↔
        ∃ read ∈ reads, ∃ write ∈ writes.val, ReadMeets read write) ∧
    (∀ left right : OrderedWriteSet, writeWriteConflict left.val right.val = true ↔
      ∃ a ∈ left.val, ∃ b ∈ right.val, WriteMeets a b) ∧
    ∀ calls : List IntentCall,
      Along LiteCommitCoordinator.step (List.Pairwise Exclusive) [] calls ∧
      Along CommitGuards.step (fun s => s.held ⊆ s.active ∧ s.held.Pairwise Exclusive) {}
        calls := by
  refine ⟨fun _ writes => readWriteConflict_iff writes.2,
    fun left right => writeWriteConflict_iff left.2 right.2, fun calls => ⟨?_, ?_⟩⟩
  · exact along_of_inv (fun _ _ _ => step_exclusive) List.Pairwise.nil
  · refine (along_of_inv (fun _ _ _ => CommitGuards.Inv.step) ?_).imp fun s h =>
      ⟨h.listed, h.held_exclusive⟩
    exact ⟨.nil, nil_subset _, .nil⟩

end litestore
