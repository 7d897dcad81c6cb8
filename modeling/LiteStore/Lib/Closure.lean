-- Everything that can be reached from a start, collected by a work list: each
-- element is looked at once, and its successors that are not yet in the list go
-- to its end.
import Mathlib

namespace closure

open List

variable {α : Type*} [DecidableEq α] {succ : α → List α} {l : List α}

/-- Put an element at the end of a list that does not hold it. -/
def push (l : List α) (x : α) : List α := if x ∈ l then l else l ++ [x]

/-- The elements in front of `pos` are done. -/
def loop (succ : α → List α) : Nat → Nat → List α → List α
  | 0, _, l => l
  | fuel + 1, pos, l =>
    match l[pos]? with
    | none => l
    | some x => loop succ fuel (pos + 1) ((succ x).foldl push l)

/-! ## One turn -/

theorem mem_push {x y : α} : y ∈ push l x ↔ y ∈ l ∨ y = x := by
  unfold push
  split
  · rename_i hx
    constructor
    · exact .inl
    · rintro (hy | rfl)
      · exact hy
      · exact hx
  · simp

theorem push_nodup {x : α} (h : l.Nodup) : (push l x).Nodup := by
  unfold push
  split
  · exact h
  · rename_i hx
    rw [nodup_append]
    refine ⟨h, by simp, ?_⟩
    intro a ha b hb hab
    rw [mem_singleton] at hb
    exact hx (hb ▸ hab ▸ ha)

theorem mem_foldl_push {xs : List α} {y : α} : y ∈ xs.foldl push l ↔ y ∈ l ∨ y ∈ xs := by
  induction xs generalizing l with
  | nil => simp
  | cons x xs ih => rw [foldl_cons, ih, mem_push, mem_cons, or_assoc]

theorem foldl_push_nodup {xs : List α} (h : l.Nodup) : (xs.foldl push l).Nodup := by
  induction xs generalizing l with
  | nil => exact h
  | cons x xs ih => exact ih (push_nodup h)

theorem isPrefix_foldl_push (xs : List α) : l <+: xs.foldl push l := by
  induction xs generalizing l with
  | nil => exact prefix_rfl
  | cons x xs ih =>
    have hpush : l <+: push l x := by
      unfold push
      split
      · exact prefix_rfl
      · exact prefix_append l [x]
    exact hpush.trans ih

/-! ## The whole loop -/

variable {start : α} {fuel pos : Nat}

theorem subset_loop : l ⊆ loop succ fuel pos l := by
  induction fuel generalizing pos l with
  | zero => exact List.Subset.refl l
  | succ fuel ih =>
    unfold loop
    cases l[pos]? with
    | none => exact List.Subset.refl l
    | some x => exact List.Subset.trans (isPrefix_foldl_push (succ x)).subset ih

/-- The loop puts nothing into the list that cannot be reached. -/
theorem reached_of_mem_loop (h : ∀ y ∈ l, Relation.ReflTransGen (fun a b => b ∈ succ a) start y)
    {y : α} (hy : y ∈ loop succ fuel pos l) :
    Relation.ReflTransGen (fun a b => b ∈ succ a) start y := by
  induction fuel generalizing pos l with
  | zero => exact h y hy
  | succ fuel ih =>
    unfold loop at hy
    cases hx : l[pos]? with
    | none =>
      rw [hx] at hy
      exact h y hy
    | some x =>
      rw [hx] at hy
      apply ih _ hy
      intro z hz
      rcases mem_foldl_push.mp hz with hz | hz
      · exact h z hz
      · exact (h x (mem_of_getElem? hx)).tail hz

section

variable {all : List α} (hall : ∀ x ∈ all, succ x ⊆ all)

include hall

theorem foldl_push_subset {x : α} (hl : l ⊆ all) (hx : x ∈ l) : (succ x).foldl push l ⊆ all := by
  intro y hy
  rcases mem_foldl_push.mp hy with hy | hy
  · exact hl hy
  · exact hall x (hl hx) hy

/-- With more turns than there are elements the loop ends by itself: every successor of an element
of the list is in the list. -/
theorem loop_closed (hl : l ⊆ all) (hnodup : l.Nodup) (hdone : ∀ x ∈ l.take pos, succ x ⊆ l)
    (hfuel : all.length < fuel + pos) :
    ∀ x ∈ loop succ fuel pos l, succ x ⊆ loop succ fuel pos l := by
  have hlen : l.length ≤ all.length := (hnodup.subperm hl).length_le
  induction fuel generalizing pos l with
  | zero =>
    unfold loop
    rw [take_of_length_le (by omega)] at hdone
    exact hdone
  | succ fuel ih =>
    unfold loop
    cases hx : l[pos]? with
    | none =>
      rw [take_of_length_le (List.getElem?_eq_none_iff.mp hx)] at hdone
      exact hdone
    | some x =>
      have hsub := foldl_push_subset hall hl (mem_of_getElem? hx)
      have hnodup' : ((succ x).foldl push l).Nodup := foldl_push_nodup hnodup
      apply ih hsub hnodup' _ (by omega) (hnodup'.subperm hsub).length_le
      obtain ⟨hpos, hget⟩ := List.getElem?_eq_some_iff.mp hx
      obtain ⟨rest, hrest⟩ := isPrefix_foldl_push (l := l) (succ x)
      -- the element at `pos` is the one that is done now
      rw [← hrest, take_append_of_le_length hpos, take_succ_eq_append_getElem hpos, hrest, hget]
      intro y hy z hz
      rw [mem_foldl_push]
      rcases mem_append.mp hy with hy | hy
      · exact .inl (hdone y hy hz)
      · rw [mem_singleton] at hy
        exact .inr (hy ▸ hz)

/-- Turns beyond the number of elements change nothing. -/
theorem loop_add_fuel (hl : l ⊆ all) (hnodup : l.Nodup) (hfuel : all.length < fuel + pos)
    (more : Nat) : loop succ (fuel + more) pos l = loop succ fuel pos l := by
  have hlen : l.length ≤ all.length := (hnodup.subperm hl).length_le
  induction fuel generalizing pos l with
  | zero =>
    have hnone : l[pos]? = none := getElem?_eq_none (by omega)
    cases more with
    | zero => rfl
    | succ more => simp only [loop, hnone]
  | succ fuel ih =>
    rw [Nat.add_right_comm, loop, loop]
    cases hx : l[pos]? with
    | none => rfl
    | some x =>
      have hsub := foldl_push_subset hall hl (mem_of_getElem? hx)
      have hnodup' : ((succ x).foldl push l).Nodup := foldl_push_nodup hnodup
      exact ih hsub hnodup' (by omega) (hnodup'.subperm hsub).length_le

/-- The loop collects what can be reached from the start. -/
theorem mem_loop_iff (hstart : start ∈ all) (hfuel : all.length < fuel) {y : α} :
    y ∈ loop succ fuel 0 [start] ↔ Relation.ReflTransGen (fun a b => b ∈ succ a) start y := by
  constructor
  · apply reached_of_mem_loop
    intro z hz
    rw [mem_singleton] at hz
    exact hz ▸ .refl
  · intro h
    have hclosed : ∀ x ∈ loop succ fuel 0 [start], succ x ⊆ loop succ fuel 0 [start] :=
      loop_closed hall (by simpa using hstart) (by simp) (by simp) (by omega)
    induction h with
    | refl => exact subset_loop (by simp)
    | tail _ hstep ih => exact hclosed _ ih hstep

end

end closure
