-- Scans of an ordered list. An iterator seeks a first key and runs while a
-- test holds. When the test fails from some key on, the scan finds what a
-- filter of the whole list finds.
import Mathlib

namespace orderedscan

open List

universe u

variable {α : Type u} {l : List α}

/-! ## Sorted lists -/

theorem dropWhile_eq_filter {R : α → α → Prop} {q : α → Bool} (hl : l.Pairwise R)
    (hq : ∀ a b, R a b → q a = false → q b = false) : l.dropWhile q = l.filter fun a => !q a := by
  induction l with
  | nil => rfl
  | cons a l ih =>
    obtain ⟨hfirst, hrest⟩ := pairwise_cons.mp hl
    cases ha : q a with
    | true => simp [ha, ih hrest]
    | false =>
      have hall : l.filter (fun b => !q b) = l :=
        filter_eq_self.mpr fun b hb => by simp [hq a b (hfirst b hb) ha]
      simp [ha, hall]

theorem takeWhile_eq_filter {R : α → α → Prop} {p : α → Bool} (hl : l.Pairwise R)
    (hp : ∀ a ∈ l, ∀ b ∈ l, R a b → p b = true → p a = true) : l.takeWhile p = l.filter p := by
  induction l with
  | nil => rfl
  | cons a l ih =>
    obtain ⟨hfirst, hrest⟩ := pairwise_cons.mp hl
    have hsub := ih hrest fun x hx y hy =>
      hp x (mem_cons_of_mem _ hx) y (mem_cons_of_mem _ hy)
    cases ha : p a with
    | true => simp [ha, hsub]
    | false =>
      have hnone : l.filter p = [] := filter_eq_nil_iff.mpr fun b hb hpb => by
        rw [hp a mem_cons_self b (mem_cons_of_mem _ hb) (hfirst b hb) hpb] at ha
        simp at ha
      simp [ha, hnone]

/-! ## Seek and run -/

variable {K : Type*} {cmp : K → K → Ordering}

/-- Seek `start`, then run while the test holds. -/
def scanWhile (cmp : K → K → Ordering) (name : α → K) (start : K) (test : K → Bool)
    (l : List α) : List α :=
  (l.dropWhile fun a => cmp (name a) start = .lt).takeWhile fun a => test (name a)

/-- A seek drops what stands before its key. -/
theorem seek_eq_filter [Std.TransCmp cmp] {name : α → K}
    (hl : l.Pairwise fun a b => cmp (name a) (name b) = .lt) (start : K) :
    (l.dropWhile fun a => cmp (name a) start = .lt) =
      l.filter fun a => cmp (name a) start ≠ .lt := by
  rw [dropWhile_eq_filter hl]
  · congr 1
    funext a
    simp
  · intro a b hab ha
    simp only [decide_eq_false_iff_not] at ha ⊢
    exact fun hb => ha (Std.TransCmp.lt_trans hab hb)

theorem scanWhile_eq_filter [Std.TransCmp cmp] {name : α → K} {start : K} {test : K → Bool}
    (hl : l.Pairwise fun a b => cmp (name a) (name b) = .lt)
    (htest : ∀ a b, cmp a start ≠ .lt → cmp a b = .lt → test b = true → test a = true) :
    scanWhile cmp name start test l =
      l.filter fun a => cmp (name a) start ≠ .lt && test (name a) := by
  unfold scanWhile
  rw [seek_eq_filter hl, takeWhile_eq_filter (hl.filter _), filter_filter]
  · congr 1
    funext a
    rw [Bool.and_comm]
  · intro a ha b _ hab hb
    have hstart := (mem_filter.mp ha).2
    simp only [ne_eq, decide_not, Bool.not_eq_true', decide_eq_false_iff_not] at hstart
    exact htest _ _ hstart hab hb

/-! ## Lists in their own order -/

/-- An extension of a list does not come before it. -/
theorem not_lt_of_extends [Ord α] [Std.ReflOrd α] {p a : List α} (h : p <+: a) :
    compare a p ≠ .lt := by
  induction p generalizing a with
  | nil => cases a <;> simp
  | cons x p ih =>
    obtain ⟨rest, rfl⟩ := h
    have hself : compare x x = .eq := Std.ReflOrd.compare_self
    rw [cons_append, List.compare_cons_cons, hself]
    exact ih (prefix_append p rest)

/-- Between a list and an extension of it there are only extensions of it. -/
theorem extends_between [Ord α] [Std.TransOrd α] [Std.LawfulEqOrd α] {p a b : List α}
    (hpa : compare a p ≠ .lt) (hab : compare a b = .lt) (hb : p <+: b) : p <+: a := by
  induction p generalizing a b with
  | nil => exact nil_prefix
  | cons x p ih =>
    obtain ⟨rest, rfl⟩ := hb
    cases a with
    | nil => exact absurd rfl hpa
    | cons y a =>
      rw [cons_append, List.compare_cons_cons] at hab
      rw [List.compare_cons_cons] at hpa
      cases hyx : compare y x with
      | lt => simp [hyx] at hpa
      | gt => simp [hyx] at hab
      | eq =>
        have hsame : y = x := Std.LawfulEqOrd.eq_of_compare hyx
        subst hsame
        rw [hyx] at hpa hab
        exact (prefix_cons_inj y).mpr (ih hpa hab (prefix_append p rest))

end orderedscan
