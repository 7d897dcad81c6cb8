-- Codes that keep an order. Two words of such a code are equal or part at a
-- letter that tells the order of what they stand for. Hence no word is the
-- beginning of another, words can stand one behind the other, and turning the
-- letters over turns the order around.
import Mathlib

namespace orderedcode

open List

variable {L : Type*} [Ord L]

/-- The words are in the order `o`, whatever is written behind them. -/
def Ranked (o : Ordering) (u v : List L) : Prop :=
  (o = .eq ∧ u = v) ∨
    (o ≠ .eq ∧ ∃ p x y s t, u = p ++ x :: s ∧ v = p ++ y :: t ∧ compare x y = o)

theorem Ranked.refl (u : List L) : Ranked .eq u u := Or.inl ⟨rfl, rfl⟩

variable {o o' : Ordering} {u v u' v' : List L}

/-- The order is decided at the first letters. -/
theorem ranked_first {x y : L} (h : compare x y = o) (hne : o ≠ .eq) (s t : List L) :
    Ranked o (x :: s) (y :: t) :=
  Or.inr ⟨hne, [], x, y, s, t, rfl, rfl, h⟩

/-- What both words begin with does not count. -/
theorem Ranked.append_left (p : List L) (h : Ranked o u v) : Ranked o (p ++ u) (p ++ v) := by
  rcases h with ⟨ho, rfl⟩ | ⟨ho, q, x, y, s, t, rfl, rfl, hxy⟩
  · exact .inl ⟨ho, rfl⟩
  · exact .inr ⟨ho, p ++ q, x, y, s, t, by simp, by simp, hxy⟩

/-- Words one behind the other: the first pair that differs decides. -/
theorem Ranked.append (h : Ranked o u v) (h' : Ranked o' u' v') :
    Ranked (o.then o') (u ++ u') (v ++ v') := by
  rcases h with ⟨rfl, rfl⟩ | ⟨ho, p, x, y, s, t, rfl, rfl, hxy⟩
  · exact h'.append_left u
  · have hthen : o.then o' = o := by
      cases o with
      | eq => exact absurd rfl ho
      | lt => rfl
      | gt => rfl
    rw [hthen]
    exact .inr ⟨ho, p, x, y, s ++ u', t ++ v', by simp, by simp, hxy⟩

/-- Letters turned over turn the order around. -/
theorem Ranked.map_swap {f : L → L} (hf : ∀ x y, compare (f x) (f y) = (compare x y).swap)
    (h : Ranked o u v) : Ranked o.swap (u.map f) (v.map f) := by
  rcases h with ⟨rfl, rfl⟩ | ⟨ho, p, x, y, s, t, rfl, rfl, rfl⟩
  · exact Ranked.refl _
  · refine .inr ⟨?_, p.map f, f x, f y, s.map f, t.map f, by simp, by simp, hf x y⟩
    simpa using ho

section Map

variable {M : Type*} [Ord M] {f : L → M}

/-- Letters that are renamed in their order. -/
theorem compare_map {u v : List L} (hf : ∀ x ∈ u, ∀ y ∈ v, compare (f x) (f y) = compare x y) :
    compare (u.map f) (v.map f) = compare u v := by
  induction u generalizing v with
  | nil =>
    cases v with
    | nil => rfl
    | cons y v => rfl
  | cons x u ih =>
    cases v with
    | nil => rfl
    | cons y v =>
      rw [map_cons, map_cons, List.compare_cons_cons, List.compare_cons_cons,
        hf x mem_cons_self y mem_cons_self, ih]
      exact fun a ha b hb => hf a (mem_cons_of_mem _ ha) b (mem_cons_of_mem _ hb)

/-- Letters that are renamed in the opposite order, in words of one length. -/
theorem compare_map_swap {u v : List L} (hlen : u.length = v.length)
    (hf : ∀ x ∈ u, ∀ y ∈ v, compare (f x) (f y) = compare y x) :
    compare (u.map f) (v.map f) = compare v u := by
  induction u generalizing v with
  | nil =>
    obtain rfl := length_eq_zero_iff.mp hlen.symm
    rfl
  | cons x u ih =>
    cases v with
    | nil => simp at hlen
    | cons y v =>
      rw [map_cons, map_cons, List.compare_cons_cons, List.compare_cons_cons,
        hf x mem_cons_self y mem_cons_self, ih (by simpa using hlen)]
      exact fun a ha b hb => hf a (mem_cons_of_mem _ ha) b (mem_cons_of_mem _ hb)

end Map

section Refl

variable [Std.ReflOrd L]

theorem compare_append_left (p s t : List L) : compare (p ++ s) (p ++ t) = compare s t := by
  induction p with
  | nil => rfl
  | cons x p ih =>
    have hself : compare x x = .eq := Std.ReflOrd.compare_self
    rw [cons_append, cons_append, List.compare_cons_cons, hself]
    exact ih

theorem Ranked.compare (h : Ranked o u v) : Ord.compare u v = o := by
  rcases h with ⟨rfl, rfl⟩ | ⟨ho, p, x, y, s, t, rfl, rfl, rfl⟩
  · have hself := compare_append_left u ([] : List L) []
    rw [append_nil] at hself
    exact hself
  · rw [compare_append_left, List.compare_cons_cons]
    cases hxy : Ord.compare x y with
    | eq => exact absurd hxy ho
    | lt => rfl
    | gt => rfl

/-- No word is the beginning of another. -/
theorem Ranked.eq_of_isPrefixed (h : Ranked o u v) (hpre : u <+: v) : o = .eq ∧ u = v := by
  rcases h with heq | ⟨ho, p, x, y, s, t, rfl, rfl, hxy⟩
  · exact heq
  · obtain ⟨rest, hrest⟩ := hpre
    rw [append_assoc, append_cancel_left_eq] at hrest
    obtain ⟨rfl, -⟩ := List.cons.inj hrest
    rw [Std.ReflOrd.compare_self] at hxy
    exact absurd hxy.symm ho

end Refl

section Lawful

variable [Std.LawfulEqOrd L]

theorem ranked_letter (x y : L) : Ranked (compare x y) [x] [y] := by
  by_cases h : compare x y = .eq
  · obtain rfl := Std.LawfulEqOrd.eq_of_compare h
    rw [h]
    exact Ranked.refl _
  · exact ranked_first rfl h [] []

/-- Words of one length. -/
theorem ranked_of_length (h : u.length = v.length) : Ranked (compare u v) u v := by
  induction u generalizing v with
  | nil =>
    obtain rfl := length_eq_zero_iff.mp h.symm
    exact Ranked.refl []
  | cons x u ih =>
    cases v with
    | nil => simp at h
    | cons y v =>
      rw [List.compare_cons_cons]
      exact (ranked_letter x y).append (ih (by simpa using h))

/-! ## Words of any length -/

variable [DecidableEq L]

/-- The letter `z` is followed by `m`, so that two of them in a row mark the end. -/
def escaped (z m : L) (w : List L) : List L := w.flatMap fun x => if x = z then [z, m] else [x]

/-- Marked words keep the order of the words, the shorter one first. -/
theorem ranked_escaped {z m : L} (hz : ∀ x, x ≠ z → compare z x = .lt ∧ compare x z = .gt)
    (hm : m ≠ z) (u v : List L) :
    Ranked (compare u v) (escaped z m u ++ [z, z]) (escaped z m v ++ [z, z]) := by
  -- the end of a word comes before every letter
  have hend : ∀ (y : L) (w : List L), ∃ s t, [z, z] = s ++ z :: t ∧
      ∃ y' t', escaped z m (y :: w) ++ [z, z] = s ++ y' :: t' ∧ y' ≠ z := by
    intro y w
    by_cases hy : y = z
    · exact ⟨[z], [], rfl, m, escaped z m w ++ [z, z], by simp [escaped, hy], hm⟩
    · exact ⟨[], [z], rfl, y, escaped z m w ++ [z, z], by simp [escaped, hy], hy⟩
  induction u generalizing v with
  | nil =>
    cases v with
    | nil => exact Ranked.refl _
    | cons y v =>
      obtain ⟨s, t, hs, y', t', hy', hne⟩ := hend y v
      have hlt : compare ([] : List L) (y :: v) = .lt := rfl
      rw [hlt, hy']
      exact .inr ⟨by simp, s, z, y', t, t', by simpa [escaped] using hs, rfl, (hz y' hne).1⟩
  | cons x u ih =>
    cases v with
    | nil =>
      obtain ⟨s, t, hs, x', t', hx', hne⟩ := hend x u
      have hgt : compare (x :: u) ([] : List L) = .gt := rfl
      rw [hgt, hx']
      exact .inr ⟨by simp, s, x', z, t', t, rfl, by simpa [escaped] using hs, (hz x' hne).2⟩
    | cons y v =>
      have hletter : Ranked (compare x y) (if x = z then [z, m] else [x])
          (if y = z then [z, m] else [y]) := by
        by_cases hx : x = z
        · by_cases hy : y = z
          · rw [hx, hy, if_pos rfl, Std.ReflOrd.compare_self]
            exact Ranked.refl _
          · rw [if_pos hx, if_neg hy, hx]
            exact ranked_first rfl (by rw [(hz y hy).1]; simp) [m] []
        · by_cases hy : y = z
          · rw [if_neg hx, if_pos hy, hy]
            exact ranked_first rfl (by rw [(hz x hx).2]; simp) [] [m]
          · rw [if_neg hx, if_neg hy]
            exact ranked_letter x y
      rw [List.compare_cons_cons]
      have happend := hletter.append (ih v)
      simpa [escaped] using happend

end Lawful

end orderedcode
