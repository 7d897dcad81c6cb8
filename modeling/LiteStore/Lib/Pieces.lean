-- Texts that are joined with a separator. A text is the list of its pieces
-- between the separators, so two joins are the same text exactly when they have
-- the same pieces, in whatever groups the pieces were joined.
import Mathlib

namespace pieces

open List

variable {α : Type*} [BEq α] [LawfulBEq α] {sep : α} {a b : List α}

theorem splitOn_join (sep : α) (a b : List α) :
    (a ++ sep :: b).splitOn sep = a.splitOn sep ++ b.splitOn sep := by
  unfold List.splitOn
  apply splitOnP_append_cons
  exact beq_self_eq_true sep

theorem splitOn_inj (sep : α) : a.splitOn sep = b.splitOn sep ↔ a = b := by
  constructor
  · intro h
    have ha : [sep].intercalate (a.splitOn sep) = a := intercalate_splitOn sep
    rw [← ha, h, intercalate_splitOn]
  · rintro rfl
    rfl

omit [BEq α] [LawfulBEq α] in
theorem intercalate_append {l m : List (List α)} (hl : l ≠ []) (hm : m ≠ []) :
    [sep].intercalate (l ++ m) = [sep].intercalate l ++ sep :: [sep].intercalate m := by
  induction l with
  | nil => exact absurd rfl hl
  | cons x rest ih =>
    cases rest with
    | nil =>
      cases m with
      | nil => exact absurd rfl hm
      | cons y m => simp [intercalate]
    | cons y rest =>
      have hrest := ih (cons_ne_nil _ _)
      simp only [intercalate, cons_append, intersperse_cons_cons,
        flatten_cons, append_assoc] at hrest ⊢
      rw [hrest]

/-- A text goes on behind a separator exactly when its pieces go on. -/
theorem join_isPrefix : a ++ [sep] <+: b ↔
    ∃ rest, rest ≠ [] ∧ b.splitOn sep = a.splitOn sep ++ rest := by
  constructor
  · rintro ⟨t, rfl⟩
    refine ⟨t.splitOn sep, splitOn_ne_nil sep t, ?_⟩
    rw [append_assoc]
    exact splitOn_join sep a t
  · rintro ⟨rest, hrest, h⟩
    refine ⟨[sep].intercalate rest, ?_⟩
    have hb : [sep].intercalate (b.splitOn sep) = b := intercalate_splitOn sep
    rw [h, intercalate_append (splitOn_ne_nil sep a) hrest, intercalate_splitOn] at hb
    rw [append_assoc]
    exact hb

/-- The text in front of the first separator and the text behind it. -/
def cut (sep : α) : List α → Option (List α × List α)
  | [] => none
  | x :: l => if x == sep then some ([], l) else (cut sep l).map fun p => (x :: p.1, p.2)

/-- A cut takes nothing from behind a separator. -/
theorem cut_join (sep : α) (a b : List α) : ∃ p m, cut sep (a ++ sep :: b) = some (p, m ++ b) := by
  induction a with
  | nil => exact ⟨[], [], by simp [cut]⟩
  | cons x a ih =>
    obtain ⟨p, m, hcut⟩ := ih
    by_cases hx : x = sep
    · exact ⟨[], a ++ [sep], by simp [cut, hx]⟩
    · exact ⟨x :: p, m, by simp [cut, hx, hcut]⟩

/-- A text with no separator stands whole in front of the first one. -/
theorem cut_of_notMem {a b : List α} (h : sep ∉ a) : cut sep (a ++ sep :: b) = some (a, b) := by
  induction a with
  | nil => simp [cut]
  | cons x a ih =>
    obtain ⟨hx, ha⟩ : sep ≠ x ∧ sep ∉ a := by simpa using h
    simp [cut, ih ha, Ne.symm hx]

end pieces
