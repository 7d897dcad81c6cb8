-- A text cut into statements at the separators that a reader finds while it goes
-- over the text once. Two readers find the same statements exactly when they cut
-- at the same places, although blank statements are dropped and others trimmed.
import Mathlib

namespace separators

open List

variable {α σ τ : Type*} (blank : α → Bool)

/-- A text without the blanks at its ends. -/
def trim (x : List α) : List α := (x.dropWhile blank).rdropWhile blank

/-- One statement, if it is not blank. -/
def keep (x : List α) : List (List α) := if trim blank x = [] then [] else [trim blank x]

/-- A reader goes from state to state and says at which elements it cuts. -/
structure Reader (α σ : Type*) where
  step : σ → α → σ
  cuts : σ → α → Bool

namespace Reader

/-- The state behind a text. -/
def after (R : Reader α σ) (s : σ) (x : List α) : σ := x.foldl R.step s

/-- The statements of a text, the first one begun with `piece`. -/
def statements (R : Reader α σ) : σ → List α → List α → List (List α)
  | _, piece, [] => keep blank piece
  | s, piece, c :: x =>
    if R.cuts s c then keep blank piece ++ statements R (R.step s c) [] x
    else statements R (R.step s c) (piece ++ [c]) x

/-- Where the reader cuts. -/
def places (R : Reader α σ) : σ → List α → List Bool
  | _, [] => []
  | s, c :: x => R.cuts s c :: places R (R.step s c) x

end Reader

/-! ## Trimmed texts -/

variable {blank} {x w : List α} {c : α}

/-- What holds at each place of a text, by the number of elements before it. -/
theorem forall_split {P : List α → α → Prop}
    (h : ∀ n < x.length, ∀ c ∈ x[n]?, P (x.take n) c) : ∀ y c z, x = y ++ c :: z → P y c := by
  rintro y c z rfl
  simpa using h y.length (by simp) c (by simp)

theorem trim_eq_nil_iff : trim blank x = [] ↔ ∀ d ∈ x, blank d = true := by
  unfold trim
  rw [rdropWhile_eq_nil_iff]
  constructor
  · intro h d hd
    by_contra hblank
    have hdrop : x.dropWhile blank ≠ [] := fun h => hblank (dropWhile_eq_nil_iff.mp h d hd)
    have hhead := h _ (head_mem hdrop)
    rw [head_dropWhile_not blank hdrop] at hhead
    cases hhead
  · intro h d hd
    exact h d (dropWhile_subset blank hd)

theorem trim_eq_nil_of_append (h : trim blank (x ++ w) = []) : trim blank x = [] :=
  trim_eq_nil_iff.mpr fun d hd => trim_eq_nil_iff.mp h d (mem_append_left _ hd)

theorem length_rdropWhile_append (hc : blank c = false) (d : List α) :
    d.length < ((d ++ c :: w).rdropWhile blank).length := by
  induction w using reverseRecOn with
  | nil =>
    rw [rdropWhile_concat_neg _ _ _ (by simp [hc]), length_append]
    exact Nat.lt_succ_self _
  | append_singleton w e ih =>
    rw [← cons_append, ← append_assoc, rdropWhile_concat]
    split
    · exact ih
    · simp only [length_append, length_cons]
      omega

/-- A text that is not blank becomes another one when more follows. -/
theorem trim_append_ne (hx : trim blank x ≠ []) (hc : blank c = false) :
    trim blank x ≠ trim blank (x ++ c :: w) := by
  have hdrop : x.dropWhile blank ≠ [] := by
    intro h
    rw [trim, h] at hx
    exact hx rfl
  have hempty : (x.dropWhile blank).isEmpty = false := by simpa using hdrop
  have hlong : (trim blank x).length < (trim blank (x ++ c :: w)).length := by
    unfold trim
    rw [dropWhile_append, hempty, if_neg Bool.false_ne_true]
    exact (List.rdropWhile_prefix blank _).length_le.trans_lt (length_rdropWhile_append hc _)
  exact fun h => hlong.ne (congrArg List.length h)

/-! ## Statements and places -/

namespace Reader

variable {R : Reader α σ} {Q : Reader α τ} {s : σ} {t : τ} {piece : List α}

theorem places_append (x y : List α) :
    R.places s (x ++ y) = R.places s x ++ R.places (R.after s x) y := by
  induction x generalizing s with
  | nil => rfl
  | cons c x ih => exact congrArg _ ih

theorem keep_of_ne (h : trim blank x ≠ []) : keep blank x = [trim blank x] := if_neg h

/-- The first statement goes on from the piece that was begun. -/
theorem head_statements (h : trim blank piece ≠ []) :
    ∃ w rest, R.statements blank s piece x = trim blank (piece ++ w) :: rest := by
  induction x generalizing s piece with
  | nil => exact ⟨[], [], by rw [append_nil, statements, keep_of_ne h]⟩
  | cons c x ih =>
    rw [statements]
    split
    · exact ⟨[], _, by rw [append_nil, keep_of_ne h]; rfl⟩
    · obtain ⟨w, rest, hw⟩ := ih (mt trim_eq_nil_of_append h)
      exact ⟨c :: w, rest, by rw [hw, append_assoc]; rfl⟩

/-- What two readers must have in common: a fresh state on each side, in which both stay over
blanks and to which both come behind a cut, and which cuts at the same elements; and no blank is
cut at. -/
structure Related (blank : α → Bool) (R : Reader α σ) (Q : Reader α τ) (s₀ : σ) (t₀ : τ) :
    Prop where
  solid : ∀ s t c, R.cuts s c = true ∨ Q.cuts t c = true → blank c = false
  blanks : ∀ c, blank c = true → R.step s₀ c = s₀ ∧ Q.step t₀ c = t₀
  anew : ∀ s t c, (R.cuts s c = true → R.step s c = s₀) ∧ (Q.cuts t c = true → Q.step t c = t₀)
  fresh : ∀ c, R.cuts s₀ c = Q.cuts t₀ c

variable {s₀ : σ} {t₀ : τ}

/-- One reader cuts where the other goes on: the statements differ. -/
theorem statements_ne_of_cut (h : trim blank piece ≠ []) (hc : blank c = false)
    (rest : List (List α)) (s : σ) :
    keep blank piece ++ rest ≠ R.statements blank s (piece ++ [c]) x := by
  obtain ⟨w, rest', hw⟩ := head_statements (x := x) (R := R) (s := s)
    (mt (trim_eq_nil_of_append (w := [c])) h)
  rw [keep_of_ne h, hw, append_assoc]
  intro heq
  exact trim_append_ne h hc (List.cons.inj heq).1

theorem places_of_statements (h : Related blank R Q s₀ t₀)
    (hpiece : trim blank piece = [] → s = s₀ ∧ t = t₀)
    (heq : R.statements blank s piece x = Q.statements blank t piece x) :
    R.places s x = Q.places t x := by
  induction x generalizing s t piece with
  | nil => rfl
  | cons c x ih =>
    rw [statements, statements] at heq
    rw [places, places]
    -- a piece that is blank so far leaves both readers fresh, and they agree on the cut
    have hsame : trim blank piece = [] → R.cuts s c = Q.cuts t c := by
      intro hblank
      obtain ⟨rfl, rfl⟩ := hpiece hblank
      exact h.fresh c
    cases hR : R.cuts s c with
    | true =>
      have hsolid := h.solid s t c (.inl hR)
      cases hQ : Q.cuts t c with
      | true =>
        rw [hR, hQ, if_pos rfl, if_pos rfl, append_cancel_left_eq] at heq
        rw [ih (fun _ => ⟨(h.anew s t c).1 hR, (h.anew s t c).2 hQ⟩) heq]
      | false =>
        rw [hR, hQ, if_pos rfl, if_neg Bool.false_ne_true] at heq
        exact absurd heq (statements_ne_of_cut (mt hsame (by simp [hR, hQ])) hsolid _ _)
    | false =>
      cases hQ : Q.cuts t c with
      | true =>
        rw [hR, hQ, if_neg Bool.false_ne_true, if_pos rfl] at heq
        have hsolid := h.solid s t c (.inr hQ)
        exact absurd heq.symm (statements_ne_of_cut (mt hsame (by simp [hR, hQ])) hsolid _ _)
      | false =>
        rw [hR, hQ, if_neg Bool.false_ne_true, if_neg Bool.false_ne_true] at heq
        rw [ih _ heq]
        intro hblank
        obtain ⟨rfl, rfl⟩ := hpiece (trim_eq_nil_of_append hblank)
        exact h.blanks c (trim_eq_nil_iff.mp hblank c (by simp))

theorem statements_of_places (piece : List α) (s : σ) (t : τ)
    (heq : R.places s x = Q.places t x) :
    R.statements blank s piece x = Q.statements blank t piece x := by
  induction x generalizing s t piece with
  | nil => rfl
  | cons c x ih =>
    rw [places, places, List.cons.injEq] at heq
    rw [statements, statements, heq.1, ih [] _ _ heq.2, ih (piece ++ [c]) _ _ heq.2]

/-- The statements are the same exactly when the cuts are. -/
theorem statements_eq_iff (h : Related blank R Q s₀ t₀) :
    R.statements blank s₀ [] x = Q.statements blank t₀ [] x ↔ R.places s₀ x = Q.places t₀ x :=
  ⟨places_of_statements h fun _ => ⟨rfl, rfl⟩, statements_of_places [] s₀ t₀⟩

end Reader

end separators
