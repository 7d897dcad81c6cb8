-- Systems that take one labelled step after another. A label that is not
-- enabled ends the run.
import Mathlib.Data.List.Basic

namespace transitions

variable {σ τ : Type*} (step : σ → τ → Option σ)

/-- The state after a list of steps. -/
def run : σ → List τ → Option σ
  | s, [] => some s
  | s, x :: rest => (step s x).bind fun t => run t rest

/-- A property holds in the first state and in every state that is reached. -/
def Along (P : σ → Prop) : σ → List τ → Prop
  | s, [] => P s
  | s, x :: rest => P s ∧ ∀ t, step s x = some t → Along P t rest

/-- Every step that is taken meets a condition on the state before it. -/
def Meets (C : σ → τ → Prop) : σ → List τ → Prop
  | _, [] => True
  | s, x :: rest => ∀ t, step s x = some t → C s x ∧ Meets C t rest

variable {step} {I P : σ → Prop} {C : σ → τ → Prop}

theorem Meets.cons {s t : σ} {x : τ} {xs : List τ} (hstep : step s x = some t) (hC : C s x)
    (h : Meets step C t xs) : Meets step C s (x :: xs) := by
  intro u hu
  obtain rfl := Option.some.inj (hstep.symm.trans hu)
  exact ⟨hC, h⟩

theorem Along.last {s t : σ} {xs : List τ} (h : Along step P s xs) (hrun : run step s xs = some t) :
    P t := by
  induction xs generalizing s with
  | nil =>
    cases hrun
    exact h
  | cons x rest ih =>
    obtain ⟨next, hnext, hrest⟩ := Option.bind_eq_some_iff.mp hrun
    exact ih (h.2 next hnext) hrest

theorem along_of_inv (hinv : ∀ s x t, I s → step s x = some t → I t) {s : σ} {xs : List τ}
    (hs : I s) : Along step I s xs := by
  induction xs generalizing s with
  | nil => exact hs
  | cons x rest ih => exact ⟨hs, fun t ht => ih (hinv s x t hs ht)⟩

theorem Along.imp {s : σ} {xs : List τ} (h : Along step I s xs) (hP : ∀ s, I s → P s) :
    Along step P s xs := by
  induction xs generalizing s with
  | nil => exact hP s h
  | cons x rest ih => exact ⟨hP s h.1, fun t ht => ih (h.2 t ht)⟩

/-- Where a condition on the steps keeps an invariant, the invariant's consequences hold all along a
run whose steps meet the condition. -/
theorem along_of_meets (hinv : ∀ s x t, I s → C s x → step s x = some t → I t)
    (hP : ∀ s, I s → P s) {s : σ} {xs : List τ} (hs : I s) (h : Meets step C s xs) :
    Along step P s xs := by
  induction xs generalizing s with
  | nil => exact hP s hs
  | cons x rest ih =>
    refine ⟨hP s hs, fun t ht => ?_⟩
    obtain ⟨hcondition, hrest⟩ := h t ht
    exact ih (hinv s x t hs hcondition ht) hrest

/-- Where a property is lost exactly by the steps that miss a condition, it holds all along a run
exactly if all steps meet the condition. The invariant may be used for the single step. -/
theorem along_iff_meets (hinv : ∀ s x t, I s → step s x = some t → I t)
    (hlocal : ∀ s x t, I s → P s → step s x = some t → (P t ↔ C s x)) {s : σ} {xs : List τ}
    (hs : I s) (hp : P s) : Along step P s xs ↔ Meets step C s xs := by
  constructor
  · intro h
    induction xs generalizing s with
    | nil => trivial
    | cons x rest ih =>
      intro t ht
      have hrest := h.2 t ht
      have hnext : P t := by
        cases rest with
        | nil => exact hrest
        | cons y ys => exact hrest.1
      exact ⟨(hlocal s x t hs hp ht).mp hnext, ih (hinv s x t hs ht) hnext hrest⟩
  · refine along_of_meets ?_ (fun s (h : I s ∧ P s) => h.2) ⟨hs, hp⟩
    exact fun s x t h hcondition ht =>
      ⟨hinv s x t h.1 ht, (hlocal s x t h.1 h.2 ht).mpr hcondition⟩

end transitions
