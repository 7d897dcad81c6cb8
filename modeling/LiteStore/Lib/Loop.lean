-- Loops whose body may return in the middle: the rule for an invariant, and the rule that says
-- how a loop can end when some measure falls with every turn.
import Mathlib.Data.Nat.Basic

namespace loop

variable {σ : Type*}

/-- How a turn of a loop ends: the loop goes on, or the function returns. -/
inductive Flow (σ : Type*)
  | next (s : σ)
  | ret (s : σ)

def Flow.state : Flow σ → σ
  | .next s => s
  | .ret s => s

/-- `while (cond) body`, for at most so many turns. -/
def whileLoop (cond : σ → Bool) (body : σ → Flow σ) : Nat → σ → σ
  | 0, s => s
  | n + 1, s =>
    if cond s then
      match body s with
      | .next t => whileLoop cond body n t
      | .ret t => t
    else s

variable {cond : σ → Bool} {body : σ → Flow σ} {I : σ → Prop}

theorem whileLoop_keeps (hbody : ∀ s, cond s = true → I s → I (body s).state) {n : Nat} {s : σ}
    (h : I s) : I (whileLoop cond body n s) := by
  induction n generalizing s with
  | zero => exact h
  | succ n ih =>
    unfold whileLoop
    split
    · rename_i hcond
      have hnext := hbody s hcond h
      cases hturn : body s with
      | next t =>
        rw [hturn] at hnext
        exact ih hnext
      | ret t =>
        rw [hturn] at hnext
        exact hnext
    · exact h

/-- With a measure that falls, enough turns end the loop: the condition is false, or some turn
has returned. -/
theorem whileLoop_ends (m : σ → Nat)
    (hbody : ∀ s, cond s = true → I s → I (body s).state)
    (hfalls : ∀ s t, cond s = true → I s → body s = .next t → m t < m s)
    {n : Nat} {s : σ} (h : I s) (hn : m s < n) :
    cond (whileLoop cond body n s) = false ∨
      ∃ u, I u ∧ cond u = true ∧ body u = .ret (whileLoop cond body n s) := by
  induction n generalizing s with
  | zero => omega
  | succ n ih =>
    unfold whileLoop
    split_ifs with hcond
    · have hnext := hbody s hcond h
      cases hturn : body s with
      | next t =>
        rw [hturn] at hnext
        exact ih hnext (by have := hfalls s t hcond h hturn; omega)
      | ret t => exact .inr ⟨s, h, hcond, hturn⟩
    · exact .inl (by simpa using hcond)

end loop
