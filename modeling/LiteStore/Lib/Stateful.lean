-- Steps that change a state and may fail half-way: a failed step keeps the changes that it
-- made before it failed.
import Mathlib.Data.List.Basic

namespace stateful

universe u v

variable {ε σ α β : Type u} {ι : Type v} {x : EStateM ε σ α} {f : α → EStateM ε σ β} {s s' : σ}

/-! ## Steps that succeed -/

/-- A computation that does not touch the state. -/
def lift (x : Except ε α) : EStateM ε σ α := fun s =>
  match x with
  | .ok a => .ok a s
  | .error e => .error e s

theorem bind_eq_ok {b : β} : (x >>= f) s = .ok b s' ↔ ∃ a m, x s = .ok a m ∧ f a m = .ok b s' := by
  show EStateM.bind x f s = .ok b s' ↔ _
  unfold EStateM.bind
  cases x s <;> simp

@[simp] theorem lift_eq_ok {x : Except ε α} {a : α} :
    (lift x : EStateM ε σ α) s = .ok a s' ↔ x = .ok a ∧ s = s' := by
  unfold lift
  cases x <;> simp

@[simp] theorem pure_eq_ok {a b : α} : (pure a : EStateM ε σ α) s = .ok b s' ↔ a = b ∧ s = s' := by
  show EStateM.Result.ok a s = .ok b s' ↔ _
  simp

@[simp] theorem get_eq_ok {a : σ} : (get : EStateM ε σ σ) s = .ok a s' ↔ s = a ∧ s = s' := by
  show EStateM.Result.ok s s = .ok a s' ↔ _
  simp

@[simp] theorem modify_eq_ok {f : σ → σ} {a : PUnit} :
    (modify f : EStateM ε σ PUnit) s = .ok a s' ↔ f s = s' := by
  show EStateM.Result.ok PUnit.unit (f s) = .ok a s' ↔ _
  simp

/-- A step with another error text. -/
def withError (f : ε → ε) (x : EStateM ε σ α) : EStateM ε σ α := fun s =>
  match x s with
  | .ok a s' => .ok a s'
  | .error e s' => .error (f e) s'

@[simp] theorem withError_eq_ok {f : ε → ε} {a : α} :
    withError f x s = .ok a s' ↔ x s = .ok a s' := by
  unfold withError
  cases x s <;> simp

/-! ## Steps one after the other -/

theorem bind_of_ok {m : σ} {a : α} (h : x s = .ok a m) : (x >>= f) s = f a m := by
  show EStateM.bind x f s = f a m
  rw [EStateM.bind, h]

theorem bind_of_error {m : σ} {e : ε} (h : x s = .error e m) : (x >>= f) s = .error e m := by
  show EStateM.bind x f s = .error e m
  rw [EStateM.bind, h]

@[simp] theorem lift_ok (a : α) (s : σ) : (lift (.ok a) : EStateM ε σ α) s = .ok a s := rfl

@[simp] theorem lift_error (e : ε) (s : σ) : (lift (.error e) : EStateM ε σ α) s = .error e s :=
  rfl

theorem withError_of_error {f : ε → ε} {m : σ} {e : ε} (h : x s = .error e m) :
    withError f x s = .error (f e) m := by
  unfold withError
  rw [h]

/-! ## The state after a step -/

def stateOf : EStateM.Result ε σ α → σ
  | .ok _ s => s
  | .error _ s => s

/-- The result of a step that succeeds. -/
def valueOf : EStateM.Result ε σ α → Option α
  | .ok a _ => some a
  | .error _ _ => none

theorem eq_ok_of_valueOf {r : EStateM.Result ε σ α} {a : α} (h : valueOf r = some a) :
    r = .ok a (stateOf r) := by
  cases r with
  | ok b s =>
    simp only [valueOf, Option.some.injEq] at h
    rw [h]
    rfl
  | error e s => simp [valueOf] at h

/-- The error of a step that fails. -/
def errorOf : EStateM.Result ε σ α → Option ε
  | .ok _ _ => none
  | .error e _ => some e

theorem eq_error_of_errorOf {r : EStateM.Result ε σ α} {e : ε} (h : errorOf r = some e) :
    r = .error e (stateOf r) := by
  cases r with
  | ok b s => cases h
  | error e' s =>
    cases h
    rfl

end stateful
