-- Write batches on an ordered map. A batch is a list of puts and deletes that
-- are done in order; the last one that names a key decides what stands there.
import LiteStore.Lib.Checked

namespace batch

open checked

/-- One operation of a batch. -/
inductive Op (K V : Type*)
  | put (key : K) (value : V)
  | delete (key : K)
deriving DecidableEq

variable {K K' V : Type*} {cmp : K → K → Ordering} {m : Std.ExtTreeMap K V cmp}
  {ops : List (Op K V)}

def Op.key : Op K V → K
  | .put k _ => k
  | .delete k => k

/-- What the operation leaves under its key. -/
def Op.result : Op K V → Option V
  | .put _ v => some v
  | .delete _ => none

/-- The same operation under another key. -/
def Op.mapKey (f : K → K') : Op K V → Op K' V
  | .put k v => .put (f k) v
  | .delete k => .delete (f k)

@[simp] theorem Op.key_mapKey (f : K → K') (o : Op K V) : (o.mapKey f).key = f o.key := by
  cases o <;> rfl

@[simp] theorem Op.result_mapKey (f : K → K') (o : Op K V) :
    (o.mapKey f).result = o.result := by
  cases o <;> rfl

section Maps

variable [Std.TransCmp cmp]

section

variable (m : Std.ExtTreeMap K V cmp)

/-- One operation on a map. -/
def applyOp : Op K V → Std.ExtTreeMap K V cmp
  | .put k v => m.insert k v
  | .delete k => m.erase k

/-- A whole batch on a map. -/
def apply (ops : List (Op K V)) : Std.ExtTreeMap K V cmp :=
  ops.foldl applyOp m

@[simp] theorem apply_nil : apply m [] = m := rfl

@[simp] theorem apply_cons (o : Op K V) (ops : List (Op K V)) :
    apply m (o :: ops) = apply (applyOp m o) ops := rfl

theorem apply_append (ops ops' : List (Op K V)) :
    apply m (ops ++ ops') = apply (apply m ops) ops' := List.foldl_append

/-- A batch of deletes alone. -/
theorem apply_deletes (ks : List K) : apply m (ks.map Op.delete) = eraseAll m ks := by
  unfold apply eraseAll
  rw [List.foldl_map]
  rfl

end

variable [Std.LawfulEqCmp cmp]

theorem applyOp_getElem? [DecidableEq K] (m : Std.ExtTreeMap K V cmp) (o : Op K V) (k : K) :
    (applyOp m o)[k]? = if o.key = k then o.result else m[k]? := by
  cases o with
  | put key value => exact getElem?_insert_eq m key k value
  | delete key => exact getElem?_erase_eq m key k

/-- A key that no operation names keeps its value. -/
theorem apply_of_notMem {k : K} (h : k ∉ ops.map Op.key) : (apply m ops)[k]? = m[k]? := by
  classical
  induction ops generalizing m with
  | nil => rfl
  | cons o ops ih =>
    simp only [List.map_cons, List.mem_cons, not_or] at h
    rw [apply_cons, ih h.2, applyOp_getElem?, if_neg (Ne.symm h.1)]

/-- What stands under a key that the batch names does not depend on the map. -/
theorem apply_congr {m' : Std.ExtTreeMap K V cmp} {k : K}
    (h : k ∈ ops.map Op.key ∨ m[k]? = m'[k]?) : (apply m ops)[k]? = (apply m' ops)[k]? := by
  classical
  induction ops generalizing m m' with
  | nil =>
    rcases h with h | h
    · simp at h
    · exact h
  | cons o ops ih =>
    rw [apply_cons, apply_cons]
    apply ih
    by_cases hk : o.key = k
    · right
      rw [applyOp_getElem?, applyOp_getElem?, if_pos hk, if_pos hk]
    · rw [applyOp_getElem?, applyOp_getElem?, if_neg hk, if_neg hk]
      rcases h with h | h
      · left
        rcases List.mem_cons.mp h with h | h
        · exact absurd h.symm hk
        · exact h
      · exact .inr h

/-- A value that stands after a batch was put by it or stood before. -/
theorem mem_of_apply {k : K} {v : V} (h : (apply m ops)[k]? = some v) :
    .put k v ∈ ops ∨ m[k]? = some v := by
  classical
  induction ops generalizing m with
  | nil => exact .inr h
  | cons o ops ih =>
    rw [apply_cons] at h
    rcases ih h with hput | hold
    · exact .inl (List.mem_cons_of_mem _ hput)
    · rw [applyOp_getElem?] at hold
      by_cases hk : o.key = k
      · rw [if_pos hk] at hold
        cases o with
        | put key value =>
          simp only [Op.key, Op.result, Option.some.injEq] at hk hold
          subst hk hold
          exact .inl List.mem_cons_self
        | delete key => simp [Op.result] at hold
      · rw [if_neg hk] at hold
        exact .inr hold

end Maps

end batch
