-- Entries of a map that are put in the place of others, and the way back.
import LiteStore.Lib.Checked

namespace exchange

open Std (ExtTreeMap)
open checked

variable {K V : Type*} {cmp : K → K → Ordering} [Std.TransCmp cmp] [Std.LawfulEqCmp cmp]

/-- Some entries stand in a map, and the keys that only others have are free. -/
def Stands (m here away : ExtTreeMap K V cmp) : Prop :=
  (∀ (k : K) (v : V), here[k]? = some v → m[k]? = some v) ∧
  ∀ k : K, here[k]? = none → away[k]? ≠ none → m[k]? = none

/-- The map after the keys of `out` are erased and `new` is put. -/
def swap (m : ExtTreeMap K V cmp) (out new : List (K × V)) : ExtTreeMap K V cmp :=
  putAll (eraseAll m (out.map Prod.fst)) new

theorem swap_getElem? [DecidableEq K] (m : ExtTreeMap K V cmp) (out new : List (K × V))
    (k : K) : (swap m out new)[k]? = ((putAll (∅ : ExtTreeMap K V cmp) new)[k]?).or
      (if (putAll (∅ : ExtTreeMap K V cmp) out)[k]? = none then m[k]? else none) := by
  unfold swap
  rw [putAll_getElem?, eraseAll_getElem?]
  by_cases hk : k ∈ out.map Prod.fst
  · rw [if_pos hk, if_neg (fun h => putAll_empty_eq_none.mp h hk)]
  · rw [if_neg hk, if_pos (putAll_empty_eq_none.mpr hk)]

theorem stands_of_swap {m before : ExtTreeMap K V cmp} {out new : List (K × V)}
    (h : swap before out new = m) : Stands m (putAll ∅ new) (putAll ∅ out) := by
  classical
  constructor
  · intro k v hv
    rw [← h, swap_getElem?, hv, Option.some_or]
  · intro k hnew hout
    rw [← h, swap_getElem?, hnew, if_neg hout, Option.none_or]

/-- An exchange that changes nothing. -/
theorem swap_eq_self_iff (m : ExtTreeMap K V cmp) (out new : List (K × V)) :
    swap m out new = m ↔ Stands m (putAll ∅ new) (putAll ∅ out) := by
  classical
  constructor
  · exact stands_of_swap
  · rintro ⟨hstand, hfree⟩
    apply ExtTreeMap.ext_getElem?
    intro k
    rw [swap_getElem?]
    cases hnew : (putAll (∅ : ExtTreeMap K V cmp) new)[k]? with
    | some v => rw [Option.some_or, hstand k v hnew]
    | none =>
      rw [Option.none_or]
      split
      · rfl
      · rename_i hout
        exact (hfree k hnew hout).symm

/-- The way back gives the map from before the exchange exactly if the entries that were taken
out stood there, and those that were put in took free places. -/
theorem swap_back_iff (m : ExtTreeMap K V cmp) (out new : List (K × V)) :
    swap (swap m out new) new out = m ↔ Stands m (putAll ∅ out) (putAll ∅ new) := by
  classical
  constructor
  · exact stands_of_swap
  · rintro ⟨hstand, hfree⟩
    apply ExtTreeMap.ext_getElem?
    intro k
    rw [swap_getElem?, swap_getElem?]
    cases hout : (putAll (∅ : ExtTreeMap K V cmp) out)[k]? with
    | some v => rw [Option.some_or, hstand k v hout]
    | none =>
      rw [Option.none_or]
      split
      · rename_i hnew
        rw [hnew, Option.none_or, if_pos rfl]
      · rename_i hnew
        exact (hfree k hout hnew).symm

end exchange
