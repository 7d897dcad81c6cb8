-- Numbers that are handed out in steps. A counter gives the next numbers of a
-- progression up to a bound, and then ends or starts again at its lower bound.
import Mathlib

namespace progression

open List

/-- The bounds and the step of a counter. -/
structure Counter where
  step : Int
  lo : Int
  hi : Int
  cycles : Bool
  step_pos : 0 < step
  lo_le : lo ≤ hi

/-- `n` numbers from `start` on. -/
def values (step start : Int) (n : Nat) : List Int := (range n).map fun i : Nat => start + (i : Int) * step

theorem values_succ (step start : Int) (n : Nat) :
    values step start (n + 1) = start :: values step (start + step) n := by
  unfold values
  rw [range_succ_eq_map, map_cons, map_map]
  congr 1
  · simp
  · apply map_congr_left
    intro i _
    simp only [Function.comp, Nat.succ_eq_add_one]
    push_cast
    ring

theorem values_concat (step start : Int) (n : Nat) :
    values step start (n + 1) = values step start n ++ [start + n * step] := by
  simp [values, range_succ]

variable (c : Counter)

/-- The number that a request begins with when `next` is due. -/
def Counter.first (next : Int) : Option Int :=
  if next ≤ c.hi then some next else if c.cycles then some c.lo else none

/-- How many numbers a request from `start` on gets. -/
def Counter.granted (start : Int) (count : Nat) : Nat :=
  min count (((c.hi - start) / c.step).toNat + 1)

/-- The first number and the count that each of a row of requests gets. -/
def Counter.draw : Int → List Nat → List (Option (Int × Nat))
  | _, [] => []
  | next, count :: rest =>
    match c.first next with
    | none => none :: Counter.draw next rest
    | some start => some (start, c.granted start count) ::
        Counter.draw (start + c.granted start count * c.step) rest

/-- All numbers that were handed out, in order. -/
def Counter.drawn (results : List (Option (Int × Nat))) : List Int :=
  results.flatMap fun r => r.elim [] fun p => values c.step p.1 p.2

/-- The number that is due after some were handed out. -/
def Counter.due (next : Int) (vs : List Int) : Int :=
  vs.getLast?.elim next fun v => v + c.step

/-- What may come after a number: the next one, or the lower bound when there is no next one. -/
def Counter.Follows (v w : Int) : Prop :=
  (w = v + c.step ∧ w ≤ c.hi) ∨ (c.cycles = true ∧ c.hi < v + c.step ∧ w = c.lo)

variable {c} {next start x : Int} {counts : List Nat}

theorem first_le_hi (h : c.first next = some start) : start ≤ c.hi := by
  unfold Counter.first at h
  split at h
  · rename_i hle
    exact Option.some.inj h ▸ hle
  · split at h
    · exact Option.some.inj h ▸ c.lo_le
    · cases h

theorem first_follows (h : c.first next = some start) : c.Follows (next - c.step) start := by
  unfold Counter.first at h
  split at h
  · rename_i hle
    obtain rfl := Option.some.inj h
    left
    omega
  · rename_i hle
    split at h
    · rename_i hcycles
      obtain rfl := Option.some.inj h
      right
      exact ⟨hcycles, by omega, rfl⟩
    · cases h

variable {i : Nat} {l : List Int}

/-- The last number that is granted is inside the bound. -/
theorem granted_le (hstart : start ≤ c.hi) {count : Nat} (hi : i < c.granted start count) :
    start + i * c.step ≤ c.hi := by
  have hpos := c.step_pos
  have hle : (i : Int) ≤ (c.hi - start) / c.step := by
    have hnonneg : 0 ≤ (c.hi - start) / c.step := Int.ediv_nonneg (by omega) hpos.le
    unfold Counter.granted at hi
    omega
  have hmul := (Int.le_ediv_iff_mul_le hpos).mp hle
  omega

theorem granted_pos {count : Nat} (h : 0 < count) : 0 < c.granted start count := by
  unfold Counter.granted
  omega

/-- The number that is due when everything from `start` up to the bound was handed out. -/
def Counter.limit (c : Counter) (start : Int) : Int :=
  start + ((c.hi - start) / c.step + 1) * c.step

theorem limit_add (k : Int) : c.limit (start + k * c.step) = c.limit start := by
  have hdiv : (c.hi - (start + k * c.step)) / c.step = (c.hi - start) / c.step - k := by
    rw [← sub_sub, Int.sub_mul_ediv_right _ _ c.step_pos.ne']
  unfold Counter.limit
  rw [hdiv]
  ring

/-- No request goes beyond the limit. -/
theorem granted_le_limit (hstart : start ≤ c.hi) (count : Nat) :
    start + c.granted start count * c.step ≤ c.limit start := by
  have hnonneg : 0 ≤ (c.hi - start) / c.step := Int.ediv_nonneg (by omega) c.step_pos.le
  have hle : (c.granted start count : Int) ≤ (c.hi - start) / c.step + 1 := by
    unfold Counter.granted
    omega
  have hmul := Int.mul_le_mul_of_nonneg_right hle c.step_pos.le
  unfold Counter.limit
  omega

theorem values_chain {n : Nat} (hstep : ∀ i < n, start + i * c.step ≤ c.hi)
    (hx : n ≠ 0 → c.Follows x start) : List.IsChain c.Follows (x :: values c.step start n) := by
  induction n generalizing x start with
  | zero => exact .singleton x
  | succ n ih =>
    rw [values_succ, isChain_cons_cons]
    refine ⟨hx (Nat.succ_ne_zero n), ih ?_ ?_⟩
    · intro i hi
      have := hstep (i + 1) (by omega)
      push_cast at this
      linarith
    · intro hn
      left
      have := hstep 1 (by omega)
      push_cast at this
      exact ⟨rfl, by linarith⟩

/-- What is handed out follows one upon the other, from the number that was due. -/
theorem draw_chain (hcounts : ∀ n ∈ counts, 0 < n) :
    List.IsChain c.Follows ((next - c.step) :: c.drawn (c.draw next counts)) := by
  induction counts generalizing next with
  | nil => exact .singleton _
  | cons count rest ih =>
    rw [forall_mem_cons] at hcounts
    unfold Counter.draw
    cases hfirst : c.first next with
    | none => exact ih hcounts.2
    | some start =>
      have hpos : 0 < c.granted start count := granted_pos hcounts.1
      obtain ⟨k, hk⟩ := Nat.exists_eq_succ_of_ne_zero hpos.ne'
      have hwithin := values_chain (n := k + 1) (x := next - c.step)
        (fun i hi => granted_le (first_le_hi hfirst) (hk.symm ▸ hi : i < c.granted start count)) fun _ => first_follows hfirst
      have hrest : List.IsChain c.Follows ((start + c.granted start count * c.step - c.step) ::
          c.drawn (c.draw (start + c.granted start count * c.step) rest)) := ih hcounts.2
      have hlast : start + c.granted start count * c.step - c.step = start + k * c.step := by
        rw [hk]
        push_cast
        ring
      rw [hlast] at hrest
      have hlist : c.drawn (some (start, c.granted start count) ::
          c.draw (start + c.granted start count * c.step) rest) =
          values c.step start k ++ (start + k * c.step) ::
            c.drawn (c.draw (start + c.granted start count * c.step) rest) := by
        simp only [Counter.drawn, flatMap_cons, Option.elim_some]
        rw [hk, Nat.succ_eq_add_one, values_concat, append_assoc]
        rfl
      rw [values_concat] at hwithin
      show List.IsChain c.Follows (_ :: c.drawn _)
      rw [hlist, ← cons_append, isChain_split]
      exact ⟨hwithin, hrest⟩

theorem chain_inRange (h : List.IsChain c.Follows (x :: l)) (hx : c.lo ≤ x + c.step) :
    ∀ w ∈ l, c.lo ≤ w ∧ w ≤ c.hi := by
  induction l generalizing x with
  | nil => simp
  | cons y l ih =>
    rw [isChain_cons_cons] at h
    have hstep := c.step_pos
    have hy : c.lo ≤ y ∧ y ≤ c.hi := by
      have hle := c.lo_le
      rcases h.1 with ⟨rfl, hhi⟩ | ⟨-, -, rfl⟩
      · exact ⟨hx, hhi⟩
      · exact ⟨le_refl _, hle⟩
    rw [forall_mem_cons]
    exact ⟨hy, ih h.2 (by omega)⟩

/-- A counter that does not cycle never gives a number twice. -/
theorem chain_nodup (hcycles : c.cycles = false) (h : List.IsChain c.Follows l) : l.Nodup := by
  have hlt : List.IsChain (· < ·) l := by
    refine h.imp fun v w hvw => ?_
    have hstep := c.step_pos
    rcases hvw with ⟨rfl, -⟩ | ⟨hc, -⟩
    · omega
    · rw [hcycles] at hc
      cases hc
  exact (isChain_iff_pairwise.mp hlt).imp fun hvw => hvw.ne

/-- Between two places of a chain the counter starts again, or the numbers only grow. -/
theorem chain_grows (h : List.IsChain c.Follows l) {n : Nat} {v w : Int} (hv : l[i]? = some v)
    (hw : l[i + n]? = some w) :
    (∃ k u, i < k ∧ k ≤ i + n ∧ l[k - 1]? = some u ∧ c.hi < u + c.step ∧ l[k]? = some c.lo) ∨
      w = v + n * c.step := by
  induction n generalizing w with
  | zero =>
    right
    rw [Nat.add_zero, hv] at hw
    simp [Option.some.inj hw]
  | succ n ih =>
    obtain ⟨hlt, rfl⟩ := List.getElem?_eq_some_iff.mp hw
    have hn : i + n < l.length := by omega
    rcases ih (getElem?_eq_getElem hn) with ⟨k, u, hik, hkn, hu⟩ | hgrow
    · exact .inl ⟨k, u, hik, by omega, hu⟩
    · have hnext := isChain_iff_getElem.mp h (i + n) hlt
      rcases hnext with ⟨hstep, -⟩ | ⟨-, hend, hlo⟩
      · right
        have hsame : l[i + (n + 1)] = l[i + n + 1] := rfl
        rw [hsame, hstep, hgrow]
        push_cast
        ring
      · left
        refine ⟨i + n + 1, l[i + n], by omega, by omega, ?_, hend, ?_⟩
        · exact getElem?_eq_getElem hn
        · exact (getElem?_eq_getElem hlt).trans (congrArg some hlo)

/-- A number that comes twice has a new start at the lower bound in between. -/
theorem chain_restarts (h : List.IsChain c.Follows l) {j : Nat} {v : Int} (hij : i < j)
    (hi : l[i]? = some v) (hj : l[j]? = some v) :
    ∃ k u, i < k ∧ k ≤ j ∧ l[k - 1]? = some u ∧ c.hi < u + c.step ∧ l[k]? = some c.lo := by
  obtain ⟨n, rfl⟩ := Nat.exists_eq_add_of_lt hij
  rcases chain_grows (n := n + 1) h hi hj with hrestart | hgrow
  · exact hrestart
  · have hstep := c.step_pos
    have hpos : 0 < ((n + 1 : Nat) : Int) * c.step := by positivity
    omega

/-- A request gets nothing exactly when no number can come after those before it. -/
theorem draw_exhausted (hcounts : ∀ n ∈ counts, 0 < n) {before after : List (Option (Int × Nat))}
    {r : Option (Int × Nat)} (h : c.draw next counts = before ++ r :: after) :
    r = none ↔ c.first (c.due next (c.drawn before)) = none := by
  induction counts generalizing next before with
  | nil => simp [Counter.draw] at h
  | cons count rest ih =>
    rw [forall_mem_cons] at hcounts
    unfold Counter.draw at h
    cases before with
    | nil =>
      have hdue : c.due next (c.drawn []) = next := rfl
      rw [hdue]
      cases hfirst : c.first next with
      | none | some start =>
        rw [hfirst] at h
        simp only [nil_append, List.cons.injEq] at h
        simp [← h.1]
    | cons b before =>
      cases hfirst : c.first next with
      | none =>
        rw [hfirst] at h
        simp only [cons_append, List.cons.injEq] at h
        obtain ⟨rfl, h⟩ := h
        have hdrawn : c.drawn (none :: before) = c.drawn before := rfl
        rw [hdrawn]
        exact ih hcounts.2 h
      | some start =>
        rw [hfirst] at h
        simp only [cons_append, List.cons.injEq] at h
        obtain ⟨rfl, h⟩ := h
        have hpos : 0 < c.granted start count := granted_pos hcounts.1
        obtain ⟨k, hk⟩ := Nat.exists_eq_succ_of_ne_zero hpos.ne'
        have hdrawn : c.drawn (some (start, c.granted start count) :: before) =
            values c.step start (c.granted start count) ++ c.drawn before := by
          simp [Counter.drawn]
        have hdue : c.due next (values c.step start (c.granted start count) ++ c.drawn before) =
            c.due (start + c.granted start count * c.step) (c.drawn before) := by
          unfold Counter.due
          rw [getLast?_append, hk, Nat.succ_eq_add_one, values_concat,
            getLast?_concat]
          cases (c.drawn before).getLast? with
          | none =>
            simp only [Option.none_or, Option.elim_some, Option.elim_none]
            push_cast
            ring
          | some v => rfl
        rw [hdrawn, hdue]
        exact ih hcounts.2 h

end progression
